/-
The clock of lab8 leaves one of its frames empty: it goes round `K` frames as
the clock of lab9 does when it is given `K` of them, but it does so for a cache
of `K + 1` pages.  The two have the same hits while no frame is missed.
-/
import PintosLabs.SameHits

namespace PintosLabs

namespace Replacement

open PageReplacement

/-- The frame of lab8 for a slot of lab9. -/
def frame (slot : Int × Int) : ClockStru := ⟨1, slot.2.toNat, slot.1⟩

/-- The slots of lab9 that are in use. -/
def used (st : PageReplacement.ClockState) : List (Int × Int) :=
  st.vec.tail.filter fun slot => 0 ≤ slot.1

theorem used_eq {st : PageReplacement.ClockState} {slots : List (Int × Int)} {K m : Nat}
    (hlayout : st.Layout slots m) (hpages : st.Pages K slots) : used st = slots := by
  have hnonneg : ∀ slot ∈ slots, 0 ≤ slot.1 := by
    intro slot hslot
    refine hpages.nonneg _ ?_
    rw [hpages.eleSet_eq, List.mem_toFinset]
    exact List.mem_map_of_mem hslot
  rw [used, hlayout, List.tail_cons, List.filter_append, List.filter_eq_self.mpr
    (fun slot h => decide_eq_true (hnonneg slot h)), List.filter_replicate,
    if_neg (by decide), List.append_nil]

/-- Every slot has its chance or has lost it. -/
def Chances (slots : List (Int × Int)) : Prop := ∀ slot ∈ slots, slot.2 = 0 ∨ slot.2 = 1

theorem Chances.set {slots : List (Int × Int)} (h : Chances slots) (i : Nat) (page : Int)
    {chance : Int} (hchance : chance = 0 ∨ chance = 1) :
    Chances (slots.set i (page, chance)) := by
  intro slot hslot
  rcases List.mem_or_eq_of_mem_set hslot with hslot | rfl
  · exact h slot hslot
  · exact hchance

/-- The frames of lab8 and the slots of lab9 are the same; the hands agree once
all frames are filled. -/
structure Frames (K : Nat) (st : ClockState) (hand : Nat) (slots : List (Int × Int)) :
    Prop where
  clockCache_eq : st.clockCache = slots.map frame
  chances : Chances slots
  hand_eq : slots.length = K → st.hand = some (hand - 1)

theorem frame_set {slots : List (Int × Int)} {i : Nat} {page : Int} {chance : Int} :
    (slots.set i (page, chance)).map frame =
      (slots.map frame).set i ⟨1, chance.toNat, page⟩ := List.map_set

theorem sweep_length (n hand : Nat) (slots : List (Int × Int)) :
    (sweep n hand slots).1.length = slots.length := by
  induction n generalizing hand slots with
  | zero => rfl
  | succ n ih =>
      rw [sweep]
      split
      · rfl
      · split
        · rfl
        · rw [ih, List.length_set]

theorem sweep_chances {slots : List (Int × Int)} (h : Chances slots) (n hand : Nat) :
    Chances (sweep n hand slots).1 := by
  induction n generalizing hand slots with
  | zero => exact h
  | succ n ih =>
      rw [sweep]
      split
      · exact h
      · split
        · exact h
        · exact ih (h.set hand _ (Or.inl rfl)) _

/-- Fuel beyond what the loop needs changes nothing. -/
theorem sweep_fuel {n n' hand : Nat} {slots : List (Int × Int)}
    (hlt : hand < slots.length)
    (hfuel : slots.countP (fun slot => slot.2 ≠ 0) < n)
    (hfuel' : slots.countP (fun slot => slot.2 ≠ 0) < n') :
    sweep n hand slots = sweep n' hand slots := by
  induction n generalizing n' hand slots with
  | zero => exact absurd hfuel (Nat.not_lt_zero _)
  | succ n ih =>
      obtain ⟨n', rfl⟩ : ∃ k, n' = k + 1 := ⟨n' - 1, by omega⟩
      rw [sweep_cons hlt, sweep_cons hlt]
      by_cases hover : slots[hand].2 = 0
      · rw [if_pos hover, if_pos hover]
      · rw [if_neg hover, if_neg hover]
        refine ih ?_ (countP_take hlt hover hfuel) (countP_take hlt hover hfuel')
        rw [List.length_set]
        split <;> omega

/-- The loop of lab8 passes the slots that the clock of lab9 passes. -/
theorem victumLoop_eq {n hand : Nat} {page : Int} {st : ClockState}
    {slots : List (Int × Int)} (hcache : st.clockCache = slots.map frame)
    (hhand : st.hand = some hand) (hlt : hand < slots.length) (hchances : Chances slots)
    (hfuel : slots.countP (fun slot => slot.2 ≠ 0) < n) :
    victumLoop page n st = some
      { st with
        clockCache :=
          ((sweep n hand slots).1.set (sweep n hand slots).2 (page, 1)).map frame
        hand := some (if (sweep n hand slots).2 + 1 < slots.length then
          (sweep n hand slots).2 + 1 else 0) } := by
  induction n generalizing st hand slots with
  | zero => exact absurd hfuel (Nat.not_lt_zero _)
  | succ n ih =>
      have hstru : st.clockCache[hand]? = some (frame slots[hand]) := by
        rw [hcache, List.getElem?_map, List.getElem?_eq_getElem hlt, Option.map_some]
      have hlen : st.clockCache.length = slots.length := by
        rw [hcache, List.length_map]
      have hnext : (if hand + 1 = slots.length then 0 else hand + 1) =
          if hand + 1 < slots.length then hand + 1 else 0 := by
        split <;> split <;> omega
      have husage : (frame slots[hand]).usage = 0 ↔ slots[hand].2 = 0 := by
        rcases hchances _ (List.getElem_mem hlt) with h | h <;> simp [frame, h]
      rw [victumLoop, sweep_cons hlt]
      simp only [hhand, hstru, hlen, hnext, Option.bind_eq_bind, Option.bind_some]
      by_cases hover : slots[hand].2 = 0
      · rw [if_pos ⟨rfl, husage.mpr hover⟩, if_pos hover, frame_set, hcache]
        rfl
      · rw [if_neg (fun h => hover (husage.mp h.2)), if_neg hover]
        have hnew : (st.clockCache.set hand { frame slots[hand] with usage := 0 }) =
            (slots.set hand (slots[hand].1, 0)).map frame := by
          rw [frame_set, hcache]
          rfl
        rw [@ih (if hand + 1 < slots.length then hand + 1 else 0) _ _ hnew rfl
          (by rw [List.length_set]; split <;> omega) (hchances.set hand _ (Or.inl rfl))
          (countP_take hlt hover hfuel), List.length_set]

theorem findIdx?_frame {slots : List (Int × Int)} {page : Int} :
    (slots.map frame).findIdx? (fun stru => stru.valid = 1 ∧ stru.value = page) =
      slots.findIdx? fun slot => slot.1 == page := by
  rw [List.findIdx?_map]
  congr 1
  funext slot
  rw [Bool.eq_iff_iff, beq_iff_eq]
  exact decide_eq_true_iff.trans ⟨fun h => h.2, fun h => ⟨rfl, h⟩⟩

/-- Lab8 with a cache of `K + 1` pages and lab9 with one of `K` pages. -/
structure ClockState.Same (K : Nat) (rest : List Int) (st : ClockState)
    (st' : PageReplacement.ClockState) : Prop where
  inv : st'.Inv K rest
  frames : Frames K st st'.hand (used st')
  hit_eq : st.hit = st'.hit

theorem ClockState.Same.step {K i : Nat} {st : ClockState}
    {st' : PageReplacement.ClockState} {page : Int} {rest : List Int} (hpage : 0 ≤ page)
    (h : st.Same K (page :: rest) st') :
    ∃ st₁ st₁', clockStep (K + 1) i st page = some st₁ ∧
      PageReplacement.clockStep K i st' page = some st₁' ∧ st₁.Same K rest st₁' := by
  obtain ⟨slots, m, hlayout, hpages, hm⟩ := h.inv
  have hframes := h.frames
  rw [used_eq hlayout hpages] at hframes
  rw [List.length_cons] at hm
  rw [clockStep, hframes.clockCache_eq, findIdx?_frame]
  by_cases hmem : page ∈ st'.eleSet
  · obtain ⟨j, hj, hfind, hslot, hstep⟩ := clockStep_hit hlayout hpages hpage hmem
    have hnew := hpages.hit hj (st'.hit + 1)
      ((-1, 0) :: (slots.set j (slots[j].1, 1) ++ List.replicate m (-1, 0)))
    refine ⟨{ st with
        hit := st.hit + 1
        clockCache := (slots.set j (slots[j].1, 1)).map frame }, _, ?_, hstep,
      ⟨_, m, rfl, hnew, by omega⟩, ?_, congrArg Nat.succ h.hit_eq⟩
    · simp only [hfind, List.getElem?_map, List.getElem?_eq_getElem hj, Option.map_some,
        Option.bind_eq_bind, Option.bind_some, frame_set]
      rfl
    · rw [used_eq (m := m) (by exact rfl) hnew]
      exact ⟨rfl, hframes.chances.set j _ (Or.inr rfl), fun hlen => hframes.hand_eq
        (by rwa [List.length_set] at hlen)⟩
  have hfind : slots.findIdx? (fun slot => slot.1 == page) = none := by
    rw [List.findIdx?_eq_none_iff]
    intro slot hslot
    refine beq_false_of_ne fun heq => hmem ?_
    rw [hpages.eleSet_eq, List.mem_toFinset, ← heq]
    exact List.mem_map_of_mem hslot
  rw [hfind, List.length_map, Nat.add_sub_cancel]
  rcases Nat.lt_or_eq_of_le hpages.length_le with hroom | hfull
  · obtain ⟨m, rfl⟩ : ∃ m', m = m' + 1 := ⟨m - 1, by omega⟩
    have hnew := hpages.load hroom hpage hmem
      ((-1, 0) :: (slots ++ [(page, 1)] ++ List.replicate m (-1, 0)))
    refine ⟨_, _, if_pos hroom, clockStep_load hlayout hpages hroom hmem,
      ⟨_, m, rfl, hnew, by omega⟩, ?_, h.hit_eq⟩
    rw [used_eq (m := m) (by exact rfl) hnew]
    refine ⟨by rw [List.map_append]; rfl, fun slot hslot => ?_, fun hlen => ?_⟩
    · rcases List.mem_append.mp hslot with hslot | hslot
      · exact hframes.chances slot hslot
      · rw [List.mem_singleton.mp hslot]
        exact Or.inr rfl
    · -- the last slot has been filled, and both hands start at the first one
      rw [List.length_append, List.length_singleton] at hlen
      have := hpages.next_slot hroom
      simp only
      rw [if_neg (by omega)]
  · obtain ⟨slots', hand, hlt, hhand, hmap, hsweep, hrun⟩ :=
      @clockLoop_spec _ _ _ page _ _ hlayout hpages hfull (countP_lt_length hlayout)
    obtain ⟨-, hnew⟩ := hpages.replace hmem hpage hfull hmap hlt
      ((-1, 0) :: (slots'.set hand (page, 1) ++ List.replicate m (-1, 0)))
    have hstart : st'.hand - 1 < slots.length := by
      have := hpages.hand_le
      have := hpages.hand_pos
      omega
    have hfuel := @List.countP_le_length _ (fun slot : Int × Int => slot.2 ≠ 0) slots
    have hloop := @victumLoop_eq (slots.length + 1) _ page _ _ hframes.clockCache_eq
      (hframes.hand_eq hfull) hstart hframes.chances (Nat.lt_succ_of_le hfuel)
    have hchances := sweep_chances hframes.chances (st'.vec.length + 1) (st'.hand - 1)
    rw [sweep_fuel hstart (Nat.lt_succ_of_le hfuel) (countP_lt_length hlayout), hsweep]
      at hloop
    rw [hsweep] at hchances
    have hlen' : slots'.length = slots.length := by
      rw [← List.length_map Prod.fst, hmap, List.length_map]
    refine ⟨_, { st' with
        hand := if hand + 1 < K then hand + 1 + 1 else 1
        vec := (-1, 0) :: (slots'.set hand (page, 1) ++ List.replicate m (-1, 0))
        eleSet := insert page (st'.eleSet.erase slots'[hand].1) },
      (if_neg (by omega)).trans hloop, ?_, ⟨_, m, rfl, hnew, by omega⟩, ?_, h.hit_eq⟩
    · rw [PageReplacement.clockStep, if_pos hmem, hrun]
      simp only [Option.bind_eq_bind, Option.bind_some,
        getInd_succ (Nat.le_add_left 1 hand) hhand]
    · rw [used_eq (m := m) (by exact rfl) hnew]
      refine ⟨rfl, hchances.set hand _ (Or.inr rfl), fun _ => ?_⟩
      simp only [hfull]
      split <;> rfl

/-- The clock of lab8 is that of lab9 with one frame less. -/
theorem clock_succ {K : Nat} (hK : 1 ≤ K) {order : List Int}
    (hnonneg : ∀ page ∈ order, 0 ≤ page) :
    ∃ hits, clock (K + 1) order = some hits ∧
      PageReplacement.clock K order = some hits := by
  have hempty : (⟨0, 1, List.replicate (order.length + 1) (-1, 0), ∅⟩ :
      PageReplacement.ClockState).Inv K order :=
    ⟨[], order.length, List.replicate_succ,
      ⟨List.nodup_nil, rfl, by simp, Nat.le_refl _, hK, fun _ => rfl,
        Nat.zero_le _⟩, Nat.le_refl _⟩
  obtain ⟨j, st, st', hrun, hrun', hsame, -⟩ :=
    @forOrder_simulation _ _ (clockStep (K + 1)) (PageReplacement.clockStep K)
      (fun _ rest st st' => st.Same K rest st' ∧ ∀ page ∈ rest, 0 ≤ page)
      (fun h => by
        obtain ⟨st₁, st₁', hstep, hstep', hsame⟩ :=
          h.1.step (List.forall_mem_cons.mp h.2).1
        exact ⟨st₁, st₁', hstep, hstep', hsame, (List.forall_mem_cons.mp h.2).2⟩)
      0 order ⟨0, [], none⟩ _ ⟨⟨hempty, ⟨by simp [used], by simp [used, Chances],
        by simp [used]; omega⟩, rfl⟩, hnonneg⟩
  refine ⟨st.hit, ?_, ?_⟩
  · rw [clock, hrun, Option.map_some]
  · rw [PageReplacement.clock, hrun', Option.map_some, hsame.hit_eq]

/-! As long as no page has made way, every slot has its chance. -/

/-- Slots that have their chance, or have all lost it. -/
def slotsOf (pages : List Int) (chance : Int) : List (Int × Int) :=
  pages.map fun page => (page, chance)

theorem map_fst_slotsOf (pages : List Int) (chance : Int) :
    (slotsOf pages chance).map Prod.fst = pages := by
  rw [slotsOf, List.map_map]
  exact List.map_id pages

@[simp] theorem length_slotsOf (pages : List Int) (chance : Int) :
    (slotsOf pages chance).length = pages.length := List.length_map _

/-- Where every slot has its chance, the hand takes all of them and comes back
to the first slot. -/
theorem sweep_all {n : Nat} {passed ahead : List Int} (hne : passed ++ ahead ≠ [])
    (hn : ahead.length < n) :
    sweep n (if ahead = [] then 0 else passed.length)
        (slotsOf passed 0 ++ slotsOf ahead 1) =
      (slotsOf (passed ++ ahead) 0, 0) := by
  induction ahead generalizing n passed with
  | nil =>
      obtain ⟨n, rfl⟩ : ∃ k, n = k + 1 := ⟨n - 1, by omega⟩
      obtain ⟨first, rest, rfl⟩ := List.exists_cons_of_ne_nil
        (List.append_nil passed ▸ hne)
      simp [sweep, slotsOf]
  | cons page ahead ih =>
      obtain ⟨n, rfl⟩ : ∃ k, n = k + 1 := ⟨n - 1, by omega⟩
      have hslot : (slotsOf passed 0 ++ slotsOf (page :: ahead) 1)[passed.length]? =
          some (page, 1) := by
        rw [List.getElem?_append_right (by simp), length_slotsOf, Nat.sub_self]
        rfl
      have hset : (slotsOf passed 0 ++ slotsOf (page :: ahead) 1).set passed.length
          (page, 0) = slotsOf (passed ++ [page]) 0 ++ slotsOf ahead 1 := by
        rw [List.set_append_right _ _ (by simp), length_slotsOf, Nat.sub_self, slotsOf,
          slotsOf, slotsOf, List.map_append, List.map_cons, List.set_cons_zero,
          List.append_assoc]
        rfl
      have hhand : (if passed.length + 1 <
          (slotsOf passed 0 ++ slotsOf (page :: ahead) 1).length then passed.length + 1
          else 0) = if ahead = [] then 0 else (passed ++ [page]).length := by
        cases ahead <;> simp
      rw [if_neg (List.cons_ne_nil _ _), sweep, hslot]
      simp only [one_ne_zero, ↓reduceIte, hset, hhand]
      rw [ih (by simp) (Nat.lt_of_succ_lt_succ hn), List.append_assoc]
      rfl

/-- No page has made way so far. -/
structure Filling (K m : Nat) (st : PageReplacement.ClockState) (pages : List Int) :
    Prop where
  layout : st.Layout (slotsOf pages 1) m
  slots : st.Pages K (slotsOf pages 1)
  hand_eq : pages.length = K → st.hand = 1

theorem Filling.mem_iff {K m : Nat} {st : PageReplacement.ClockState}
    {pages : List Int} (h : Filling K m st pages) {page : Int} :
    page ∈ st.eleSet ↔ page ∈ pages := by
  rw [h.slots.eleSet_eq, map_fst_slotsOf, List.mem_toFinset]

theorem Filling.nodup {K m : Nat} {st : PageReplacement.ClockState} {pages : List Int}
    (h : Filling K m st pages) : pages.Nodup := by
  have := h.slots.nodup
  rwa [map_fst_slotsOf] at this

/-- While the requests are for no more than `K` pages, none makes way. -/
theorem Filling.run {K i m : Nat} {st : PageReplacement.ClockState}
    {pages order : List Int} (h : Filling K m st pages)
    (hfew : (pages ++ order).toFinset.card ≤ K) (hm : order.length ≤ m)
    (hnonneg : ∀ page ∈ order, 0 ≤ page) :
    ∃ st' pages' m', forOrder (PageReplacement.clockStep K) i order st = some st' ∧
      Filling K m' st' pages' ∧ m ≤ m' + order.length ∧
      pages'.toFinset = (pages ++ order).toFinset ∧
      pages'.head? = (pages ++ order).head? ∧
      st'.hit + pages'.length = st.hit + pages.length + order.length := by
  induction order generalizing i m st pages with
  | nil => exact ⟨st, pages, m, rfl, h, Nat.le_refl _, by simp, by simp, rfl⟩
  | cons page rest ih =>
      rw [List.forall_mem_cons] at hnonneg
      rw [List.length_cons] at hm
      by_cases hmem : page ∈ pages
      · obtain ⟨j, hj, -, -, hstep⟩ := clockStep_hit h.layout h.slots hnonneg.1
          (h.mem_iff.mpr hmem) (i := i)
        have hsame : (slotsOf pages 1).set j ((slotsOf pages 1)[j].1, 1) =
            slotsOf pages 1 := by
          rw [show ((slotsOf pages 1)[j].1, (1 : Int)) = (slotsOf pages 1)[j] by
            simp [slotsOf], List.set_getElem_self]
        have hhit := h.slots.hit hj (st.hit + 1)
          ((-1, 0) :: (slotsOf pages 1 ++ List.replicate m (-1, 0)))
        rw [hsame] at hstep hhit
        have hall : (pages ++ page :: rest).toFinset = (pages ++ rest).toFinset := by
          ext p
          by_cases hp : p = page
          · simp [hp, hmem]
          · simp [hp]
        obtain ⟨st', pages', m', hrun, hfill, hle, hset, hhead, hhits⟩ :=
          @ih (i + 1) m _ pages ⟨by exact rfl, hhit, h.hand_eq⟩ (hall ▸ hfew) (by omega) hnonneg.2
        refine ⟨st', pages', m', ?_, hfill, by rw [List.length_cons]; omega,
          hset.trans hall.symm, hhead.trans ?_, ?_⟩
        · simp only [forOrder, hstep, Option.bind_eq_bind, Option.bind_some, hrun]
        · obtain ⟨first, others, rfl⟩ := List.exists_cons_of_ne_nil
            (List.ne_nil_of_mem hmem)
          rfl
        · rw [hhits, List.length_cons]
          simp only
          omega
      · obtain ⟨m, rfl⟩ : ∃ k, m = k + 1 := ⟨m - 1, by omega⟩
        have hroom : (slotsOf pages 1).length < K := by
          rw [length_slotsOf]
          have hsub : (page :: pages).toFinset ⊆ (pages ++ page :: rest).toFinset := by
            intro p
            simp
            tauto
          have hcard := Finset.card_le_card hsub
          rw [List.toFinset_card_of_nodup (List.nodup_cons.mpr ⟨hmem, h.nodup⟩),
            List.length_cons] at hcard
          omega
        have hout := h.mem_iff.not.mpr hmem
        have hslots : slotsOf pages 1 ++ [(page, 1)] = slotsOf (pages ++ [page]) 1 := by
          rw [slotsOf, slotsOf, List.map_append]
          rfl
        have hstep := clockStep_load h.layout h.slots hroom hout (i := i)
        have hload := h.slots.load hroom hnonneg.1 hout
          ((-1, 0) :: (slotsOf pages 1 ++ [(page, 1)] ++
            List.replicate m (-1, 0)))
        rw [hslots] at hstep hload
        have hhand := h.slots.next_slot hroom
        rw [length_slotsOf] at hroom hhand
        obtain ⟨st', pages', m', hrun, hfill, hle, hset, hhead, hhits⟩ :=
          @ih (i + 1) m _ (pages ++ [page]) ⟨by exact rfl, hload, fun hlen => by
            rw [List.length_append, List.length_singleton] at hlen
            exact if_neg (by omega)⟩ (by rwa [← List.append_cons]) (by omega) hnonneg.2
        rw [← List.append_cons] at hset hhead
        refine ⟨st', pages', m', ?_, hfill, by rw [List.length_cons]; omega, hset, hhead,
          ?_⟩
        · simp only [forOrder, hstep, Option.bind_eq_bind, Option.bind_some, hrun]
        · rw [hhits, List.length_append, List.length_singleton, List.length_cons]
          simp only
          omega

/-- The first page to make way is the one that was loaded first. -/
theorem Filling.replace {K i m : Nat} {st : PageReplacement.ClockState}
    {first page : Int} {others : List Int} (h : Filling K m st (first :: others))
    (hfull : (first :: others).length = K) (hpage : 0 ≤ page)
    (hmem : page ∉ first :: others) :
    ∃ st' slots, PageReplacement.clockStep K i st page = some st' ∧
      st'.Layout slots m ∧ st'.Pages K slots ∧ st'.hit = st.hit ∧
      st'.eleSet = insert page (st.eleSet.erase first) := by
  have hout := h.mem_iff.not.mpr hmem
  have hlen : (slotsOf (first :: others) 1).length = K :=
    (length_slotsOf _ _).trans hfull
  obtain ⟨slots', hand, hlt, hhand, hmap, hsweep, hrun⟩ :=
    @clockLoop_spec _ _ _ page _ _ h.layout h.slots hlen (countP_lt_length h.layout)
  obtain ⟨-, hpages⟩ := h.slots.replace hout hpage hlen hmap hlt
    ((-1, 0) :: (slots'.set hand (page, 1) ++ List.replicate m (-1, 0)))
  have hall := @sweep_all (st.vec.length + 1) [] (first :: others)
    (List.cons_ne_nil _ _) (by
      have hlayout := congrArg List.length h.layout
      rw [List.length_cons, List.length_append, length_slotsOf] at hlayout
      omega)
  rw [if_neg (List.cons_ne_nil _ _), List.nil_append] at hall
  rw [h.hand_eq hfull] at hsweep
  change sweep _ 0 (slotsOf (first :: others) 1) = _ at hall
  rw [hall] at hsweep
  cases hsweep
  refine ⟨_, _, ?_, by exact rfl, hpages, rfl, rfl⟩
  rw [PageReplacement.clockStep, if_pos hout, hrun]
  simp only [Option.bind_eq_bind, Option.bind_some,
    getInd_succ (Nat.le_add_left 1 _) hhand]

theorem forOrder_append {S : Type} (step : Nat → S → Int → Option S) (i : Nat)
    (before after : List Int) (st : S) :
    forOrder step i (before ++ after) st =
      (forOrder step i before st).bind (forOrder step (i + before.length) after) := by
  induction before generalizing i st with
  | nil => rfl
  | cons page rest ih =>
      rw [List.cons_append, forOrder, forOrder]
      cases step i st page with
      | none => rfl
      | some st' =>
          simp only [Option.bind_eq_bind, Option.bind_some, ih, List.length_cons]
          congr 2
          omega

/-- Where the last new page is requested. -/
theorem exists_last_new {k : Nat} {order : List Int}
    (hcard : order.toFinset.card = k + 1) :
    ∃ done page rest, order = done ++ page :: rest ∧ page ∉ done ∧
      done.toFinset.card = k := by
  induction order using List.reverseRecOn with
  | nil => exact absurd hcard (by simp)
  | append_singleton before page ih =>
      have hset : (before ++ [page]).toFinset = insert page before.toFinset := by
        ext p
        simp
      rw [hset] at hcard
      by_cases hmem : page ∈ before
      · rw [Finset.insert_eq_of_mem (List.mem_toFinset.mpr hmem)] at hcard
        obtain ⟨done, last, rest, rfl, hnew, hdone⟩ := ih hcard
        exact ⟨done, last, rest ++ [page], by simp, hnew, hdone⟩
      · rw [Finset.card_insert_of_notMem (List.mem_toFinset.not.mpr hmem)] at hcard
        exact ⟨before, page, [], rfl, hmem, by omega⟩

theorem few_hits {K : Nat} (hK : 1 ≤ K) {order : List Int}
    (hnonneg : ∀ page ∈ order, 0 ≤ page) (hfew : order.toFinset.card ≤ K) :
    PageReplacement.clock K order = some (order.length - order.toFinset.card) := by
  obtain ⟨hits, hclock, hrun⟩ := clock_demand hK hnonneg
  have hcount := hrun.hits_of_few (by rwa [Finset.empty_union])
  rw [Finset.sdiff_empty] at hcount
  rw [hclock, ← hcount, Nat.add_sub_cancel]

/-- With one frame less than pages, a page is missed twice if and only if the
first one is requested again after all of them. -/
theorem clock_one_short {K : Nat} (hK : 1 ≤ K) {order : List Int}
    (hnonneg : ∀ page ∈ order, 0 ≤ page) (hcard : order.toFinset.card = K + 1) :
    ∃ hits, PageReplacement.clock K order = some hits ∧
      (hits = order.length - (K + 1) ↔
        ∀ n, K + 1 ≤ (order.take n).toFinset.card →
          ∀ first ∈ order.head?, first ∉ order.drop n) := by
  obtain ⟨done, page, rest, horder, hnew, hdone⟩ := exists_last_new hcard
  have hnonneg' := hnonneg
  rw [horder] at hnonneg'
  rw [List.forall_mem_append, List.forall_mem_cons] at hnonneg'
  have hempty : Filling K order.length ⟨0, 1, List.replicate (order.length + 1) (-1, 0), ∅⟩
      [] :=
    ⟨List.replicate_succ, ⟨List.nodup_nil, rfl, by simp, Nat.le_refl _, hK, fun _ => rfl,
      Nat.zero_le _⟩, fun _ => rfl⟩
  obtain ⟨st, pages, m, hrun, hfill, hm, hset, hhead, hhits⟩ :=
    @Filling.run K 0 _ _ [] done hempty (hdone ▸ Nat.le_refl _)
      (by rw [horder, List.length_append]; omega) hnonneg'.1
  rw [List.nil_append] at hset hhead
  have hlen : pages.length = K := by
    rw [← List.toFinset_card_of_nodup hfill.nodup, hset, hdone]
  obtain ⟨first, others, rfl⟩ := List.exists_cons_of_length_pos
    (show 0 < pages.length by omega)
  have hmem : ∀ p, p ∈ first :: others ↔ p ∈ done := by
    intro p
    rw [← List.mem_toFinset, hset, List.mem_toFinset]
  obtain ⟨st₁, slots, hstep, hlayout, hpages, hhit, heleSet⟩ :=
    hfill.replace hlen hnonneg'.2.1 ((hmem page).not.mpr hnew) (i := 0 + done.length)
  rw [horder, List.length_append, List.length_cons] at hm
  obtain ⟨st', gained, hlast, hhits', hserved⟩ :=
    @forOrder_run _ K anyPage (PageReplacement.clockStep K)
      PageReplacement.ClockState.eleSet PageReplacement.ClockState.hit
      (fun _ rest st => st.Inv K rest ∧ ∀ page ∈ rest, 0 ≤ page)
      (fun h => by
        obtain ⟨st', gain, hrun, hinv, hhits, hstep⟩ :=
          clockStep_spec (List.forall_mem_cons.mp h.2).1 h.1
        exact ⟨st', gain, hrun, ⟨hinv, (List.forall_mem_cons.mp h.2).2⟩, hhits, hstep⟩)
      (0 + done.length + 1) rest st₁ ⟨⟨slots, m, hlayout, hpages, by omega⟩, hnonneg'.2.2⟩
  have hclock : PageReplacement.clock K order = some st'.hit := by
    rw [PageReplacement.clock, horder, forOrder_append, ← horder, hrun, Option.bind_some,
      forOrder, hstep, Option.bind_eq_bind, Option.bind_some, hlast, Option.map_some]
  refine ⟨st'.hit, hclock, ?_⟩
  have hfirst : order.head? = some first := by
    rw [horder, List.head?_append, ← hhead]
    rfl
  have hfirst_done : first ∈ done := (hmem first).mp List.mem_cons_self
  have hpages_all : order.toFinset = insert page done.toFinset := by
    refine (Finset.eq_of_subset_of_card_le (fun p hp => ?_) ?_).symm
    · rw [horder]
      rcases Finset.mem_insert.mp hp with rfl | hp
      · simp
      · simp [List.mem_toFinset.mp hp]
    · rw [hcard, Finset.card_insert_of_notMem (List.mem_toFinset.not.mpr hnew), hdone]
  -- all pages but the first are resident now
  have hresident : ∀ p ∈ rest, p ∈ st₁.eleSet ↔ p ≠ first := by
    intro p hp
    have hor : p = page ∨ p ∈ done := by
      have : p ∈ order.toFinset := by
        rw [horder]
        simp [hp]
      rwa [hpages_all, Finset.mem_insert, List.mem_toFinset] at this
    rw [heleSet, Finset.mem_insert, Finset.mem_erase, hfill.mem_iff, hmem]
    constructor
    · rintro (rfl | h) rfl
      · exact hnew hfirst_done
      · exact h.1 rfl
    · exact fun hne => hor.imp id fun h => ⟨hne, h⟩
  have hgained : gained = rest.length ↔ first ∉ rest := by
    constructor
    · intro heq hin
      exact (hresident first hin).mp (hserved.subset_of_hits.2 heq
        (List.mem_toFinset.mpr hin)) rfl
    · intro hout
      have hsub : rest.toFinset ⊆ st₁.eleSet := fun p hp => by
        rw [List.mem_toFinset] at hp
        exact (hresident p hp).mpr (ne_of_mem_of_not_mem hp hout)
      have := hserved.hits_of_few (by
        rw [Finset.union_eq_left.mpr hsub, hpages.card_eq]
        exact hpages.length_le)
      rwa [Finset.sdiff_eq_empty_iff_subset.mpr hsub] at this
  have hwhen : (∀ n, K + 1 ≤ (order.take n).toFinset.card →
      ∀ first ∈ order.head?, first ∉ order.drop n) ↔ first ∉ rest := by
    have hlast_new : order = (done ++ [page]) ++ rest := by
      rw [horder, List.append_cons]
    have hlen' : (done ++ [page]).length = done.length + 1 := List.length_append
    have hdrop : order.drop (done.length + 1) = rest := by
      rw [hlast_new, List.drop_left' hlen']
    constructor
    · intro h
      rw [← hdrop]
      refine h (done.length + 1) ?_ first hfirst
      rw [hlast_new, List.take_left' hlen', ← hcard, hpages_all]
      refine Finset.card_le_card fun p hp => ?_
      simpa [or_comm] using hp
    · intro h n hn p hp hin
      rw [hfirst, Option.mem_some_iff] at hp
      subst hp
      by_cases hshort : n ≤ done.length
      · rw [horder, List.take_append_of_le_length hshort] at hn
        have hsub : (done.take n).toFinset ⊆ done.toFinset := fun p hp =>
          List.mem_toFinset.mpr (List.mem_of_mem_take (List.mem_toFinset.mp hp))
        have := Finset.card_le_card hsub
        omega
      · refine h ?_
        obtain ⟨more, rfl⟩ : ∃ more, n = done.length + 1 + more :=
          ⟨n - (done.length + 1), by omega⟩
        rw [← List.drop_drop, hdrop] at hin
        exact List.mem_of_mem_drop hin
  have hle := hserved.subset_of_hits.1
  rw [hwhen, ← hgained, horder, List.length_append, List.length_cons]
  rw [List.length_nil] at hhits
  simp only at hhits
  omega

/-- The hand points nowhere when the cache is to hold one page. -/
theorem clock_one {order : List Int} : clock 1 order = none ↔ order ≠ [] := by
  cases order with
  | nil => simp [clock, forOrder]
  | cons page rest => simp [clock, forOrder, clockStep, victumLoop]

/-- The frame that is left empty is not missed: the first page is not requested
again once there have been requests for `K` pages. -/
def EnoughFrames (K : Nat) (order : List Int) : Prop :=
  order = [] ∨ 2 ≤ K ∧ ∀ n, K ≤ (order.take n).toFinset.card →
    ∀ first ∈ order.head?, first ∉ order.drop n

/-- On a string of at most `K` pages, `_clock` misses each of them once, and
lab8 counts the same hits exactly when it has enough frames; on every string it
counts the hits of `_clock` with one frame less. -/
theorem clock_agrees {K : Nat} (hK : 1 ≤ K) {order : List Int}
    (hnonneg : ∀ page ∈ order, 0 ≤ page) :
    (order.toFinset.card ≤ K →
      PageReplacement.clock K order = some (order.length - order.toFinset.card) ∧
        (clock K order = PageReplacement.clock K order ↔ EnoughFrames K order)) ∧
      (2 ≤ K → ∃ hits, clock K order = some hits ∧
        PageReplacement.clock (K - 1) order = some hits) := by
  have hless : 2 ≤ K → ∃ hits, clock K order = some hits ∧
      PageReplacement.clock (K - 1) order = some hits := by
    intro htwo
    obtain ⟨k, rfl⟩ : ∃ k, K = k + 1 := ⟨K - 1, by omega⟩
    exact clock_succ (by omega) hnonneg
  refine ⟨fun hfew => ⟨few_hits hK hnonneg hfew, ?_⟩, hless⟩
  rw [few_hits hK hnonneg hfew, EnoughFrames]
  rcases Nat.lt_or_ge 1 K with htwo | hone
  · obtain ⟨hits, hclock, hclock'⟩ := hless htwo
    obtain ⟨k, rfl⟩ : ∃ k, K = k + 1 := ⟨K - 1, by omega⟩
    rw [Nat.add_sub_cancel] at hclock'
    rw [hclock, Option.some.injEq]
    rcases Nat.lt_or_eq_of_le hfew with hlt | heq
    · have hall := few_hits (show 1 ≤ k by omega) hnonneg (by omega)
      rw [hclock', Option.some.injEq] at hall
      refine iff_of_true hall (Or.inr ⟨htwo, fun n hn => ?_⟩)
      have hsub : (order.take n).toFinset ⊆ order.toFinset := fun p hp =>
        List.mem_toFinset.mpr (List.mem_of_mem_take (List.mem_toFinset.mp hp))
      have := Finset.card_le_card hsub
      omega
    · obtain ⟨hits', hrun, hiff⟩ := clock_one_short (show 1 ≤ k by omega) hnonneg heq
      rw [hclock', Option.some.injEq] at hrun
      rw [hrun, heq, hiff]
      refine ⟨fun h => Or.inr ⟨htwo, h⟩, ?_⟩
      rintro (rfl | h)
      · exact absurd heq (by simp)
      · exact h.2
  · obtain rfl : K = 1 := by omega
    constructor
    · intro h
      by_contra hne
      rw [clock_one.mpr (fun h => hne (Or.inl h))] at h
      exact absurd h (by simp)
    · rintro (rfl | h)
      · rfl
      · omega

namespace ClockWitness

theorem clock_agrees_three_frames :
    (([1, 2, 1, 2] : List Int).toFinset.card ≤ 3 →
      PageReplacement.clock 3 [1, 2, 1, 2] =
          some (([1, 2, 1, 2] : List Int).length -
            ([1, 2, 1, 2] : List Int).toFinset.card) ∧
        (clock 3 [1, 2, 1, 2] = PageReplacement.clock 3 [1, 2, 1, 2] ↔
          EnoughFrames 3 [1, 2, 1, 2])) ∧
      (2 ≤ 3 → ∃ hits, clock 3 [1, 2, 1, 2] = some hits ∧
        PageReplacement.clock (3 - 1) [1, 2, 1, 2] = some hits) :=
  clock_agrees (by decide) (by decide)

/-- Two pages do not fit where two were asked for. -/
theorem two_pages_in_two_frames :
    ¬ ∀ (K : Nat) (order : List Int), 1 ≤ K → (∀ page ∈ order, 0 ≤ page) →
      clock K order = PageReplacement.clock K order := by
  intro h
  exact absurd (h 2 [1, 2, 1] (by decide) (by decide)) (by decide)

end ClockWitness

end Replacement

end PintosLabs
