/-
What the algorithms of lab9 that do not look into the future keep: each serves
the reference string by demand paging.
-/
import PintosLabs.DemandPaging
import PintosLabs.PageReplacement

namespace PintosLabs

namespace PageReplacement

/-- An algorithm of which every step serves its request serves them all. -/
theorem forOrder_run {S : Type} {K : Nat} {rule : Finset Int → List Int → Int → Prop}
    {step : Nat → S → Int → Option S} (resident : S → Finset Int) (hits : S → Nat)
    (inv : Nat → List Int → S → Prop)
    (hstep : ∀ {i page rest st}, inv i (page :: rest) st →
      ∃ st' gain, step i st page = some st' ∧ inv (i + 1) rest st' ∧
        hits st' = hits st + gain ∧
        PagingStep K rule (resident st) page rest (resident st') gain)
    {i : Nat} {order : List Int} {st : S} (hinv : inv i order st) :
    ∃ st' gained, forOrder step i order st = some st' ∧
      hits st' = hits st + gained ∧ PagingRun K rule (resident st) order gained := by
  induction order generalizing i st with
  | nil => exact ⟨st, 0, rfl, rfl, .done _⟩
  | cons page rest ih =>
      obtain ⟨st₁, gain, hrun, hinv₁, hhits, hserved⟩ := hstep hinv
      obtain ⟨st', gained, hrest, hhits', hpaging⟩ := ih hinv₁
      refine ⟨st', gained + gain, ?_, by omega, hserved.run hpaging⟩
      simp only [forOrder, hrun, Option.bind_eq_bind, Option.bind_some, hrest]

/-! First in, first out. -/

structure FifoState.Inv (K : Nat) (st : FifoState) : Prop where
  nodup : st.que.Nodup
  eleSet_eq : st.eleSet = st.que.toFinset
  card_le : st.eleSet.card ≤ K

theorem FifoState.Inv.card_eq {K : Nat} {st : FifoState} (h : st.Inv K) :
    st.eleSet.card = st.que.length := by
  rw [h.eleSet_eq, List.toFinset_card_of_nodup h.nodup]

theorem FifoState.Inv.push {K : Nat} {st : FifoState} {page : Int} (h : st.Inv K)
    (hpage : page ∉ st.eleSet) (hroom : st.eleSet.card < K) :
    ({ st with que := st.que ++ [page], eleSet := insert page st.eleSet } :
      FifoState).Inv K := by
  refine ⟨?_, ?_, ?_⟩
  · refine List.Nodup.append h.nodup (List.nodup_singleton page) ?_
    rw [List.disjoint_singleton]
    rwa [h.eleSet_eq, List.mem_toFinset] at hpage
  · rw [List.toFinset_append, h.eleSet_eq, Finset.insert_eq, Finset.union_comm]
    rfl
  · rw [Finset.card_insert_of_notMem hpage]
    exact hroom

theorem fifoStep_spec {K i : Nat} {st : FifoState} {page : Int} {rest : List Int}
    (hK : 1 ≤ K) (h : st.Inv K) :
    ∃ st' gain, fifoStep K i st page = some st' ∧ st'.Inv K ∧
      st'.hit = st.hit + gain ∧
      PagingStep K anyPage st.eleSet page rest st'.eleSet gain := by
  by_cases hpage : page ∈ st.eleSet
  · refine ⟨{ st with hit := st.hit + 1 }, 1, ?_, ⟨h.nodup, h.eleSet_eq, h.card_le⟩,
      rfl, Or.inl ⟨hpage, rfl, rfl⟩⟩
    rw [fifoStep, if_neg (not_not.mpr hpage)]
  · rw [fifoStep, if_pos hpage]
    by_cases hfull : st.que.length = K
    · obtain ⟨f, tail, hque⟩ := List.exists_cons_of_length_pos
        (show 0 < st.que.length by omega)
      have hf : f ∈ st.eleSet := by
        rw [h.eleSet_eq, hque]
        simp
      have hnodup := h.nodup
      rw [hque, List.nodup_cons] at hnodup
      have hpopped : FifoState.Inv K
          { st with que := tail, eleSet := st.eleSet.erase f } := by
        refine ⟨hnodup.2, ?_, (Finset.card_erase_le).trans h.card_le⟩
        rw [h.eleSet_eq, hque, List.toFinset_cons, Finset.erase_insert]
        rw [List.mem_toFinset]
        exact hnodup.1
      have hout : page ∉ st.eleSet.erase f := fun hmem =>
        hpage (Finset.mem_of_mem_erase hmem)
      refine ⟨_, 0, ?_, hpopped.push hout ?_, rfl, Or.inr ⟨hpage, rfl, Or.inr
        ⟨h.card_eq.trans hfull, f, hf, trivial, rfl⟩⟩⟩
      · rw [if_pos hfull, hque]
        simp only [if_pos hf, Option.bind_eq_bind, Option.bind_some]
      · exact (Finset.card_erase_lt_of_mem hf).trans_le h.card_le
    · have hroom : st.eleSet.card < K :=
        Nat.lt_of_le_of_ne h.card_le (h.card_eq ▸ hfull)
      refine ⟨_, 0, ?_, h.push hpage hroom, rfl,
        Or.inr ⟨hpage, rfl, Or.inl ⟨hroom, rfl⟩⟩⟩
      simp only [if_neg hfull, Option.bind_eq_bind, Option.bind_some]

theorem fifo_demand {K : Nat} (hK : 1 ≤ K) (order : List Int) :
    ∃ hits, fifo K order = some hits ∧ DemandRun K ∅ order hits := by
  obtain ⟨st, hits, hrun, hhits, hpaging⟩ := @forOrder_run _ K anyPage (fifoStep K)
    FifoState.eleSet FifoState.hit (fun _ _ st => st.Inv K)
    (fun h => fifoStep_spec hK h) 0 order ⟨0, [], ∅⟩
    ⟨List.nodup_nil, rfl, Nat.zero_le _⟩
  refine ⟨hits, ?_, hpaging⟩
  rw [fifo, hrun, Option.map_some, hhits, Nat.zero_add]

/-! The list of pages with the map into it. -/

namespace PageList

/-- Each page of the map has its own node in the list, and each node its
page in the map. -/
structure Inv (l : PageList) : Prop where
  node_iff : ∀ page pos, l.posMap[page]? = some pos ↔ (pos, page) ∈ l.ls
  nodup : (l.ls.map Prod.fst).Nodup
  fresh_gt : ∀ node ∈ l.ls, node.1 < l.fresh

/-- The resident pages. -/
def resident (l : PageList) : Finset Int := l.posMap.keys.toFinset

variable {l : PageList} {page : Int} {pos : Nat}

@[simp] theorem mem_resident : page ∈ l.resident ↔ page ∈ l.posMap := by
  rw [resident, List.mem_toFinset, Std.TreeMap.mem_keys]

theorem card_resident (l : PageList) : l.resident.card = l.posMap.size := by
  rw [resident, List.toFinset_card_of_nodup Std.TreeMap.nodup_keys,
    Std.TreeMap.length_keys]

theorem mem_of_get (h : l.posMap[page]? = some pos) : page ∈ l.posMap := by
  rw [Std.TreeMap.mem_iff_isSome_getElem?, h]
  rfl

theorem empty_inv : empty.Inv := by
  refine ⟨fun page pos => ?_, List.nodup_nil, by simp [empty]⟩
  simp [empty]

theorem resident_pushBack (l : PageList) (page : Int) :
    (l.pushBack page).resident = insert page l.resident := by
  ext p
  rw [mem_resident, Finset.mem_insert, mem_resident, pushBack,
    Std.TreeMap.mem_insert, Std.compare_eq_iff_eq, eq_comm]

/-- The list without a page, wherever its node stands. -/
def without (l : PageList) (page : Int) (pos : Nat) : PageList :=
  { l with
    ls := l.ls.filter fun node => node.1 ≠ pos
    posMap := l.posMap.erase page }

theorem resident_without (l : PageList) (page : Int) (pos : Nat) :
    (l.without page pos).resident = l.resident.erase page := by
  ext p
  rw [mem_resident, Finset.mem_erase, mem_resident, without, Std.TreeMap.mem_erase,
    ne_eq, Std.compare_eq_iff_eq, eq_comm]

theorem Inv.without (h : l.Inv) (hpos : l.posMap[page]? = some pos) :
    (l.without page pos).Inv := by
  have hnode := (h.node_iff page pos).mp hpos
  refine ⟨fun p q => ?_, h.nodup.sublist (List.filter_sublist.map _),
    fun node hmem => h.fresh_gt node (List.mem_of_mem_filter hmem)⟩
  simp only [PageList.without, Std.TreeMap.getElem?_erase, Std.compare_eq_iff_eq,
    List.mem_filter, decide_eq_true_eq, ← h.node_iff]
  by_cases hp : page = p
  · subst hp
    simp only [↓reduceIte, reduceCtorEq, false_iff, not_and, not_not]
    intro hq
    exact Option.some.inj (hq.symm.trans hpos)
  · rw [if_neg hp, iff_self_and]
    rintro hq rfl
    have hnode' := (h.node_iff p q).mp hq
    exact hp (congrArg Prod.snd (List.inj_on_of_nodup_map h.nodup hnode hnode' rfl))

theorem Inv.pushBack (h : l.Inv) (hpage : page ∉ l.posMap) :
    (l.pushBack page).Inv := by
  have hnone : l.posMap[page]? = none := Std.TreeMap.getElem?_eq_none hpage
  refine ⟨fun p q => ?_, ?_, ?_⟩
  · simp only [PageList.pushBack, Std.TreeMap.getElem?_insert,
      Std.compare_eq_iff_eq, List.mem_append, List.mem_singleton, Prod.mk.injEq,
      ← h.node_iff]
    by_cases hp : page = p
    · subst hp
      simp [hnone, eq_comm]
    · simp [hp, Ne.symm hp]
  · rw [PageList.pushBack, List.map_append, List.map_singleton]
    refine List.Nodup.append h.nodup (List.nodup_singleton _) ?_
    rw [List.disjoint_singleton]
    intro hmem
    obtain ⟨node, hnode, heq⟩ := List.mem_map.mp hmem
    exact absurd heq (h.fresh_gt node hnode).ne
  · intro node hmem
    rcases List.mem_append.mp hmem with hmem | hmem
    · exact Nat.lt_succ_of_lt (h.fresh_gt node hmem)
    · rw [List.mem_singleton.mp hmem]
      exact Nat.lt_succ_self _

/-- Only what the map finds matters. -/
theorem Inv.congr {l' : PageList} (h : l.Inv) (hls : l'.ls = l.ls)
    (hfresh : l'.fresh = l.fresh) (hget : ∀ p : Int, l'.posMap[p]? = l.posMap[p]?) :
    l'.Inv :=
  ⟨fun p q => by rw [hget, hls, h.node_iff], hls ▸ h.nodup,
    by rw [hls, hfresh]; exact h.fresh_gt⟩

theorem Inv.eraseNode_eq (h : l.Inv) (hpos : l.posMap[page]? = some pos) :
    l.eraseNode pos =
      some { l with ls := l.ls.filter fun node => node.1 ≠ pos } := by
  rw [eraseNode, if_pos]
  exact List.mem_map.mpr ⟨_, (h.node_iff page pos).mp hpos, rfl⟩

/-- `ls.pop_front()` and the erasure of its page from the map. -/
theorem Inv.popFront (h : l.Inv) {rest : List (Nat × Int)}
    (hls : l.ls = (pos, page) :: rest) :
    l.posMap[page]? = some pos ∧
      ({ l with ls := rest } : PageList).eraseKey page = some (l.without page pos) := by
  have hpos : l.posMap[page]? = some pos :=
    (h.node_iff page pos).mpr (hls ▸ List.mem_cons_self)
  have hnodup := h.nodup
  rw [hls, List.map_cons, List.nodup_cons] at hnodup
  have hrest : l.ls.filter (fun node => node.1 ≠ pos) = rest := by
    rw [hls, List.filter_cons_of_neg (by simp), List.filter_eq_self]
    intro node hnode
    exact decide_eq_true fun heq =>
      hnodup.1 (List.mem_map.mpr ⟨node, hnode, heq⟩)
  refine ⟨hpos, ?_⟩
  rw [eraseKey, if_pos (mem_of_get hpos), PageList.without, hrest]

end PageList

/-! Least recently used. -/

theorem lruStep_spec {K i : Nat} {st : LruState} {page : Int} {rest : List Int}
    (hK : 1 ≤ K) (h : st.pages.Inv) (hle : st.pages.resident.card ≤ K) :
    ∃ st' gain, lruStep K i st page = some st' ∧ st'.pages.Inv ∧
      st'.hit = st.hit + gain ∧
      PagingStep K anyPage st.pages.resident page rest st'.pages.resident gain := by
  rw [lruStep]
  cases hget : st.pages.posMap[page]? with
  | none =>
      have hpage : page ∉ st.pages.posMap := by
        rw [Std.TreeMap.mem_iff_isSome_getElem?, hget]
        exact Bool.false_ne_true
      have hout : page ∉ st.pages.resident := PageList.mem_resident.not.mpr hpage
      by_cases hfull : st.pages.posMap.size = K
      · have hcard : st.pages.resident.card = K :=
          (PageList.card_resident _).trans hfull
        cases hls : st.pages.ls with
        | nil =>
            -- the map is not empty, so the list is not
            obtain ⟨p, hp⟩ := Finset.card_pos.mp (by omega :
              0 < st.pages.resident.card)
            rw [PageList.mem_resident, Std.TreeMap.mem_iff_isSome_getElem?] at hp
            obtain ⟨pos, hpos⟩ := Option.isSome_iff_exists.mp hp
            have hnode := (h.node_iff p pos).mp hpos
            rw [hls] at hnode
            exact absurd hnode List.not_mem_nil
        | cons node tail =>
            obtain ⟨pos, ind⟩ := node
            obtain ⟨hind, hpopped⟩ := h.popFront hls
            have hout' : page ∉ (st.pages.without ind pos).posMap := by
              rw [← PageList.mem_resident, PageList.resident_without]
              exact fun hmem => hout (Finset.mem_of_mem_erase hmem)
            refine ⟨{ st with pages := (st.pages.without ind pos).pushBack page }, 0,
              ?_, (h.without hind).pushBack hout', rfl, Or.inr ⟨hout, rfl,
                Or.inr ⟨hcard, ind, PageList.mem_resident.mpr
                  (PageList.mem_of_get hind), trivial, ?_⟩⟩⟩
            · simp only [if_pos hfull, hpopped, Option.bind_eq_bind,
                Option.bind_some]
            · rw [PageList.resident_pushBack, PageList.resident_without]
      · have hroom : st.pages.resident.card < K :=
          Nat.lt_of_le_of_ne hle (PageList.card_resident _ ▸ hfull)
        refine ⟨{ st with pages := st.pages.pushBack page }, 0, ?_,
          h.pushBack hpage, rfl, Or.inr ⟨hout, rfl, Or.inl ⟨hroom, ?_⟩⟩⟩
        · simp only [if_neg hfull, Option.bind_eq_bind, Option.bind_some]
        · exact PageList.resident_pushBack _ _
  | some pos =>
      have hmem := PageList.mem_of_get hget
      have hin : page ∈ st.pages.resident := PageList.mem_resident.mpr hmem
      have hout : page ∉ (st.pages.without page pos).posMap := by
        rw [← PageList.mem_resident, PageList.resident_without]
        exact Finset.notMem_erase _ _
      simp only [h.eraseNode_eq hget, Option.bind_eq_bind, Option.bind_some]
      refine ⟨_, 1, rfl, ((h.without hget).pushBack hout).congr rfl rfl ?_, rfl,
        Or.inl ⟨hin, ?_, rfl⟩⟩
      · intro p
        simp only [PageList.pushBack, PageList.without,
          Std.TreeMap.getElem?_insert, Std.TreeMap.getElem?_erase]
        split <;> rfl
      · rw [PageList.resident_pushBack]
        exact Finset.insert_eq_of_mem hin

theorem lru_demand {K : Nat} (hK : 1 ≤ K) (order : List Int) :
    ∃ hits, lru K order = some hits ∧ DemandRun K ∅ order hits := by
  obtain ⟨st, hits, hrun, hhits, hpaging⟩ := @forOrder_run _ K anyPage (lruStep K)
    (fun st => st.pages.resident) LruState.hit
    (fun _ _ st => st.pages.Inv ∧ st.pages.resident.card ≤ K)
    (fun h => by
      obtain ⟨st', gain, hrun, hinv, hhits, hstep⟩ := lruStep_spec hK h.1 h.2
      exact ⟨st', gain, hrun, ⟨hinv, hstep.card_le h.2⟩, hhits, hstep⟩)
    0 order ⟨0, .empty⟩ ⟨PageList.empty_inv, Nat.zero_le _⟩
  refine ⟨hits, ?_, hpaging⟩
  rw [lru, hrun, Option.map_some, hhits, Nat.zero_add]

/-! The clock. -/

theorem getInd_succ {K hand : Nat} (hpos : 1 ≤ hand) (hle : hand ≤ K) :
    getInd K (hand + 1) = some (if hand < K then hand + 1 else 1) := by
  rw [getInd, getIndLoop]
  split
  case isTrue hover =>
    have hK : hand = K := by omega
    rw [if_neg (by omega), getIndLoop, if_neg (by omega), hK]
    congr 1
    omega
  case isFalse hin => rw [if_pos (by omega)]

namespace ClockState

/-- The slots in use follow a first slot that is never used, and come before
those that are still empty. -/
def Layout (st : ClockState) (slots : List (Int × Int)) (m : Nat) : Prop :=
  st.vec = (-1, 0) :: (slots ++ List.replicate m (-1, 0))

/-- The slots in use hold the resident pages. -/
structure Pages (K : Nat) (st : ClockState) (slots : List (Int × Int)) :
    Prop where
  nodup : (slots.map Prod.fst).Nodup
  eleSet_eq : st.eleSet = (slots.map Prod.fst).toFinset
  nonneg : ∀ page ∈ st.eleSet, 0 ≤ page
  hand_pos : 1 ≤ st.hand
  hand_le : st.hand ≤ K
  next_slot : slots.length < K → st.hand = slots.length + 1
  length_le : slots.length ≤ K

/-- The state before the requests that are still to come: while slots are
empty, there are enough of them. -/
def Inv (K : Nat) (rest : List Int) (st : ClockState) : Prop :=
  ∃ slots m, st.Layout slots m ∧ st.Pages K slots ∧ rest.length ≤ m

variable {st : ClockState} {slots : List (Int × Int)} {m K : Nat}

theorem Pages.card_eq (h : st.Pages K slots) : st.eleSet.card = slots.length := by
  rw [h.eleSet_eq, List.toFinset_card_of_nodup h.nodup, List.length_map]

theorem Layout.slot (h : st.Layout slots m) (hand : Nat) (hlt : hand < slots.length) :
    st.vec[hand + 1]? = some slots[hand] := by
  rw [h, List.getElem?_cons_succ, List.getElem?_append_left hlt,
    List.getElem?_eq_getElem hlt]

theorem Layout.set (h : st.Layout slots m) (hand : Nat) (hlt : hand < slots.length)
    (slot : Int × Int) :
    st.vec.set (hand + 1) slot =
      (-1, 0) :: (slots.set hand slot ++ List.replicate m (-1, 0)) := by
  rw [h, List.set_cons_succ, List.set_append_left _ _ hlt]

end ClockState

/-- The pages after one of them has been replaced. -/
theorem toFinset_set {pages : List Int} {page : Int} {i : Nat}
    (hnodup : pages.Nodup) (hi : i < pages.length) :
    (pages.set i page).toFinset = insert page (pages.toFinset.erase pages[i]) := by
  have hperm := List.getElem_cons_eraseIdx_perm hi
  have hout := (List.nodup_cons.mp (hperm.nodup_iff.mpr hnodup)).1
  rw [List.toFinset_eq_of_perm _ _ (List.set_perm_cons_eraseIdx hi page),
    ← List.toFinset_eq_of_perm _ _ hperm, List.toFinset_cons, List.toFinset_cons,
    Finset.erase_insert (List.mem_toFinset.not.mpr hout)]

theorem map_fst_set {slots : List (Int × Int)} {i : Nat} (hi : i < slots.length)
    (chance : Int) :
    (slots.set i (slots[i].1, chance)).map Prod.fst = slots.map Prod.fst := by
  rw [List.map_set]
  have hlt : i < (slots.map Prod.fst).length := by rwa [List.length_map]
  have h : (slots.map Prod.fst)[i] = slots[i].1 := List.getElem_map _
  rw [← h, List.set_getElem_self]

/-- The hand takes the chances away as it goes round the slots, until it comes
to one that has none left. -/
def sweep : Nat → Nat → List (Int × Int) → List (Int × Int) × Nat
  | 0, hand, slots => (slots, hand)
  | n + 1, hand, slots =>
      match slots[hand]? with
      | none => (slots, hand)
      | some slot =>
          if slot.2 = 0 then (slots, hand)
          else sweep n (if hand + 1 < slots.length then hand + 1 else 0)
            (slots.set hand (slot.1, 0))

theorem countP_take {slots : List (Int × Int)} {hand n : Nat} (hlt : hand < slots.length)
    (hchance : slots[hand].2 ≠ 0)
    (hfuel : slots.countP (fun slot => slot.2 ≠ 0) < n + 1) :
    (slots.set hand (slots[hand].1, 0)).countP (fun slot => slot.2 ≠ 0) < n := by
  have hone : 0 < slots.countP fun slot => slot.2 ≠ 0 :=
    List.countP_pos_iff.mpr ⟨_, List.getElem_mem hlt, by simpa using hchance⟩
  rw [List.countP_set hlt, if_pos (by simpa using hchance), if_neg (by simp)]
  omega

theorem sweep_cons {slots : List (Int × Int)} {hand : Nat} (hlt : hand < slots.length)
    (n : Nat) :
    sweep (n + 1) hand slots =
      if slots[hand].2 = 0 then (slots, hand)
      else sweep n (if hand + 1 < slots.length then hand + 1 else 0)
        (slots.set hand (slots[hand].1, 0)) := by
  rw [sweep, List.getElem?_eq_getElem hlt]

/-- The page in the slot that the hand comes to makes way. -/
theorem clockLoop_spec {K n m : Nat} {page : Int} {st : ClockState}
    {slots : List (Int × Int)} (hlayout : st.Layout slots m)
    (hpages : st.Pages K slots) (hfull : slots.length = K)
    (hfuel : slots.countP (fun slot => slot.2 ≠ 0) < n) :
    ∃ (slots' : List (Int × Int)) (hand : Nat) (h : hand < slots'.length), hand < K ∧
      slots'.map Prod.fst = slots.map Prod.fst ∧
      sweep n (st.hand - 1) slots = (slots', hand) ∧
      clockLoop K page n st = some
        { st with
          hand := hand + 1
          vec := (-1, 0) :: (slots'.set hand (page, 1) ++
            List.replicate m (-1, 0))
          eleSet := insert page (st.eleSet.erase slots'[hand].1) } := by
  induction n generalizing st slots with
  | zero => exact absurd hfuel (Nat.not_lt_zero _)
  | succ n ih =>
      obtain ⟨hand, hhand⟩ : ∃ hand, st.hand = hand + 1 :=
        ⟨st.hand - 1, by have := hpages.hand_pos; omega⟩
      have hlt : hand < slots.length := by
        have := hpages.hand_le
        omega
      rw [clockLoop, hhand, hlayout.slot hand hlt, Nat.add_sub_cancel, sweep_cons hlt]
      simp only [Option.bind_eq_bind, Option.bind_some]
      by_cases hover : slots[hand].2 = 0
      · refine ⟨slots, hand, hlt, hfull ▸ hlt, rfl, if_pos hover, ?_⟩
        have hmem : slots[hand].1 ∈ st.eleSet := by
          rw [hpages.eleSet_eq, List.mem_toFinset]
          exact List.mem_map_of_mem (List.getElem_mem hlt)
        rw [if_pos hover, if_pos hmem, hlayout.set hand hlt, ← hhand]
      · rw [if_neg hover, if_neg hover, ← hhand,
          getInd_succ hpages.hand_pos hpages.hand_le, hhand, hlayout.set hand hlt]
        simp only [Option.bind_some]
        have hmap := map_fst_set hlt 0
        obtain ⟨slots', hand', hlt', hle', hmap', hsweep, hrun⟩ := @ih
          { st with
            hand := if hand + 1 < K then hand + 1 + 1 else 1
            vec := (-1, 0) :: (slots.set hand (slots[hand].1, 0) ++
              List.replicate m (-1, 0)) }
          _ rfl
          ⟨hmap ▸ hpages.nodup, hmap ▸ hpages.eleSet_eq, hpages.nonneg,
            by simp only; split <;> omega,
            by have := hpages.hand_le; simp only; split <;> omega,
            fun h => by rw [List.length_set] at h; omega,
            by rw [List.length_set]; exact hpages.length_le⟩
          (by rw [List.length_set, hfull]) (countP_take hlt hover hfuel)
        refine ⟨slots', hand', hlt', hle', hmap'.trans hmap, ?_, hrun⟩
        rw [← hsweep, hfull]
        congr 1
        simp only
        split <;> rfl

theorem findIdx?_slot {slots : List (Int × Int)} {page : Int}
    (hmem : page ∈ slots.map Prod.fst) :
    ∃ i, ∃ h : i < slots.length,
      slots.findIdx? (fun slot => slot.1 == page) = some i ∧ slots[i].1 = page := by
  cases hfind : slots.findIdx? fun slot => slot.1 == page with
  | none =>
      rw [List.findIdx?_eq_none_iff] at hfind
      obtain ⟨slot, hslot, rfl⟩ := List.mem_map.mp hmem
      simpa using hfind slot hslot
  | some i =>
      obtain ⟨hlt, heq, -⟩ := List.findIdx?_eq_some_iff_getElem.mp hfind
      exact ⟨i, hlt, rfl, by simpa using heq⟩

section ClockStep

variable {K i m : Nat} {page : Int} {st : ClockState} {slots : List (Int × Int)}

/-- A hit gives the page its chance. -/
theorem clockStep_hit (hlayout : st.Layout slots m) (hpages : st.Pages K slots)
    (hpage : 0 ≤ page) (hmem : page ∈ st.eleSet) :
    ∃ j, ∃ hj : j < slots.length,
      slots.findIdx? (fun slot => slot.1 == page) = some j ∧ slots[j].1 = page ∧
      clockStep K i st page = some
        { st with
          hit := st.hit + 1
          vec := (-1, 0) :: (slots.set j (slots[j].1, 1) ++
            List.replicate m (-1, 0)) } := by
  have hin := hmem
  rw [hpages.eleSet_eq, List.mem_toFinset] at hin
  obtain ⟨j, hj, hfind, hslot⟩ := findIdx?_slot hin
  have hfind' : st.vec.findIdx? (fun slot => slot.1 == page) = some (j + 1) := by
    rw [hlayout, List.findIdx?_cons, if_neg (by simp; omega), List.findIdx?_append,
      hfind]
    rfl
  refine ⟨j, hj, hfind, hslot, ?_⟩
  rw [clockStep, if_neg (not_not.mpr hmem), hfind']
  simp only [Option.bind_eq_bind, Option.bind_some, hlayout.slot j hj, hlayout.set j hj]

/-- While slots are empty, the hand stands at the first of them. -/
theorem clockStep_load (hlayout : st.Layout slots (m + 1)) (hpages : st.Pages K slots)
    (hroom : slots.length < K) (hmem : page ∉ st.eleSet) :
    clockStep K i st page = some
      { st with
        hand := if st.hand < K then st.hand + 1 else 1
        vec := (-1, 0) :: (slots ++ [(page, 1)] ++ List.replicate m (-1, 0))
        eleSet := insert page st.eleSet } := by
  have hhand := hpages.next_slot hroom
  have hempty : st.vec[st.hand]? = some (-1, 0) := by
    rw [hlayout, hhand, List.getElem?_cons_succ,
      List.getElem?_append_right (Nat.le_refl _), Nat.sub_self,
      List.replicate_succ, List.getElem?_cons_zero]
  have hnone : (-1 : Int) ∉ st.eleSet := fun h => by
    have := hpages.nonneg _ h
    omega
  have hset : st.vec.set st.hand (page, 1) =
      (-1, 0) :: (slots ++ [(page, 1)] ++ List.replicate m (-1, 0)) := by
    rw [hlayout, hhand, List.set_cons_succ,
      List.set_append_right _ _ (Nat.le_refl _), Nat.sub_self,
      List.replicate_succ, List.set_cons_zero, List.append_assoc]
    rfl
  rw [clockStep, if_pos hmem]
  simp only [clockLoop, hempty, hnone, Option.bind_eq_bind, Option.bind_some,
    ↓reduceIte, getInd_succ hpages.hand_pos hpages.hand_le, hset]

theorem ClockState.Pages.load (hpages : st.Pages K slots) (hroom : slots.length < K)
    (hpage : 0 ≤ page) (hmem : page ∉ st.eleSet) (vec : List (Int × Int)) :
    ClockState.Pages K
      { st with
        hand := if st.hand < K then st.hand + 1 else 1
        vec := vec
        eleSet := insert page st.eleSet }
      (slots ++ [(page, 1)]) := by
  have hhand := hpages.next_slot hroom
  have hout := hmem
  rw [hpages.eleSet_eq, List.mem_toFinset] at hout
  refine ⟨?_, ?_, fun p hp => ?_, ?_, ?_, fun h => ?_, ?_⟩
  · rw [List.map_append]
    refine List.Nodup.append hpages.nodup (List.nodup_singleton _) ?_
    rwa [List.map_singleton, List.disjoint_singleton]
  · rw [List.map_append, List.toFinset_append, hpages.eleSet_eq,
      Finset.insert_eq, Finset.union_comm]
    rfl
  · rcases Finset.mem_insert.mp hp with rfl | hp
    · exact hpage
    · exact hpages.nonneg p hp
  · simp only
    split <;> omega
  · have := hpages.hand_le
    simp only
    split <;> omega
  · rw [List.length_append, List.length_singleton] at h ⊢
    simp only
    rw [if_pos (by omega), hhand]
  · rw [List.length_append, List.length_singleton]
    exact hroom

theorem ClockState.Pages.hit (hpages : st.Pages K slots) {j : Nat}
    (hj : j < slots.length) (hits : Nat) (vec : List (Int × Int)) :
    ClockState.Pages K { st with hit := hits, vec := vec }
      (slots.set j (slots[j].1, 1)) := by
  have hmap := map_fst_set hj 1
  refine ⟨hmap ▸ hpages.nodup, hmap ▸ hpages.eleSet_eq, hpages.nonneg,
    hpages.hand_pos, hpages.hand_le, fun h => ?_, ?_⟩
  · rw [List.length_set] at h ⊢
    exact hpages.next_slot h
  · rw [List.length_set]
    exact hpages.length_le

theorem ClockState.Pages.replace (hpages : st.Pages K slots) (hmem : page ∉ st.eleSet)
    (hpage : 0 ≤ page) (hfull : slots.length = K) {slots' : List (Int × Int)}
    {hand : Nat} (hmap : slots'.map Prod.fst = slots.map Prod.fst)
    (hlt : hand < slots'.length) (vec : List (Int × Int)) :
    slots'[hand].1 ∈ st.eleSet ∧
      ClockState.Pages K
        { st with
          hand := if hand + 1 < K then hand + 1 + 1 else 1
          vec := vec
          eleSet := insert page (st.eleSet.erase slots'[hand].1) }
        (slots'.set hand (page, 1)) := by
  have hlt' : hand < (slots'.map Prod.fst).length := by rwa [List.length_map]
  have hlen : slots'.length = K := by
    rw [← List.length_map Prod.fst, hmap, List.length_map, hfull]
  have hnodup : (slots'.map Prod.fst).Nodup := hmap ▸ hpages.nodup
  have heleSet : st.eleSet = (slots'.map Prod.fst).toFinset :=
    hmap ▸ hpages.eleSet_eq
  refine ⟨?_, ?_, ?_, fun p hp => ?_, ?_, ?_, fun h => ?_, ?_⟩
  · rw [heleSet, List.mem_toFinset]
    exact List.mem_map_of_mem (List.getElem_mem hlt)
  · rw [List.map_set]
    refine List.Nodup.set hnodup ?_
    rwa [heleSet, List.mem_toFinset] at hmem
  · rw [List.map_set, toFinset_set hnodup hlt', ← heleSet, List.getElem_map]
  · rcases Finset.mem_insert.mp hp with rfl | hp
    · exact hpage
    · exact hpages.nonneg p (Finset.mem_of_mem_erase hp)
  · simp only
    split <;> omega
  · simp only
    split <;> omega
  · rw [List.length_set] at h
    omega
  · rw [List.length_set]
    omega

/-- The fuel of the loop is enough. -/
theorem countP_lt_length (hlayout : st.Layout slots m) :
    slots.countP (fun slot => slot.2 ≠ 0) < st.vec.length + 1 := by
  have hcount := @List.countP_le_length _ (fun slot : Int × Int => slot.2 ≠ 0) slots
  rw [hlayout, List.length_cons, List.length_append]
  omega

end ClockStep

theorem clockStep_spec {K i : Nat} {st : ClockState} {page : Int} {rest : List Int}
    (hpage : 0 ≤ page) (h : st.Inv K (page :: rest)) :
    ∃ st' gain, clockStep K i st page = some st' ∧ st'.Inv K rest ∧
      st'.hit = st.hit + gain ∧
      PagingStep K anyPage st.eleSet page rest st'.eleSet gain := by
  obtain ⟨slots, m, hlayout, hpages, hm⟩ := h
  rw [List.length_cons] at hm
  by_cases hmem : page ∈ st.eleSet
  · obtain ⟨j, hj, -, -, hstep⟩ := clockStep_hit hlayout hpages hpage hmem
    exact ⟨_, 1, hstep, ⟨_, m, rfl, hpages.hit hj _ _, by omega⟩, rfl,
      Or.inl ⟨hmem, rfl, rfl⟩⟩
  rcases Nat.lt_or_eq_of_le hpages.length_le with hroom | hfull
  · obtain ⟨m, rfl⟩ : ∃ m', m = m' + 1 := ⟨m - 1, by omega⟩
    exact ⟨_, 0, clockStep_load hlayout hpages hroom hmem,
      ⟨_, m, rfl, hpages.load hroom hpage hmem _, by omega⟩, rfl,
      Or.inr ⟨hmem, rfl, Or.inl ⟨hpages.card_eq ▸ hroom, rfl⟩⟩⟩
  · obtain ⟨slots', hand, hlt, hhand, hmap, -, hrun⟩ :=
      @clockLoop_spec _ _ _ page _ _ hlayout hpages hfull (countP_lt_length hlayout)
    obtain ⟨hvictim, hpages'⟩ := hpages.replace hmem hpage hfull hmap hlt
      ((-1, 0) :: (slots'.set hand (page, 1) ++ List.replicate m (-1, 0)))
    refine ⟨{ st with
        hand := if hand + 1 < K then hand + 1 + 1 else 1
        vec := (-1, 0) :: (slots'.set hand (page, 1) ++ List.replicate m (-1, 0))
        eleSet := insert page (st.eleSet.erase slots'[hand].1) }, 0, ?_,
      ⟨slots'.set hand (page, 1), m, rfl, hpages', by omega⟩, rfl,
      Or.inr ⟨hmem, rfl, Or.inr ⟨hpages.card_eq.trans hfull, _, hvictim, trivial,
        rfl⟩⟩⟩
    rw [clockStep, if_pos hmem, hrun]
    simp only [Option.bind_eq_bind, Option.bind_some,
      getInd_succ (Nat.le_add_left 1 hand) hhand]

theorem clock_demand {K : Nat} (hK : 1 ≤ K) {order : List Int}
    (hnonneg : ∀ page ∈ order, 0 ≤ page) :
    ∃ hits, clock K order = some hits ∧ DemandRun K ∅ order hits := by
  obtain ⟨st, hits, hrun, hhits, hpaging⟩ := @forOrder_run _ K anyPage (clockStep K)
    ClockState.eleSet ClockState.hit
    (fun _ rest st => st.Inv K rest ∧ ∀ page ∈ rest, 0 ≤ page)
    (fun h => by
      obtain ⟨st', gain, hrun, hinv, hhits, hstep⟩ :=
        clockStep_spec (List.forall_mem_cons.mp h.2).1 h.1
      exact ⟨st', gain, hrun, ⟨hinv, (List.forall_mem_cons.mp h.2).2⟩, hhits, hstep⟩)
    0 order ⟨0, 1, List.replicate (order.length + 1) (-1, 0), ∅⟩
    ⟨⟨[], order.length, List.replicate_succ,
      ⟨List.nodup_nil, rfl, by simp, Nat.le_refl _, hK, fun _ => rfl,
        Nat.zero_le _⟩, Nat.le_refl _⟩, hnonneg⟩
  refine ⟨hits, ?_, hpaging⟩
  rw [clock, hrun, Option.map_some, hhits, Nat.zero_add]

end PageReplacement

end PintosLabs
