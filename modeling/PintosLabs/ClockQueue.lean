/-
The clock of lab9 is the second-chance queue: read off from the hand on, its
slots are the queue, front first.
-/
import PintosLabs.ClockFrames
import PintosLabs.SecondChance
import Mathlib.Data.List.Rotate

namespace PintosLabs

namespace SecondChance

universe u

variable {P : Type u} [DecidableEq P]

/-- The requests for pages that are in the queue of `K` frames. -/
def hits (K : Nat) : Queue P → List P → Nat
  | _, [] => 0
  | q, p :: rest =>
      (if p ∈ pages q then 1 else 0) + hits K ((textbook K).step q p).1 rest

theorem step_hit {K : Nat} {q : Queue P} {p : P} (hmem : p ∈ pages q) :
    ((textbook K).step q p).1 = touch p q := by
  rw [textbook]
  simp only [if_pos hmem]

theorem step_room {K : Nat} {q : Queue P} {p : P} (hmem : p ∉ pages q)
    (hroom : q.length < K) : ((textbook K).step q p).1 = q ++ [(p, true)] := by
  rw [textbook]
  simp only [if_neg hmem, load, if_pos hroom]

theorem step_full {K : Nat} {q rest : Queue P} {p victim : P} {bit : Bool}
    (hmem : p ∉ pages q) (hfull : q.length = K)
    (hturn : turn (q.length + 1) q = (victim, bit) :: rest) :
    ((textbook K).step q p).1 = rest ++ [(p, true)] := by
  rw [textbook]
  simp only [if_neg hmem, load, hturn]
  rw [if_neg (by omega)]

end SecondChance

/-- A list from one of its places on, and the same with that place written. -/
theorem rotate_set {α : Type} {slots : List α} {hand : Nat} (hlt : hand < slots.length)
    (slot : α) : ∃ rest, slots.rotate hand = slots[hand] :: rest ∧
      (slots.set hand slot).rotate (if hand + 1 < slots.length then hand + 1 else 0) =
        rest ++ [slot] := by
  obtain ⟨first, hfirst⟩ : ∃ first, slots[hand] = first := ⟨_, rfl⟩
  obtain ⟨before, after, hsplit, hlen⟩ : ∃ before after,
      slots = before ++ first :: after ∧ before.length = hand :=
    ⟨slots.take hand, slots.drop (hand + 1), by simp [← hfirst], by simp; omega⟩
  rw [hfirst]
  refine ⟨after ++ before, ?_, ?_⟩
  · conv_lhs => rw [hsplit, ← hlen, List.rotate_append_length_eq]
    rw [List.cons_append]
  · have hset : slots.set hand slot = (before ++ [slot]) ++ after := by
      conv_lhs => rw [hsplit, ← hlen, List.set_append_right _ _ (Nat.le_refl _),
        Nat.sub_self, List.set_cons_zero]
      rw [List.append_assoc]
      rfl
    have hlength : slots.length = hand + 1 + after.length := by
      conv_lhs => rw [hsplit, List.length_append, List.length_cons, hlen]
      omega
    rw [hset]
    split_ifs with hnext
    · have hlen' : (before ++ [slot]).length = hand + 1 := by
        rw [List.length_append, hlen, List.length_singleton]
      rw [← hlen', List.rotate_append_length_eq, List.append_assoc]
    · obtain rfl : after = [] := List.length_eq_zero_iff.mp (by omega)
      rw [List.rotate_zero, List.append_nil, List.nil_append]

namespace PageReplacement

/-- A slot as an element of the queue. -/
def seen (slot : Int × Int) : Int × Bool := (slot.1, decide (slot.2 ≠ 0))

/-- The slots from the hand on. -/
def queueOf (slots : List (Int × Int)) (hand : Nat) : SecondChance.Queue Int :=
  (slots.rotate hand).map seen

@[simp] theorem length_queueOf (slots : List (Int × Int)) (hand : Nat) :
    (queueOf slots hand).length = slots.length := by
  rw [queueOf, List.length_map, List.length_rotate]

theorem mem_queueOf {slots : List (Int × Int)} {hand : Nat} {page : Int} :
    page ∈ SecondChance.pages (queueOf slots hand) ↔ page ∈ slots.map Prod.fst := by
  have hpages : SecondChance.pages (queueOf slots hand) =
      (slots.rotate hand).map Prod.fst := by
    rw [SecondChance.pages, queueOf, List.map_map]
    rfl
  rw [hpages, List.map_rotate, List.mem_rotate]

/-- A hit sets the bit of the only slot with the page. -/
theorem queueOf_touch {slots : List (Int × Int)} {hand j : Nat}
    (hnodup : (slots.map Prod.fst).Nodup) (hj : j < slots.length) :
    queueOf (slots.set j (slots[j].1, 1)) hand =
      SecondChance.touch slots[j].1 (queueOf slots hand) := by
  have hset : (slots.set j (slots[j].1, 1)).map seen =
      SecondChance.touch slots[j].1 (slots.map seen) := by
    rw [SecondChance.touch]
    refine List.ext_getElem (by simp) fun i hi hi' => ?_
    rw [List.length_map, List.length_set] at hi
    rw [List.getElem_map, List.getElem_map, List.getElem_map, List.getElem_set]
    by_cases hij : j = i
    · subst hij
      rw [if_pos rfl, if_pos (show (seen slots[j]).1 = slots[j].1 from rfl)]
      rfl
    · have hne : (seen slots[i]).1 ≠ slots[j].1 := by
        intro heq
        have hj' : j < (slots.map Prod.fst).length := by rwa [List.length_map]
        have hi' : i < (slots.map Prod.fst).length := by rwa [List.length_map]
        have hpage : (slots.map Prod.fst)[j] = (slots.map Prod.fst)[i] := by
          rw [List.getElem_map, List.getElem_map]
          exact heq.symm
        exact hij ((hnodup.getElem_inj_iff).mp hpage)
      rw [if_neg hij, if_neg hne]
  unfold queueOf
  rw [List.map_rotate, hset, List.map_rotate]
  exact (List.map_rotate _ _ _).symm

/-- The hand goes round the slots as the pages of the queue move to its back. -/
theorem turn_queueOf {n hand : Nat} {slots : List (Int × Int)} (hlt : hand < slots.length) :
    SecondChance.turn n (queueOf slots hand) =
      queueOf (sweep n hand slots).1 (sweep n hand slots).2 := by
  induction n generalizing hand slots with
  | zero => rfl
  | succ n ih =>
      obtain ⟨rest, hrotate, hset⟩ := rotate_set hlt (slots[hand].1, 0)
      have hqueue : queueOf slots hand = seen slots[hand] :: rest.map seen := by
        rw [queueOf, hrotate, List.map_cons]
      rw [sweep_cons hlt, hqueue]
      by_cases hover : slots[hand].2 = 0
      · have hbit : seen slots[hand] = (slots[hand].1, false) := by
          rw [seen, hover]
          rfl
        rw [if_pos hover, hbit, SecondChance.turn_stop, ← hbit, hqueue]
      · have hbit : seen slots[hand] = (slots[hand].1, true) := by
          rw [seen, decide_eq_true hover]
        have hnext : (if hand + 1 < slots.length then hand + 1 else 0) <
            (slots.set hand (slots[hand].1, 0)).length := by
          rw [List.length_set]
          split <;> omega
        rw [if_neg hover, ← ih hnext, hbit, SecondChance.turn, queueOf, hset,
          List.map_append]
        rfl

/-- The clock before the requests that are still to come, and the queue. -/
def ClockState.Reads (K : Nat) (rest : List Int) (st : ClockState)
    (q : SecondChance.Queue Int) : Prop :=
  ∃ slots m, st.Layout slots m ∧ st.Pages K slots ∧ rest.length ≤ m ∧
    q = queueOf slots (st.hand - 1)

/-- As long as slots are empty, the queue is as the slots are. -/
theorem queueOf_filling {slots : List (Int × Int)} {hand : Nat}
    (hhand : hand = slots.length ∨ hand = 0) : queueOf slots hand = slots.map seen := by
  rcases hhand with rfl | rfl
  · rw [queueOf, List.rotate_length]
  · rw [queueOf, List.rotate_zero]

theorem ClockState.Reads.step {K i : Nat} {st : ClockState} {q : SecondChance.Queue Int}
    {page : Int} {rest : List Int} (hpage : 0 ≤ page) (h : st.Reads K (page :: rest) q) :
    ∃ st', clockStep K i st page = some st' ∧
      st'.Reads K rest ((SecondChance.textbook K).step q page).1 ∧
      st'.hit = st.hit + if page ∈ SecondChance.pages q then 1 else 0 := by
  obtain ⟨slots, m, hlayout, hpages, hm, rfl⟩ := h
  rw [List.length_cons] at hm
  have hmem_iff : page ∈ SecondChance.pages (queueOf slots (st.hand - 1)) ↔
      page ∈ st.eleSet := by
    rw [mem_queueOf, hpages.eleSet_eq, List.mem_toFinset]
  by_cases hmem : page ∈ st.eleSet
  · obtain ⟨j, hj, -, rfl, hstep⟩ := clockStep_hit hlayout hpages hpage hmem
    rw [if_pos (hmem_iff.mpr hmem), SecondChance.step_hit (hmem_iff.mpr hmem)]
    exact ⟨_, hstep, ⟨_, m, rfl, hpages.hit hj _ _, by omega,
      (queueOf_touch hpages.nodup hj).symm⟩, rfl⟩
  have hout := hmem_iff.not.mpr hmem
  rw [if_neg hout]
  rcases Nat.lt_or_eq_of_le hpages.length_le with hroom | hfull
  · obtain ⟨m, rfl⟩ : ∃ m', m = m' + 1 := ⟨m - 1, by omega⟩
    have hhand := hpages.next_slot hroom
    refine ⟨_, clockStep_load hlayout hpages hroom hmem, ⟨_, m, rfl,
      hpages.load hroom hpage hmem _, by omega, ?_⟩, rfl⟩
    rw [SecondChance.step_room hout (by rwa [length_queueOf]),
      queueOf_filling (Or.inl (by omega)), queueOf_filling, List.map_append]
    · rfl
    · rw [List.length_append, List.length_singleton]
      simp only
      split <;> omega
  · obtain ⟨slots', hand, hlt, hhand, hmap, hsweep, hrun⟩ :=
      @clockLoop_spec _ _ _ page _ _ hlayout hpages hfull (countP_lt_length hlayout)
    obtain ⟨-, hpages'⟩ := hpages.replace hmem hpage hfull hmap hlt
      ((-1, 0) :: (slots'.set hand (page, 1) ++ List.replicate m (-1, 0)))
    have hlen' : slots'.length = K := by
      rw [← List.length_map Prod.fst, hmap, List.length_map, hfull]
    have hstart : st.hand - 1 < slots.length := by
      have := hpages.hand_le
      have := hpages.hand_pos
      omega
    -- the loop has more fuel than there are slots
    have hcount := @List.countP_le_length _ (fun slot : Int × Int => slot.2 ≠ 0) slots
    have hturn : SecondChance.turn (slots.length + 1) (queueOf slots (st.hand - 1)) =
        (slots'.rotate hand).map seen := by
      rw [turn_queueOf hstart, Replacement.sweep_fuel hstart
        (Nat.lt_succ_of_le hcount) (countP_lt_length hlayout), hsweep]
      rfl
    obtain ⟨after, hrotate, hset⟩ := rotate_set hlt ((page, 1) : Int × Int)
    rw [hrotate, List.map_cons] at hturn
    refine ⟨{ st with
        hand := if hand + 1 < K then hand + 1 + 1 else 1
        vec := (-1, 0) :: (slots'.set hand (page, 1) ++ List.replicate m (-1, 0))
        eleSet := insert page (st.eleSet.erase slots'[hand].1) }, ?_,
      ⟨slots'.set hand (page, 1), m, rfl, hpages', by omega, ?_⟩, rfl⟩
    · rw [clockStep, if_pos hmem, hrun]
      simp only [Option.bind_eq_bind, Option.bind_some,
        getInd_succ (Nat.le_add_left 1 hand) hhand]
    · rw [SecondChance.step_full hout (by rw [length_queueOf, hfull])
        (by rw [length_queueOf]; exact hturn)]
      have hnext : (if hand + 1 < K then hand + 1 + 1 else 1) - 1 =
          if hand + 1 < slots'.length then hand + 1 else 0 := by
        rw [hlen']
        split <;> rfl
      simp only [hnext]
      rw [queueOf, hset, List.map_append]
      rfl

theorem ClockState.Reads.run {K i : Nat} {st : ClockState} {q : SecondChance.Queue Int}
    {done rest : List Int} (hnonneg : ∀ page ∈ done, 0 ≤ page)
    (h : st.Reads K (done ++ rest) q) :
    ∃ st' q', forOrder (clockStep K) i done st = some st' ∧ st'.Reads K rest q' ∧
      st'.hit = st.hit + SecondChance.hits K q done := by
  induction done generalizing i st q with
  | nil => exact ⟨st, q, rfl, h, rfl⟩
  | cons page done ih =>
      rw [List.forall_mem_cons] at hnonneg
      obtain ⟨st₁, hstep, h₁, hhit₁⟩ := h.step (i := i) hnonneg.1
      obtain ⟨st', q', hrun, h', hhit⟩ := ih (i := i + 1) hnonneg.2 h₁
      refine ⟨st', q', ?_, h', ?_⟩
      · simp only [forOrder, hstep, Option.bind_eq_bind, Option.bind_some, hrun]
      · rw [hhit, hhit₁, SecondChance.hits, Nat.add_assoc]

/-- The slot `i` holds the page. -/
def ClockState.Holds (st : ClockState) (i : Nat) (page : Int) : Prop :=
  (st.vec[i]?).map Prod.fst = some page

theorem ClockState.Layout.holds_iff {st : ClockState} {slots : List (Int × Int)} {m i : Nat}
    (h : st.Layout slots m) {page : Int} (hpage : page ≠ -1) :
    st.Holds i page ↔ ∃ j, i = j + 1 ∧ (slots.map Prod.fst)[j]? = some page := by
  unfold ClockState.Holds
  rw [h, ← List.getElem?_map, List.map_cons]
  cases i with
  | zero =>
      refine iff_of_false (fun heq => hpage ?_) (by rintro ⟨j, hj, -⟩; omega)
      exact (Option.some.inj heq).symm
  | succ j =>
      rw [List.getElem?_cons_succ, List.map_append, List.map_replicate]
      constructor
      · intro heq
        refine ⟨j, rfl, ?_⟩
        rcases Nat.lt_or_ge j (slots.map Prod.fst).length with hlt | hge
        · rwa [List.getElem?_append_left hlt] at heq
        · rw [List.getElem?_append_right hge] at heq
          exact absurd (List.eq_of_mem_replicate (List.mem_of_getElem? heq)) hpage
      · rintro ⟨j', hj, heq⟩
        obtain rfl : j = j' := by omega
        rw [List.getElem?_append_left (List.getElem?_eq_some_iff.mp heq).1, heq]

/-- The set is that of the pages in the occupied slots, and each page has one slot,
among the slots `1` to `K`. -/
theorem ClockState.Pages.slots {K m : Nat} {st : ClockState} {slots : List (Int × Int)}
    (hlayout : st.Layout slots m) (hpages : st.Pages K slots) :
    (∀ page, page ∈ st.eleSet ↔ page ≠ -1 ∧ ∃ i, 1 ≤ i ∧ i ≤ K ∧ st.Holds i page) ∧
      ∀ page ∈ st.eleSet, ∃! i, st.Holds i page := by
  have hnonneg : ∀ page ∈ st.eleSet, page ≠ -1 := fun page hmem => by
    have := hpages.nonneg page hmem
    omega
  have hmem : ∀ page, page ∈ st.eleSet ↔
      ∃ j < slots.length, (slots.map Prod.fst)[j]? = some page := by
    intro page
    rw [hpages.eleSet_eq, List.mem_toFinset, List.mem_iff_getElem?]
    constructor
    · rintro ⟨j, hj⟩
      have hlt := (List.getElem?_eq_some_iff.mp hj).1
      rw [List.length_map] at hlt
      exact ⟨j, hlt, hj⟩
    · rintro ⟨j, -, hj⟩
      exact ⟨j, hj⟩
  refine ⟨fun page => ⟨fun hin => ⟨hnonneg page hin, ?_⟩, ?_⟩, fun page hin => ?_⟩
  · obtain ⟨j, hlt, hj⟩ := (hmem page).mp hin
    have := hpages.length_le
    exact ⟨j + 1, by omega, by omega, (hlayout.holds_iff (hnonneg page hin)).mpr
      ⟨j, rfl, hj⟩⟩
  · rintro ⟨hne, i, -, -, hholds⟩
    obtain ⟨j, -, hj⟩ := (hlayout.holds_iff hne).mp hholds
    rw [hpages.eleSet_eq, List.mem_toFinset]
    exact List.mem_of_getElem? hj
  · obtain ⟨j, -, hj⟩ := (hmem page).mp hin
    refine ⟨j + 1, (hlayout.holds_iff (hnonneg page hin)).mpr ⟨j, rfl, hj⟩,
      fun i hi => ?_⟩
    obtain ⟨j', rfl, hj'⟩ := (hlayout.holds_iff (hnonneg page hin)).mp hi
    rw [(List.getElem?_inj (List.getElem?_eq_some_iff.mp hj).1 hpages.nodup).mp
      (hj.trans hj'.symm)]

/-- The clock has the hits of the second-chance queue, and after every request its
set is that of the pages in the occupied slots, each of which holds a page of
its own. -/
theorem clock_is_queue {K : Nat} (hK : 1 ≤ K) {order : List Int}
    (hnonneg : ∀ page ∈ order, 0 ≤ page) :
    clock K order = some (SecondChance.hits K [] order) ∧
      ∀ done rest, order = done ++ rest → ∃ st,
        forOrder (clockStep K) 0 done
          ⟨0, 1, List.replicate (order.length + 1) (-1, 0), ∅⟩ = some st ∧
        (∀ page, page ∈ st.eleSet ↔
          page ≠ -1 ∧ ∃ i, 1 ≤ i ∧ i ≤ K ∧ st.Holds i page) ∧
        ∀ page ∈ st.eleSet, ∃! i, st.Holds i page := by
  have hstart : ClockState.Reads K order
      ⟨0, 1, List.replicate (order.length + 1) (-1, 0), ∅⟩ [] :=
    ⟨[], order.length, List.replicate_succ,
      ⟨List.nodup_nil, rfl, by simp, Nat.le_refl _, hK, fun _ => rfl, Nat.zero_le _⟩,
      Nat.le_refl _, rfl⟩
  constructor
  · have hall := hstart
    rw [← List.append_nil order] at hall
    obtain ⟨st, q, hrun, -, hhit⟩ := hall.run (i := 0) hnonneg
    rw [List.append_nil] at hrun
    rw [clock, hrun, Option.map_some, hhit, Nat.zero_add]
  · rintro done rest hsplit
    have hdone := hstart
    rw [hsplit] at hdone hnonneg
    obtain ⟨st, q, hrun, ⟨slots, m, hlayout, hpages, -, -⟩, -⟩ := hdone.run (i := 0)
      fun page hpage => hnonneg page (List.mem_append_left rest hpage)
    rw [hsplit]
    exact ⟨st, hrun, ClockState.Pages.slots hlayout hpages⟩

namespace ClockQueueWitness

theorem clock_is_queue_two : clock 2 [7, 0, 7, 1, 7] =
    some (SecondChance.hits 2 [] [7, 0, 7, 1, 7]) :=
  (clock_is_queue (K := 2) (by decide)
    (show ∀ page ∈ [7, 0, 7, 1, 7], (0 : Int) ≤ page by decide)).1

end ClockQueueWitness

end PageReplacement

end PintosLabs
