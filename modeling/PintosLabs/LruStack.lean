/-
Least recently used as a stack: the cache holds the first pages of a stack on
which a request puts its page on top, and a request hits when its page lies
among the first.
-/
import PintosLabs.SameHits

namespace PintosLabs

namespace LruStack

variable {P : Type} [DecidableEq P]

/-- The pages of a history that has the latest request first, each once. -/
def stack : List P → List P
  | [] => []
  | p :: history => p :: (stack history).erase p

/-- The page was requested before, and fewer than `K` other pages since. -/
def Hit (K : Nat) (done : List P) (page : P) : Prop :=
  page ∈ done ∧ (done.reverse.takeWhile (· ≠ page)).toFinset.card < K

instance (K : Nat) (done : List P) (page : P) : Decidable (Hit K done page) :=
  inferInstanceAs (Decidable (_ ∧ _))

/-- The hits of the requests that are still to come. -/
def hits (K : Nat) : List P → List P → Nat
  | _, [] => 0
  | done, page :: rest => (if Hit K done page then 1 else 0) + hits K (done ++ [page]) rest

theorem hits_mono {K K' : Nat} (hK : K ≤ K') (done rest : List P) :
    hits K done rest ≤ hits K' done rest := by
  induction rest generalizing done with
  | nil => exact Nat.le_refl _
  | cons page rest ih =>
      refine Nat.add_le_add ?_ (ih _)
      split_ifs with hit hit'
      · exact Nat.le_refl _
      · exact absurd ⟨hit.1, Nat.lt_of_lt_of_le hit.2 hK⟩ hit'
      · exact Nat.zero_le _
      · exact Nat.le_refl _

theorem mem_stack {history : List P} {p : P} : p ∈ stack history ↔ p ∈ history := by
  induction history with
  | nil => exact Iff.rfl
  | cons q history ih =>
      rw [stack, List.mem_cons, List.mem_cons]
      by_cases hpq : p = q
      · exact iff_of_true (Or.inl hpq) (Or.inl hpq)
      · rw [List.mem_erase_of_ne hpq, ih]

theorem nodup_stack (history : List P) : (stack history).Nodup := by
  induction history with
  | nil => exact List.nodup_nil
  | cons q history ih =>
      rw [stack, List.nodup_cons]
      exact ⟨fun hmem => (ih.mem_erase_iff.mp hmem).1 rfl, ih.erase q⟩

/-- Above a page lie the pages requested since. -/
theorem stack_split {history : List P} {page : P} (hmem : page ∈ history) :
    ∃ above below, stack history = above ++ page :: below ∧
      above.toFinset = (history.takeWhile (· ≠ page)).toFinset := by
  induction history with
  | nil => exact absurd hmem List.not_mem_nil
  | cons q history ih =>
      by_cases hq : q = page
      · subst hq
        exact ⟨[], _, rfl, by simp⟩
      · obtain ⟨above, below, hsplit, hset⟩ :=
          ih ((List.mem_cons.mp hmem).resolve_left (Ne.symm hq))
        rw [stack, hsplit, List.takeWhile_cons_of_pos (by simpa using hq),
          List.toFinset_cons, ← hset]
        by_cases hin : q ∈ above
        · refine ⟨q :: above.erase q, below, ?_, ?_⟩
          · rw [List.erase_append_left _ hin, List.cons_append]
          · rw [List.toFinset_cons]
            ext p
            by_cases hp : p = q
            · simp [hp]
            · simp [hp, List.mem_erase_of_ne hp]
        · refine ⟨q :: above, below.erase q, ?_, List.toFinset_cons⟩
          rw [List.erase_append_right _ hin, List.erase_cons_tail (by simpa using Ne.symm hq),
            List.cons_append]

/-- A hit finds its page among the first of the stack. -/
theorem hit_iff {K : Nat} {done : List P} {page : P} :
    Hit K done page ↔ page ∈ (stack done.reverse).take K := by
  by_cases hmem : page ∈ done
  · obtain ⟨above, below, hsplit, hset⟩ := stack_split (List.mem_reverse.mpr hmem)
    have hnodup := nodup_stack done.reverse
    rw [hsplit] at hnodup
    obtain ⟨habove, -, hdisjoint⟩ := List.nodup_append.mp hnodup
    have hout : page ∉ above := fun hin => hdisjoint page hin page List.mem_cons_self rfl
    have hcard : (done.reverse.takeWhile (· ≠ page)).toFinset.card = above.length := by
      rw [← hset, List.toFinset_card_of_nodup habove]
    rw [Hit, hcard, hsplit, List.take_append, List.mem_append]
    constructor
    · rintro ⟨-, hlt⟩
      obtain ⟨n, hn⟩ : ∃ n, K - above.length = n + 1 := ⟨K - above.length - 1, by omega⟩
      rw [hn, List.take_succ_cons]
      exact Or.inr List.mem_cons_self
    · intro hin
      refine ⟨hmem, Nat.lt_of_not_le fun hle => ?_⟩
      rw [Nat.sub_eq_zero_of_le hle, List.take_zero] at hin
      exact hout (List.mem_of_mem_take (hin.resolve_right List.not_mem_nil))
  · refine iff_of_false (fun hit => hmem hit.1) fun hin => hmem ?_
    exact List.mem_reverse.mp (mem_stack.mp (List.mem_of_mem_take hin))

/-- A page among the first of the stack goes to its top. -/
theorem take_erase_of_mem {K : Nat} {pages : List P} {p : P} (hmem : p ∈ pages.take K) :
    (pages.take K).erase p = (pages.erase p).take (K - 1) := by
  induction pages generalizing K with
  | nil => rw [List.take_nil] at hmem; exact absurd hmem List.not_mem_nil
  | cons q pages ih =>
      obtain ⟨K, rfl⟩ : ∃ k, K = k + 1 := by
        cases K with
        | zero => exact absurd hmem List.not_mem_nil
        | succ k => exact ⟨k, rfl⟩
      rw [List.take_succ_cons] at hmem ⊢
      rw [Nat.add_sub_cancel]
      by_cases hq : q = p
      · rw [hq, List.erase_cons_head, List.erase_cons_head]
      · have hin := (List.mem_cons.mp hmem).resolve_left (Ne.symm hq)
        obtain ⟨K, rfl⟩ : ∃ k, K = k + 1 := by
          cases K with
          | zero => exact absurd hin List.not_mem_nil
          | succ k => exact ⟨k, rfl⟩
        rw [List.erase_cons_tail (by simpa using hq), List.erase_cons_tail (by simpa using hq),
          List.take_succ_cons, ih hin, Nat.add_sub_cancel]

/-- What lies below does not matter. -/
theorem take_erase_of_notMem {K : Nat} {pages : List P} {p : P} (hmem : p ∉ pages.take K) :
    (pages.erase p).take K = pages.take K := by
  induction pages generalizing K with
  | nil => rfl
  | cons q pages ih =>
      cases K with
      | zero => rfl
      | succ k =>
          rw [List.take_succ_cons, List.mem_cons, not_or] at hmem
          rw [List.erase_cons_tail (by simpa using Ne.symm hmem.1), List.take_succ_cons,
            ih hmem.2, List.take_succ_cons]

theorem stack_concat (done : List P) (page : P) :
    stack (done ++ [page]).reverse = page :: (stack done.reverse).erase page := by
  rw [List.reverse_append, List.reverse_singleton]
  rfl

end LruStack

namespace PageReplacement

open LruStack

/-- The list of `lru` is the first `K` pages of the stack, the top last. -/
structure LruState.Follows (K : Nat) (done : List Int) (st : LruState) : Prop where
  inv : st.pages.Inv
  card_le : st.pages.resident.card ≤ K
  recent_eq : Replacement.recent st = ((stack done.reverse).take K).reverse

theorem takeIn_take {K : Nat} (hK : 1 ≤ K) (pages : List Int) (page : Int) :
    Replacement.takeIn K (pages.take K).reverse page =
      (page :: pages.take (K - 1)).reverse := by
  rw [Replacement.takeIn, List.length_reverse, List.reverse_cons]
  congr 1
  split_ifs with hfull
  · rw [List.tail_reverse, List.dropLast_eq_take, hfull, List.take_take]
    rw [Nat.min_eq_left (Nat.sub_le K 1)]
  · rw [List.length_take] at hfull
    rw [List.take_of_length_le (by omega), List.take_of_length_le (by omega)]

theorem LruState.Follows.step {K i : Nat} {done : List Int} {st : LruState} (hK : 1 ≤ K)
    (h : st.Follows K done) (page : Int) :
    ∃ st', lruStep K i st page = some st' ∧ st'.Follows K (done ++ [page]) ∧
      st'.hit = st.hit + if Hit K done page then 1 else 0 := by
  obtain ⟨st', gain, hstep, hinv, -, hserved⟩ :=
    @lruStep_spec K i st page [] hK h.inv h.card_le
  have hrecent := Replacement.lruStep_recent h.inv hstep
  have hmem : page ∈ Replacement.recent st ↔ Hit K done page := by
    rw [h.recent_eq, List.mem_reverse, hit_iff]
  have htop : ((stack (done ++ [page]).reverse).take K).reverse =
      (page :: ((stack done.reverse).erase page).take (K - 1)).reverse := by
    rw [stack_concat, ← List.take_succ_cons, Nat.sub_add_cancel hK]
  have hnodup := nodup_stack done.reverse
  by_cases hit : Hit K done page
  · rw [if_pos (hmem.mpr hit), h.recent_eq] at hrecent
    refine ⟨st', hstep, ⟨hinv, hserved.card_le h.card_le, ?_⟩, ?_⟩
    · rw [hrecent.1, htop, ← take_erase_of_mem (hit_iff.mp hit),
        (hnodup.sublist (List.take_sublist K _)).erase_eq_filter, List.filter_reverse,
        List.reverse_cons]
      simp only [ne_eq, decide_not, bne]
      rfl
    · rw [hrecent.2, if_pos hit]
  · rw [if_neg (hmem.not.mpr hit), h.recent_eq, takeIn_take hK] at hrecent
    refine ⟨st', hstep, ⟨hinv, hserved.card_le h.card_le, ?_⟩, ?_⟩
    · have hout : page ∉ (stack done.reverse).take (K - 1) := fun hin =>
        hit (hit_iff.mpr (List.take_subset_take_left _ (Nat.sub_le K 1) hin))
      rw [hrecent.1, htop, take_erase_of_notMem hout]
    · rw [hrecent.2, if_neg hit]
      rfl

theorem LruState.Follows.run {K i : Nat} {before : List Int} {st : LruState}
    (hK : 1 ≤ K) (h : st.Follows K before) (done : List Int) :
    ∃ st', forOrder (lruStep K) i done st = some st' ∧ st'.Follows K (before ++ done) ∧
      st'.hit = st.hit + hits K before done := by
  induction done generalizing i st before with
  | nil => exact ⟨st, rfl, by rwa [List.append_nil], rfl⟩
  | cons page done ih =>
      obtain ⟨st₁, hstep, h₁, hhit₁⟩ := h.step (i := i) hK page
      obtain ⟨st', hrun, h', hhit⟩ := ih (i := i + 1) h₁
      refine ⟨st', ?_, ?_, ?_⟩
      · simp only [forOrder, hstep, Option.bind_eq_bind, Option.bind_some, hrun]
      · rwa [List.append_assoc] at h'
      · rw [hhit, hhit₁, hits, Nat.add_assoc]

theorem LruState.empty_follows (K : Nat) : LruState.Follows K [] ⟨0, .empty⟩ :=
  ⟨PageList.empty_inv, Nat.zero_le _, by simp [Replacement.recent, PageList.empty, stack]⟩

/-- A request hits exactly when its page was requested before and fewer than `K`
others since, so that more frames never have fewer hits. -/
theorem lru_is_stack {K : Nat} (hK : 1 ≤ K) (order : List Int) :
    (∀ done page rest, order = done ++ page :: rest → ∃ st st',
      forOrder (lruStep K) 0 done ⟨0, .empty⟩ = some st ∧
        lruStep K done.length st page = some st' ∧
        st'.hit = st.hit + if Hit K done page then 1 else 0) ∧
      lru K order = some (hits K [] order) ∧
      ∀ K' ≥ K, ∃ more, lru K' order = some more ∧ hits K [] order ≤ more := by
  have hlru : ∀ {K : Nat}, 1 ≤ K → lru K order = some (hits K [] order) := by
    intro K hK
    obtain ⟨st, hrun, -, hhit⟩ := (LruState.empty_follows K).run (i := 0) hK order
    rw [lru, hrun, Option.map_some, hhit, Nat.zero_add]
  refine ⟨fun done page rest _ => ?_, hlru hK, fun K' hle => ?_⟩
  · obtain ⟨st, hrun, h, -⟩ := (LruState.empty_follows K).run (i := 0) hK done
    obtain ⟨st', hstep, -, hhit⟩ := h.step (i := done.length) hK page
    rw [List.nil_append] at hhit
    exact ⟨st, st', hrun, hstep, hhit⟩
  · exact ⟨_, hlru (Nat.le_trans hK hle), hits_mono hle [] order⟩

/-- Page 7 comes back after one other page, and again after two. -/
example : hits 2 [] [7, 0, 7, 1, 0, 7] = 1 := by decide

namespace LruStackWitness

theorem lru_is_stack_two : lru 2 [7, 0, 7, 1, 0, 7] =
    some (hits 2 [] [7, 0, 7, 1, 0, 7]) :=
  (lru_is_stack (K := 2) (by decide) [7, 0, 7, 1, 0, 7]).2.1

end LruStackWitness

end PageReplacement

end PintosLabs
