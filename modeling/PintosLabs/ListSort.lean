/-
Sorting of lists by comparing elements (lib/kernel/list.c): ordered insertion
and the natural merge sort.  A sort can be run at once, with one comparison
function, or one comparison at a time while what is compared changes.
-/
import Mathlib.Algebra.Ring.Int.Defs
import Mathlib.Algebra.Ring.Nat
import Mathlib.Data.List.Sort
import Mathlib.Order.Defs.LinearOrder

namespace PintosLabs

/-- A computation that compares elements on its way; an assertion in it may
fail. -/
inductive Comparing (α β : Type) where
  | done (result : β)
  | failed
  | compare (x y : α) (next : Bool → Comparing α β)

namespace Comparing

variable {α β γ : Type}

def bind : Comparing α β → (β → Comparing α γ) → Comparing α γ
  | done result, f => f result
  | failed, _ => failed
  | compare x y next, f => compare x y fun answer => (next answer).bind f

instance : Monad (Comparing α) where
  pure := done
  bind := bind

/-- All comparisons are answered by one function. -/
def run (less : α → α → Bool) : Comparing α β → Option β
  | done result => some result
  | failed => none
  | compare x y next => (next (less x y)).run less

variable {less : α → α → Bool}

@[simp] theorem run_pure (result : β) :
    (pure result : Comparing α β).run less = some result := rfl

@[simp] theorem run_compare (x y : α) (next : Bool → Comparing α β) :
    (compare x y next).run less = (next (less x y)).run less := rfl

@[simp] theorem run_bind (c : Comparing α β) (f : β → Comparing α γ) :
    (c >>= f).run less = (c.run less).bind fun result => (f result).run less := by
  change (c.bind f).run less = _
  induction c with
  | done result => rfl
  | failed => rfl
  | compare x y next ih => exact ih (less x y)

def assert (holds : Bool) : Comparing α Unit := if holds then done () else failed

end Comparing

section Sorting

variable {α : Type}

/-- The loop of `is_sorted`, behind an element. -/
def isSortedAfter : α → List α → Comparing α Bool
  | _, [] => pure true
  | before, x :: rest =>
      .compare x before fun less =>
        if less then pure false else isSortedAfter x rest

def isSorted : List α → Comparing α Bool
  | [] => pure true
  | x :: rest => isSortedAfter x rest

/-- `find_end_of_run`, behind an element: the rest of its run and what comes
after the run. -/
def findEndOfRun : α → List α → Comparing α (List α × List α)
  | _, [] => pure ([], [])
  | before, x :: rest =>
      .compare x before fun less =>
        if less then pure ([], x :: rest)
        else do
          let (run, after) ← findEndOfRun x rest
          pure (x :: run, after)

/-- The loop of `inplace_merge` while `a0` stays at `x`. -/
def mergeBefore (x : α) (rest : List α)
    (mergeRest : List α → Comparing α (List α)) :
    List α → Comparing α (List α)
  | [] => pure (x :: rest)
  | y :: ys =>
      .compare y x fun less =>
        if less then do
          let merged ← mergeBefore x rest mergeRest ys
          pure (y :: merged)
        else do
          let merged ← mergeRest (y :: ys)
          pure (x :: merged)

def mergeLists : List α → List α → Comparing α (List α)
  | [] => pure
  | x :: rest => mergeBefore x rest (mergeLists rest)

def inplaceMerge (xs ys : List α) : Comparing α (List α) := do
  let first ← isSorted xs
  Comparing.assert first
  let second ← isSorted ys
  Comparing.assert second
  mergeLists xs ys

/-- One pass of `list_sort` over a list of at most so many elements: adjacent
runs are merged, and the runs put out are counted. -/
def sortPass : Nat → List α → Comparing α (List α × Nat)
  | 0, xs => pure (xs, 0)
  | _ + 1, [] => pure ([], 0)
  | n + 1, x :: rest => do
      let (run, after) ← findEndOfRun x rest
      match after with
      | [] => pure (x :: run, 1)
      | y :: rest => do
          let (run', after') ← findEndOfRun y rest
          let merged ← inplaceMerge (x :: run) (y :: run')
          let (sorted, count) ← sortPass n after'
          pure (merged ++ sorted, count + 1)

/-- `list_sort`, of at most so many passes. -/
def listSortPasses (less : α → α → Bool) : Nat → List α → Option (List α)
  | 0, _ => none
  | n + 1, xs => do
      let (ys, count) ← (sortPass xs.length xs).run less
      if count > 1 then listSortPasses less n ys
      else do
        let sorted ← (isSorted ys).run less
        if sorted then some ys else none

def listSort (less : α → α → Bool) (xs : List α) : Option (List α) :=
  listSortPasses less (xs.length + 1) xs

end Sorting

/-! What the sort does with a comparison by a key, the greatest first. -/

section ByKey

variable {α κ : Type} [LinearOrder κ] (key : α → κ)

/-- `list_less_func` of a list that has the greatest key first. -/
def byKey (x y : α) : Bool := decide (key x > key y)

abbrev Descending (xs : List α) : Prop := xs.Pairwise fun x y => key y ≤ key x

/-- How often an element is followed by one with a greater key. -/
def ascents : List α → Nat
  | [] => 0
  | [_] => 0
  | x :: y :: rest => (if key y > key x then 1 else 0) + ascents (y :: rest)

variable {key}

theorem descending_cons_cons {x y : α} {rest : List α} :
    Descending key (x :: y :: rest) ↔
      key y ≤ key x ∧ Descending key (y :: rest) := by
  rw [Descending, List.pairwise_cons]
  refine and_congr_left fun h => ⟨fun hx => hx y List.mem_cons_self, fun hyx => ?_⟩
  rw [List.pairwise_cons] at h
  exact List.forall_mem_cons.mpr ⟨hyx, fun z hz => (h.1 z hz).trans hyx⟩

theorem descending_iff_ascents {xs : List α} :
    Descending key xs ↔ ascents key xs = 0 := by
  induction xs with
  | nil => simp [ascents]
  | cons x rest ih =>
      cases rest with
      | nil => simp [ascents]
      | cons y rest =>
          rw [descending_cons_cons, ih, ascents]
          split
          case isTrue h => simp [h]
          case isFalse h => simp [not_lt.mp h]

theorem ascents_append_le (xs ys : List α) :
    ascents key (xs ++ ys) ≤ ascents key xs + 1 + ascents key ys := by
  induction xs with
  | nil => exact Nat.le_add_left _ _
  | cons x rest ih =>
      cases rest with
      | nil =>
          cases ys with
          | nil => simp [ascents]
          | cons y ys =>
              rw [List.singleton_append, ascents, ascents]
              split <;> omega
      | cons y rest =>
          rw [List.cons_append, List.cons_append, ascents, ascents]
          rw [List.cons_append] at ih
          omega

theorem run_isSortedAfter (x : α) (rest : List α) :
    (isSortedAfter x rest).run (byKey key) =
      some (decide (Descending key (x :: rest))) := by
  induction rest generalizing x with
  | nil => simp [isSortedAfter]
  | cons y rest ih =>
      rw [isSortedAfter, Comparing.run_compare, byKey]
      by_cases h : key y > key x
      · rw [if_pos (decide_eq_true h)]
        simp only [Comparing.run_pure, descending_cons_cons, not_le.mpr h, false_and,
          decide_false]
      · rw [if_neg (by simpa using h), ih]
        simp only [descending_cons_cons, not_lt.mp h, true_and]

theorem run_isSorted (xs : List α) :
    (isSorted xs).run (byKey key) = some (decide (Descending key xs)) := by
  cases xs with
  | nil => simp [isSorted]
  | cons x rest => exact run_isSortedAfter x rest

/-- A run is descending, and ends where the keys go up or the list ends. -/
theorem run_findEndOfRun (x : α) (rest : List α) :
    ∃ run after, (findEndOfRun x rest).run (byKey key) = some (run, after) ∧
      rest = run ++ after ∧ Descending key (x :: run) ∧
      ascents key (x :: rest) = ascents key after + if after = [] then 0 else 1 := by
  induction rest generalizing x with
  | nil => exact ⟨[], [], rfl, rfl, List.pairwise_singleton _ _, rfl⟩
  | cons y rest ih =>
      rw [findEndOfRun]
      by_cases h : key y > key x
      · refine ⟨[], y :: rest, ?_, rfl, List.pairwise_singleton _ _, ?_⟩
        · rw [Comparing.run_compare, byKey, if_pos (decide_eq_true h)]
          rfl
        · rw [ascents, if_pos h, if_neg (List.cons_ne_nil _ _), Nat.add_comm]
      · obtain ⟨run, after, hrun, rfl, hdescending, hascents⟩ := ih y
        refine ⟨y :: run, after, ?_, rfl,
          descending_cons_cons.mpr ⟨not_lt.mp h, hdescending⟩, ?_⟩
        · rw [Comparing.run_compare, byKey, if_neg (by simpa using h),
            Comparing.run_bind, hrun]
          rfl
        · rw [ascents, if_neg h, Nat.zero_add, hascents]

theorem run_mergeBefore {x : α} {rest : List α}
    {mergeRest : List α → Comparing α (List α)} {ys : List α}
    (hmerge : ∀ ys, Descending key ys → ∃ merged,
      (mergeRest ys).run (byKey key) = some merged ∧ merged.Perm (rest ++ ys) ∧
      Descending key merged)
    (hx : Descending key (x :: rest)) (hys : Descending key ys) :
    ∃ merged, (mergeBefore x rest mergeRest ys).run (byKey key) = some merged ∧
      merged.Perm (x :: rest ++ ys) ∧ Descending key merged := by
  induction ys with
  | nil => exact ⟨x :: rest, rfl, by simp, hx⟩
  | cons y ys ih =>
      rw [Descending, List.pairwise_cons] at hx hys
      rw [mergeBefore, Comparing.run_compare, byKey]
      by_cases h : key y > key x
      · obtain ⟨merged, hrun, hperm, hdescending⟩ := ih hys.2
        refine ⟨y :: merged, ?_, (hperm.cons y).trans List.perm_middle.symm, ?_⟩
        · rw [if_pos (decide_eq_true h), Comparing.run_bind, hrun]
          rfl
        · refine List.pairwise_cons.mpr ⟨fun z hz => ?_, hdescending⟩
          rcases List.mem_append.mp (hperm.mem_iff.mp hz) with hz | hz
          · rcases List.mem_cons.mp hz with rfl | hz
            · exact h.le
            · exact (hx.1 z hz).trans h.le
          · exact hys.1 z hz
      · obtain ⟨merged, hrun, hperm, hdescending⟩ :=
          hmerge (y :: ys) (List.pairwise_cons.mpr hys)
        refine ⟨x :: merged, ?_, hperm.cons x, ?_⟩
        · rw [if_neg (by simpa using h), Comparing.run_bind, hrun]
          rfl
        · refine List.pairwise_cons.mpr ⟨fun z hz => ?_, hdescending⟩
          rcases List.mem_append.mp (hperm.mem_iff.mp hz) with hz | hz
          · exact hx.1 z hz
          · rcases List.mem_cons.mp hz with rfl | hz
            · exact not_lt.mp h
            · exact (hys.1 z hz).trans (not_lt.mp h)

theorem run_mergeLists {xs ys : List α} (hxs : Descending key xs)
    (hys : Descending key ys) :
    ∃ merged, (mergeLists xs ys).run (byKey key) = some merged ∧
      merged.Perm (xs ++ ys) ∧ Descending key merged := by
  induction xs generalizing ys with
  | nil => exact ⟨ys, rfl, .refl _, hys⟩
  | cons x rest ih => exact run_mergeBefore (fun _ => ih (hxs.sublist (by simp))) hxs hys

theorem run_inplaceMerge {xs ys : List α} (hxs : Descending key xs)
    (hys : Descending key ys) :
    ∃ merged, (inplaceMerge xs ys).run (byKey key) = some merged ∧
      merged.Perm (xs ++ ys) ∧ Descending key merged := by
  obtain ⟨merged, hrun, hperm, hdescending⟩ := run_mergeLists hxs hys
  refine ⟨merged, ?_, hperm, hdescending⟩
  simp only [inplaceMerge, Comparing.run_bind, run_isSorted, hxs, hys, hrun,
    decide_true, Option.bind_some, Comparing.assert, ↓reduceIte, Comparing.run]

/-- A pass halves the number of runs. -/
theorem run_sortPass {n : Nat} {xs : List α} (hn : xs.length ≤ n) :
    ∃ ys count, (sortPass n xs).run (byKey key) = some (ys, count) ∧ ys.Perm xs ∧
      2 * count ≤ ascents key xs + 2 ∧ ascents key ys ≤ count - 1 ∧
      (xs ≠ [] → 0 < count) := by
  induction n generalizing xs with
  | zero =>
      rw [List.length_eq_zero_iff.mp (Nat.le_zero.mp hn)]
      exact ⟨[], 0, rfl, .refl _, by simp, Nat.le_refl _, by simp⟩
  | succ n ih =>
      cases xs with
      | nil => exact ⟨[], 0, rfl, .refl _, by simp, Nat.le_refl _, by simp⟩
      | cons x rest =>
          obtain ⟨run, after, hrun, rfl, hdescending, hascents⟩ :=
            @run_findEndOfRun _ _ _ key x rest
          rw [sortPass]
          cases after with
          | nil =>
              refine ⟨x :: run, 1, by rw [Comparing.run_bind, hrun]; rfl,
                by rw [List.append_nil], by omega, ?_, by simp⟩
              rw [descending_iff_ascents.mp hdescending]
          | cons y rest =>
              rw [if_neg (List.cons_ne_nil _ _)] at hascents
              obtain ⟨run', after', hrun', rfl, hdescending', hascents'⟩ :=
                @run_findEndOfRun _ _ _ key y rest
              obtain ⟨merged, hmerge, hmerged, hsorted⟩ :=
                run_inplaceMerge hdescending hdescending'
              simp only [List.length_cons, List.length_append] at hn
              obtain ⟨ys, count, hpass, hperm, hcount, hruns, hpos⟩ :=
                @ih after' (by omega)
              have hzero := descending_iff_ascents.mp hsorted
              have hjoin := @ascents_append_le _ _ _ key merged ys
              refine ⟨merged ++ ys, count + 1, ?_, ?_, ?_, ?_, by simp⟩
              · simp only [Comparing.run_bind, hrun, hrun', hmerge, hpass,
                  Option.bind_some, Comparing.run_pure]
              · refine (hmerged.append hperm).trans ?_
                simp
              · by_cases hnil : after' = []
                · have hcount₀ : count = 0 := by
                    subst hnil
                    cases n <;> · cases hpass; rfl
                  omega
                · rw [if_neg hnil] at hascents'
                  omega
              · by_cases hnil : after' = []
                · subst hnil
                  rw [List.perm_nil.mp hperm, List.append_nil, hzero]
                  exact Nat.zero_le _
                · have := hpos hnil
                  omega

theorem listSortPasses_spec {n : Nat} {xs : List α} (hn : ascents key xs < n) :
    ∃ ys, listSortPasses (byKey key) n xs = some ys ∧ ys.Perm xs ∧
      Descending key ys := by
  induction n generalizing xs with
  | zero => exact absurd hn (Nat.not_lt_zero _)
  | succ n ih =>
      obtain ⟨ys, count, hpass, hperm, hcount, hruns, -⟩ :=
        @run_sortPass _ _ _ key _ xs (Nat.le_refl _)
      simp only [listSortPasses, hpass, Option.bind_eq_bind, Option.bind_some]
      by_cases hmany : count > 1
      · obtain ⟨zs, hzs, hperm', hdescending⟩ := @ih ys (by omega)
        exact ⟨zs, by rw [if_pos hmany, hzs], hperm'.trans hperm, hdescending⟩
      · have hdescending : Descending key ys :=
          descending_iff_ascents.mpr (by omega)
        refine ⟨ys, ?_, hperm, hdescending⟩
        simp only [if_neg hmany, run_isSorted, hdescending, decide_true,
          Option.bind_some, ↓reduceIte]

theorem ascents_le_length (xs : List α) : ascents key xs ≤ xs.length := by
  induction xs with
  | nil => exact Nat.le_refl _
  | cons x rest ih =>
      cases rest with
      | nil => exact Nat.zero_le _
      | cons y rest =>
          rw [ascents, List.length_cons]
          split <;> omega

/-- `list_sort` puts the elements in order. -/
theorem listSort_spec (key : α → κ) (xs : List α) :
    ∃ ys, listSort (byKey key) xs = some ys ∧ ys.Perm xs ∧ Descending key ys :=
  listSortPasses_spec (Nat.lt_succ_of_le (ascents_le_length xs))

/-- `list_insert_ordered` puts an element before the first one with a smaller
key, behind all others. -/
theorem orderedInsert_split (x : α) (xs : List α) (hxs : Descending key xs) :
    ∃ before after, xs = before ++ after ∧
      xs.orderedInsert (fun x y => byKey key x y) x = before ++ x :: after ∧
      (∀ y ∈ before, key x ≤ key y) ∧ ∀ y ∈ after, key y < key x := by
  induction xs with
  | nil => exact ⟨[], [], rfl, rfl, by simp, by simp⟩
  | cons y rest ih =>
      rw [Descending, List.pairwise_cons] at hxs
      by_cases h : key x > key y
      · refine ⟨[], y :: rest, rfl, ?_, by simp, ?_⟩
        · exact List.orderedInsert_cons_of_le _ _ (decide_eq_true h)
        · exact List.forall_mem_cons.mpr ⟨h, fun z hz => (hxs.1 z hz).trans_lt h⟩
      · obtain ⟨before, after, rfl, hinsert, hbefore, hafter⟩ := ih hxs.2
        refine ⟨y :: before, after, rfl, ?_, ?_, hafter⟩
        · rw [List.orderedInsert_cons, if_neg (by simpa [byKey] using h), hinsert]
          rfl
        · exact List.forall_mem_cons.mpr ⟨not_lt.mp h, hbefore⟩

theorem descending_orderedInsert (x : α) (xs : List α) (hxs : Descending key xs) :
    Descending key (xs.orderedInsert (fun x y => byKey key x y) x) := by
  obtain ⟨before, after, rfl, hinsert, hbefore, hafter⟩ := orderedInsert_split x xs hxs
  rw [Descending, List.pairwise_append] at hxs
  rw [hinsert, Descending, List.pairwise_append, List.pairwise_cons]
  refine ⟨hxs.1, ⟨fun y hy => (hafter y hy).le, hxs.2.1⟩, fun y hy z hz => ?_⟩
  rcases List.mem_cons.mp hz with rfl | hz
  · exact hbefore y hy
  · exact hxs.2.2 y hy z hz

end ByKey

end PintosLabs
