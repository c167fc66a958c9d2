/-
The sort in `cond_signal`, one comparison at a time: what it compares are
threads of the list, and as long as the comparisons are by one key it comes to
an end, with the list in order.
-/
import PintosLabs.Kernel

namespace PintosLabs

namespace Comparing

variable {α β γ : Type} {S : α → Prop} {Q : β → Prop} {R : γ → Prop}

/-- Whatever the answers are, only elements of `S` are compared, and `Q` holds of the
result. -/
def Among (S : α → Prop) (Q : β → Prop) : Comparing α β → Prop
  | done result => Q result
  | failed => True
  | compare x y next => S x ∧ S y ∧ ∀ answer, (next answer).Among S Q

theorem Among.bind {c : Comparing α β} {f : β → Comparing α γ} (hc : c.Among S Q)
    (hf : ∀ result, Q result → (f result).Among S R) : (c >>= f).Among S R := by
  change (c.bind f).Among S R
  induction c with
  | done result => exact hf result hc
  | failed => exact trivial
  | compare x y next ih => exact ⟨hc.1, hc.2.1, fun answer => ih answer (hc.2.2 answer)⟩

theorem among_pure {result : β} (h : Q result) : (pure result : Comparing α β).Among S Q :=
  h

theorem among_compare {x y : α} {next : Bool → Comparing α β} (hx : S x) (hy : S y)
    (hnext : ∀ answer, (next answer).Among S Q) : (compare x y next).Among S Q :=
  ⟨hx, hy, hnext⟩

theorem among_assert (holds : Bool) : (assert (α := α) holds).Among S fun _ => True := by
  cases holds <;> exact trivial

end Comparing

section Sorting

open Comparing

variable {α : Type} {S : α → Prop}

theorem among_isSortedAfter {before : α} {rest : List α} (hbefore : S before)
    (hrest : ∀ x ∈ rest, S x) : (isSortedAfter before rest).Among S fun _ => True := by
  induction rest generalizing before with
  | nil => exact among_pure trivial
  | cons x rest ih =>
      obtain ⟨hx, hrest⟩ := List.forall_mem_cons.mp hrest
      refine among_compare hx hbefore fun less => ?_
      split
      · exact among_pure trivial
      · exact ih hx hrest

theorem among_isSorted {xs : List α} (hxs : ∀ x ∈ xs, S x) :
    (isSorted xs).Among S fun _ => True := by
  cases xs with
  | nil => exact among_pure trivial
  | cons x rest =>
      obtain ⟨hx, hrest⟩ := List.forall_mem_cons.mp hxs
      exact among_isSortedAfter hx hrest

theorem among_findEndOfRun {before : α} {rest : List α} (hbefore : S before)
    (hrest : ∀ x ∈ rest, S x) :
    (findEndOfRun before rest).Among S fun result =>
      (∀ x ∈ result.1, S x) ∧ ∀ x ∈ result.2, S x := by
  have hnil : ∀ x ∈ ([] : List α), S x := fun _ h => by cases h
  induction rest generalizing before with
  | nil => exact among_pure ⟨hnil, hnil⟩
  | cons x rest ih =>
      obtain ⟨hx, hrest'⟩ := List.forall_mem_cons.mp hrest
      refine among_compare hx hbefore fun less => ?_
      split
      · exact among_pure ⟨hnil, hrest⟩
      · refine (ih hx hrest').bind fun result hresult => ?_
        exact among_pure ⟨List.forall_mem_cons.mpr ⟨hx, hresult.1⟩, hresult.2⟩

theorem among_mergeBefore {x : α} {rest : List α}
    {mergeRest : List α → Comparing α (List α)} {ys : List α} (hx : S x)
    (hmerge : ∀ ys, (∀ y ∈ ys, S y) → (mergeRest ys).Among S fun _ => True)
    (hys : ∀ y ∈ ys, S y) :
    (mergeBefore x rest mergeRest ys).Among S fun _ => True := by
  induction ys with
  | nil => exact among_pure trivial
  | cons y ys ih =>
      obtain ⟨hy, hys'⟩ := List.forall_mem_cons.mp hys
      refine among_compare hy hx fun less => ?_
      split
      · exact (ih hys').bind fun _ _ => among_pure trivial
      · exact (hmerge _ hys).bind fun _ _ => among_pure trivial

theorem among_mergeLists {xs ys : List α} (hxs : ∀ x ∈ xs, S x) (hys : ∀ y ∈ ys, S y) :
    (mergeLists xs ys).Among S fun _ => True := by
  induction xs generalizing ys with
  | nil => exact among_pure trivial
  | cons x rest ih =>
      obtain ⟨hx, hrest⟩ := List.forall_mem_cons.mp hxs
      exact among_mergeBefore hx (fun ys hys => ih hrest hys) hys

theorem among_inplaceMerge {xs ys : List α} (hxs : ∀ x ∈ xs, S x) (hys : ∀ y ∈ ys, S y) :
    (inplaceMerge xs ys).Among S fun _ => True :=
  (among_isSorted hxs).bind fun first _ => (among_assert first).bind fun _ _ =>
    (among_isSorted hys).bind fun second _ => (among_assert second).bind fun _ _ =>
      among_mergeLists hxs hys

theorem among_sortPass {n : Nat} {xs : List α} (hxs : ∀ x ∈ xs, S x) :
    (sortPass n xs).Among S fun _ => True := by
  induction n generalizing xs with
  | zero => exact among_pure trivial
  | succ n ih =>
      cases xs with
      | nil => exact among_pure trivial
      | cons x rest =>
          obtain ⟨hx, hrest⟩ := List.forall_mem_cons.mp hxs
          refine (among_findEndOfRun hx hrest).bind fun first hfirst => ?_
          obtain ⟨run, after⟩ := first
          cases after with
          | nil => exact among_pure trivial
          | cons y rest =>
              obtain ⟨hy, hrest⟩ := List.forall_mem_cons.mp hfirst.2
              refine (among_findEndOfRun hy hrest).bind fun second hsecond => ?_
              have hmerge := among_inplaceMerge (List.forall_mem_cons.mpr ⟨hx, hfirst.1⟩)
                (List.forall_mem_cons.mpr ⟨hy, hsecond.1⟩)
              exact hmerge.bind fun _ _ => (ih hsecond.2).bind fun _ _ => among_pure trivial

end Sorting

/-- From this place in `cond_signal`, with the waiters `ws`, a thread comes in `n` of its
steps to where it pops the first of `zs`, the comparisons being answered by `less`. -/
inductive SortsTo (less : ThreadId → ThreadId → Bool) (c : CondId) :
    Pc → List ThreadId → Nat → List ThreadId → Prop
  | sorted (ws : List ThreadId) : SortsTo less c (.condPop c) ws 0 ws
  | compare {x y : ThreadId} {next : Bool → Comparing ThreadId (List ThreadId × Nat)}
      {ws zs : List ThreadId} {n : Nat} (left : x ∈ ws) (right : y ∈ ws)
      (many : 2 ≤ ws.length)
      (rest : SortsTo less c (.condSort c (next (less x y))) ws n zs) :
      SortsTo less c (.condSort c (.compare x y next)) ws (n + 1) zs
  | again {ws ys zs : List ThreadId} {runs n : Nat} (perm : ys.Perm ws) (many : runs > 1)
      (rest : SortsTo less c (.condSort c (sortPass ys.length ys)) ys n zs) :
      SortsTo less c (.condSort c (.done (ys, runs))) ws (n + 1) zs
  | once {ws ys zs : List ThreadId} {runs n : Nat} (perm : ys.Perm ws) (one : ¬ runs > 1)
      (rest : SortsTo less c (.condSorted c (isSorted ys)) ys n zs) :
      SortsTo less c (.condSort c (.done (ys, runs))) ws (n + 1) zs
  | check {x y : ThreadId} {next : Bool → Comparing ThreadId Bool}
      {ws zs : List ThreadId} {n : Nat} (left : x ∈ ws) (right : y ∈ ws)
      (many : 2 ≤ ws.length)
      (rest : SortsTo less c (.condSorted c (next (less x y))) ws n zs) :
      SortsTo less c (.condSorted c (.compare x y next)) ws (n + 1) zs
  | checked {ws zs : List ThreadId} {n : Nat}
      (rest : SortsTo less c (.condPop c) ws n zs) :
      SortsTo less c (.condSorted c (.done true)) ws (n + 1) zs

namespace SortsTo

variable {less less' : ThreadId → ThreadId → Bool} {c : CondId} {pc : Pc}
  {ws zs : List ThreadId} {n : Nat}

theorem perm (h : SortsTo less c pc ws n zs) : zs.Perm ws := by
  induction h with
  | sorted ws => exact .refl ws
  | compare left right many rest ih => exact ih
  | again perm many rest ih => exact ih.trans perm
  | once perm one rest ih => exact ih.trans perm
  | check left right many rest ih => exact ih
  | checked rest ih => exact ih

/-- Only the order of the waiters counts, and of one that is alone it does not. -/
theorem congr (h : SortsTo less c pc ws n zs)
    (hless : 2 ≤ ws.length → ∀ x ∈ ws, ∀ y ∈ ws, less' x y = less x y) :
    SortsTo less' c pc ws n zs := by
  induction h with
  | sorted ws => exact .sorted ws
  | compare left right many rest ih =>
      refine .compare left right many ?_
      rw [hless many _ left _ right]
      exact ih hless
  | again perm many rest ih =>
      refine .again perm many (ih fun hmany x hx y hy => ?_)
      exact hless (perm.length_eq ▸ hmany) x (perm.mem_iff.mp hx) y (perm.mem_iff.mp hy)
  | once perm one rest ih =>
      refine .once perm one (ih fun hmany x hx y hy => ?_)
      exact hless (perm.length_eq ▸ hmany) x (perm.mem_iff.mp hx) y (perm.mem_iff.mp hy)
  | check left right many rest ih =>
      refine .check left right many ?_
      rw [hless many _ left _ right]
      exact ih hless
  | checked rest ih => exact .checked (ih hless)

/-- The comparisons of a pass lead to its end. -/
theorem of_pass {sort : Comparing ThreadId (List ThreadId × Nat)}
    {result : List ThreadId × Nat} (hmany : 2 ≤ ws.length)
    (hamong : sort.Among (· ∈ ws) fun _ => True) (hrun : sort.run less = some result)
    (h : SortsTo less c (.condSort c (.done result)) ws n zs) :
    ∃ n, SortsTo less c (.condSort c sort) ws n zs := by
  induction sort with
  | done result' =>
      rw [Option.some.inj hrun]
      exact ⟨n, h⟩
  | failed => cases hrun
  | compare x y next ih =>
      obtain ⟨n, hnext⟩ := ih (less x y) (hamong.2.2 _) hrun
      exact ⟨n + 1, .compare hamong.1 hamong.2.1 hmany hnext⟩

/-- So do those of the assertion behind the passes. -/
theorem of_check {sorted : Comparing ThreadId Bool} (hmany : 2 ≤ ws.length)
    (hamong : sorted.Among (· ∈ ws) fun _ => True) (hrun : sorted.run less = some true) :
    ∃ n, SortsTo less c (.condSorted c sorted) ws n ws := by
  induction sorted with
  | done result =>
      rw [Option.some.inj hrun]
      exact ⟨1, .checked (.sorted ws)⟩
  | failed => cases hrun
  | compare x y next ih =>
      obtain ⟨n, hnext⟩ := ih (less x y) (hamong.2.2 _) hrun
      exact ⟨n + 1, .check hamong.1 hamong.2.1 hmany hnext⟩

variable {key : ThreadId → Int}

/-- A pass leaves fewer ascents, so that the passes come to an end. -/
theorem of_passes {passes : Nat} (hmany : 2 ≤ ws.length)
    (hpasses : ascents key ws < passes) :
    ∃ n zs, SortsTo (byKey key) c (.condSort c (sortPass ws.length ws)) ws n zs ∧
      Descending key zs := by
  induction passes generalizing ws with
  | zero => exact absurd hpasses (Nat.not_lt_zero _)
  | succ passes ih =>
      obtain ⟨ys, runs, hpass, hperm, hruns, hascents, -⟩ :=
        @run_sortPass _ _ _ key _ ws (Nat.le_refl _)
      have hmany' : 2 ≤ ys.length := hperm.length_eq.symm ▸ hmany
      have hamong := @among_sortPass _ (· ∈ ws) ws.length ws fun _ hx => hx
      by_cases hagain : runs > 1
      · obtain ⟨n, zs, hsorts, hdescending⟩ := @ih ys hmany' (by omega)
        obtain ⟨n, hsorts⟩ := of_pass hmany hamong hpass (.again hperm hagain hsorts)
        exact ⟨n, zs, hsorts, hdescending⟩
      · have hdescending : Descending key ys := descending_iff_ascents.mpr (by omega)
        have hcheck : (isSorted ys).run (byKey key) = some true := by
          rw [run_isSorted, decide_eq_true hdescending]
        obtain ⟨n, hchecks⟩ :=
          @of_check (byKey key) c ys _ hmany' (among_isSorted fun _ hx => hx) hcheck
        obtain ⟨n, hsorts⟩ := of_pass hmany hamong hpass (.once hperm hagain hchecks)
        exact ⟨n, ys, hsorts, hdescending⟩

/-- `list_sort` in `cond_signal` comes to an end with the greatest in front. -/
theorem of_waiters (hws : ws ≠ []) :
    ∃ n zs, SortsTo (byKey key) c (.condSort c (sortPass ws.length ws)) ws n zs ∧
      Descending key zs := by
  cases ws with
  | nil => exact absurd rfl hws
  | cons x rest =>
      cases rest with
      | nil =>
          exact ⟨2, [x], .once (.refl _) (by decide) (.checked (.sorted _)),
            List.pairwise_singleton _ x⟩
      | cons y rest => exact of_passes (by simp) (Nat.lt_succ_self _)

end SortsTo

end PintosLabs
