/-
The merge sort of Bonus_Lab4: threads sort adjacent ranges of one array at the
same time, all through one second array, and `main` merges the ranges after it
has joined the threads.
-/
import Mathlib.Data.List.Range
import Mathlib.Data.List.Perm.Basic
import PintosLabs.Interleaving

namespace PintosLabs

namespace ParallelMergeSort

/-- The elements of the two arrays. -/
inductive SortCell where
  | arr (i : Nat)
  | newArr (i : Nat)
  deriving DecidableEq

abbrev SortProg := Prog SortCell Int

abbrev SortMem := SortCell → Int

/-- `arr[iter++] = new_arr[i++]`, so many times. -/
def copyBack (k : SortProg) : Nat → Nat → Nat → SortProg
  | 0, _, _ => k
  | n + 1, i, iter =>
      .load (.newArr i) fun v => .store (.arr iter) v (copyBack k n (i + 1) (iter + 1))

/-- What `merge` does once one of the halves is used up. -/
def mergeTail (mid r : Nat) (k : SortProg) (iter1 iter2 iter : Nat) : SortProg :=
  if iter1 ≤ mid then copyBack k (mid + 1 - iter1) iter1 iter
  else copyBack k (r + 1 - iter2) iter2 iter

/-- The loops of `merge`, of which the first is taken at most so many times. -/
def mergeLoop (mid r : Nat) (k : SortProg) : Nat → Nat → Nat → Nat → SortProg
  | 0, iter1, iter2, iter => mergeTail mid r k iter1 iter2 iter
  | n + 1, iter1, iter2, iter =>
      if iter1 ≤ mid ∧ iter2 ≤ r then
        .load (.newArr iter1) fun v1 => .load (.newArr iter2) fun v2 =>
          if v1 < v2 then
            .load (.newArr iter1) fun v => .store (.arr iter) v
              (mergeLoop mid r k n (iter1 + 1) iter2 (iter + 1))
          else
            .load (.newArr iter2) fun v => .store (.arr iter) v
              (mergeLoop mid r k n iter1 (iter2 + 1) (iter + 1))
      else mergeTail mid r k iter1 iter2 iter

/-- So many elements of `arr` from `l` on. -/
def arrFrom (mem : SortMem) (l n : Nat) : List Int :=
  (List.range' l n).map fun i => mem (.arr i)

/-- The values are stored in `arr` from `i` on. -/
def writeArr : SortMem → Nat → List Int → SortMem
  | mem, _, [] => mem
  | mem, i, v :: rest => writeArr (Function.update mem (.arr i) v) (i + 1) rest

/-- `new_arr` has a copy of `arr` from `i` on. -/
def copied (mem : SortMem) (i n : Nat) : SortMem
  | .arr j => mem (.arr j)
  | .newArr j => if i ≤ j ∧ j < i + n then mem (.arr j) else mem (.newArr j)

theorem update_arr (mem : SortMem) (i : Nat) (v : Int) (j : Nat) :
    Function.update mem (.arr i) v (.newArr j) = mem (.newArr j) := by
  have hne : SortCell.newArr j ≠ .arr i := nofun
  exact Function.update_of_ne hne _ _

@[simp] theorem writeArr_newArr (mem : SortMem) (i : Nat) (vs : List Int) (j : Nat) :
    writeArr mem i vs (.newArr j) = mem (.newArr j) := by
  induction vs generalizing mem i with
  | nil => rfl
  | cons v rest ih => exact (ih _ _).trans (update_arr mem i v j)

theorem arrFrom_congr {mem mem' : SortMem} {l n : Nat}
    (h : ∀ i, l ≤ i → i < l + n → mem' (.arr i) = mem (.arr i)) :
    arrFrom mem' l n = arrFrom mem l n := by
  refine List.map_congr_left fun i hi => ?_
  rw [List.mem_range'_1] at hi
  exact h i hi.1 hi.2

theorem arrFrom_add (mem : SortMem) (l m n : Nat) :
    arrFrom mem l (m + n) = arrFrom mem l m ++ arrFrom mem (l + m) n := by
  rw [arrFrom, arrFrom, arrFrom, ← List.map_append, List.range'_append_1]

/-- A range of the array is put in order and the rest of the array is kept. -/
structure Sorts (mem mem' : SortMem) (l n : Nat) : Prop where
  sorted : (arrFrom mem' l n).Pairwise (· ≤ ·)
  perm : (arrFrom mem' l n).Perm (arrFrom mem l n)
  frame : ∀ i, i < l ∨ l + n ≤ i → mem' (.arr i) = mem (.arr i)

/-- One range and then the next to it. -/
theorem Sorts.join {mem mem₁ mem₂ mem₃ : SortMem} {l m n : Nat} (h₁ : Sorts mem mem₁ l m)
    (h₂ : Sorts mem₁ mem₂ (l + m) n) (h₃ : Sorts mem₂ mem₃ l (m + n)) :
    Sorts mem mem₃ l (m + n) := by
  refine ⟨h₃.sorted, h₃.perm.trans ?_, fun i hi => ?_⟩
  · have hfirst : arrFrom mem₂ l m = arrFrom mem₁ l m :=
      arrFrom_congr fun i _ hi => h₂.frame i (Or.inl hi)
    have hsecond : arrFrom mem₁ (l + m) n = arrFrom mem (l + m) n :=
      arrFrom_congr fun i hi _ => h₁.frame i (Or.inr hi)
    rw [arrFrom_add, arrFrom_add mem, hfirst]
    exact h₁.perm.append (hsecond ▸ h₂.perm)
  · rw [h₃.frame i hi, h₂.frame i (by omega), h₁.frame i (by omega)]

def SortCell.index : SortCell → Nat
  | arr i | newArr i => i

section Within

variable {l₀ r₀ : Nat} {k : SortProg}

end Within

/-! The ranges of the threads. -/

section Ranges

variable {n t : Nat}

end Ranges

namespace ParallelMergeSortWitness

end ParallelMergeSortWitness

end ParallelMergeSort

end PintosLabs
