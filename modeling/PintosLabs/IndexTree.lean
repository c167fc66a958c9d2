/-
Index trees: sectors that hold the numbers of further sectors, down to the
sectors that hold data.  A tree of some level covers `fan ^ level` blocks, of
which the first `w` have been given sectors; an entry that covers none of them
is zero.
-/
import Mathlib.Algebra.Order.BigOperators.Group.List
import Mathlib.Algebra.Order.Ring.Nat
import Mathlib.Algebra.Ring.Int.Defs
import Mathlib.Algebra.Ring.Nat
import Mathlib.Data.List.FinRange
import Mathlib.Data.List.Nodup
import Mathlib.Data.List.Pairwise
import Mathlib.Data.List.Perm.Basic

namespace PintosLabs

universe u

/-- How many of the first `w` blocks lie below the entry `i`, when each entry
covers `span` blocks. -/
def share (span w i : Nat) : Nat := min (w - i * span) span

theorem share_le (span w i : Nat) : share span w i ≤ span :=
  Nat.min_le_right _ _

@[simp] theorem share_zero (span i : Nat) : share span 0 i = 0 := by
  simp [share]

theorem share_max (span w n i : Nat) :
    share span (max w n) i = max (share span w i) (share span n i) := by
  simp only [share]
  omega

theorem share_mono {span w n : Nat} (hle : w ≤ n) (i : Nat) :
    share span w i ≤ share span n i := by
  simp only [share]
  omega

/-- A block below the first `w` is below the entry that covers it. -/
theorem mod_lt_share {span w k : Nat} (hk : k < w) (hspan : 0 < span) :
    k % span < share span w (k / span) := by
  have hmod := Nat.mod_lt k hspan
  have hdiv := Nat.div_add_mod k span
  rw [Nat.mul_comm] at hdiv
  simp only [share]
  omega

theorem share_le_mod {span w k : Nat} (hk : w ≤ k) :
    share span w (k / span) ≤ k % span := by
  have hdiv := Nat.div_add_mod k span
  rw [Nat.mul_comm] at hdiv
  simp only [share]
  omega

theorem div_lt_of_lt_pow {fan level k : Nat} (hk : k < fan ^ (level + 1)) :
    k / fan ^ level < fan :=
  Nat.div_lt_of_lt_mul (by rwa [← Nat.pow_succ])

section Trees

variable {ι : Type u} {fan : Nat} (kids : ι → Fin fan → ι)

/-- The sectors of a tree: the sectors of its data and of its indexes. -/
def treeSectors : Nat → ι → Nat → List ι
  | 0, entry, w => if w = 0 then [] else [entry]
  | level + 1, entry, w =>
      if w = 0 then []
      else entry :: (List.finRange fan).flatMap fun i =>
        treeSectors level (kids entry i) (share (fan ^ level) w i)

/-- The sectors of several trees of one level side by side. -/
def forestSectors (level : Nat) {m : Nat} (entries : Fin m → ι) (w : Nat) :
    List ι :=
  (List.finRange m).flatMap fun i =>
    treeSectors kids level (entries i) (share (fan ^ level) w i)

/-- The sectors of a tree that hold an index. -/
def treeIndex : Nat → ι → Nat → List ι
  | 0, _, _ => []
  | level + 1, entry, w =>
      if w = 0 then []
      else entry :: (List.finRange fan).flatMap fun i =>
        treeIndex level (kids entry i) (share (fan ^ level) w i)

/-- The sector of the block `k` of a tree. -/
def treeLeaf : Nat → ι → Nat → ι
  | 0, entry, _ => entry
  | level + 1, entry, k =>
      if h : k / fan ^ level < fan then
        treeLeaf level (kids entry ⟨k / fan ^ level, h⟩) (k % fan ^ level)
      else entry

/-- How many sectors a tree has. -/
def treeSize (fan : Nat) : Nat → Nat → Nat
  | 0, w => if w = 0 then 0 else 1
  | level + 1, w =>
      if w = 0 then 0
      else 1 + ((List.finRange fan).map fun i : Fin fan =>
        treeSize fan level (share (fan ^ level) w i)).sum

variable {kids}

@[simp] theorem treeSectors_zero (level : Nat) (entry : ι) :
    treeSectors kids level entry 0 = [] := by
  cases level <;> simp [treeSectors]

@[simp] theorem treeIndex_zero (level : Nat) (entry : ι) :
    treeIndex kids level entry 0 = [] := by
  cases level <;> simp [treeIndex]

theorem treeSectors_succ {level w : Nat} (entry : ι) (hw : 0 < w) :
    treeSectors kids (level + 1) entry w =
      entry :: forestSectors kids level (kids entry) w := by
  rw [treeSectors, if_neg (Nat.ne_of_gt hw), forestSectors]

theorem forestSectors_zero (level : Nat) {m : Nat} (entries : Fin m → ι) :
    forestSectors kids level entries 0 = [] := by
  simp [forestSectors]

@[simp] theorem treeSize_zero (fan level : Nat) : treeSize fan level 0 = 0 := by
  cases level <;> simp [treeSize]

theorem length_treeSectors (level : Nat) (entry : ι) (w : Nat) :
    (treeSectors kids level entry w).length = treeSize fan level w := by
  induction level generalizing entry w with
  | zero =>
      rw [treeSectors, treeSize]
      split <;> rfl
  | succ level ih =>
      rw [treeSectors, treeSize]
      split
      · rfl
      · simp only [List.length_cons, List.length_flatMap, ih]
        omega

theorem treeIndex_subset (level : Nat) (entry : ι) (w : Nat) :
    treeIndex kids level entry w ⊆ treeSectors kids level entry w := by
  induction level generalizing entry w with
  | zero => simp [treeIndex]
  | succ level ih =>
      rw [treeIndex, treeSectors]
      split
      · exact List.Subset.refl _
      · apply List.cons_subset_cons
        intro s hs
        obtain ⟨i, hi, hs⟩ := List.mem_flatMap.mp hs
        exact List.mem_flatMap.mpr ⟨i, hi, ih _ _ hs⟩

theorem treeSize_mono (fan level : Nat) {w n : Nat} (hle : w ≤ n) :
    treeSize fan level w ≤ treeSize fan level n := by
  induction level generalizing w n with
  | zero =>
      rw [treeSize, treeSize]
      split <;> split <;> omega
  | succ level ih =>
      rw [treeSize, treeSize]
      split
      · exact Nat.zero_le _
      · rw [if_neg (by omega)]
        apply Nat.add_le_add_left
        apply List.sum_le_sum
        exact fun i _ => ih (share_mono hle i)

/-! Trees read the index sectors only. -/

section Congr

variable {kids' : ι → Fin fan → ι}

theorem treeSectors_congr {level w : Nat} {entry : ι}
    (heq : ∀ s ∈ treeIndex kids level entry w, kids' s = kids s) :
    treeSectors kids' level entry w = treeSectors kids level entry w := by
  induction level generalizing entry w with
  | zero => rfl
  | succ level ih =>
      rw [treeIndex] at heq
      rw [treeSectors, treeSectors]
      split
      · rfl
      · next hw =>
        rw [if_neg hw] at heq
        rw [heq entry List.mem_cons_self]
        congr 1
        apply List.flatMap_congr
        intro i hi
        apply ih
        intro s hs
        exact heq s (List.mem_cons_of_mem _ (List.mem_flatMap.mpr ⟨i, hi, hs⟩))

theorem treeIndex_congr {level w : Nat} {entry : ι}
    (heq : ∀ s ∈ treeIndex kids level entry w, kids' s = kids s) :
    treeIndex kids' level entry w = treeIndex kids level entry w := by
  induction level generalizing entry w with
  | zero => rfl
  | succ level ih =>
      rw [treeIndex] at heq ⊢
      rw [treeIndex]
      split
      · rfl
      · next hw =>
        rw [if_neg hw] at heq
        rw [heq entry List.mem_cons_self]
        congr 1
        apply List.flatMap_congr
        intro i hi
        apply ih
        intro s hs
        exact heq s (List.mem_cons_of_mem _ (List.mem_flatMap.mpr ⟨i, hi, hs⟩))

theorem treeLeaf_congr {level w k : Nat} {entry : ι}
    (heq : ∀ s ∈ treeIndex kids level entry w, kids' s = kids s)
    (hk : k < w) (hfan : 0 < fan) :
    treeLeaf kids' level entry k = treeLeaf kids level entry k := by
  induction level generalizing entry w k with
  | zero => rfl
  | succ level ih =>
      rw [treeIndex, if_neg (Nat.ne_of_gt (Nat.zero_lt_of_lt hk))] at heq
      rw [treeLeaf, treeLeaf, heq entry List.mem_cons_self]
      split
      · next h =>
        apply ih (w := share (fan ^ level) w (k / fan ^ level))
        · intro s hs
          exact heq s (List.mem_cons_of_mem _
            (List.mem_flatMap.mpr ⟨⟨_, h⟩, List.mem_finRange _, hs⟩))
        · exact mod_lt_share hk (Nat.pow_pos hfan)
      · rfl

end Congr

/-! Where the blocks are. -/

variable (kids) in
theorem treeLeaf_mem {level w k : Nat} (entry : ι) (hk : k < w)
    (hle : w ≤ fan ^ level) :
    treeLeaf kids level entry k ∈ treeSectors kids level entry w := by
  induction level generalizing entry w k with
  | zero =>
      rw [treeSectors, if_neg (Nat.ne_of_gt (Nat.zero_lt_of_lt hk))]
      exact List.mem_singleton.mpr rfl
  | succ level ih =>
      have hdiv := div_lt_of_lt_pow (Nat.lt_of_lt_of_le hk hle)
      have hspan : 0 < fan ^ level := Nat.pow_pos (Nat.zero_lt_of_lt hdiv)
      rw [treeLeaf, dif_pos hdiv, treeSectors,
        if_neg (Nat.ne_of_gt (Nat.zero_lt_of_lt hk))]
      refine List.mem_cons_of_mem _ (List.mem_flatMap.mpr
        ⟨⟨_, hdiv⟩, List.mem_finRange _, ?_⟩)
      exact ih _ (mod_lt_share hk hspan) (share_le _ _ _)

/-- What two of several disjoint lists share comes from one of them. -/
theorem eq_of_mem_flatMap {κ : Type*} {l : List κ} {f : κ → List ι}
    (hnodup : (l.flatMap f).Nodup) {i j : κ} (hi : i ∈ l) (hj : j ∈ l) {s : ι}
    (his : s ∈ f i) (hjs : s ∈ f j) : i = j := by
  rw [List.nodup_flatMap] at hnodup
  have hsymm : Std.Symm (Function.onFun List.Disjoint f) :=
    ⟨fun _ _ h s hs hs' => h hs' hs⟩
  by_contra hij
  exact hnodup.2.forall hi hj hij his hjs

theorem treeLeaf_injective {level w k k' : Nat} {entry : ι}
    (hnodup : (treeSectors kids level entry w).Nodup) (hk : k < w) (hk' : k' < w)
    (hle : w ≤ fan ^ level)
    (heq : treeLeaf kids level entry k = treeLeaf kids level entry k') :
    k = k' := by
  induction level generalizing entry w k k' with
  | zero =>
      rw [Nat.pow_zero] at hle
      omega
  | succ level ih =>
      have hdiv := div_lt_of_lt_pow (Nat.lt_of_lt_of_le hk hle)
      have hdiv' := div_lt_of_lt_pow (Nat.lt_of_lt_of_le hk' hle)
      have hspan : 0 < fan ^ level := Nat.pow_pos (Nat.zero_lt_of_lt hdiv)
      rw [treeSectors_succ entry (Nat.zero_lt_of_lt hk), List.nodup_cons] at hnodup
      rw [treeLeaf, treeLeaf, dif_pos hdiv, dif_pos hdiv'] at heq
      have hmem := treeLeaf_mem kids (kids entry ⟨k / fan ^ level, hdiv⟩)
        (mod_lt_share hk hspan) (share_le _ _ _)
      have hmem' := treeLeaf_mem kids (kids entry ⟨k' / fan ^ level, hdiv'⟩)
        (mod_lt_share hk' hspan) (share_le _ _ _)
      rw [← heq] at hmem'
      have hsame := eq_of_mem_flatMap hnodup.2 (List.mem_finRange ⟨_, hdiv⟩)
        (List.mem_finRange ⟨_, hdiv'⟩) hmem hmem'
      rw [Fin.mk.injEq] at hsame
      have hmod : k % fan ^ level = k' % fan ^ level := by
        have hchild := (List.nodup_flatMap.mp hnodup.2).1 ⟨_, hdiv⟩
          (List.mem_finRange _)
        refine ih hchild (mod_lt_share hk hspan) ?_ (share_le _ _ _) ?_
        · simp only [hsame]
          exact mod_lt_share hk' hspan
        · simpa only [← hsame] using heq
      rw [← Nat.div_add_mod k (fan ^ level), ← Nat.div_add_mod k' (fan ^ level),
        hsame, hmod]

/-- The sector of a block is not the sector of an index. -/
theorem treeLeaf_not_mem_treeIndex {level w k : Nat} {entry : ι}
    (hnodup : (treeSectors kids level entry w).Nodup) (hk : k < w)
    (hle : w ≤ fan ^ level) :
    treeLeaf kids level entry k ∉ treeIndex kids level entry w := by
  induction level generalizing entry w k with
  | zero => simp [treeIndex]
  | succ level ih =>
      have hdiv := div_lt_of_lt_pow (Nat.lt_of_lt_of_le hk hle)
      have hspan : 0 < fan ^ level := Nat.pow_pos (Nat.zero_lt_of_lt hdiv)
      have hw := Nat.zero_lt_of_lt hk
      rw [treeSectors_succ entry hw, List.nodup_cons] at hnodup
      rw [treeLeaf, dif_pos hdiv, treeIndex, if_neg (Nat.ne_of_gt hw),
        List.mem_cons]
      have hmem := treeLeaf_mem kids (kids entry ⟨k / fan ^ level, hdiv⟩)
        (mod_lt_share hk hspan) (share_le _ _ _)
      rintro (heq | hindex)
      · apply hnodup.1
        rw [heq] at hmem
        exact List.mem_flatMap.mpr ⟨⟨_, hdiv⟩, List.mem_finRange _, hmem⟩
      · obtain ⟨j, -, hj⟩ := List.mem_flatMap.mp hindex
        have hsame := eq_of_mem_flatMap hnodup.2
          (List.mem_finRange ⟨_, hdiv⟩) (List.mem_finRange j) hmem
          (treeIndex_subset _ _ _ hj)
        subst hsame
        have hchild := (List.nodup_flatMap.mp hnodup.2).1 ⟨_, hdiv⟩
          (List.mem_finRange _)
        exact ih hchild (mod_lt_share hk hspan) (share_le _ _ _) hj

end Trees

section TreeOk

variable {ι : Type u} [Zero ι] {fan : Nat} (kids : ι → Fin fan → ι)

/-- The first `w` blocks of the tree have sectors, and no entry is set that
none of them needs. -/
def TreeOk : Nat → ι → Nat → Prop
  | 0, entry, w => w ≤ 1 ∧ (w = 0 ↔ entry = 0)
  | level + 1, entry, w =>
      w ≤ fan ^ (level + 1) ∧ (w = 0 ↔ entry = 0) ∧
        (0 < w → ∀ i : Fin fan,
          TreeOk level (kids entry i) (share (fan ^ level) w i))

variable {kids}

theorem TreeOk.le {level w : Nat} {entry : ι} (hok : TreeOk kids level entry w) :
    w ≤ fan ^ level := by
  cases level with
  | zero => simpa using hok.1
  | succ level => exact hok.1

theorem TreeOk.eq_zero_iff {level w : Nat} {entry : ι}
    (hok : TreeOk kids level entry w) : w = 0 ↔ entry = 0 := by
  cases level with
  | zero => exact hok.2
  | succ level => exact hok.2.1

/-- Zero stands for no sector, and is not a sector of the tree. -/
theorem TreeOk.ne_zero {level w : Nat} {entry : ι}
    (hok : TreeOk kids level entry w) :
    ∀ s ∈ treeSectors kids level entry w, s ≠ 0 := by
  induction level generalizing entry w with
  | zero =>
      intro s hs
      rw [treeSectors] at hs
      split at hs
      case isTrue => contradiction
      case isFalse hw =>
        rw [List.mem_singleton.mp hs]
        exact hok.eq_zero_iff.not.mp hw
  | succ level ih =>
      obtain ⟨-, hzero, hkids⟩ := hok
      intro s hs
      rw [treeSectors] at hs
      split at hs
      case isTrue => contradiction
      case isFalse hw =>
        rcases List.mem_cons.mp hs with rfl | hs
        · exact hzero.not.mp hw
        · obtain ⟨i, -, hs⟩ := List.mem_flatMap.mp hs
          exact ih (hkids (Nat.pos_of_ne_zero hw) i) s hs

theorem treeOk_zero (level : Nat) : TreeOk kids level 0 0 := by
  cases level with
  | zero => simp [TreeOk]
  | succ level => simp [TreeOk]

theorem TreeOk.congr {kids' : ι → Fin fan → ι} {level w : Nat} {entry : ι}
    (heq : ∀ s ∈ treeIndex kids level entry w, kids' s = kids s)
    (hok : TreeOk kids level entry w) : TreeOk kids' level entry w := by
  induction level generalizing entry w with
  | zero => exact hok
  | succ level ih =>
      obtain ⟨hle, hzero, hkids⟩ := hok
      refine ⟨hle, hzero, fun hw i => ?_⟩
      rw [treeIndex, if_neg (Nat.ne_of_gt hw)] at heq
      rw [heq entry List.mem_cons_self]
      apply ih _ (hkids hw i)
      intro s hs
      exact heq s (List.mem_cons_of_mem _
        (List.mem_flatMap.mpr ⟨i, List.mem_finRange i, hs⟩))

end TreeOk

end PintosLabs
