/-
Where the bytes of a file are: the inode on its sector, the sectors of its
blocks, and the way `byte_to_sector` finds them.
-/
import PintosLabs.InodeTree

namespace PintosLabs

/-! The inode on its sector. -/

@[simp] theorem InodeDisk.ofBlock_toBlock (id : InodeDisk) :
    InodeDisk.ofBlock id.toBlock = id := by
  obtain ⟨length, directIndex, indirectIndex, doublyIndirectIndex, magic⟩ := id
  simp only [ofBlock, toBlock, wordsOf_blockOf, mk.injEq]
  refine ⟨rfl, funext fun i => ?_, rfl, rfl, rfl⟩
  have hi := i.isLt
  rw [if_neg (Nat.succ_ne_zero _), dif_pos (by omega)]
  rfl

@[simp] theorem InodeDisk.toBlock_ofBlock (b : Block) :
    (InodeDisk.ofBlock b).toBlock = b := by
  rw [toBlock]
  refine Eq.trans (congrArg blockOf (funext fun i => ?_)) (blockOf_wordsOf b)
  simp only [ofBlock]
  split
  case isTrue h =>
    rw [show i = 0 from Fin.ext h]
    rfl
  split
  case isTrue h h' =>
    congr 1
    apply Fin.ext
    change i.val - 1 + 1 = i.val
    omega
  split
  case isTrue h => rw [show i = 125 from Fin.ext h]
  split
  case isTrue h => rw [show i = 126 from Fin.ext h]
  case isFalse h₀ h₁ h₂ h₃ =>
    congr 1
    apply Fin.ext
    have hi := i.isLt
    change 127 = i.val
    omega

/-! Where a byte is. -/

/-- The indexes that the sectors hold. -/
def kidsOf (view : BlockSector → Block) (s : BlockSector) : Words :=
  wordsOf (view s)

theorem treeLeaf_one (kids : BlockSector → Words) (entry : BlockSector) {k : Nat}
    (hk : k < 128) : treeLeaf kids 1 entry k = kids entry ⟨k, hk⟩ := by
  have hdiv : k / 128 ^ 0 < 128 := by
    rwa [Nat.pow_zero, Nat.div_one]
  rw [treeLeaf, dif_pos hdiv, treeLeaf]
  simp only [Nat.pow_zero, Nat.div_one]

theorem treeLeaf_two (kids : BlockSector → Words) (entry : BlockSector) {k : Nat}
    (hk : k / 128 < 128) : treeLeaf kids 2 entry k =
      kids (kids entry ⟨k / 128, hk⟩) ⟨k % 128, Nat.mod_lt _ (by decide)⟩ := by
  have hdiv : k / 128 ^ 1 < 128 := by
    rwa [Nat.pow_one]
  rw [treeLeaf, dif_pos hdiv]
  simp only [Nat.pow_one]
  exact treeLeaf_one kids _ (Nat.mod_lt _ (by decide))

/-- The position `pos` is a byte of the file that an index can reach. -/
def InodeDisk.Holds (id : InodeDisk) (pos : Int32) : Prop :=
  0 ≤ pos.toInt ∧ pos.toInt < id.length.toInt ∧
    pos.toInt.toNat / blockSectorSize < maxBlocks

/-! The blocks of an inode are sectors of their own, apart from its indexes. -/

section Blocks

variable {kids kids' : BlockSector → Words} {id : InodeDisk} {w k k' : Nat}

/-- The sectors of an inode that hold an index. -/
def InodeDisk.indexSectors (kids : BlockSector → Words) (id : InodeDisk)
    (w : Nat) : List BlockSector :=
  treeIndex kids 1 id.indirectIndex (indirectShare w) ++
    treeIndex kids 2 id.doublyIndirectIndex (doublyShare w)

theorem InodeDisk.indexSectors_subset :
    id.indexSectors kids w ⊆ id.sectors kids w := by
  intro s hs
  rcases List.mem_append.mp hs with hs | hs
  · exact List.mem_append_left _
      (List.mem_append_right _ (treeIndex_subset _ _ _ hs))
  · exact List.mem_append_right _ (treeIndex_subset _ _ _ hs)

theorem InodeDisk.sectors_congr
    (heq : ∀ s ∈ id.indexSectors kids w, kids' s = kids s) :
    id.sectors kids' w = id.sectors kids w := by
  rw [sectors, sectors, partSectors, partSectors,
    treeSectors_congr fun s hs => heq s (List.mem_append_left _ hs),
    treeSectors_congr fun s hs => heq s (List.mem_append_right _ hs)]
  rfl

theorem indirect_lt (hk : k < w) (hlow : 124 ≤ k) (hhigh : k < 252) :
    k - 124 < indirectShare w := by
  unfold indirectShare
  omega

theorem doubly_lt (hk : k < w) (hlow : 252 ≤ k) :
    k - 252 < doublyShare w := by
  unfold doublyShare
  omega

theorem InodeDisk.block_congr
    (heq : ∀ s ∈ id.indexSectors kids w, kids' s = kids s) (hk : k < w) :
    id.block kids' k = id.block kids k := by
  unfold block
  split
  · rfl
  split
  · exact treeLeaf_congr (fun s hs => heq s (List.mem_append_left _ hs))
      (indirect_lt hk (by omega) (by omega)) (by decide)
  · exact treeLeaf_congr (fun s hs => heq s (List.mem_append_right _ hs))
      (doubly_lt hk (by omega)) (by decide)

theorem doublyShare_le_pow (hw : w ≤ maxBlocks) : doublyShare w ≤ 128 ^ 2 :=
  doublyShare_le hw

variable (kids id) in
/-- The three kinds of block lie in the three parts of the inode. -/
theorem InodeDisk.block_mem_part (hw : w ≤ maxBlocks) (hk : k < w) :
    (k < 124 ∧ id.block kids k ∈ forestSectors kids 0 id.directIndex w) ∨
    (124 ≤ k ∧ k < 252 ∧ id.block kids k = treeLeaf kids 1 id.indirectIndex (k - 124) ∧
      k - 124 < indirectShare w ∧
      id.block kids k ∈ treeSectors kids 1 id.indirectIndex (indirectShare w)) ∨
    (252 ≤ k ∧ id.block kids k = treeLeaf kids 2 id.doublyIndirectIndex (k - 252) ∧
      k - 252 < doublyShare w ∧
      id.block kids k ∈
        treeSectors kids 2 id.doublyIndirectIndex (doublyShare w)) := by
  unfold block
  split
  case isTrue h =>
    refine Or.inl ⟨h, List.mem_flatMap.mpr ⟨⟨k, h⟩, List.mem_finRange _, ?_⟩⟩
    have hshare : share (128 ^ 0) w k ≠ 0 := by
      simp only [share, Nat.pow_zero]
      omega
    rw [treeSectors, if_neg hshare]
    exact List.mem_singleton_self _
  split
  case isTrue h h' =>
    have hlt := indirect_lt hk (Nat.le_of_not_lt h) h'
    exact Or.inr (Or.inl ⟨Nat.le_of_not_lt h, h', rfl, hlt,
      treeLeaf_mem _ _ hlt (Nat.min_le_right _ _)⟩)
  case isFalse h h' =>
    have hlt := doubly_lt hk (Nat.le_of_not_lt h')
    exact Or.inr (Or.inr ⟨Nat.le_of_not_lt h', rfl, hlt,
      treeLeaf_mem _ _ hlt (doublyShare_le_pow hw)⟩)

theorem InodeDisk.block_mem (hw : w ≤ maxBlocks) (hk : k < w) :
    id.block kids k ∈ id.sectors kids w := by
  rcases block_mem_part kids id hw hk with
    ⟨-, hmem⟩ | ⟨-, -, -, -, hmem⟩ | ⟨-, -, -, hmem⟩
  · exact List.mem_append_left _ (List.mem_append_left _ hmem)
  · exact List.mem_append_left _ (List.mem_append_right _ hmem)
  · exact List.mem_append_right _ hmem

variable (hnodup : (id.sectors kids w).Nodup)
include hnodup

theorem InodeDisk.block_not_mem_index (hw : w ≤ maxBlocks) (hk : k < w) :
    id.block kids k ∉ id.indexSectors kids w := by
  rw [sectors, partSectors, List.nodup_append', List.nodup_append'] at hnodup
  obtain ⟨⟨-, hindirect, hdi⟩, hdoubly, hrest⟩ := hnodup
  intro hmem
  rcases block_mem_part kids id hw hk with
    ⟨-, hpart⟩ | ⟨-, -, heq, hlt, hpart⟩ | ⟨-, heq, hlt, hpart⟩ <;>
    rcases List.mem_append.mp hmem with hindex | hindex
  · exact hdi hpart (treeIndex_subset _ _ _ hindex)
  · exact hrest (List.mem_append_left _ hpart) (treeIndex_subset _ _ _ hindex)
  · rw [heq] at hindex
    exact treeLeaf_not_mem_treeIndex hindirect hlt (Nat.min_le_right _ _) hindex
  · exact hrest (List.mem_append_right _ hpart) (treeIndex_subset _ _ _ hindex)
  · exact hrest (List.mem_append_right _ (treeIndex_subset _ _ _ hindex)) hpart
  · rw [heq] at hindex
    exact treeLeaf_not_mem_treeIndex hdoubly hlt (doublyShare_le_pow hw) hindex

theorem InodeDisk.block_injective (hw : w ≤ maxBlocks) (hk : k < w)
    (hk' : k' < w) (heq : id.block kids k = id.block kids k') : k = k' := by
  have hnodup' := hnodup
  rw [sectors, partSectors, List.nodup_append', List.nodup_append'] at hnodup'
  obtain ⟨⟨hdirect, hindirect, hdi⟩, hdoubly, hrest⟩ := hnodup'
  rcases block_mem_part kids id hw hk with
    ⟨hlow, hpart⟩ | ⟨hlow, hhigh, hleaf, hlt, hpart⟩ | ⟨hlow, hleaf, hlt, hpart⟩ <;>
    rcases block_mem_part kids id hw hk' with
      ⟨hlow', hpart'⟩ | ⟨hlow', hhigh', hleaf', hlt', hpart'⟩ |
        ⟨hlow', hleaf', hlt', hpart'⟩
  · have hmem : ∀ j (hj : j < 124), j < w → id.block kids j ∈
        treeSectors kids 0 (id.directIndex ⟨j, hj⟩) (share (128 ^ 0) w j) := by
      intro j hj hjw
      have hshare : share (128 ^ 0) w j ≠ 0 := by
        simp only [share, Nat.pow_zero]
        omega
      rw [block, dif_pos hj, treeSectors, if_neg hshare]
      exact List.mem_singleton_self _
    have hsame := eq_of_mem_flatMap hdirect (List.mem_finRange ⟨k, hlow⟩)
      (List.mem_finRange ⟨k', hlow'⟩) (hmem k hlow hk)
      (heq ▸ hmem k' hlow' hk')
    exact congrArg Fin.val hsame
  · exact absurd (heq ▸ hpart') (hdi hpart)
  · exact absurd (heq ▸ hpart') (hrest (List.mem_append_left _ hpart))
  · exact absurd (heq ▸ hpart) (hdi hpart')
  · rw [hleaf, hleaf'] at heq
    have hsame := treeLeaf_injective hindirect hlt hlt' (Nat.min_le_right _ _) heq
    omega
  · exact absurd (heq ▸ hpart') (hrest (List.mem_append_right _ hpart))
  · exact absurd (heq ▸ hpart) (hrest (List.mem_append_left _ hpart'))
  · exact absurd (heq ▸ hpart) (hrest (List.mem_append_right _ hpart'))
  · rw [hleaf, hleaf'] at heq
    have hsame := treeLeaf_injective hdoubly hlt hlt' (doublyShare_le_pow hw) heq
    omega

end Blocks

section Store

variable {σ : Type} [SectorStore σ BlockSector Block]

theorem lt_maxBlocks_iff {k : Nat} : k < maxBlocks ↔ k < 252 + 128 * 128 :=
  Iff.rfl

theorem indexToSector_spec (st : σ) (id : InodeDisk) (k : Nat) :
    SectorStore.view (indexToSector st id k).2 = SectorStore.view st ∧
      (indexToSector st id k).1 =
        if k < maxBlocks then id.block (kidsOf (SectorStore.view st)) k
        else noSector := by
  simp only [lt_maxBlocks_iff, indexToSector, InodeDisk.block]
  split
  case isTrue hdirect => simp only [if_pos (show k < 252 + 128 * 128 by omega),
    and_self]
  split
  case isTrue hdirect hindirect =>
    rw [if_pos (by omega), if_pos (by omega), treeLeaf_one _ _ hindirect]
    simp [kidsOf]
  split
  case isTrue hdirect hindirect hdoubly =>
    rw [if_pos (by omega), if_neg (by omega), treeLeaf_two _ _ hdoubly]
    simp [kidsOf]
  case isFalse hdirect hindirect hdoubly =>
    rw [if_neg (by omega)]
    exact ⟨rfl, rfl⟩

/-- `byte_to_sector` follows the index and changes nothing. -/
theorem byteToSector_spec (st : σ) (id : InodeDisk) (pos : Int32) :
    SectorStore.view (byteToSector st id pos).2 = SectorStore.view st ∧
      (id.Holds pos → (byteToSector st id pos).1 =
        id.block (kidsOf (SectorStore.view st))
          (pos.toInt.toNat / blockSectorSize)) ∧
      (¬ id.Holds pos → (byteToSector st id pos).1 = noSector) := by
  have hcond : (0 ≤ pos ∧ pos < id.length) ↔
      (0 ≤ pos.toInt ∧ pos.toInt < id.length.toInt) := by
    rw [Int32.le_iff_toInt_le, Int32.lt_iff_toInt_lt, Int32.toInt_zero]
  obtain ⟨hview, hsector⟩ :=
    indexToSector_spec st id (pos.toInt.toNat / blockSectorSize)
  unfold byteToSector InodeDisk.Holds
  split
  case isFalse hpos =>
    exact ⟨rfl, fun h => absurd (hcond.mpr ⟨h.1, h.2.1⟩) hpos, fun _ => rfl⟩
  case isTrue hpos =>
    obtain ⟨hlow, hhigh⟩ := hcond.mp hpos
    refine ⟨hview, fun h => ?_, fun h => ?_⟩
    · rw [hsector, if_pos h.2.2]
    · rw [hsector, if_neg fun hlt => h ⟨hlow, hhigh, hlt⟩]

end Store

end PintosLabs
