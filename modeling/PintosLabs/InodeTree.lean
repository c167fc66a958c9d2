/-
The sectors of an inode: 124 direct entries, an index and an index of indexes.
`inode_allocate` takes an inode from `w` blocks to as many as its length needs.
-/
import PintosLabs.IndexAllocate

namespace PintosLabs

variable {σ : Type} [SectorStore σ BlockSector Block]

/-- The sectors of an inode whose three parts cover `a`, `b` and `c` blocks. -/
def InodeDisk.partSectors (kids : BlockSector → Words) (id : InodeDisk)
    (a b c : Nat) : List BlockSector :=
  forestSectors kids 0 id.directIndex a ++
    treeSectors kids 1 id.indirectIndex b ++
    treeSectors kids 2 id.doublyIndirectIndex c

/-- The blocks of the first `w` that the single index covers. -/
def indirectShare (w : Nat) : Nat := min (w - 124) 128

/-- The blocks of the first `w` that the index of indexes covers. -/
def doublyShare (w : Nat) : Nat := w - 252

/-- The largest number of blocks of a file. -/
def maxBlocks : Nat := 124 + 128 + 128 * 128

theorem indirectShare_max (w n : Nat) : indirectShare (max w n) =
    max (indirectShare w) (indirectShare n) := by
  unfold indirectShare
  omega

theorem doublyShare_max (w n : Nat) : doublyShare (max w n) =
    max (doublyShare w) (doublyShare n) := by
  unfold doublyShare
  omega

theorem indirectShare_mono {w n : Nat} (hle : w ≤ n) :
    indirectShare w ≤ indirectShare n := by
  unfold indirectShare
  omega

theorem doublyShare_mono {w n : Nat} (hle : w ≤ n) :
    doublyShare w ≤ doublyShare n :=
  Nat.sub_le_sub_right hle 252

theorem doublyShare_le {n : Nat} (hn : n ≤ maxBlocks) :
    doublyShare n ≤ 128 * 128 := by
  unfold maxBlocks at hn
  unfold doublyShare
  omega

/-- What the single index leaves over is for the index of indexes. -/
theorem sub_indirectShare (n : Nat) :
    n - 124 - indirectShare n = doublyShare n := by
  unfold indirectShare doublyShare
  omega

/-- The sectors of an inode with `w` blocks. -/
def InodeDisk.sectors (kids : BlockSector → Words) (id : InodeDisk) (w : Nat) :
    List BlockSector :=
  id.partSectors kids w (indirectShare w) (doublyShare w)

/-- The sector of the block `k`. -/
def InodeDisk.block (kids : BlockSector → Words) (id : InodeDisk) (k : Nat) :
    BlockSector :=
  if h : k < 124 then id.directIndex ⟨k, h⟩
  else if k < 252 then treeLeaf kids 1 id.indirectIndex (k - 124)
  else treeLeaf kids 2 id.doublyIndirectIndex (k - 252)

/-- How many sectors an inode with `w` blocks has, its own apart. -/
def sectorsFor (w : Nat) : Nat :=
  forestSize 0 (List.finRange 124) (fun i => share 1 w i) +
    treeSize 128 1 (indirectShare w) + treeSize 128 2 (doublyShare w)

theorem sectorsFor_zero : sectorsFor 0 = 0 := by
  have hindirect : indirectShare 0 = 0 := rfl
  have hdoubly : doublyShare 0 = 0 := rfl
  simp [sectorsFor, forestSize, hindirect, hdoubly]

theorem sectorsFor_mono {w n : Nat} (hle : w ≤ n) :
    sectorsFor w ≤ sectorsFor n :=
  Nat.add_le_add (Nat.add_le_add
      (forestSize_mono 0 _ fun i => share_mono hle i)
      (treeSize_mono _ _ (indirectShare_mono hle)))
    (treeSize_mono _ _ (doublyShare_mono hle))

/-- A file that needs no index has no other sectors than its blocks. -/
theorem sectorsFor_direct {w : Nat} (hw : w ≤ 124) : sectorsFor w = w := by
  have hindirect : indirectShare w = 0 := by
    unfold indirectShare
    omega
  have hdoubly : doublyShare w = 0 := by
    unfold doublyShare
    omega
  have hcount : ∀ m, ((List.range m).map fun i =>
      treeSize 128 0 (share 1 w i)).sum = min w m := by
    intro m
    induction m with
    | zero => simp
    | succ m ih =>
        rw [List.range_succ, List.map_append, List.sum_append, ih,
          List.map_singleton, List.sum_singleton, treeSize, share, Nat.mul_one]
        rcases Nat.lt_or_ge m w with hlt | hge
        · rw [if_neg (by omega)]
          omega
        · rw [if_pos (by omega)]
          omega
  have hsum := hcount 124
  rw [← List.map_coe_finRange_eq_range, List.map_map, Nat.min_eq_left hw] at hsum
  simp only [Function.comp_def] at hsum
  rw [sectorsFor, hindirect, hdoubly, treeSize_zero, treeSize_zero, forestSize,
    hsum, Nat.add_zero]

/-- An inode whose parts cover `a`, `b` and `c` blocks: they are in order, and
their sectors are its own. -/
structure PartsReady (own : List BlockSector) (fs : FileSys σ) (id : InodeDisk)
    (a b c : Nat) : Prop where
  direct : ∀ i, TreeOk fs.kids 0 (id.directIndex i) (share 1 a i)
  indirect : TreeOk fs.kids 1 id.indirectIndex b
  doubly : TreeOk fs.kids 2 id.doublyIndirectIndex c
  nodup : (id.partSectors fs.kids a b c).Nodup
  used : ∀ s ∈ id.partSectors fs.kids a b c, fs.Used s
  foreign : ∀ s ∈ id.partSectors fs.kids a b c, s ∉ own

theorem PartsReady.ne_zero {own : List BlockSector} {fs : FileSys σ}
    {id : InodeDisk} {a b c : Nat} (hready : PartsReady own fs id a b c) :
    ∀ s ∈ id.partSectors fs.kids a b c, s ≠ 0 := by
  intro s hs
  rcases List.mem_append.mp hs with hs | hs
  · rcases List.mem_append.mp hs with hs | hs
    · obtain ⟨i, -, hs⟩ := List.mem_flatMap.mp hs
      exact (hready.direct i).ne_zero s hs
    · exact hready.indirect.ne_zero s hs
  · exact hready.doubly.ne_zero s hs

/-- The parts of the inode have grown, on the sectors `new`. -/
structure PartsGrown (ready synced : FileSys σ → Prop)
    (own data : List BlockSector) (fs fs' : FileSys σ) (id id' : InodeDisk)
    (a b c a' b' c' : Nat) (new : List BlockSector) : Prop where
  direct : ∀ i, Grows fs fs' 0 (id.directIndex i) (id'.directIndex i)
    (share 1 a i) (share 1 a' i)
  indirect : Grows fs fs' 1 id.indirectIndex id'.indirectIndex b b'
  doubly : Grows fs fs' 2 id.doublyIndirectIndex id'.doublyIndirectIndex c c'
  alloc : Allocated ready synced own data fs fs' new
    (id'.partSectors fs'.kids a' b' c')
  perm : (id'.partSectors fs'.kids a' b' c').Perm
    (id.partSectors fs.kids a b c ++ new)

theorem Grows.refl {fs : FileSys σ} {level w : Nat} {entry : BlockSector}
    (hok : TreeOk fs.kids level entry w) :
    Grows fs fs level entry entry w w := by
  refine ⟨hok, fun _ _ => ⟨rfl, rfl⟩, fun k hk hk' => ?_⟩
  omega

theorem Grows.trans {fs fs₁ fs₂ : FileSys σ} {level w w₁ w₂ : Nat}
    {entry entry₁ entry₂ : BlockSector} (hle : w ≤ w₁)
    (h₁ : Grows fs fs₁ level entry entry₁ w w₁)
    (h₂ : Grows fs₁ fs₂ level entry₁ entry₂ w₁ w₂) :
    Grows fs fs₂ level entry entry₂ w w₂ := by
  refine ⟨h₂.ok, fun k hk => ?_, fun k hk hk' => ?_⟩
  · obtain ⟨hleaf₁, hbytes₁⟩ := h₁.keep k hk
    obtain ⟨hleaf₂, hbytes₂⟩ := h₂.keep k (Nat.lt_of_lt_of_le hk hle)
    rw [hleaf₁] at hleaf₂ hbytes₂
    exact ⟨hleaf₂, hbytes₂.trans hbytes₁⟩
  · by_cases hkw : k < w₁
    · obtain ⟨hleaf₂, hbytes₂⟩ := h₂.keep k hkw
      rw [hleaf₂, hbytes₂]
      exact h₁.zero k hk hkw
    · exact h₂.zero k (Nat.le_of_not_lt hkw) hk'

section Parts

variable {ready synced : FileSys σ → Prop} {own data : List BlockSector}
  {fs fs₁ fs₂ : FileSys σ} {id id₁ id₂ : InodeDisk}
  {a b c a₁ b₁ c₁ a₂ b₂ c₂ : Nat} {new₁ new₂ : List BlockSector}

theorem PartsGrown.trans (ha : a ≤ a₁) (hb : b ≤ b₁) (hc : c ≤ c₁)
    (h₁ : PartsGrown ready synced own data fs fs₁ id id₁ a b c a₁ b₁ c₁ new₁)
    (h₂ : PartsGrown ready synced own data fs₁ fs₂ id₁ id₂ a₁ b₁ c₁ a₂ b₂ c₂
      new₂) :
    PartsGrown ready synced own data fs fs₂ id id₂ a b c a₂ b₂ c₂
      (new₁ ++ new₂) := by
  refine ⟨fun i => (h₁.direct i).trans (share_mono ha i) (h₂.direct i),
    h₁.indirect.trans hb h₂.indirect, h₁.doubly.trans hc h₂.doubly, ?_, ?_⟩
  · refine (h₁.alloc.trans h₂.alloc).mono (List.append_subset.mpr ⟨?_, ?_⟩)
    · exact fun s hs => h₂.perm.mem_iff.mpr (List.mem_append_left _ hs)
    · exact List.Subset.refl _
  · rw [← List.append_assoc]
    exact h₂.perm.trans (h₁.perm.append_right new₂)

/-- A grown inode can grow again. -/
theorem PartsGrown.partsReady (hfs : AllocReady ready own fs)
    (hready : PartsReady own fs id a b c)
    (h : PartsGrown ready synced own data fs fs₁ id id₁ a b c a₁ b₁ c₁ new₁) :
    PartsReady own fs₁ id₁ a₁ b₁ c₁ := by
  refine ⟨fun i => (h.direct i).ok, h.indirect.ok, h.doubly.ok, ?_,
    fun s hs => ?_, fun s hs => ?_⟩
  · rw [h.perm.nodup_iff, List.nodup_append']
    exact ⟨hready.nodup, h.alloc.nodup,
      fun s hs hnew => h.alloc.free s hnew (hready.used s hs)⟩
  · rcases List.mem_append.mp (h.perm.mem_iff.mp hs) with hs | hs
    · exact h.alloc.used_mono (hready.used s hs)
    · exact (h.alloc.used s).mpr (Or.inr hs)
  · rcases List.mem_append.mp (h.perm.mem_iff.mp hs) with hs | hs
    · exact hready.foreign s hs
    · exact fun hown => h.alloc.free s hs (hfs.own_used s hown)

theorem PartsGrown.refl (hfs : AllocReady ready own fs)
    (hready : PartsReady own fs id a b c) :
    PartsGrown ready synced own data fs fs id id a b c a b c [] :=
  ⟨fun i => Grows.refl (hready.direct i), Grows.refl hready.indirect,
    Grows.refl hready.doubly, (Allocated.refl hfs).mono (List.nil_subset _),
    by simp⟩

/-- Growing one part writes nothing to the others. -/
theorem Allocated.part_view_eq (hsub : data ⊆ own)
    {part part' : List BlockSector} (hperm : part'.Perm (part ++ new₁))
    (halloc : Allocated ready synced own data fs fs₁ new₁ part')
    {s : BlockSector} (hs : s ∉ part) (hused : fs.Used s) (hforeign : s ∉ own) :
    fs₁.view s = fs.view s := by
  refine halloc.frame s (fun hmem => ?_) (fun hdata => hforeign (hsub hdata))
  rcases List.mem_append.mp (hperm.mem_iff.mp hmem) with hmem | hmem
  · exact hs hmem
  · exact halloc.free s hmem hused

variable (hsub : data ⊆ own) (hready : PartsReady own fs id a b c)
include hsub hready

theorem PartsGrown.of_direct {directIndex : Fin 124 → BlockSector}
    (hgrown : ForestGrown ready synced own data fs fs₁ 0 (List.finRange 124)
      id.directIndex directIndex (fun i => share (128 ^ 0) a i)
      (fun i => share (128 ^ 0) a₁ i) new₁) :
    PartsGrown ready synced own data fs fs₁ id
      { id with directIndex := directIndex } a b c a₁ b c new₁ := by
  have hnodup := hready.nodup
  rw [InodeDisk.partSectors, List.nodup_append', List.nodup_append'] at hnodup
  obtain ⟨⟨-, -, hdi⟩, -, hdd⟩ := hnodup
  have hview : ∀ s, s ∉ forestSectors fs.kids 0 id.directIndex a →
      s ∈ id.partSectors fs.kids a b c → fs₁.view s = fs.view s :=
    fun s hs hmem => hgrown.alloc.part_view_eq hsub hgrown.perm hs
      (hready.used s hmem) (hready.foreign s hmem)
  have hindirect : ∀ s ∈ treeSectors fs.kids 1 id.indirectIndex b,
      fs₁.view s = fs.view s := fun s hs =>
    hview s (fun h => hdi h hs)
      (List.mem_append_left _ (List.mem_append_right _ hs))
  have hdoubly : ∀ s ∈ treeSectors fs.kids 2 id.doublyIndirectIndex c,
      fs₁.view s = fs.view s := fun s hs =>
    hview s (fun h => hdd (List.mem_append_left _ h) hs)
      (List.mem_append_right _ hs)
  have hsectors : ({ id with directIndex := directIndex } :
        InodeDisk).partSectors fs₁.kids a₁ b c =
      forestSectors fs₁.kids 0 directIndex a₁ ++
        treeSectors fs.kids 1 id.indirectIndex b ++
        treeSectors fs.kids 2 id.doublyIndirectIndex c := by
    rw [InodeDisk.partSectors, treeSectors_of_view_eq hindirect,
      treeSectors_of_view_eq hdoubly]
  refine ⟨fun i => hgrown.grows i (List.mem_finRange i),
    Grows.before hindirect (Grows.refl hready.indirect) (Nat.le_refl _),
    Grows.before hdoubly (Grows.refl hready.doubly) (Nat.le_refl _), ?_, ?_⟩
  · rw [hsectors, List.append_assoc]
    exact hgrown.alloc.mono (List.subset_append_left _ _)
  · rw [hsectors, InodeDisk.partSectors, List.append_assoc, List.append_assoc,
      List.append_assoc]
    refine (hgrown.perm.append_right _).trans ?_
    rw [List.append_assoc]
    refine List.Perm.append_left _ ?_
    rw [← List.append_assoc _ _ new₁]
    exact List.perm_append_comm

theorem PartsGrown.of_indirect {entry : BlockSector}
    (hgrown : TreeGrown ready synced own data fs fs₁ 1 id.indirectIndex entry
      b b₁ new₁) :
    PartsGrown ready synced own data fs fs₁ id
      { id with indirectIndex := entry } a b c a b₁ c new₁ := by
  have hnodup := hready.nodup
  rw [InodeDisk.partSectors, List.nodup_append', List.nodup_append'] at hnodup
  obtain ⟨⟨-, -, hdi⟩, -, hdd⟩ := hnodup
  have hview : ∀ s, s ∉ treeSectors fs.kids 1 id.indirectIndex b →
      s ∈ id.partSectors fs.kids a b c → fs₁.view s = fs.view s :=
    fun s hs hmem => hgrown.alloc.part_view_eq hsub hgrown.perm hs
      (hready.used s hmem) (hready.foreign s hmem)
  have hdirect : ∀ i, ∀ s ∈ treeSectors fs.kids 0 (id.directIndex i)
      (share 1 a i), fs₁.view s = fs.view s := by
    intro i s hs
    have hmem : s ∈ forestSectors fs.kids 0 id.directIndex a :=
      List.mem_flatMap.mpr ⟨i, List.mem_finRange i, hs⟩
    exact hview s (fun h => hdi hmem h)
      (List.mem_append_left _ (List.mem_append_left _ hmem))
  have hdoubly : ∀ s ∈ treeSectors fs.kids 2 id.doublyIndirectIndex c,
      fs₁.view s = fs.view s := fun s hs =>
    hview s (fun h => hdd (List.mem_append_right _ h) hs)
      (List.mem_append_right _ hs)
  have hforest : forestSectors fs₁.kids 0 id.directIndex a =
      forestSectors fs.kids 0 id.directIndex a :=
    List.flatMap_congr fun i _ => treeSectors_of_view_eq (hdirect i)
  have hsectors : ({ id with indirectIndex := entry } :
        InodeDisk).partSectors fs₁.kids a b₁ c =
      forestSectors fs.kids 0 id.directIndex a ++
        treeSectors fs₁.kids 1 entry b₁ ++
        treeSectors fs.kids 2 id.doublyIndirectIndex c := by
    rw [InodeDisk.partSectors, treeSectors_of_view_eq hdoubly]
    rw [hforest]
  refine ⟨fun i => Grows.before (hdirect i) (Grows.refl (hready.direct i))
      (Nat.le_refl _), hgrown.toGrows,
    Grows.before hdoubly (Grows.refl hready.doubly) (Nat.le_refl _), ?_, ?_⟩
  · rw [hsectors]
    refine hgrown.alloc.mono (List.Subset.trans ?_ (List.subset_append_left _ _))
    exact List.subset_append_right _ _
  · rw [hsectors, InodeDisk.partSectors, List.append_assoc, List.append_assoc,
      List.append_assoc]
    refine List.Perm.append_left _ ((hgrown.perm.append_right _).trans ?_)
    rw [List.append_assoc]
    exact List.Perm.append_left _ List.perm_append_comm

theorem PartsGrown.of_doubly {entry : BlockSector}
    (hgrown : TreeGrown ready synced own data fs fs₁ 2 id.doublyIndirectIndex
      entry c c₁ new₁) :
    PartsGrown ready synced own data fs fs₁ id
      { id with doublyIndirectIndex := entry } a b c a b c₁ new₁ := by
  have hnodup := hready.nodup
  rw [InodeDisk.partSectors, List.nodup_append', List.nodup_append'] at hnodup
  obtain ⟨-, -, hdd⟩ := hnodup
  have hview : ∀ s, s ∉ treeSectors fs.kids 2 id.doublyIndirectIndex c →
      s ∈ id.partSectors fs.kids a b c → fs₁.view s = fs.view s :=
    fun s hs hmem => hgrown.alloc.part_view_eq hsub hgrown.perm hs
      (hready.used s hmem) (hready.foreign s hmem)
  have hdirect : ∀ i, ∀ s ∈ treeSectors fs.kids 0 (id.directIndex i)
      (share 1 a i), fs₁.view s = fs.view s := by
    intro i s hs
    have hmem : s ∈ forestSectors fs.kids 0 id.directIndex a :=
      List.mem_flatMap.mpr ⟨i, List.mem_finRange i, hs⟩
    exact hview s (fun h => hdd (List.mem_append_left _ hmem) h)
      (List.mem_append_left _ (List.mem_append_left _ hmem))
  have hindirect : ∀ s ∈ treeSectors fs.kids 1 id.indirectIndex b,
      fs₁.view s = fs.view s := fun s hs =>
    hview s (fun h => hdd (List.mem_append_right _ hs) h)
      (List.mem_append_left _ (List.mem_append_right _ hs))
  have hforest : forestSectors fs₁.kids 0 id.directIndex a =
      forestSectors fs.kids 0 id.directIndex a :=
    List.flatMap_congr fun i _ => treeSectors_of_view_eq (hdirect i)
  have hsectors : ({ id with doublyIndirectIndex := entry } :
        InodeDisk).partSectors fs₁.kids a b c₁ =
      forestSectors fs.kids 0 id.directIndex a ++
        treeSectors fs.kids 1 id.indirectIndex b ++
        treeSectors fs₁.kids 2 entry c₁ := by
    rw [InodeDisk.partSectors, treeSectors_of_view_eq hindirect]
    rw [hforest]
  refine ⟨fun i => Grows.before (hdirect i) (Grows.refl (hready.direct i))
      (Nat.le_refl _),
    Grows.before hindirect (Grows.refl hready.indirect) (Nat.le_refl _),
    hgrown.toGrows, ?_, ?_⟩
  · rw [hsectors]
    exact hgrown.alloc.mono (List.subset_append_right _ _)
  · rw [hsectors, InodeDisk.partSectors, List.append_assoc _ _ new₁]
    exact List.Perm.append_left _ hgrown.perm

end Parts

/-- The blocks that a file of the given length needs. -/
def InodeDisk.blocks (id : InodeDisk) : Nat :=
  bytesToSectors id.length.toInt.toNat blockSectorSize

section Allocate

variable {bitmapWrite : FileSys σ → Option (Bool × FileSys σ)}
  {ready synced : FileSys σ → Prop} {own data : List BlockSector}
  {fs fs₁ : FileSys σ} {id : InodeDisk} {a b c : Nat}

theorem PartsReady.forest (hready : PartsReady own fs id a b c) :
    ForestReady own fs 0 (List.finRange 124) id.directIndex
      fun i => share (128 ^ 0) a i := by
  have hnodup := hready.nodup
  rw [InodeDisk.partSectors, List.append_assoc] at hnodup
  have hmem : ∀ i, ∀ s ∈ treeSectors fs.kids 0 (id.directIndex i) (share 1 a i),
      s ∈ id.partSectors fs.kids a b c := fun i s hs =>
    List.mem_append_left _ (List.mem_append_left _
      (List.mem_flatMap.mpr ⟨i, List.mem_finRange i, hs⟩))
  refine ⟨fun i hi => ⟨hready.direct i, ?_, fun s hs => hready.used s (hmem i s hs),
    fun s hs => hready.foreign s (hmem i s hs)⟩, hnodup.of_append_left⟩
  exact (List.nodup_flatMap.mp hnodup.of_append_left).1 i hi

theorem PartsReady.indirectTree (hready : PartsReady own fs id a b c) :
    TreeReady own fs 1 id.indirectIndex b := by
  have hnodup := hready.nodup
  have hmem : ∀ s ∈ treeSectors fs.kids 1 id.indirectIndex b,
      s ∈ id.partSectors fs.kids a b c := fun s hs =>
    List.mem_append_left _ (List.mem_append_right _ hs)
  exact ⟨hready.indirect, hnodup.of_append_left.of_append_right,
    fun s hs => hready.used s (hmem s hs),
    fun s hs => hready.foreign s (hmem s hs)⟩

theorem PartsReady.doublyTree (hready : PartsReady own fs id a b c) :
    TreeReady own fs 2 id.doublyIndirectIndex c := by
  have hnodup := hready.nodup
  have hmem : ∀ s ∈ treeSectors fs.kids 2 id.doublyIndirectIndex c,
      s ∈ id.partSectors fs.kids a b c := fun s hs => List.mem_append_right _ hs
  exact ⟨hready.doubly, hnodup.of_append_right,
    fun s hs => hready.used s (hmem s hs),
    fun s hs => hready.foreign s (hmem s hs)⟩

/-- No length beyond the largest number of blocks passes the last assertion of
`inode_allocate`. -/
theorem inodeAllocate_none (hlength : 0 ≤ id.length)
    (hblocks : maxBlocks < id.blocks) :
    inodeAllocate bitmapWrite id fs = none := by
  have hneg : ¬ id.length < 0 := by
    rw [Int32.lt_iff_toInt_lt]
    rw [Int32.le_iff_toInt_le] at hlength
    exact Int.not_lt.mpr hlength
  simp only [inodeAllocate, if_neg hneg, Option.bind_eq_bind,
    Option.bind_eq_none_iff]
  rw [InodeDisk.blocks] at hblocks
  generalize bytesToSectors id.length.toInt.toNat blockSectorSize = n at hblocks
  rw [maxBlocks] at hblocks
  have hdirect : n - min n 124 ≠ 0 := by omega
  have hindirect : n - min n 124 - min (n - min n 124) 128 ≠ 0 := by omega
  have hdoubly : n - min n 124 - min (n - min n 124) 128 -
      min (n - min n 124 - min (n - min n 124) 128) (128 * 128) ≠ 0 := by omega
  rintro ⟨directIndex, fs₁⟩ -
  simp only [allocateIndirect, if_neg hdirect, Option.bind_eq_bind,
    Option.bind_eq_none_iff]
  rintro ⟨indirectIndex, fs₂⟩ -
  simp only [allocateDoublyIndirect, if_neg hindirect, Option.bind_eq_bind,
    Option.bind_eq_none_iff]
  rintro ⟨doublyIndirectIndex, fs₃⟩ -
  rw [if_neg hdoubly]

/-- `inode_allocate` keeps the length, and fails only for a negative one. -/
theorem inodeAllocate_returns {id id' : InodeDisk} {fs fs' : FileSys σ}
    {success : Bool}
    (hrun : inodeAllocate bitmapWrite id fs = some (success, id', fs')) :
    id'.length = id.length ∧ (success = true ↔ 0 ≤ id.length.toInt) := by
  unfold inodeAllocate at hrun
  split at hrun
  case isTrue hneg =>
    rw [Int32.lt_iff_toInt_lt, Int32.toInt_zero] at hneg
    simp only [Option.some.injEq, Prod.mk.injEq] at hrun
    rw [← hrun.1, ← hrun.2.1]
    exact ⟨rfl, iff_of_false Bool.false_ne_true (Int.not_le.mpr hneg)⟩
  case isFalse hneg =>
    rw [Int32.lt_iff_toInt_lt, Int32.toInt_zero, Int.not_lt] at hneg
    simp only [Option.bind_eq_bind, Option.bind_eq_some_iff] at hrun
    obtain ⟨⟨directIndex, fs₁⟩, -, hrun⟩ := hrun
    suffices h : id'.length = id.length ∧ success = true from
      ⟨h.1, iff_of_true h.2 hneg⟩
    unfold allocateIndirect at hrun
    split at hrun
    · simp only [Option.some.injEq, Prod.mk.injEq] at hrun
      exact ⟨by rw [← hrun.2.1], hrun.1.symm⟩
    · simp only [Option.bind_eq_bind, Option.bind_eq_some_iff] at hrun
      obtain ⟨⟨indirectIndex, fs₂⟩, -, hrun⟩ := hrun
      unfold allocateDoublyIndirect at hrun
      split at hrun
      · simp only [Option.some.injEq, Prod.mk.injEq] at hrun
        exact ⟨by rw [← hrun.2.1], hrun.1.symm⟩
      · simp only [Option.bind_eq_bind, Option.bind_eq_some_iff] at hrun
        obtain ⟨⟨doublyIndirectIndex, fs₃⟩, -, hrun⟩ := hrun
        split at hrun
        · simp only [Option.some.injEq, Prod.mk.injEq] at hrun
          exact ⟨by rw [← hrun.2.1], hrun.1.symm⟩
        · contradiction

/-- What the parts of `inode_allocate` do from some point on: the inode grows
to parts that cover `a'`, `b'` and `c'` blocks, or an allocation fails for
want of room for `after` sectors in place of `before`. -/
def AllocateOutcome (ready synced : FileSys σ → Prop)
    (own data : List BlockSector) (fs : FileSys σ) (id : InodeDisk)
    (a b c a' b' c' before after : Nat)
    (run : Option (Bool × InodeDisk × FileSys σ)) : Prop :=
  (∃ id' fs' new, run = some (true, id', fs') ∧ id'.length = id.length ∧
    id'.magic = id.magic ∧ after = before + new.length ∧
    PartsGrown ready synced own data fs fs' id id' a b c a' b' c' new) ∨
  (¬ fs.Room before after ∧ ∀ success id' fs', run = some (success, id', fs') →
    fs.allocFailures < fs'.allocFailures)

theorem AllocateOutcome.done {before : Nat} (hfs : AllocReady ready own fs)
    (hready : PartsReady own fs id a b c) :
    AllocateOutcome ready synced own data fs id a b c a b c before before
      (some (true, id, fs)) :=
  Or.inl ⟨id, fs, [], rfl, rfl, rfl, rfl, PartsGrown.refl hfs hready⟩

/-- One part grows, and then the rest does what it does. -/
theorem AllocateOutcome.step (id₁ : InodeDisk) {a₁ b₁ c₁ a₂ b₂ c₂ : Nat}
    {before after rest rest' : Nat} {new : List BlockSector}
    {run : Option (Bool × InodeDisk × FileSys σ)}
    (ha : a ≤ a₁) (hb : b ≤ b₁) (hc : c ≤ c₁)
    (hlength : id₁.length = id.length) (hmagic : id₁.magic = id.magic)
    (hsize : after = before + new.length)
    (hgrown : PartsGrown ready synced own data fs fs₁ id id₁ a b c a₁ b₁ c₁ new)
    (hrest : AllocateOutcome ready synced own data fs₁ id₁ a₁ b₁ c₁ a₂ b₂ c₂
      rest rest' run) :
    AllocateOutcome ready synced own data fs id a b c a₂ b₂ c₂
      (before + rest) (after + rest') run := by
  rcases hrest with
    ⟨id₂, fs₂, new₂, hrun, hlength₂, hmagic₂, hsize₂, hgrown₂⟩ | ⟨hfull, hfail⟩
  · refine Or.inl ⟨id₂, fs₂, new ++ new₂, hrun, hlength₂.trans hlength,
      hmagic₂.trans hmagic, ?_, hgrown.trans ha hb hc hgrown₂⟩
    rw [List.length_append]
    omega
  · refine Or.inr ⟨fun hroom => hfull (hgrown.alloc.room hsize hroom), ?_⟩
    exact hgrown.alloc.allocFailures ▸ hfail

/-- An allocation fails while one part grows. -/
theorem AllocateOutcome.fail {α : Type} {before after rest rest' : Nat}
    {part : Option (α × FileSys σ)}
    {next : α × FileSys σ → Option (Bool × InodeDisk × FileSys σ)}
    {a₂ b₂ c₂ : Nat} (hle : rest ≤ rest')
    (hpart : ¬ fs.Room before after ∧ FailsMore fs part)
    (hmono : ∀ x success id' fs', next x = some (success, id', fs') →
      x.2.allocFailures ≤ fs'.allocFailures) :
    AllocateOutcome ready synced own data fs id a b c a₂ b₂ c₂
      (before + rest) (after + rest') (part.bind next) := by
  refine Or.inr ⟨fun hroom => hpart.1 ⟨?_, hroom.2⟩, fun success id' fs' hrun => ?_⟩
  · have hcount := hroom.1
    omega
  · obtain ⟨x, hx, hrun⟩ := Option.bind_eq_some_iff.mp hrun
    exact Nat.lt_of_lt_of_le (hpart.2 x.1 x.2 hx) (hmono _ _ _ _ hrun)

variable (hspec : FlushSpec bitmapWrite ready synced own data)
include hspec

/-- The direct entries grow first. -/
theorem FlushSpec.direct_spec {n : Nat} (hfs : AllocReady ready own fs)
    (hready : PartsReady own fs id a b c) :
    (∃ directIndex fs₁ new,
      allocateEntries (fun entry _ fs => allocateEntry bitmapWrite entry fs) 1
          ((List.finRange 124).take (min n 124)) (min n 124) id.directIndex fs =
        some (directIndex, fs₁) ∧
      PartsGrown ready synced own data fs fs₁ id
        { id with directIndex := directIndex } a b c (max a n) b c new ∧
      forestSize 0 (List.finRange 124) (fun i => share 1 (max a n) i) =
        forestSize 0 (List.finRange 124) (fun i => share 1 a i) + new.length) ∨
    (¬ fs.Room (forestSize 0 (List.finRange 124) fun i => share 1 a i)
        (forestSize 0 (List.finRange 124) fun i => share 1 (max a n) i) ∧
      FailsMore fs (allocateEntries
        (fun entry _ fs => allocateEntry bitmapWrite entry fs) 1
        ((List.finRange 124).take (min n 124)) (min n 124) id.directIndex fs)) := by
  have hlist : bytesToSectors (min n 124) (128 ^ 0) = min n 124 := by
    rw [Nat.pow_zero, bytesToSectors, Nat.div_one]
    rfl
  have hshare : (fun i : Fin 124 => share (128 ^ 0) (max a (min n 124)) i) =
      fun i : Fin 124 => share 1 (max a n) i := by
    funext i
    have hi := i.isLt
    simp only [share, Nat.pow_zero]
    omega
  have hloop := allocateEntries_spec hspec.subset 0 (min n 124)
    (fun entry _ fs => allocateEntry bitmapWrite entry fs) (fun k hk hk' => by
      have hone : k = 1 := by omega
      subst hone
      exact hspec.allocateEntry_visit)
    (fun _ _ _ _ _ h => allocateEntry_mono hspec.mono h)
    (by omega) hfs hready.forest
  rw [hlist, hshare] at hloop
  rcases hloop with ⟨directIndex, fs₁, new, hrun, hgrown⟩ | hfail
  · refine Or.inl ⟨directIndex, fs₁, new, hrun, ?_, hgrown.size_eq⟩
    exact PartsGrown.of_direct hspec.subset hready hgrown
  · exact Or.inr hfail

/-- The tree of the index of indexes grows last. -/
theorem FlushSpec.allocateDoublyIndirect_spec {n w : Nat}
    (hfs : AllocReady ready own fs)
    (hready : PartsReady own fs id a b (doublyShare w)) (hn : n ≤ maxBlocks) :
    AllocateOutcome ready synced own data fs id a b (doublyShare w)
      a b (doublyShare (max w n)) (treeSize 128 2 (doublyShare w))
      (treeSize 128 2 (doublyShare (max w n)))
      (allocateDoublyIndirect bitmapWrite id (doublyShare n) fs) := by
  have hmax := doublyShare_max w n
  have hle := doublyShare_le hn
  generalize doublyShare n = l at hmax hle
  rw [hmax, allocateDoublyIndirect]
  split
  case isTrue hzero =>
    subst hzero
    rw [Nat.max_zero]
    exact AllocateOutcome.done hfs hready
  case isFalse hpos =>
    simp only [Nat.min_eq_left hle, Nat.sub_self, ↓reduceIte,
      Option.bind_eq_bind]
    rcases hspec.inodeAllocateIndirect_visit 2 l (Nat.le_refl 2)
        (Nat.pos_of_ne_zero hpos) (by rwa [Nat.pow_two]) fs
        id.doublyIndirectIndex (doublyShare w) hfs hready.doublyTree with
      ⟨entry, fs₁, new, hrun, hgrown⟩ | hfail
    · refine Or.inl ⟨{ id with doublyIndirectIndex := entry }, fs₁, new, ?_, rfl,
        rfl, hgrown.size_eq, PartsGrown.of_doubly hspec.subset hready hgrown⟩
      simp [hrun]
    · rw [← Nat.add_zero (treeSize 128 2 (doublyShare w)),
        ← Nat.add_zero (treeSize 128 2 (max (doublyShare w) l))]
      refine AllocateOutcome.fail (Nat.le_refl 0) hfail
        fun x success id' fs' hrun => ?_
      simp only [Option.some.injEq, Prod.mk.injEq] at hrun
      exact (congrArg FileSys.allocFailures hrun.2.2).le

/-- Before it the tree of the single index grows. -/
theorem FlushSpec.allocateIndirect_spec {n w : Nat}
    (hfs : AllocReady ready own fs)
    (hready : PartsReady own fs id a (indirectShare w) (doublyShare w))
    (hn : n ≤ maxBlocks) :
    AllocateOutcome ready synced own data fs id a (indirectShare w)
      (doublyShare w) a (indirectShare (max w n)) (doublyShare (max w n))
      (treeSize 128 1 (indirectShare w) + treeSize 128 2 (doublyShare w))
      (treeSize 128 1 (indirectShare (max w n)) +
        treeSize 128 2 (doublyShare (max w n)))
      (allocateIndirect bitmapWrite id (n - 124) fs) := by
  rw [allocateIndirect]
  split
  case isTrue hzero =>
    have hindirect : indirectShare n = 0 := by
      rw [indirectShare, hzero, Nat.zero_min]
    have hdoubly := sub_indirectShare n
    rw [hzero, Nat.zero_sub] at hdoubly
    rw [indirectShare_max, doublyShare_max, hindirect, ← hdoubly, Nat.max_zero,
      Nat.max_zero]
    exact AllocateOutcome.done hfs hready
  case isFalse hpos =>
    have hpos' : 0 < indirectShare n :=
      Nat.lt_min.mpr ⟨Nat.pos_of_ne_zero hpos, by decide⟩
    change AllocateOutcome ready synced own data fs id a _ _ a _ _ _ _
      ((inodeAllocateIndirect bitmapWrite 1 id.indirectIndex (indirectShare n)
        fs).bind _)
    have hsize := treeSize_mono 128 2 (doublyShare_mono (Nat.le_max_left w n))
    have hvisit := hspec.inodeAllocateIndirect_visit 1
      (indirectShare n) (by decide) hpos' (Nat.min_le_right _ _) fs
      id.indirectIndex (indirectShare w) hfs hready.indirectTree
    rw [← indirectShare_max] at hvisit
    rcases hvisit with ⟨entry, fs₁, new, hrun, hgrown⟩ | hfail
    · have hparts := PartsGrown.of_indirect hspec.subset hready hgrown
      simp only at hrun
      rw [hrun, Option.bind_some]
      change AllocateOutcome ready synced own data fs id a _ _ a _ _ _ _
        (allocateDoublyIndirect bitmapWrite _ (n - 124 - indirectShare n) fs₁)
      rw [sub_indirectShare]
      exact AllocateOutcome.step { id with indirectIndex := entry }
        (Nat.le_refl a) (indirectShare_mono (Nat.le_max_left w n))
        (Nat.le_refl _) rfl rfl hgrown.size_eq hparts
        (hspec.allocateDoublyIndirect_spec hparts.alloc.ready
          (hparts.partsReady hfs hready) hn)
    · exact AllocateOutcome.fail hsize hfail fun x success id' fs' hrun =>
        stepRel_allocFailures.allocateDoublyIndirect_run
          (allocateEntry_mono hspec.mono) hrun

/-- `inode_allocate` gives an inode the blocks its length needs and keeps the
ones it had, or an allocation fails for want of room. -/
theorem FlushSpec.inodeAllocate_spec {w : Nat} (hfs : AllocReady ready own fs)
    (hready : PartsReady own fs id w (indirectShare w) (doublyShare w))
    (hlength : 0 ≤ id.length) (hblocks : id.blocks ≤ maxBlocks) :
    AllocateOutcome ready synced own data fs id w (indirectShare w)
      (doublyShare w) (max w id.blocks) (indirectShare (max w id.blocks))
      (doublyShare (max w id.blocks)) (sectorsFor w)
      (sectorsFor (max w id.blocks)) (inodeAllocate bitmapWrite id fs) := by
  have hneg : ¬ id.length < 0 := by
    rw [Int32.lt_iff_toInt_lt]
    rw [Int32.le_iff_toInt_le] at hlength
    exact Int.not_lt.mpr hlength
  have hleft : id.blocks - min id.blocks 124 = id.blocks - 124 := by omega
  rw [inodeAllocate, if_neg hneg, sectorsFor, sectorsFor, Nat.add_assoc,
    Nat.add_assoc]
  have hle : w ≤ max w id.blocks := Nat.le_max_left _ _
  have hsizeI := treeSize_mono 128 1 (indirectShare_mono hle)
  have hsizeD := treeSize_mono 128 2 (doublyShare_mono hle)
  change AllocateOutcome ready synced own data fs id w _ _ _ _ _ _ _
    ((allocateEntries _ 1 ((List.finRange 124).take (min id.blocks 124))
      (min id.blocks 124) id.directIndex fs).bind _)
  rcases hspec.direct_spec (n := id.blocks) hfs hready with
    ⟨direct, fs₁, new, hrun, hparts, hsize⟩ | hfail
  · rw [hrun, Option.bind_some]
    change AllocateOutcome ready synced own data fs id w _ _ _ _ _ _ _
      (allocateIndirect bitmapWrite _ (id.blocks - min id.blocks 124) fs₁)
    rw [hleft]
    exact AllocateOutcome.step { id with directIndex := direct } hle
      (Nat.le_refl _) (Nat.le_refl _) rfl rfl hsize hparts
      (hspec.allocateIndirect_spec hparts.alloc.ready
        (hparts.partsReady hfs hready) hblocks)
  · exact AllocateOutcome.fail (Nat.add_le_add hsizeI hsizeD) hfail
      fun x success id' fs' hrun =>
        stepRel_allocFailures.allocateIndirect_run (allocateEntry_mono hspec.mono) hrun

end Allocate

end PintosLabs
