/-
Inodes that grow side by side (filesys/inode.c).  `inode_allocate` builds the
indexes of any number of them, one length after another, while their blocks
are written to; `byte_to_sector` looks the blocks up.
-/
import PintosLabs.DiskFormat

namespace PintosLabs

variable {σ : Type} [SectorStore σ BlockSector Block]

/-- Inodes that are being built, and the file system they are built in. -/
structure Inodes (σ : Type) where
  disk : Nat → InodeDisk
  fs : FileSys σ

/-- An inode gets a length, or the block of one of its bytes gets contents. -/
inductive IndexOp where
  | allocate (i : Nat) (length : Int32)
  | write (i : Nat) (pos : Int32) (source : Block)

namespace Inodes

/-- The sector that `byte_to_sector` returns. -/
def lookup (s : Inodes σ) (i : Nat) (pos : Int32) : BlockSector :=
  (byteToSector s.fs.store (s.disk i) pos).1

/-- `inode_allocate`, for an inode whose length has been set. -/
def allocate (s : Inodes σ) (i : Nat) (length : Int32) :
    Option (Bool × Inodes σ) := do
  let (success, id, fs) ←
    inodeAllocate bitmapWrite { s.disk i with length := length } s.fs
  some (success, { disk := Function.update s.disk i id, fs := fs })

/-- A sector of the inode is looked up and written. -/
def write (s : Inodes σ) (i : Nat) (pos : Int32) (source : Block) : Inodes σ :=
  let (sector, store) := byteToSector s.fs.store (s.disk i) pos
  { s with fs := { s.fs with store := SectorStore.write store sector source } }

def step (s : Inodes σ) : IndexOp → Option (Inodes σ)
  | .allocate i length => (s.allocate i length).map Prod.snd
  | .write i pos source => some (s.write i pos source)

/-- The position is a byte of the inode. -/
def Inside (s : Inodes σ) (i : Nat) (pos : Int32) : Prop :=
  0 ≤ pos.toInt ∧ pos.toInt < (s.disk i).length.toInt

/-- Lengths do not shrink, no call of `free_map_allocate` fails, and only bytes
of an inode are written. -/
def Ok (s : Inodes σ) : IndexOp → Prop
  | .allocate i length => (s.disk i).length.toInt ≤ length.toInt ∧
      ∀ success s', s.allocate i length = some (success, s') →
        s'.fs.allocFailures = s.fs.allocFailures
  | .write i pos _ => s.Inside i pos

/-- There are free sectors for all that the inode still needs. -/
def HasRoom (s : Inodes σ) (i : Nat) (length : Int32) : Prop :=
  s.fs.Room (sectorsFor (s.disk i).blocks)
    (sectorsFor (bytesToSectors length.toInt.toNat blockSectorSize))

/-- Each block of an inode has a sector, which no other block has, and nothing
else is found. -/
structure LookupsAgree (s : Inodes σ) : Prop where
  inside : ∀ i pos, s.Inside i pos →
    s.lookup i pos ≠ 0 ∧ s.lookup i pos ≠ noSector
  distinct : ∀ i pos j pos', s.Inside i pos → s.Inside j pos' →
    (s.lookup i pos = s.lookup j pos' ↔
      i = j ∧
        pos.toInt.toNat / blockSectorSize = pos'.toInt.toNat / blockSectorSize)
  outside : ∀ i pos, ¬ s.Inside i pos → s.lookup i pos = noSector

/-- Every block there was is where it was, with the same contents. -/
def Keeps (s s' : Inodes σ) : Prop :=
  ∀ i pos, s.Inside i pos → s'.lookup i pos = s.lookup i pos ∧
    s'.fs.view (s.lookup i pos) = s.fs.view (s.lookup i pos)

def sectors (s : Inodes σ) (i : Nat) : List BlockSector :=
  (s.disk i).sectors s.fs.kids (s.disk i).blocks

/-- The inodes are in order, and no two share a sector. -/
structure Inv (ready : FileSys σ → Prop) (own : List BlockSector)
    (s : Inodes σ) : Prop where
  alloc : AllocReady ready own s.fs
  parts : ∀ i, PartsReady own s.fs (s.disk i) (s.disk i).blocks
    (indirectShare (s.disk i).blocks) (doublyShare (s.disk i).blocks)
  nonneg : ∀ i, 0 ≤ (s.disk i).length.toInt
  blocks_le : ∀ i, (s.disk i).blocks ≤ maxBlocks
  apart : ∀ i j, i ≠ j → List.Disjoint (s.sectors i) (s.sectors j)

section Lookup

variable {ready : FileSys σ → Prop} {own : List BlockSector} {s : Inodes σ}

theorem Inv.used (h : s.Inv ready own) {i : Nat} :
    ∀ t ∈ s.sectors i, s.fs.Used t :=
  (h.parts i).used

theorem Inv.foreign (h : s.Inv ready own) {i : Nat} :
    ∀ t ∈ s.sectors i, t ∉ own :=
  (h.parts i).foreign

/-- A lookup inside an inode is that of a block of it. -/
theorem Inv.lookup_inside (h : s.Inv ready own) {i : Nat} {pos : Int32}
    (hpos : s.Inside i pos) :
    s.lookup i pos =
        (s.disk i).block s.fs.kids (pos.toInt.toNat / blockSectorSize) ∧
      pos.toInt.toNat / blockSectorSize < (s.disk i).blocks := by
  have hfits := InodeDisk.fits_of_blocks_le (h.blocks_le i)
  refine ⟨(byteToSector_spec s.fs.store (s.disk i) pos).2.1
    (hfits.holds hpos.1 hpos.2), ?_⟩
  have hle := (s.disk i).length_le_blocks
  rw [Nat.div_lt_iff_lt_mul (by decide)]
  have hlt : (pos.toInt.toNat : Int) < (s.disk i).blocks * blockSectorSize := by
    rw [Int.toNat_of_nonneg hpos.1]
    exact hpos.2.trans_le hle
  exact_mod_cast hlt

theorem Inv.lookup_mem (h : s.Inv ready own) {i : Nat} {pos : Int32}
    (hpos : s.Inside i pos) : s.lookup i pos ∈ s.sectors i := by
  obtain ⟨hblock, hlt⟩ := h.lookup_inside hpos
  rw [hblock]
  exact InodeDisk.block_mem (h.blocks_le i) hlt

/-- Lookups find the blocks of the inodes in order. -/
theorem Inv.lookupsAgree (h : s.Inv ready own) : s.LookupsAgree where
  inside i pos hpos := by
    have hused := h.used _ (h.lookup_mem hpos)
    have hzero : s.lookup i pos ≠ 0 := (h.parts i).ne_zero _ (h.lookup_mem hpos)
    exact ⟨hzero, hused.ne_noSector h.alloc.length_lt⟩
  distinct i pos j pos' hpos hpos' := by
    obtain ⟨hblock, hlt⟩ := h.lookup_inside hpos
    obtain ⟨hblock', hlt'⟩ := h.lookup_inside hpos'
    constructor
    · intro heq
      have hmem := h.lookup_mem hpos
      rw [heq] at hmem
      obtain rfl : i = j := by
        by_contra hne
        exact h.apart i j hne hmem (h.lookup_mem hpos')
      rw [hblock, hblock'] at heq
      exact ⟨rfl, InodeDisk.block_injective (h.parts i).nodup (h.blocks_le i)
        hlt hlt' heq⟩
    · rintro ⟨rfl, heq⟩
      rw [hblock, hblock', heq]
  outside i pos hpos :=
    (byteToSector_spec s.fs.store (s.disk i) pos).2.2 fun hholds =>
      hpos ⟨hholds.1, hholds.2.1⟩

end Lookup

/-! What a step does. -/

section Step

variable {ready synced : FileSys σ → Prop} {own data : List BlockSector}
  (hspec : FlushSpec (bitmapWrite (σ := σ)) ready synced own data)
  {s : Inodes σ}

theorem start_inv {fs : FileSys σ} (hfs : AllocReady ready own fs) :
    Inv ready own ⟨fun _ => emptyInode, fs⟩ where
  alloc := hfs
  parts _ := PartsReady.empty
  nonneg _ := Int.le_refl 0
  blocks_le _ := by
    change emptyInode.blocks ≤ maxBlocks
    rw [emptyInode_blocks]
    exact Nat.zero_le _
  apart _ _ _ := by
    change List.Disjoint (emptyInode.sectors fs.kids emptyInode.blocks) _
    rw [emptyInode_sectors]
    exact List.disjoint_nil_left _

include hspec

/-- What is written to a block of an inode changes no index. -/
theorem Inv.write (h : s.Inv ready own) {i : Nat} {pos : Int32}
    (hpos : s.Inside i pos) (source : Block) :
    (s.write i pos source).Inv ready own := by
  have hread := (byteToSector_spec s.fs.store (s.disk i) pos).1
  have hview : ∀ t, t ∉ [s.lookup i pos] →
      SectorStore.view (SectorStore.write
        (byteToSector s.fs.store (s.disk i) pos).2 (s.lookup i pos) source) t =
        s.fs.view t := by
    intro t ht
    rw [SectorStore.view_write, Function.update_of_ne (List.ne_of_not_mem_cons ht),
      hread]
    rfl
  have hforeign : ∀ t ∈ [s.lookup i pos], t ∉ own := by
    intro t ht
    rw [List.mem_singleton.mp ht]
    exact h.foreign _ (h.lookup_mem hpos)
  have hkids : ∀ j, ∀ t ∈ (s.disk j).indexSectors s.fs.kids (s.disk j).blocks,
      (s.write i pos source).fs.kids t = s.fs.kids t := by
    intro j t ht
    refine congrArg wordsOf (hview t fun hmem => ?_)
    rw [List.mem_singleton.mp hmem] at ht
    by_cases hij : i = j
    · subst hij
      obtain ⟨hblock, hlt⟩ := h.lookup_inside hpos
      rw [hblock] at ht
      exact InodeDisk.block_not_mem_index (h.parts i).nodup (h.blocks_le i) hlt ht
    · exact h.apart i j hij (h.lookup_mem hpos)
        (InodeDisk.indexSectors_subset ht)
  have hsectors : ∀ j, (s.write i pos source).sectors j = s.sectors j := fun j =>
    InodeDisk.sectors_congr (hkids j)
  refine ⟨(hspec.rewrite h.alloc hforeign hview).ready,
    fun j => (h.parts j).congr (hkids j) h.used, h.nonneg, h.blocks_le,
    fun j k hjk => ?_⟩
  rw [hsectors, hsectors]
  exact h.apart j k hjk

end Step

/-! One inode grows. -/

/-- One inode has grown, on the sectors `new`, and the others are as they
were. -/
structure OneGrown (ready synced : FileSys σ → Prop)
    (own data : List BlockSector) (s s' : Inodes σ) (i : Nat)
    (new : List BlockSector) : Prop where
  grown : PartsGrown ready synced own data s.fs s'.fs (s.disk i) (s'.disk i)
    (s.disk i).blocks (indirectShare (s.disk i).blocks)
    (doublyShare (s.disk i).blocks) (s'.disk i).blocks
    (indirectShare (s'.disk i).blocks) (doublyShare (s'.disk i).blocks) new
  others : ∀ j, i ≠ j → s'.disk j = s.disk j
  size : sectorsFor (s'.disk i).blocks =
    sectorsFor (s.disk i).blocks + new.length
  length_le : (s.disk i).length.toInt ≤ (s'.disk i).length.toInt
  blocks_le : (s'.disk i).blocks ≤ maxBlocks

namespace OneGrown

variable {ready synced : FileSys σ → Prop} {own data : List BlockSector}
  {s s' : Inodes σ} {i : Nat} {new : List BlockSector}
  (hone : OneGrown ready synced own data s s' i new)
include hone

theorem inside {j : Nat} {pos : Int32} (hpos : s.Inside j pos) :
    s'.Inside j pos := by
  refine ⟨hpos.1, ?_⟩
  by_cases hij : i = j
  · subst hij
    exact hpos.2.trans_le hone.length_le
  · rw [hone.others j hij]
    exact hpos.2

variable (hsub : data ⊆ own) (h : s.Inv ready own)
include hsub h

/-- The sectors of the other inodes are not written to. -/
theorem view_eq {j : Nat} (hij : i ≠ j) :
    ∀ t ∈ s.sectors j, s'.fs.view t = s.fs.view t := by
  intro t ht
  exact hone.grown.alloc.part_view_eq hsub hone.grown.perm
    (fun hmem => h.apart i j hij hmem ht) (h.used t ht) (h.foreign t ht)

theorem kids_eq {j : Nat} (hij : i ≠ j) :
    ∀ t ∈ (s.disk j).indexSectors s.fs.kids (s.disk j).blocks,
      s'.fs.kids t = s.fs.kids t := by
  intro t ht
  exact congrArg wordsOf
    (hone.view_eq hsub h hij t (InodeDisk.indexSectors_subset ht))

theorem sectors_eq {j : Nat} (hij : i ≠ j) : s'.sectors j = s.sectors j := by
  rw [sectors, hone.others j hij]
  exact InodeDisk.sectors_congr (hone.kids_eq hsub h hij)

/-- Every block stays where it is, with its contents. -/
theorem block_keep {j k : Nat} (hk : k < (s.disk j).blocks) :
    (s'.disk j).block s'.fs.kids k = (s.disk j).block s.fs.kids k ∧
      s'.fs.view ((s.disk j).block s.fs.kids k) =
        s.fs.view ((s.disk j).block s.fs.kids k) := by
  by_cases hij : i = j
  · subst hij
    exact hone.grown.block_keep hk
  · rw [hone.others j hij]
    exact ⟨InodeDisk.block_congr (hone.kids_eq hsub h hij) hk,
      hone.view_eq hsub h hij _ (InodeDisk.block_mem (h.blocks_le j) hk)⟩

/-- The new sectors were free, so that no other inode has them. -/
theorem disjoint {j : Nat} (hij : i ≠ j) :
    List.Disjoint (s'.sectors i) (s'.sectors j) := by
  rw [hone.sectors_eq hsub h hij]
  intro t ht ht'
  rcases List.mem_append.mp (hone.grown.perm.mem_iff.mp ht) with hold | hnew
  · exact h.apart i j hij hold ht'
  · exact hone.grown.alloc.free t hnew (h.used t ht')

theorem inv : s'.Inv ready own := by
  refine ⟨hone.grown.alloc.ready, fun j => ?_, fun j => ?_, fun j => ?_,
    fun j k hjk => ?_⟩
  · by_cases hij : i = j
    · subst hij
      exact hone.grown.partsReady h.alloc (h.parts i)
    · rw [hone.others j hij]
      exact (h.parts j).congr (hone.kids_eq hsub h hij) fun t ht =>
        hone.grown.alloc.used_mono (h.used t ht)
  · by_cases hij : i = j
    · subst hij
      exact (h.nonneg i).trans hone.length_le
    · rw [hone.others j hij]
      exact h.nonneg j
  · by_cases hij : i = j
    · subst hij
      exact hone.blocks_le
    · rw [hone.others j hij]
      exact h.blocks_le j
  · by_cases hij : i = j
    · subst hij
      exact hone.disjoint hsub h hjk
    · by_cases hik : i = k
      · subst hik
        exact (hone.disjoint hsub h hij).symm
      · rw [hone.sectors_eq hsub h hij, hone.sectors_eq hsub h hik]
        exact h.apart j k hjk

theorem keeps : s.Keeps s' := by
  intro j pos hpos
  obtain ⟨hblock, hlt⟩ := h.lookup_inside hpos
  obtain ⟨hblock', -⟩ := (hone.inv hsub h).lookup_inside (hone.inside hpos)
  obtain ⟨hsame, hview⟩ := hone.block_keep hsub h hlt
  rw [hblock', hblock]
  exact ⟨hsame, hview⟩

end OneGrown

section Allocate

variable {ready synced : FileSys σ → Prop} {own data : List BlockSector}
  (hspec : FlushSpec (bitmapWrite (σ := σ)) ready synced own data)
  {s : Inodes σ} {i : Nat} {length : Int32}
include hspec

/-- `inode_allocate` makes one inode grow, or an allocation fails for want of
room. -/
theorem Inv.allocate (h : s.Inv ready own)
    (hle : (s.disk i).length.toInt ≤ length.toInt)
    (hmax : bytesToSectors length.toInt.toNat blockSectorSize ≤ maxBlocks) :
    (∃ s' new, s.allocate i length = some (true, s') ∧
      (s'.disk i).length = length ∧ OneGrown ready synced own data s s' i new) ∨
    (¬ s.HasRoom i length ∧ ∀ success s',
      s.allocate i length = some (success, s') →
        s.fs.allocFailures < s'.fs.allocFailures) := by
  have hblocks : (s.disk i).blocks ≤
      ({ s.disk i with length := length } : InodeDisk).blocks :=
    InodeDisk.blocks_mono hle
  have hparts : PartsReady own s.fs { s.disk i with length := length }
      (s.disk i).blocks (indirectShare (s.disk i).blocks)
      (doublyShare (s.disk i).blocks) :=
    ⟨(h.parts i).direct, (h.parts i).indirect, (h.parts i).doubly,
      (h.parts i).nodup, (h.parts i).used, (h.parts i).foreign⟩
  have hrun := hspec.inodeAllocate_spec h.alloc hparts
    (by rw [Int32.le_iff_toInt_le]; exact (h.nonneg i).trans hle) hmax
  rw [Nat.max_eq_right hblocks] at hrun
  rcases hrun with
    ⟨id', fs', new, hrun, hlength, -, hsize, hgrown⟩ | ⟨hfull, hfail⟩
  · have hsame : id'.blocks =
        ({ s.disk i with length := length } : InodeDisk).blocks := by
      rw [InodeDisk.blocks, hlength, InodeDisk.blocks]
    rw [← hsame] at hgrown hsize
    have hself : Function.update s.disk i id' i = id' :=
      Function.update_self _ _ _
    refine Or.inl ⟨⟨Function.update s.disk i id', fs'⟩, new, ?_, ?_, ?_⟩
    · simp only [Inodes.allocate, hrun, Option.bind_eq_bind, Option.bind_some]
    · simp only [hself, hlength]
    · refine ⟨?_, fun j hij => Function.update_of_ne (Ne.symm hij) _ _, ?_, ?_, ?_⟩
      · simp only [hself]
        exact ⟨hgrown.direct, hgrown.indirect, hgrown.doubly, hgrown.alloc,
          hgrown.perm⟩
      · simp only [hself]
        exact hsize
      · simp only [hself, hlength]
        exact hle
      · simp only [hself, hsame]
        exact hmax
  · refine Or.inr ⟨hfull, fun success s' hrun => ?_⟩
    simp only [Inodes.allocate, Option.bind_eq_bind, Option.bind_eq_some_iff,
      Option.some.injEq, Prod.mk.injEq] at hrun
    obtain ⟨⟨success', id', fs'⟩, hrun, -, rfl⟩ := hrun
    exact hfail success' id' fs' hrun

/-- A length that `inode_allocate` returns for is one that a file can have. -/
theorem Inv.allocate_ok (h : s.Inv ready own) (hok : s.Ok (.allocate i length))
    {success : Bool} {s' : Inodes σ}
    (hrun : s.allocate i length = some (success, s')) :
    success = true ∧ ∃ new, OneGrown ready synced own data s s' i new := by
  obtain ⟨hle, hnofail⟩ := hok
  have hmax : bytesToSectors length.toInt.toNat blockSectorSize ≤ maxBlocks := by
    refine Nat.le_of_not_lt fun hlt => ?_
    have hnonneg : (0 : Int32) ≤ length := by
      rw [Int32.le_iff_toInt_le]
      exact (h.nonneg i).trans hle
    simp only [Inodes.allocate, Option.bind_eq_bind, Option.bind_eq_some_iff] at hrun
    obtain ⟨made, hrun, -⟩ := hrun
    have hblocks : maxBlocks <
        ({ s.disk i with length := length } : InodeDisk).blocks := hlt
    rw [inodeAllocate_none hnonneg hblocks] at hrun
    contradiction
  rcases h.allocate hspec hle hmax with ⟨s₁, new, hrun₁, -, hone⟩ | ⟨-, hfail⟩
  · rw [hrun, Option.some.injEq, Prod.mk.injEq] at hrun₁
    obtain ⟨rfl, rfl⟩ := hrun₁
    exact ⟨rfl, new, hone⟩
  · have hlt := hfail success s' hrun
    rw [hnofail success s' hrun] at hlt
    exact absurd hlt (Nat.lt_irrefl _)

theorem step_inv {op : IndexOp} {s' : Inodes σ} (h : s.Inv ready own)
    (hok : s.Ok op) (hstep : s.step op = some s') : s'.Inv ready own := by
  cases op with
  | allocate i length =>
      rw [step, Option.map_eq_some_iff] at hstep
      obtain ⟨⟨success, s₁⟩, hrun, rfl⟩ := hstep
      obtain ⟨-, new, hone⟩ := h.allocate_ok hspec hok hrun
      exact hone.inv hspec.subset h
  | write i pos source =>
      rw [step, Option.some.injEq] at hstep
      exact hstep ▸ h.write hspec hok source

/-- The inodes that any run builds, from a state in which there are none. -/
theorem run_agrees {fs : FileSys σ} (hfs : AllocReady ready own fs)
    {ops : List IndexOp}
    (hrun : Run step Ok ⟨fun _ => emptyInode, fs⟩ ops s) :
    s.LookupsAgree ∧
    (∀ i length success s', s.Ok (.allocate i length) →
      s.allocate i length = some (success, s') →
        success = true ∧ s'.LookupsAgree ∧ s.Keeps s') ∧
    ∀ i (length : Int32), (s.disk i).length.toInt ≤ length.toInt →
      length.toInt ≤ maxBlocks * blockSectorSize → s.HasRoom i length →
        s.Ok (.allocate i length) ∧
          ∃ s', s.allocate i length = some (true, s') ∧
            (s'.disk i).length = length ∧ s'.fs.MemoryOk ∧
            sectorsFor (s'.disk i).blocks + s'.fs.freeCount =
              sectorsFor (s.disk i).blocks + s.fs.freeCount := by
  have h : s.Inv ready own := hrun.invariant _ (step_inv hspec) (start_inv hfs)
  refine ⟨h.lookupsAgree, fun i length success s' hok hrun => ?_,
    fun i length hle hmax hroom => ?_⟩
  · obtain ⟨hsuccess, new, hone⟩ := h.allocate_ok hspec hok hrun
    exact ⟨hsuccess, (hone.inv hspec.subset h).lookupsAgree,
      hone.keeps hspec.subset h⟩
  · have hblocks : bytesToSectors length.toInt.toNat blockSectorSize ≤
        maxBlocks := by
      rw [bytesToSectors_le_iff (by decide)]
      have hle := Int.toNat_le_toNat hmax
      exact_mod_cast hle
    rcases h.allocate hspec hle hblocks with
      ⟨s', new, hrun, hlength, hone⟩ | ⟨hfull, -⟩
    · refine ⟨⟨hle, fun success s₁ hrun₁ => ?_⟩, s', hrun, hlength,
        hone.grown.alloc.memory hroom.2, ?_⟩
      · rw [hrun, Option.some.injEq, Prod.mk.injEq] at hrun₁
        rw [← hrun₁.2]
        exact hone.grown.alloc.allocFailures
      · have hsize := hone.size
        have hcount := hone.grown.alloc.count
        omega
    · exact absurd hroom hfull

end Allocate

end Inodes

/-! The file systems that inodes are built in. -/

/-- What `free_map_init` has set up, on a device of `cnt` sectors. -/
def newFileSys (store : σ) (memory freeMap : List Bool) : FileSys σ :=
  { store := store, freeMap := freeMap, freeMapFile := none
    openInodes := fun _ => none, memory := memory, allocFailures := 0 }

/-- The kernel builds inodes when the free map has been set up, when its file
has been made, and when the disk has been formatted, whatever is done to its
files. -/
inductive Started : FileSys σ → Prop
  | init {cnt : BlockSector} {store : σ} {memory freeMap : List Bool}
      (hinit : freeMapInit cnt.toNat = some freeMap) :
      Started (newFileSys store memory freeMap)
  | created {cnt : BlockSector} {store : σ} {memory freeMap : List Bool}
      {fs : FileSys σ} (hinit : freeMapInit cnt.toNat = some freeMap)
      (hcreate : freeMapCreate (newFileSys store memory freeMap) = some fs)
      (hnofail : fs.allocFailures = 0) : Started fs
  | formatted {cnt : BlockSector} {store : σ} {memory : List Bool}
      {fs : FileSys σ} (hformat : filesysInit true cnt store memory = some fs)
      (hnofail : fs.allocFailures = 0) {ops : List FileOp} {w : World σ}
      (hrun : Run worldStep (fun w op => op.Ok w) (World.formatted fs) ops w) :
      Started w.fs

omit [SectorStore σ BlockSector Block] in
/-- The map that `free_map_init` makes fits a device, and has its own sector in
use. -/
theorem newFileSys_map {cnt : BlockSector} {store : σ} {memory freeMap : List Bool}
    (hinit : freeMapInit cnt.toNat = some freeMap) :
    freeMap.length < 2 ^ 32 ∧ 0 < freeMap.length ∧
      (newFileSys store memory freeMap).Used freeMapSector := by
  obtain ⟨hlength, -, hbits⟩ := freeMapInit_spec hinit
  have hpos : 0 < cnt.toNat := by
    refine Nat.pos_of_ne_zero fun hzero => ?_
    rw [freeMapInit, if_pos hzero] at hinit
    contradiction
  rw [hlength]
  exact ⟨cnt.toNat_lt, hpos, (hbits 0).mpr ⟨hpos, Or.inl rfl⟩⟩

theorem Started.allocReady {fs : FileSys σ} (hstart : Started fs) :
    AllocReady (fun fs : FileSys σ => fs.freeMapFile = none) [] fs ∨
      ∃ file : FreeMapFile, AllocReady file.Ready file.own fs := by
  cases hstart with
  | init hinit =>
      obtain ⟨hlength, -, hzero⟩ := newFileSys_map hinit
      exact Or.inl ⟨rfl, hlength, by simp, hzero⟩
  | @created cnt store memory freeMap fs hinit hcreate hnofail =>
      obtain ⟨hlength, hpos, hzero⟩ := newFileSys_map hinit
      have hnone : (newFileSys store memory freeMap).freeMapFile = none := rfl
      have hmax := freeMapCreate_max hlength hcreate
      rcases freeMapCreate_spec hnone (fun _ => rfl) hlength hzero hpos hmax with
        ⟨file, fs', hrun, hmade⟩ | ⟨-, hfail⟩
      · rw [hcreate, Option.some.injEq] at hrun
        exact Or.inr ⟨file, hrun ▸ hmade.ready⟩
      · exact absurd hnofail (Nat.ne_of_gt (hfail _ hcreate))
  | formatted hformat hnofail hrun =>
      obtain ⟨file, hinv⟩ := filesysInit_inv hformat hnofail
      exact Or.inr ⟨file, (worldRun_inv hinv hrun).ready⟩

/-- Inodes are built side by side, length after length, while their blocks are
written.  At any time each block of an inode has a sector of its own, which is
not the empty marker, and no sector is found outside; a further growth leaves
every block where it is, with its contents; and it succeeds, on as many sectors
as it lacks, if these are free. -/
theorem index_growth {fs : FileSys σ} (hstart : Started fs) {ops : List IndexOp}
    {s : Inodes σ} (hrun : Run Inodes.step Inodes.Ok ⟨fun _ => emptyInode, fs⟩ ops s) :
    s.LookupsAgree ∧
    (∀ i length success s', s.Ok (.allocate i length) →
      s.allocate i length = some (success, s') →
        success = true ∧ s'.LookupsAgree ∧ s.Keeps s') ∧
    ∀ i (length : Int32), (s.disk i).length.toInt ≤ length.toInt →
      length.toInt ≤ maxBlocks * blockSectorSize → s.HasRoom i length →
        s.Ok (.allocate i length) ∧
          ∃ s', s.allocate i length = some (true, s') ∧
            (s'.disk i).length = length ∧ s'.fs.MemoryOk ∧
            sectorsFor (s'.disk i).blocks + s'.fs.freeCount =
              sectorsFor (s.disk i).blocks + s.fs.freeCount := by
  rcases hstart.allocReady with hfs | ⟨file, hfs⟩
  · exact Inodes.run_agrees flushSpec_none hfs hrun
  · exact Inodes.run_agrees file.flushSpec hfs hrun

namespace IndexGrowthWitness

/-- A run goes on with an allocation that there is room for. -/
theorem allocate_next {file : FreeMapFile} {fs : FileSys σ}
    (hfs : AllocReady file.Ready file.own fs) {ops : List IndexOp} {s : Inodes σ}
    (hrun : Run Inodes.step Inodes.Ok ⟨fun _ => emptyInode, fs⟩ ops s)
    (i : Nat) (length : Int32) {old new : Nat}
    (hle : (s.disk i).length.toInt ≤ length.toInt)
    (hmax : length.toInt ≤ maxBlocks * blockSectorSize)
    (hold : sectorsFor (s.disk i).blocks = old)
    (hnew : sectorsFor (bytesToSectors length.toInt.toNat blockSectorSize) = new)
    (hroom : new ≤ old + s.fs.freeCount) (hmemory : s.fs.MemoryOk) :
    ∃ s', Run Inodes.step Inodes.Ok ⟨fun _ => emptyInode, fs⟩
        (ops ++ [.allocate i length]) s' ∧
      s.allocate i length = some (true, s') ∧ (s'.disk i).length = length ∧
      (∀ j, j ≠ i → s'.disk j = s.disk j) ∧ s'.fs.MemoryOk ∧
      new + s'.fs.freeCount = old + s.fs.freeCount := by
  rw [← hold, ← hnew] at hroom ⊢
  obtain ⟨hok, s', hmade, hlength, hmemory', hcount⟩ :=
    (Inodes.run_agrees file.flushSpec hfs hrun).2.2 i length hle hmax
      ⟨hroom, hmemory⟩
  rw [InodeDisk.blocks, hlength] at hcount
  have hstep : s.step (.allocate i length) = some s' := by
    rw [Inodes.step, hmade]
    rfl
  refine ⟨s', hrun.snoc hok hstep, hmade, hlength, fun j hij => ?_, hmemory', hcount⟩
  simp only [Inodes.allocate, Option.bind_eq_bind, Option.bind_eq_some_iff,
    Option.some.injEq, Prod.mk.injEq] at hmade
  obtain ⟨made, -, -, rfl⟩ := hmade
  exact Function.update_of_ne hij _ _

/-- Two inodes grow past each other on a formatted disk: the first has one
byte, which is written once the second has two blocks, and then gets to three
blocks. -/
theorem index_growth_two : ∃ (fs : FileSys (BlockSector → Block))
    (s s' : Inodes (BlockSector → Block)), Started fs ∧
    Run Inodes.step Inodes.Ok ⟨fun _ => emptyInode, fs⟩
      [.allocate 0 1, .allocate 1 1000, .write 0 0 fun _ => 7] s ∧
    s.allocate 0 1025 = some (true, s') ∧ s'.LookupsAgree ∧ s.Keeps s' := by
  obtain ⟨file, fs, hformat, hinv, hnofail, hcount, hmemory⟩ := formatted_disk
  have hstart : Started fs := Started.formatted hformat hnofail (Run.nil _)
  have hempty : sectorsFor emptyInode.blocks = 0 := by
    rw [emptyInode_blocks, sectorsFor_zero]
  have hone : sectorsFor (bytesToSectors (1 : Int32).toInt.toNat
      blockSectorSize) = 1 := sectorsFor_direct (by decide)
  have htwo : sectorsFor (bytesToSectors (1000 : Int32).toInt.toNat
      blockSectorSize) = 2 := sectorsFor_direct (by decide)
  have hthree : sectorsFor (bytesToSectors (1025 : Int32).toInt.toNat
      blockSectorSize) = 3 := sectorsFor_direct (by decide)
  obtain ⟨s₁, hrun₁, -, hlength₁, hothers₁, hmemory₁, hcount₁⟩ :=
    allocate_next hinv.ready (Run.nil _) 0 1
      (by decide : emptyInode.length.toInt ≤ (1 : Int32).toInt) (by decide) hempty
      hone (by change 1 ≤ 0 + fs.freeCount; omega) hmemory
  change 1 + s₁.fs.freeCount = 0 + fs.freeCount at hcount₁
  have hdisk₁ : s₁.disk 1 = emptyInode := hothers₁ 1 (by decide)
  rw [← hdisk₁] at hempty
  obtain ⟨s₂, hrun₂, -, -, hothers₂, hmemory₂, hcount₂⟩ :=
    allocate_next hinv.ready hrun₁ 1 1000 (by rw [hdisk₁]; decide) (by decide) hempty htwo
      (by omega) hmemory₁
  have hlength₂ : (s₂.disk 0).length = 1 := by
    rw [hothers₂ 0 (by decide), hlength₁]
  have hok : s₂.Ok (.write 0 0 fun _ => 7) := by
    rw [Inodes.Ok, Inodes.Inside, hlength₂]
    decide
  have hrun₃ := hrun₂.snoc hok rfl
  have hblocks₂ : sectorsFor (s₂.disk 0).blocks = 1 := by
    rw [InodeDisk.blocks, hlength₂]
    exact hone
  obtain ⟨hok', s', hmade, -⟩ := (index_growth hstart hrun₃).2.2 0 1025
    (by change (s₂.disk 0).length.toInt ≤ _; rw [hlength₂]; decide) (by decide)
    ⟨by
      change _ ≤ sectorsFor (s₂.disk 0).blocks + s₂.fs.freeCount
      rw [hthree, hblocks₂]
      omega, hmemory₂⟩
  obtain ⟨-, hagree, hkeeps⟩ :=
    (index_growth hstart hrun₃).2.1 0 1025 true s' hok' hmade
  exact ⟨fs, _, s', hstart, hrun₃, hmade, hagree, hkeeps⟩

end IndexGrowthWitness

end PintosLabs
