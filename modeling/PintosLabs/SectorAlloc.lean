/-
What taking sectors from the free map does: the effect of one call, of any
number of calls, and what is needed of the writing of the free map to its own
file for that.
-/
import PintosLabs.StepRelation

namespace PintosLabs

variable {σ : Type} [SectorStore σ BlockSector Block]

/-! One bit of the bitmap. -/

theorem bitmapSetMultiple_one (b : List Bool) (start : Nat) (value : Bool) :
    bitmapSetMultiple b start 1 value = b.set start value := by
  simp [bitmapSetMultiple, List.range_one]

theorem bitmapContains_one {b : List Bool} {i : Nat} {value : Bool} :
    bitmapContains b i 1 value = true ↔ b[i]? = some value := by
  rw [bitmapContains, List.contains_iff_mem]
  cases hget : b[i]? with
  | none =>
      rw [List.drop_eq_nil_of_le (List.getElem?_eq_none_iff.mp hget)]
      simp
  | some v =>
      obtain ⟨hi, rfl⟩ := List.getElem?_eq_some_iff.mp hget
      rw [List.drop_eq_getElem_cons hi, List.take_succ_cons, List.take_zero,
        List.mem_singleton, Option.some.injEq, eq_comm]

/-- `bitmap_scan` for one free sector finds one if there is one. -/
theorem bitmapScan_one_some {b : List Bool} {i : Nat}
    (hscan : bitmapScan b 0 1 false = some i) : b[i]? = some false := by
  rw [bitmapScan] at hscan
  split at hscan
  case isFalse => contradiction
  case isTrue hlength =>
    obtain ⟨hfree, hmem, -⟩ := List.find?_range'_eq_some.mp hscan
    have hi : i < b.length := by
      obtain ⟨j, hj, rfl⟩ := List.mem_range'.mp hmem
      omega
    rw [Bool.not_eq_true', Bool.not_false, Bool.eq_false_iff, ne_eq,
      bitmapContains_one] at hfree
    rw [List.getElem?_eq_getElem hi, Option.some.injEq]
    rw [List.getElem?_eq_getElem hi, Option.some.injEq] at hfree
    exact Bool.eq_false_of_not_eq_true hfree

theorem bitmapScan_one_none {b : List Bool}
    (hscan : bitmapScan b 0 1 false = none) : b.count false = 0 := by
  rw [List.count_eq_zero]
  intro hmem
  obtain ⟨i, hi, hget⟩ := List.getElem_of_mem hmem
  rw [bitmapScan, if_pos (Nat.one_le_of_lt hi)] at hscan
  have hnone := List.find?_range'_eq_none.mp hscan i (Nat.zero_le i) (by omega)
  have hused : bitmapContains b i 1 true = true := by simpa using hnone
  rw [bitmapContains_one, List.getElem?_eq_getElem hi, hget] at hused
  contradiction

namespace FileSys

/-- The sector is marked in the free map. -/
def Used (fs : FileSys σ) (s : BlockSector) : Prop :=
  fs.freeMap[s.toNat]? = some true

omit [SectorStore σ BlockSector Block] in
/-- No sector in use is the one that stands for none. -/
theorem Used.ne_noSector {fs : FileSys σ} {s : BlockSector} (hused : fs.Used s)
    (hlength : fs.freeMap.length < 2 ^ 32) : s ≠ noSector := by
  rintro rfl
  obtain ⟨hbound, -⟩ := List.getElem?_eq_some_iff.mp hused
  have hval : noSector.toNat = 2 ^ 32 - 1 := rfl
  omega

def Free (fs : FileSys σ) (s : BlockSector) : Prop :=
  fs.freeMap[s.toNat]? = some false

def freeCount (fs : FileSys σ) : Nat := fs.freeMap.count false

/-- Every `malloc` for the free map will succeed. -/
def MemoryOk (fs : FileSys σ) : Prop := ∀ m ∈ fs.memory, m = true

/-- The index that a sector holds. -/
def kids (fs : FileSys σ) (s : BlockSector) : Words := wordsOf (fs.view s)

section Cache

variable (fs : FileSys σ) (s : BlockSector) (b : Block)

@[simp] theorem cacheRead_fst : (fs.cacheRead s).1 = fs.view s :=
  SectorStore.read_fst _ _

@[simp] theorem cacheRead_view : (fs.cacheRead s).2.view = fs.view :=
  SectorStore.view_read _ _

@[simp] theorem cacheWrite_view :
    (fs.cacheWrite s b).view = Function.update fs.view s b :=
  SectorStore.view_write _ _ _

end Cache

omit [SectorStore σ BlockSector Block] in
@[simp] theorem setInode_openInodes (fs : FileSys σ) (s : BlockSector)
    (inode : Option Inode) :
    (fs.setInode s inode).openInodes =
      Function.update fs.openInodes s inode := rfl

end FileSys

/-- The free map as an allocation by one sector leaves it. -/
theorem freeMap_set_true {b : List Bool} (hlength : b.length < 2 ^ 32) {i : Nat}
    (hfree : b[i]? = some false) :
    (UInt32.ofNat i).toNat = i ∧ (b.set i true).length = b.length ∧
      (b.set i true).count false + 1 = b.count false ∧
      ∀ j, (b.set i true)[j]? = some true ↔ b[j]? = some true ∨ j = i := by
  obtain ⟨hi, hget⟩ := List.getElem?_eq_some_iff.mp hfree
  refine ⟨?_, List.length_set, ?_, ?_⟩
  · rw [UInt32.toNat_ofNat']
    exact Nat.mod_eq_of_lt (by omega)
  · have hpos : 0 < b.count false :=
      List.count_pos_iff.mpr (hget ▸ List.getElem_mem hi)
    rw [List.count_set hi, hget]
    simp
    omega
  · intro j
    rw [List.getElem?_set]
    by_cases hij : i = j
    · subst hij
      simp [hi]
    · simp [hij, Ne.symm hij]

/-! Writing the free map to its file, as the allocator sees it. -/

/-- The parts of the state that hold no contents of sectors are the same. -/
structure FileSys.SameMaps (fs fs' : FileSys σ) : Prop where
  freeMap : fs'.freeMap = fs.freeMap
  freeMapFile : fs'.freeMapFile = fs.freeMapFile
  openInodes : fs'.openInodes = fs.openInodes
  allocFailures : fs'.allocFailures = fs.allocFailures

/-- What is relied on of the free map file: it owns the sectors `own`, its
bytes lie on the sectors `data` among them, writing the free map changes only
these, and fails only when there is no memory for its bounce buffer.  `ready`
says that the file is in order, `synced` that it holds the free map. -/
structure FlushSpec (bitmapWrite : FileSys σ → Option (Bool × FileSys σ))
    (ready synced : FileSys σ → Prop) (own data : List BlockSector) :
    Prop where
  subset : data ⊆ own
  mono : ∀ fs written fs', bitmapWrite fs = some (written, fs') →
    fs.allocFailures ≤ fs'.allocFailures
  flush : ∀ fs, ready fs → ∃ written fs',
    flushFreeMap bitmapWrite fs = some (written, fs') ∧ ready fs' ∧
      fs.SameMaps fs' ∧ (∀ s, s ∉ data → fs'.view s = fs.view s) ∧
      (written = true → synced fs') ∧
      (fs.MemoryOk → written = true ∧ fs'.MemoryOk)
  ready_congr : ∀ fs fs' : FileSys σ, ready fs →
    fs'.freeMap.length = fs.freeMap.length →
    fs'.freeMapFile = fs.freeMapFile → fs'.openInodes = fs.openInodes →
    (∀ s ∈ own, fs'.view s = fs.view s) → ready fs'
  synced_congr : ∀ fs fs' : FileSys σ, ready fs → synced fs →
    fs'.freeMap = fs.freeMap → fs'.freeMapFile = fs.freeMapFile →
    fs'.openInodes = fs.openInodes →
    (∀ s ∈ own, fs'.view s = fs.view s) → synced fs'

/-- A state in which sectors can be allocated. -/
structure AllocReady (ready : FileSys σ → Prop) (own : List BlockSector)
    (fs : FileSys σ) : Prop where
  ready : ready fs
  length_lt : fs.freeMap.length < 2 ^ 32
  own_used : ∀ s ∈ own, fs.Used s
  zero_used : fs.Used 0

/-- The sectors `new` have been allocated and, apart from the free map file,
only the sectors `touched` have been written. -/
structure Allocated (ready synced : FileSys σ → Prop)
    (own data : List BlockSector) (fs fs' : FileSys σ)
    (new touched : List BlockSector) : Prop where
  ready : AllocReady ready own fs'
  nodup : new.Nodup
  free : ∀ s ∈ new, ¬ fs.Used s
  used : ∀ s, fs'.Used s ↔ fs.Used s ∨ s ∈ new
  length_eq : fs'.freeMap.length = fs.freeMap.length
  count : fs'.freeCount + new.length = fs.freeCount
  freeMapFile : fs'.freeMapFile = fs.freeMapFile
  openInodes : fs'.openInodes = fs.openInodes
  allocFailures : fs'.allocFailures = fs.allocFailures
  synced : synced fs → synced fs'
  memory : fs.MemoryOk → fs'.MemoryOk
  frame : ∀ s, s ∉ touched → s ∉ data → fs'.view s = fs.view s

section Allocated

variable {ready synced : FileSys σ → Prop} {own data : List BlockSector}
  {fs fs₁ fs₂ : FileSys σ} {new₁ new₂ touched₁ touched₂ : List BlockSector}

theorem Allocated.refl (hfs : AllocReady ready own fs) :
    Allocated ready synced own data fs fs [] [] where
  ready := hfs
  nodup := List.nodup_nil
  free := by simp
  used := by simp
  length_eq := rfl
  count := rfl
  freeMapFile := rfl
  openInodes := rfl
  allocFailures := rfl
  synced := id
  memory := id
  frame _ _ _ := rfl

theorem Allocated.trans
    (h₁ : Allocated ready synced own data fs fs₁ new₁ touched₁)
    (h₂ : Allocated ready synced own data fs₁ fs₂ new₂ touched₂) :
    Allocated ready synced own data fs fs₂ (new₁ ++ new₂)
      (touched₁ ++ touched₂) where
  ready := h₂.ready
  nodup := by
    refine List.nodup_append'.mpr ⟨h₁.nodup, h₂.nodup, fun s hs₁ hs₂ => ?_⟩
    exact h₂.free s hs₂ ((h₁.used s).mpr (Or.inr hs₁))
  free s hs := by
    rcases List.mem_append.mp hs with hs | hs
    · exact h₁.free s hs
    · exact fun hused => h₂.free s hs ((h₁.used s).mpr (Or.inl hused))
  used s := by rw [h₂.used, h₁.used, List.mem_append, or_assoc]
  length_eq := h₂.length_eq.trans h₁.length_eq
  count := by
    have hcount₁ := h₁.count
    have hcount₂ := h₂.count
    rw [List.length_append]
    omega
  freeMapFile := h₂.freeMapFile.trans h₁.freeMapFile
  openInodes := h₂.openInodes.trans h₁.openInodes
  allocFailures := h₂.allocFailures.trans h₁.allocFailures
  synced := fun hsynced => h₂.synced (h₁.synced hsynced)
  memory := fun hmemory => h₂.memory (h₁.memory hmemory)
  frame s hs hdata := by
    simp only [List.mem_append, not_or] at hs
    rw [h₂.frame s hs.2 hdata, h₁.frame s hs.1 hdata]

theorem Allocated.mono (h : Allocated ready synced own data fs fs₁ new₁ touched₁)
    (hsub : touched₁ ⊆ touched₂) :
    Allocated ready synced own data fs fs₁ new₁ touched₂ :=
  { h with frame := fun s hs hdata => h.frame s (fun h => hs (hsub h)) hdata }

/-- What was in use and is not written to stays as it is. -/
theorem Allocated.view_eq
    (h : Allocated ready synced own data fs fs₁ new₁ touched₁) {s : BlockSector}
    (hs : s ∉ touched₁) (hdata : s ∉ data) : fs₁.view s = fs.view s :=
  h.frame s hs hdata

end Allocated

section Spec

variable {bitmapWrite : FileSys σ → Option (Bool × FileSys σ)}
  {ready synced : FileSys σ → Prop} {own data : List BlockSector}
  (hspec : FlushSpec bitmapWrite ready synced own data)
include hspec

/-- Sectors that the free map file does not own may be written. -/
theorem FlushSpec.rewrite {fs : FileSys σ} (hfs : AllocReady ready own fs)
    {st : σ} {touched : List BlockSector} (hforeign : ∀ s ∈ touched, s ∉ own)
    (hview : ∀ s, s ∉ touched → SectorStore.view st s = fs.view s) :
    Allocated ready synced own data fs { fs with store := st } [] touched := by
  have hown : ∀ s ∈ own, SectorStore.view st s = fs.view s :=
    fun s hs => hview s fun hmem => hforeign s hmem hs
  exact
    { ready := ⟨hspec.ready_congr fs _ hfs.ready rfl rfl rfl hown,
        hfs.length_lt, hfs.own_used, hfs.zero_used⟩
      nodup := List.nodup_nil
      free := by simp
      used := by simp [FileSys.Used]
      length_eq := rfl
      count := rfl
      freeMapFile := rfl
      openInodes := rfl
      allocFailures := rfl
      synced := fun h => hspec.synced_congr fs _ hfs.ready h rfl rfl rfl hown
      memory := id
      frame := fun s hs _ => hview s hs }

/-- Reading through the cache changes nothing that is seen. -/
theorem FlushSpec.read {fs : FileSys σ} (hfs : AllocReady ready own fs)
    (s : BlockSector) :
    Allocated ready synced own data fs (fs.cacheRead s).2 [] [] :=
  hspec.rewrite hfs (by simp) fun t _ => congrFun (SectorStore.view_read _ _) t

theorem FlushSpec.write {fs : FileSys σ} (hfs : AllocReady ready own fs)
    {s : BlockSector} (hs : s ∉ own) (b : Block) :
    Allocated ready synced own data fs (fs.cacheWrite s b) [] [s] := by
  refine hspec.rewrite hfs (by simpa using hs) fun t ht => ?_
  rw [SectorStore.view_write, Function.update_of_ne (List.ne_of_not_mem_cons ht)]
  rfl

/-- `free_map_allocate` finds a free sector if there is one and the free map
can be written; otherwise it leaves `*sectorp` alone. -/
theorem FlushSpec.freeMapAllocate_spec {fs : FileSys σ}
    (hfs : AllocReady ready own fs) (sectorp : BlockSector) :
    (∃ s fs', freeMapAllocate bitmapWrite 1 sectorp fs = some (true, s, fs') ∧
      Allocated ready synced own data fs fs' [s] []) ∨
    (∃ fs', freeMapAllocate bitmapWrite 1 sectorp fs =
        some (false, sectorp, fs') ∧
      fs.allocFailures < fs'.allocFailures ∧
      ¬ (0 < fs.freeCount ∧ fs.MemoryOk)) := by
  unfold freeMapAllocate
  cases hscan : bitmapScan fs.freeMap 0 1 false with
  | none =>
      refine Or.inr ⟨_, rfl, Nat.lt_succ_self _, fun h => ?_⟩
      have hcount := bitmapScan_one_none hscan
      rw [FileSys.freeCount, hcount] at h
      exact Nat.lt_irrefl 0 h.1
  | some i =>
      obtain ⟨htoNat, hlength, hcount, hset⟩ :=
        freeMap_set_true hfs.length_lt (bitmapScan_one_some hscan)
      let fs₁ : FileSys σ := { fs with freeMap := fs.freeMap.set i true }
      have hready₁ : ready fs₁ :=
        hspec.ready_congr fs fs₁ hfs.ready hlength rfl rfl fun _ _ => rfl
      obtain ⟨written, fs₂, hflush, hready₂, hsame, hframe, hsynced, hmemory⟩ :=
        hspec.flush fs₁ hready₁
      simp only [bitmapSetMultiple_one, hflush, Option.bind_eq_bind,
        Option.bind_some, fs₁]
      cases written with
      | true =>
          have hused : ∀ s, fs₂.Used s ↔ fs.Used s ∨ s ∈ [UInt32.ofNat i] := by
            intro s
            rw [FileSys.Used, hsame.freeMap, hset, List.mem_singleton,
              ← UInt32.toNat_inj, htoNat, FileSys.Used]
          refine Or.inl ⟨UInt32.ofNat i, fs₂, rfl, ?_⟩
          exact
            { ready := ⟨hready₂, by rw [hsame.freeMap]; exact hlength ▸ hfs.length_lt,
                fun s hs => (hused s).mpr (Or.inl (hfs.own_used s hs)),
                (hused 0).mpr (Or.inl hfs.zero_used)⟩
              nodup := List.nodup_singleton _
              free := by
                simp [FileSys.Used, htoNat, bitmapScan_one_some hscan]
              used := hused
              length_eq := by rw [hsame.freeMap]; exact hlength
              count := by rw [FileSys.freeCount, hsame.freeMap]; exact hcount
              freeMapFile := hsame.freeMapFile
              openInodes := hsame.openInodes
              allocFailures := hsame.allocFailures
              synced := fun _ => hsynced rfl
              memory := fun hok => (hmemory hok).2
              frame := fun s _ hs => hframe s hs }
      | false =>
          refine Or.inr ⟨_, rfl, ?_, fun h => ?_⟩
          · change fs.allocFailures < fs₂.allocFailures + 1
            rw [hsame.allocFailures]
            exact Nat.lt_succ_self _
          · exact Bool.false_ne_true (hmemory h.2).1

/-- A set entry is left alone, an empty one is given a cleared sector. -/
theorem FlushSpec.allocateEntry_spec {fs : FileSys σ}
    (hfs : AllocReady ready own fs) :
    (∃ s fs', allocateEntry bitmapWrite 0 fs = some (s, fs') ∧ s ≠ 0 ∧
      Allocated ready synced own data fs fs' [s] [s] ∧ fs'.view s = zeros) ∨
    (∃ fs', allocateEntry bitmapWrite 0 fs = some (0, fs') ∧
      fs.allocFailures < fs'.allocFailures ∧
      ¬ (0 < fs.freeCount ∧ fs.MemoryOk)) := by
  rcases hspec.freeMapAllocate_spec hfs 0 with
    ⟨s, fs₁, hrun, halloc⟩ | ⟨fs₁, hrun, hfail, hfull⟩
  · have hfree := halloc.free s (List.mem_singleton_self s)
    have hwrite := hspec.write halloc.ready (s := s)
      (fun hs => hfree (hfs.own_used s hs)) zeros
    refine Or.inl ⟨s, fs₁.cacheWrite s zeros, ?_, ?_, halloc.trans hwrite, ?_⟩
    · simp [allocateEntry, hrun]
    · rintro rfl
      exact hfree hfs.zero_used
    · simp
  · refine Or.inr ⟨fs₁.cacheWrite 0 zeros, ?_, hfail, hfull⟩
    simp [allocateEntry, hrun]

end Spec

/-! The count of failed allocations never goes down. -/

section Mono

variable {bitmapWrite : FileSys σ → Option (Bool × FileSys σ)}
  (hmono : ∀ fs written fs', bitmapWrite fs = some (written, fs') →
    fs.allocFailures ≤ fs'.allocFailures)
include hmono

omit [SectorStore σ BlockSector Block] in
theorem freeMapAllocate_mono {cnt : Nat} {sectorp s : BlockSector}
    {fs fs' : FileSys σ} {success : Bool}
    (hrun : freeMapAllocate bitmapWrite cnt sectorp fs =
      some (success, s, fs')) : fs.allocFailures ≤ fs'.allocFailures := by
  unfold freeMapAllocate at hrun
  split at hrun
  · simp only [Option.some.injEq, Prod.mk.injEq] at hrun
    rw [← hrun.2.2]
    exact Nat.le_succ _
  · simp only [Option.bind_eq_bind, Option.bind_eq_some_iff] at hrun
    obtain ⟨⟨written, fs₁⟩, hflush, hrun⟩ := hrun
    have hle : fs.allocFailures ≤ fs₁.allocFailures := by
      unfold flushFreeMap at hflush
      split at hflush
      · have hle := hmono _ _ _ hflush
        exact hle
      · simp only [Option.some.injEq, Prod.mk.injEq] at hflush
        rw [← hflush.2]
    split at hrun
    · simp only [Option.some.injEq, Prod.mk.injEq] at hrun
      rw [← hrun.2.2]
      exact hle
    · simp only [Option.some.injEq, Prod.mk.injEq] at hrun
      rw [← hrun.2.2]
      exact Nat.le_succ_of_le hle

omit [SectorStore σ BlockSector Block] in
theorem freeMapRelease_mono {sector : BlockSector} {cnt : Nat}
    {fs fs' : FileSys σ}
    (hrun : freeMapRelease bitmapWrite sector cnt fs = some fs') :
    fs.allocFailures ≤ fs'.allocFailures := by
  unfold freeMapRelease at hrun
  split at hrun
  · simp only [Option.bind_eq_bind, Option.bind_eq_some_iff,
      Option.some.injEq] at hrun
    obtain ⟨⟨written, fs₁⟩, hwrite, rfl⟩ := hrun
    have hle := hmono _ _ _ hwrite
    exact hle
  · contradiction

theorem allocateEntry_mono {entry entry' : BlockSector} {fs fs' : FileSys σ}
    (hrun : allocateEntry bitmapWrite entry fs = some (entry', fs')) :
    fs.allocFailures ≤ fs'.allocFailures := by
  unfold allocateEntry at hrun
  split at hrun
  · simp only [Option.bind_eq_bind, Option.bind_eq_some_iff] at hrun
    obtain ⟨⟨success, s, fs₁⟩, halloc, hrun⟩ := hrun
    simp only [Option.some.injEq, Prod.mk.injEq] at hrun
    have hle := freeMapAllocate_mono hmono halloc
    exact hrun.2 ▸ hle
  · simp only [Option.some.injEq, Prod.mk.injEq] at hrun
    rw [hrun.2]

omit hmono in
theorem stepRel_allocFailures : StepRel fun fs fs' : FileSys σ =>
    fs.allocFailures ≤ fs'.allocFailures where
  refl _ := Nat.le_refl _
  trans := Nat.le_trans
  read _ _ := Nat.le_refl _
  write _ _ _ := Nat.le_refl _
  setInode _ _ _ := Nat.le_refl _

theorem inodeAllocateIndirect_mono {level numSectors : Nat}
    {entry entry' : BlockSector} {fs fs' : FileSys σ}
    (hrun : inodeAllocateIndirect bitmapWrite level entry numSectors fs =
      some (entry', fs')) : fs.allocFailures ≤ fs'.allocFailures :=
  stepRel_allocFailures.inodeAllocateIndirect_run (allocateEntry_mono hmono)
    hrun

end Mono

theorem bitmapWrite_mono {fs fs' : FileSys σ} {written : Bool}
    (hrun : bitmapWrite fs = some (written, fs')) :
    fs.allocFailures ≤ fs'.allocFailures := by
  simp only [bitmapWrite, Option.bind_eq_bind, Option.bind_eq_some_iff] at hrun
  obtain ⟨sector, -, ⟨count, fs₁⟩, hwrite, hrun⟩ := hrun
  simp only [Option.some.injEq, Prod.mk.injEq] at hrun
  have hle := stepRel_allocFailures.inodeWriteAtWith_run
    (allocateEntry_mono (by simp)) hwrite
  exact hrun.2 ▸ hle

end PintosLabs
