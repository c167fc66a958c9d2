/-
What `inode_create` and `inode_write_at` do when `free_map_allocate` finds no
sector for them.  Nobody looks at its result: the entry keeps the zero that
stands for none, and the sector cleared under that number is the one with the
inode of the free map.
-/
import PintosLabs.WriteGuarantees

namespace PintosLabs

variable {σ : Type} [SectorStore σ BlockSector Block]

/-- What is asked of an operation that was refused a sector: it reports the
failure, it writes no sector that is not `owned` by its file, and not the
inodes of the free map and of the root directory either. -/
structure HarmlessFailure (owned : Set BlockSector) (reported : Prop)
    (fs fs' : FileSys (Logged σ BlockSector)) : Prop where
  reported : reported
  confined : ∀ s ∈ fs.store.writtenSince fs'.store, s ∈ owned
  freeMap : freeMapSector ∉ fs.store.writtenSince fs'.store
  rootDir : rootDirSector ∈ fs.store.writtenSince fs'.store → rootDirSector ∈ owned

/-- Every call of `free_map_allocate` that fails between the two states comes
with a write of sector zero. -/
def ClearsZero (fs fs' : FileSys (Logged σ BlockSector)) : Prop :=
  ∃ new, fs'.store.written = new ++ fs.store.written ∧
    fs'.allocFailures ≤ fs.allocFailures + new.count freeMapSector

variable {fs fs₁ fs₂ fs' : FileSys (Logged σ BlockSector)}

omit [SectorStore σ BlockSector Block] in
theorem ClearsZero.refl (fs : FileSys (Logged σ BlockSector)) : ClearsZero fs fs :=
  ⟨[], rfl, Nat.le_refl _⟩

omit [SectorStore σ BlockSector Block] in
theorem ClearsZero.trans (h₁ : ClearsZero fs fs₁) (h₂ : ClearsZero fs₁ fs₂) :
    ClearsZero fs fs₂ := by
  obtain ⟨new₁, hnew₁, hcount₁⟩ := h₁
  obtain ⟨new₂, hnew₂, hcount₂⟩ := h₂
  refine ⟨new₂ ++ new₁, by rw [hnew₂, hnew₁, List.append_assoc], ?_⟩
  rw [List.count_append]
  omega

omit [SectorStore σ BlockSector Block] in
/-- A failure within shows in the log. -/
theorem ClearsZero.mem (h : ClearsZero fs fs')
    (hfailed : fs.allocFailures < fs'.allocFailures) :
    freeMapSector ∈ fs.store.writtenSince fs'.store := by
  obtain ⟨new, hnew, hcount⟩ := h
  rw [Logged.writtenSince_eq hnew]
  exact List.count_pos_iff.mp (by omega)

theorem clearsZero_write (fs : FileSys (Logged σ BlockSector)) (s : BlockSector)
    (b : Block) : ClearsZero fs (fs.cacheWrite s b) :=
  ⟨[s], rfl, Nat.le_add_right _ _⟩

theorem stepRel_clearsZero :
    StepRel (ClearsZero : FileSys (Logged σ BlockSector) → _ → Prop) where
  refl := ClearsZero.refl
  trans := ClearsZero.trans
  read _ _ := ⟨[], rfl, Nat.le_refl _⟩
  write := clearsZero_write
  setInode _ _ _ := ⟨[], rfl, Nat.le_refl _⟩

section Allocate

variable {bitmapWrite : FileSys (Logged σ BlockSector) →
    Option (Bool × FileSys (Logged σ BlockSector))}
  (hwrite : ∀ {fs written fs'}, bitmapWrite fs = some (written, fs') →
    ClearsZero fs fs')
include hwrite

omit [SectorStore σ BlockSector Block] in
theorem flushFreeMap_clearsZero {written : Bool}
    (hrun : flushFreeMap bitmapWrite fs = some (written, fs')) :
    ClearsZero fs fs' := by
  unfold flushFreeMap at hrun
  split at hrun
  · exact hwrite hrun
  · simp only [Option.some.injEq, Prod.mk.injEq] at hrun
    exact hrun.2 ▸ ClearsZero.refl fs

omit [SectorStore σ BlockSector Block] in
/-- `free_map_allocate` leaves `*sectorp` alone when it fails. -/
theorem freeMapAllocate_clearsZero {sectorp s : BlockSector} {success : Bool}
    (hrun : freeMapAllocate bitmapWrite 1 sectorp fs = some (success, s, fs')) :
    ClearsZero fs fs' ∨ s = sectorp ∧ ∃ fs₁, ClearsZero fs fs₁ ∧
      fs'.store = fs₁.store ∧ fs'.allocFailures = fs₁.allocFailures + 1 := by
  unfold freeMapAllocate at hrun
  split at hrun
  · simp only [Option.some.injEq, Prod.mk.injEq] at hrun
    obtain ⟨-, rfl, rfl⟩ := hrun
    exact Or.inr ⟨rfl, fs, ClearsZero.refl fs, rfl, rfl⟩
  · simp only [Option.bind_eq_bind, Option.bind_eq_some_iff] at hrun
    obtain ⟨⟨written, fs₁⟩, hflush, hrun⟩ := hrun
    have hflushed := flushFreeMap_clearsZero hwrite hflush
    have hclears : ClearsZero fs fs₁ := hflushed
    split at hrun
    · simp only [Option.some.injEq, Prod.mk.injEq] at hrun
      exact Or.inl (hrun.2.2 ▸ hclears)
    · simp only [Option.some.injEq, Prod.mk.injEq] at hrun
      obtain ⟨-, rfl, rfl⟩ := hrun
      exact Or.inr ⟨rfl, fs₁, hclears, rfl, rfl⟩

/-- The entry of a refused sector is still zero, and cleared all the same. -/
theorem allocateEntry_clearsZero {entry entry' : BlockSector}
    (hrun : allocateEntry bitmapWrite entry fs = some (entry', fs')) :
    ClearsZero fs fs' := by
  unfold allocateEntry at hrun
  split at hrun
  case isTrue hzero =>
    simp only [Option.bind_eq_bind, Option.bind_eq_some_iff] at hrun
    obtain ⟨⟨success, s, fs₁⟩, halloc, hrun⟩ := hrun
    simp only [Option.some.injEq, Prod.mk.injEq] at hrun
    rw [← hrun.2]
    rcases freeMapAllocate_clearsZero hwrite halloc with
      hclears | ⟨rfl, fs₂, ⟨new, hnew, hcount⟩, hstore, hfailures⟩
    · exact hclears.trans (clearsZero_write fs₁ s zeros)
    · refine ⟨s :: new, ?_, ?_⟩
      · change s :: fs₁.store.written = _
        rw [hstore, hnew, List.cons_append]
      · change fs₁.allocFailures ≤ _
        rw [hfailures, hzero, freeMapSector, List.count_cons_self]
        rw [freeMapSector] at hcount
        omega
  case isFalse =>
    simp only [Option.some.injEq, Prod.mk.injEq] at hrun
    exact hrun.2 ▸ ClearsZero.refl fs

end Allocate

/-- The free map is written without taking a sector for its file. -/
theorem bitmapWrite_clearsZero {written : Bool}
    (hrun : bitmapWrite fs = some (written, fs')) : ClearsZero fs fs' := by
  simp only [bitmapWrite, Option.bind_eq_bind, Option.bind_eq_some_iff] at hrun
  obtain ⟨sector, -, ⟨count, fs₁⟩, hwrite, hrun⟩ := hrun
  simp only [Option.some.injEq, Prod.mk.injEq] at hrun
  have hclears := stepRel_clearsZero.inodeWriteAtWith_run
    (allocateEntry_clearsZero fun h => by cases h) hwrite
  exact hrun.2 ▸ hclears

theorem inodeCreate_clearsZero {sector : BlockSector} {length : Int32}
    {memory created : Bool}
    (hrun : inodeCreate sector length memory fs = some (created, fs')) :
    ClearsZero fs fs' :=
  stepRel_clearsZero.inodeCreate_run
    (allocateEntry_clearsZero bitmapWrite_clearsZero) hrun

theorem inodeWriteAt_clearsZero {sector : BlockSector} {buffer : Nat → UInt8}
    {size offset written : Int32} {memory : Bool}
    (hrun : inodeWriteAt sector buffer size offset memory fs =
      some (written, fs')) : ClearsZero fs fs' :=
  stepRel_clearsZero.inodeWriteAtWith_run
    (allocateEntry_clearsZero bitmapWrite_clearsZero) hrun

section Reported

variable {τ : Type} [SectorStore τ BlockSector Block] {before after : FileSys τ}
  {sector : BlockSector} {memory : Bool}

/-- `inode_create` returns false only where it has asked for no sector. -/
theorem inodeCreate_reported {length : Int32} {created : Bool}
    (hrun : inodeCreate sector length memory before = some (created, after))
    (hfailed : before.allocFailures < after.allocFailures) : created = true := by
  unfold inodeCreate at hrun
  split at hrun
  case isTrue => contradiction
  case isFalse hlength =>
    rw [Int32.lt_iff_toInt_lt, Int32.toInt_zero, Int.not_lt] at hlength
    split at hrun
    · simp only [Option.bind_eq_bind, Option.bind_eq_some_iff] at hrun
      obtain ⟨⟨success, id, fs₁⟩, halloc, hrun⟩ := hrun
      have hsuccess := (inodeAllocate_returns halloc).2.mpr hlength
      rw [if_pos hsuccess, Option.some.injEq, Prod.mk.injEq] at hrun
      exact hrun.1.symm
    · rw [Option.some.injEq, Prod.mk.injEq] at hrun
      rw [hrun.2] at hfailed
      exact absurd hfailed (Nat.lt_irrefl _)

/-- `inode_write_at` returns all it was asked to write, as far as there is
memory for its bounce buffer. -/
theorem inodeWriteAt_reported {buffer : Nat → UInt8} {size offset written : Int32}
    (hrun : inodeWriteAt sector buffer size offset memory before =
      some (written, after))
    (hfailed : before.allocFailures < after.allocFailures)
    (hmemory : memory = true) (hsize : 0 ≤ size.toInt) (hoffset : 0 ≤ offset.toInt)
    (hwrap : offset.toInt + size.toInt < 2 ^ 31) : written = size := by
  have hsame : after.allocFailures ≠ before.allocFailures := Nat.ne_of_gt hfailed
  have hsum := (writeEnd_toInt hsize hoffset hwrap).1
  cases hopen : before.openInodes sector with
  | none => simp [inodeWriteAt, inodeWriteAtWith, hopen] at hrun
  | some inode =>
      by_cases hdeny : inode.denyWriteCnt = 0
      case neg =>
        rw [inodeWriteAt, inodeWriteAtWith_denied hopen hdeny, Option.some.injEq,
          Prod.mk.injEq] at hrun
        exact absurd (congrArg FileSys.allocFailures hrun.2.symm) hsame
      by_cases hprobe : (byteToSector before.store inode.data (offset + size - 1)).1 =
          noSector
      case neg =>
        rw [inodeWriteAt, inodeWriteAtWith_inside hopen hdeny hprobe,
          Option.some.injEq, Prod.mk.injEq] at hrun
        exact absurd (congrArg FileSys.allocFailures hrun.2.symm) hsame
      obtain ⟨id', -, hlength, hloop, -⟩ := inodeWriteAt_grown hopen hdeny hprobe hrun
      obtain ⟨st, rfl⟩ := hloop (by omega)
      have hfits : ({ inode.data with length := offset + size } : InodeDisk).Fits := by
        refine InodeDisk.fits_of_blocks_le (Nat.not_lt.mp fun hblocks => ?_)
        have hnonneg :
            0 ≤ ({ inode.data with length := offset + size } : InodeDisk).length := by
          rw [Int32.le_iff_toInt_le, hsum, Int32.toInt_zero]
          omega
        rw [inodeWriteAt, inodeWriteAtWith_grow hopen hdeny hprobe,
          inodeAllocate_none hnonneg hblocks] at hrun
        contradiction
      have hfits' : id'.Fits := by
        rw [InodeDisk.Fits, hlength]
        exact hfits
      obtain ⟨n, -, hall, -, hres, -⟩ := writeLoop_spec st id' buffer memory size
        offset 0 hsize hoffset (by rw [hlength, hsum]) hfits' (by simp)
        (by simp; omega)
      have hn := hall hmemory
      rw [← Int32.toInt_inj, hres, Int32.toInt_zero]
      omega

end Reported

/-- Whatever its file owns, an operation that is refused a sector and returns
does no harmless failing: it says that it has succeeded, and it has written
the sector with the inode of the free map. -/
theorem refused_never_harmless (owned : Set BlockSector) :
    (∀ (sector : BlockSector) (length : Int32) (memory created : Bool)
        (fs fs' : FileSys (Logged σ BlockSector)),
      inodeCreate sector length memory fs = some (created, fs') →
      fs.allocFailures < fs'.allocFailures →
      created = true ∧ ¬ HarmlessFailure owned (created = false) fs fs') ∧
    ∀ (sector : BlockSector) (buffer : Nat → UInt8) (size offset written : Int32)
        (memory : Bool) (fs fs' : FileSys (Logged σ BlockSector)),
      inodeWriteAt sector buffer size offset memory fs = some (written, fs') →
      fs.allocFailures < fs'.allocFailures →
      (memory = true → 0 ≤ size.toInt → 0 ≤ offset.toInt →
        offset.toInt + size.toInt < 2 ^ 31 → written = size) ∧
      ¬ HarmlessFailure owned (written < size) fs fs' := by
  constructor
  · intro sector length memory created fs fs' hrun hfailed
    refine ⟨inodeCreate_reported hrun hfailed, fun hharmless => ?_⟩
    exact hharmless.freeMap ((inodeCreate_clearsZero hrun).mem hfailed)
  · intro sector buffer size offset written memory fs fs' hrun hfailed
    refine ⟨inodeWriteAt_reported hrun hfailed, fun hharmless => ?_⟩
    exact hharmless.freeMap ((inodeWriteAt_clearsZero hrun).mem hfailed)

namespace FullDiskWitness

/-- A disk of five sectors is formatted, which leaves one of them. -/
def formatted : Option (FileSys (Logged (BlockSector → Block) BlockSector)) :=
  filesysInit true 5 ⟨fun _ => zeros, []⟩ []

/-- The last sector is taken for the inode of a file. -/
def lastSector :
    Option (Bool × BlockSector × FileSys (Logged (BlockSector → Block) BlockSector)) :=
  formatted.bind (freeMapAllocate bitmapWrite 1 0)

/-- The root directory is opened. -/
def opened :
    Option (Bool × BlockSector × FileSys (Logged (BlockSector → Block) BlockSector)) :=
  lastSector.map fun r => (r.1, r.2.1, (inodeOpen rootDirSector true r.2.2).2)

/-- A file of one sector is created, and the root directory is written beyond
its first sector. -/
theorem refused_never_harmless_two :
    (∃ fs fs', lastSector = some (true, 4, fs) ∧
      inodeCreate 4 512 true fs = some (true, fs') ∧
      ¬ HarmlessFailure {4} (true = false) fs fs') ∧
    ∃ fs fs', opened = some (true, 4, fs) ∧
      inodeWriteAt rootDirSector (fun _ => 7) 20 512 true fs = some (20, fs') ∧
      ¬ HarmlessFailure {4} ((20 : Int32) < 20) fs fs' := by
  constructor
  · have hrun : (lastSector.bind fun r =>
        (inodeCreate 4 512 true r.2.2).map fun c =>
          (r.1, r.2.1, c.1, decide (r.2.2.allocFailures < c.2.allocFailures))) =
        some (true, 4, true, true) := by decide +kernel
    obtain ⟨⟨ok, s, fs⟩, hlast, hrun⟩ := Option.bind_eq_some_iff.mp hrun
    obtain ⟨⟨created, fs'⟩, hcreate, hrun⟩ := Option.map_eq_some_iff.mp hrun
    simp only [Prod.mk.injEq, decide_eq_true_eq] at hrun
    obtain ⟨rfl, rfl, rfl, hfailed⟩ := hrun
    exact ⟨fs, fs', hlast, hcreate,
      ((refused_never_harmless {4}).1 4 512 true true fs fs' hcreate hfailed).2⟩
  · have hrun : (opened.bind fun r =>
        (inodeWriteAt rootDirSector (fun _ => 7) 20 512 true r.2.2).map fun c =>
          (r.1, r.2.1, c.1, decide (r.2.2.allocFailures < c.2.allocFailures))) =
        some (true, 4, 20, true) := by decide +kernel
    obtain ⟨⟨ok, s, fs⟩, hopen, hrun⟩ := Option.bind_eq_some_iff.mp hrun
    obtain ⟨⟨written, fs'⟩, hwrite, hrun⟩ := Option.map_eq_some_iff.mp hrun
    simp only [Prod.mk.injEq, decide_eq_true_eq] at hrun
    obtain ⟨rfl, rfl, rfl, hfailed⟩ := hrun
    exact ⟨fs, fs', hopen, hwrite, ((refused_never_harmless {4}).2 rootDirSector
      (fun _ => 7) 20 512 20 true fs fs' hwrite hfailed).2⟩

/-- The file is said to be there, and the inode of the free map is gone. -/
theorem create_clears_free_map : ∃ fs fs', lastSector = some (true, 4, fs) ∧
    inodeCreate 4 512 true fs = some (true, fs') ∧
    fs.allocFailures < fs'.allocFailures ∧
    (InodeDisk.ofBlock (fs.view freeMapSector)).magic = inodeMagic ∧
    (InodeDisk.ofBlock (fs'.view freeMapSector)).magic = 0 ∧
    ¬ HarmlessFailure {4} (true = false) fs fs' := by
  have hrun : (lastSector.bind fun r =>
      (inodeCreate 4 512 true r.2.2).map fun c =>
        (r.1, r.2.1, c.1, decide (r.2.2.allocFailures < c.2.allocFailures),
          (InodeDisk.ofBlock (r.2.2.view freeMapSector)).magic,
          (InodeDisk.ofBlock (c.2.view freeMapSector)).magic)) =
      some (true, 4, true, true, inodeMagic, 0) := by decide +kernel
  obtain ⟨⟨ok, s, fs⟩, hlast, hrun⟩ := Option.bind_eq_some_iff.mp hrun
  obtain ⟨⟨created, fs'⟩, hcreate, hrun⟩ := Option.map_eq_some_iff.mp hrun
  simp only [Prod.mk.injEq, decide_eq_true_eq] at hrun
  obtain ⟨rfl, rfl, rfl, hfailed, hbefore, hafter⟩ := hrun
  exact ⟨fs, fs', hlast, hcreate, hfailed, hbefore, hafter,
    fun hharmless => Bool.noConfusion hharmless.reported⟩

end FullDiskWitness

end PintosLabs
