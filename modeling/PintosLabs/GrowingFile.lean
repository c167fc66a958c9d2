/-
A file is a growing array of bytes: what is written is what is read back, and
what has never been written is zero.
-/
import PintosLabs.DiskFormat

namespace PintosLabs

/-! The array that a file stands for. -/

/-- An array of `length` bytes; beyond its end the bytes are what an array
that grows finds there. -/
structure ByteFile where
  length : Nat
  byte : Nat → UInt8

/-- What is to be written, and where. -/
structure FileWrite where
  buffer : Nat → UInt8
  size : Int32
  offset : Int32

/-- There is something to write, and it ends within the largest size. -/
def FileWrite.Within (wr : FileWrite) : Prop :=
  0 < wr.size.toInt ∧ 0 ≤ wr.offset.toInt ∧
    wr.offset.toInt + wr.size.toInt ≤ maxBlocks * blockSectorSize

namespace ByteFile

def empty (length : Nat) : ByteFile := ⟨length, fun _ => 0⟩

/-- The array reaches to the end of the write, whose bytes it has taken. -/
def write (f : ByteFile) (wr : FileWrite) : ByteFile where
  length := max f.length (wr.offset.toInt + wr.size.toInt).toNat
  byte p :=
    if wr.offset.toInt.toNat ≤ p ∧
        p < wr.offset.toInt.toNat + wr.size.toInt.toNat then
      wr.buffer (p - wr.offset.toInt.toNat)
    else f.byte p

def read (f : ByteFile) (offset n : Nat) : List UInt8 :=
  (List.range (min n (f.length - offset))).map fun i => f.byte (offset + i)

def writeAll (f : ByteFile) (writes : List FileWrite) : ByteFile :=
  writes.foldl write f

/-- The blocks of a file that long. -/
def blocks (f : ByteFile) : Nat := bytesToSectors f.length blockSectorSize

theorem length_le_write (f : ByteFile) (wr : FileWrite) :
    f.length ≤ (f.write wr).length :=
  Nat.le_max_left _ _

theorem blocks_mono {f g : ByteFile} (hle : f.length ≤ g.length) :
    f.blocks ≤ g.blocks :=
  bytesToSectors_mono (by decide) hle

theorem length_le_writeAll (f : ByteFile) (writes : List FileWrite) :
    f.length ≤ (f.writeAll writes).length := by
  induction writes generalizing f with
  | nil => exact Nat.le_refl _
  | cons wr rest ih => exact (f.length_le_write wr).trans (ih (f.write wr))

/-- Nothing is written beyond the end. -/
theorem write_beyond {f : ByteFile} (hf : ∀ p, f.length ≤ p → f.byte p = 0)
    {wr : FileWrite} (hsize : 0 < wr.size.toInt) (hoffset : 0 ≤ wr.offset.toInt) :
    ∀ p, (f.write wr).length ≤ p → (f.write wr).byte p = 0 := by
  intro p hp
  have hlength : f.length ≤ p := (f.length_le_write wr).trans hp
  have hend : (wr.offset.toInt + wr.size.toInt).toNat ≤ p :=
    (Nat.le_max_right _ _).trans hp
  change (if _ then _ else _) = _
  rw [if_neg (by omega), hf p hlength]

end ByteFile

variable {σ : Type} [SectorStore σ BlockSector Block]

/-- The calls of `inode_write_at` for one file after another, and what they
return; the bounce buffer is there for each. -/
def writeAll (sector : BlockSector) : List FileWrite → FileSys σ →
    Option (List Int32 × FileSys σ)
  | [], fs => some ([], fs)
  | wr :: rest, fs => do
      let (written, fs) ← inodeWriteAt sector wr.buffer wr.size wr.offset true fs
      let (counts, fs) ← writeAll sector rest fs
      some (written :: counts, fs)

/-- The open file on `sector` holds the array. -/
structure FileHolds (file : FreeMapFile) (fs : FileSys σ) (sector : BlockSector)
    (contents : ByteFile) : Prop where
  ready : AllocReady file.Ready file.own fs
  foreign : sector ≠ freeMapSector
  beyond : ∀ p, contents.length ≤ p → contents.byte p = 0
  holds : ∃ inode, fs.openInodes sector = some inode ∧
    inode.sector = sector ∧ inode.denyWriteCnt = 0 ∧
    FileReady file.own fs sector inode.data ∧
    inode.data.length.toInt = contents.length ∧
    ∀ p < inode.data.blocks * blockSectorSize,
      fileByte fs.view inode.data p = contents.byte p

section Writes

variable {file : FreeMapFile} {fs : FileSys σ} {sector : BlockSector}
  {contents : ByteFile}

/-- A write that there is room for is the write to the array. -/
theorem FileHolds.write (h : FileHolds file fs sector contents) {wr : FileWrite}
    (hwithin : wr.Within) (hmemory : fs.MemoryOk) {total : Nat}
    (htotal : (contents.write wr).blocks ≤ total)
    (hroom : sectorsFor total ≤ sectorsFor contents.blocks + fs.freeCount) :
    ∃ fs', inodeWriteAt sector wr.buffer wr.size wr.offset true fs =
        some (wr.size, fs') ∧
      FileHolds file fs' sector (contents.write wr) ∧ fs'.MemoryOk ∧
      sectorsFor total ≤ sectorsFor (contents.write wr).blocks + fs'.freeCount := by
  obtain ⟨hsize, hoffset, hmax⟩ := hwithin
  obtain ⟨inode, hopen, hsector, hdeny, hfile, hlength, hbytes⟩ := h.holds
  have hblocks : inode.data.blocks = contents.blocks := by
    rw [InodeDisk.blocks, hlength, Int.toNat_natCast, ByteFile.blocks]
  have hspec := file.flushSpec.inodeWriteAtWith_spec h.ready hopen hsector hdeny
    hfile wr.buffer true hsize hoffset hmax
  rw [hblocks] at hspec
  rcases hspec with ⟨written, mid, id', n, new, hrun, hwritten, -, hall, hlength',
    hcount, hdone⟩ | ⟨hfull, -⟩
  · have hlength' : id'.length.toInt = (contents.write wr).length := by
      rw [hlength', hlength]
      change _ = ((max _ _ : Nat) : Int)
      omega
    have hblocks' : id'.blocks = (contents.write wr).blocks := by
      rw [InodeDisk.blocks, hlength', Int.toNat_natCast, ByteFile.blocks]
    have hfree := hdone.alloc.count
    rw [hblocks'] at hcount
    have hwhole : written = wr.size := by
      have hn := hall rfl
      rw [← Int32.toInt_inj]
      omega
    refine ⟨_, by rw [inodeWriteAt, hrun, hwhole], ⟨hdone.alloc.ready.setInode
      h.foreign _, h.foreign, ByteFile.write_beyond h.beyond hsize hoffset, ?_⟩,
      hdone.alloc.memory hmemory, ?_⟩
    · refine ⟨{ inode with data := id' }, ?_, hsector, hdeny,
        hdone.file.setInode _, hlength', fun p hp => ?_⟩
      · rw [FileSys.setInode_openInodes, Function.update_self]
      · have hbyte := hdone.bytes p hp
        rw [hall rfl] at hbyte
        refine hbyte.trans (if_congr Iff.rfl rfl ?_)
        split
        case isTrue hold => exact hbytes p hold
        case isFalse hnew =>
          refine (h.beyond p (Nat.le_of_not_lt fun hlt => hnew ?_)).symm
          have hle := inode.data.length_le_blocks
          rw [hlength] at hle
          exact hlt.trans_le (by exact_mod_cast hle)
    · change _ ≤ _ + mid.freeCount
      omega
  · refine absurd ⟨(sectorsFor_mono ?_).trans hroom, hmemory⟩ hfull
    exact (bytesToSectors_mono (by decide) (Nat.le_max_right _ _)).trans htotal

theorem FileHolds.writeAll {writes : List FileWrite}
    (h : FileHolds file fs sector contents)
    (hwithin : ∀ wr ∈ writes, wr.Within) (hmemory : fs.MemoryOk)
    (hroom : sectorsFor (contents.writeAll writes).blocks ≤
      sectorsFor contents.blocks + fs.freeCount) :
    ∃ fs', writeAll sector writes fs = some (writes.map FileWrite.size, fs') ∧
      FileHolds file fs' sector (contents.writeAll writes) := by
  induction writes generalizing fs contents with
  | nil => exact ⟨fs, rfl, h⟩
  | cons wr rest ih =>
      have hle := ByteFile.blocks_mono
        ((contents.write wr).length_le_writeAll rest)
      obtain ⟨fs₁, hrun, hholds, hmemory', hroom'⟩ :=
        h.write (hwithin wr List.mem_cons_self) hmemory hle hroom
      obtain ⟨fs', hrest, hholds'⟩ :=
        ih hholds (fun wr' hwr => hwithin wr' (List.mem_cons_of_mem _ hwr))
          hmemory' hroom'
      refine ⟨fs', ?_, hholds'⟩
      simp only [PintosLabs.writeAll, hrun, hrest, Option.bind_eq_bind,
        Option.bind_some, List.map_cons]

/-- A read delivers the bytes of the array. -/
theorem FileHolds.read (h : FileHolds file fs sector contents)
    {size offset : Int32} (hsize : 0 ≤ size.toInt) (hoffset : 0 ≤ offset.toInt) :
    ∃ fs', inodeReadAt sector size offset true fs =
      some (contents.read offset.toInt.toNat size.toInt.toNat, fs') := by
  obtain ⟨inode, hopen, -, -, hfile, hlength, hbytes⟩ := h.holds
  have hbytes_read := (readLoop_spec fs.store inode.data size offset []
    hfile.length_nonneg hfile.fits hoffset).1
  have hcount : (min size.toInt (inode.data.length.toInt - offset.toInt)).toNat =
      min size.toInt.toNat (contents.length - offset.toInt.toNat) := by
    omega
  have hread : (readLoop fs.store inode.data true size offset []).1 =
      contents.read offset.toInt.toNat size.toInt.toNat := by
    rw [hbytes_read, hcount, List.nil_append, ByteFile.read]
    apply List.map_congr_left
    intro i hi
    refine hbytes _ ?_
    have hi := List.mem_range.mp hi
    have hle := inode.data.length_le_blocks
    rw [hlength] at hle
    have hle' : contents.length ≤ inode.data.blocks * blockSectorSize := by
      exact_mod_cast hle
    omega
  refine ⟨{ fs with
    store := (readLoop fs.store inode.data true size offset []).2 }, ?_⟩
  simp only [inodeReadAt, hopen, Option.bind_eq_bind, Option.bind_some, hread]

end Writes

/-- A file that has just been created and opened holds as many zeros as it was
asked to. -/
theorem World.Inv.created_holds {file : FreeMapFile} {w : World σ}
    (h : w.Inv file) {length : Int32} {s : BlockSector} {fs : FileSys σ}
    (hlength : 0 ≤ length.toInt) (hmemory : w.fs.MemoryOk)
    (hroom : 1 + sectorsFor (ByteFile.empty length.toInt.toNat).blocks ≤
      w.fs.freeCount)
    (hcreate : filesysCreate length true w.fs = some (some s, fs)) :
    FileHolds file (inodeOpen s true fs).2 s
        (ByteFile.empty length.toInt.toNat) ∧
      (inodeOpen s true fs).2.MemoryOk ∧
      w.fs.freeCount = 1 + sectorsFor (ByteFile.empty length.toInt.toNat).blocks +
        (inodeOpen s true fs).2.freeCount := by
  have hblocks : (ByteFile.empty length.toInt.toNat).blocks =
      bytesToSectors length.toInt.toNat blockSectorSize := rfl
  rw [hblocks] at hroom ⊢
  rcases filesysCreate_spec h.ready hlength (filesysCreate_max hlength hcreate) with
    ⟨s', fs', new, hrun, hid, hnew, hfile, halloc, hperm, hzero⟩ | ⟨hfull, -⟩
  · rw [hcreate, Option.some.injEq, Prod.mk.injEq, Option.some.injEq] at hrun
    obtain ⟨rfl, rfl⟩ := hrun
    have hfree := halloc.free s (hperm.mem_iff.mp List.mem_cons_self)
    have hopen := inodeOpen_closed
      ((congrFun halloc.openInodes s).trans (h.closed_of_free hfree))
    have hne : s ≠ freeMapSector := fun heq =>
      hfree (heq ▸ h.ready.zero_used)
    have hread := file.flushSpec.read halloc.ready s
    have hview : (fs.cacheRead s).2.view = fs.view := FileSys.cacheRead_view _ _
    have hcount := halloc.count
    rw [hnew, InodeDisk.blocks, hid] at hcount
    rw [hopen]
    refine ⟨⟨hread.ready.setInode hne _, hne, fun _ _ => rfl,
      openedInode s (fs.inodeAt s), ?_, rfl, rfl, ?_, ?_, fun p hp => ?_⟩,
      halloc.memory hmemory, ?_⟩
    · rw [FileSys.setInode_openInodes, Function.update_self]
    · have hfile' : FileReady file.own (fs.cacheRead s).2 s (fs.inodeAt s) :=
        hfile.congr (fun x _ => by rw [FileSys.kids, hview, FileSys.kids])
          hfile.used_of_mem
      exact hfile'.setInode _
    · change (fs.inodeAt s).length.toInt = (length.toInt.toNat : Int)
      rw [hid, Int.toNat_of_nonneg hlength]
    · change fileByte (fs.cacheRead s).2.view _ _ = _
      rw [hview]
      exact hzero p hp
    · change _ = _ + fs.freeCount
      omega
  · exact absurd ⟨by omega, hmemory⟩ hfull

/-- Whatever has been done to the files of a disk since it was formatted: a
new file is a growing array of bytes.  Each write writes all it was asked to,
and a read finds at every position the byte last written there, or zero. -/
theorem growing_file {cnt : BlockSector} {store : σ} {memory : List Bool}
    {fs₀ : FileSys σ} (hformat : filesysInit true cnt store memory = some fs₀)
    (hnofail : fs₀.allocFailures = 0) {ops : List FileOp} {w : World σ}
    (hrun : Run worldStep (fun w op => op.Ok w) (World.formatted fs₀) ops w)
    {length : Int32} (hlength : 0 ≤ length.toInt) {writes : List FileWrite}
    (hwithin : ∀ wr ∈ writes, wr.Within) (hmemory : w.fs.MemoryOk)
    (hroom : 1 + sectorsFor
      ((ByteFile.empty length.toInt.toNat).writeAll writes).blocks ≤
        w.fs.freeCount) :
    (length.toInt ≤ maxBlocks * blockSectorSize →
      ∃ s fs, filesysCreate length true w.fs = some (some s, fs)) ∧
    ∀ s fs, filesysCreate length true w.fs = some (some s, fs) →
      ∃ fs', writeAll s writes (inodeOpen s true fs).2 =
          some (writes.map FileWrite.size, fs') ∧
        (∃ inode, fs'.openInodes s = some inode ∧ inode.data.length.toInt =
          ((ByteFile.empty length.toInt.toNat).writeAll writes).length) ∧
        ∀ size offset : Int32, 0 ≤ size.toInt → 0 ≤ offset.toInt →
          ∃ fs'', inodeReadAt s size offset true fs' = some
            (((ByteFile.empty length.toInt.toNat).writeAll writes).read
              offset.toInt.toNat size.toInt.toNat, fs'') := by
  obtain ⟨file, hformatted⟩ := filesysInit_inv hformat hnofail
  have hinv := worldRun_inv hformatted hrun
  have hle := sectorsFor_mono (ByteFile.blocks_mono
    ((ByteFile.empty length.toInt.toNat).length_le_writeAll writes))
  refine ⟨fun hmax => ?_, fun s fs hcreate => ?_⟩
  · have hblocks : bytesToSectors length.toInt.toNat blockSectorSize ≤
        maxBlocks := by
      rw [bytesToSectors_le_iff (by decide)]
      have hle := Int.toNat_le_toNat hmax
      exact_mod_cast hle
    have hempty : (ByteFile.empty length.toInt.toNat).blocks =
        bytesToSectors length.toInt.toNat blockSectorSize := rfl
    rcases filesysCreate_spec hinv.ready hlength hblocks with
      ⟨s, fs, new, hcreate, -⟩ | ⟨hfull, -⟩
    · exact ⟨s, fs, hcreate⟩
    · rw [hempty] at hle
      exact absurd ⟨by omega, hmemory⟩ hfull
  · obtain ⟨hholds, hmemory', hcount⟩ :=
      hinv.created_holds hlength hmemory (by omega) hcreate
    obtain ⟨fs', hwrites, hholds'⟩ :=
      hholds.writeAll hwithin hmemory' (by omega)
    obtain ⟨inode, hopen, -, -, -, hlength', -⟩ := hholds'.holds
    exact ⟨fs', hwrites, ⟨inode, hopen, hlength'⟩, fun size offset hsize hoffset =>
      hholds'.read hsize hoffset⟩

namespace GrowingFileWitness

/-- Five bytes far beyond the end of a file of ten. -/
def sparse : List FileWrite := [⟨fun _ => 7, 5, 1000⟩]

theorem growing_file_sparse :
    ∃ (s : BlockSector) (fs fs' fs'' : FileSys (BlockSector → Block)),
      writeAll s sparse (inodeOpen s true fs).2 = some ([5], fs') ∧
        inodeReadAt s 10 998 true fs' = some ([0, 0, 7, 7, 7, 7, 7], fs'') := by
  obtain ⟨file, fs₀, hformat, -, hnofail, hcount, hmemory⟩ := formatted_disk
  have hsectors : sectorsFor ((ByteFile.empty (10 : Int32).toInt.toNat).writeAll
      sparse).blocks = 2 := sectorsFor_direct (by decide)
  have hwithin : ∀ wr ∈ sparse, wr.Within := by
    intro wr hwr
    rw [List.mem_singleton.mp hwr]
    exact ⟨by decide, by decide, by decide⟩
  obtain ⟨hcreated, hwrites⟩ := growing_file hformat hnofail (Run.nil _)
    (by decide : 0 ≤ (10 : Int32).toInt) hwithin hmemory (by
      rw [hsectors]
      change 1 + 2 ≤ fs₀.freeCount
      omega)
  obtain ⟨s, fs, hcreate⟩ := hcreated (by decide)
  obtain ⟨fs', hrun, -, hread⟩ := hwrites s fs hcreate
  obtain ⟨fs'', hbytes⟩ := hread 10 998 (by decide) (by decide)
  exact ⟨s, fs, fs', fs'', hrun, hbytes⟩

end GrowingFileWitness

end PintosLabs
