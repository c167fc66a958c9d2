/-
The inode layer (filesys/inode.c) and the formatting of a disk
(filesys/filesys.c, filesys/free-map.c).  Sizes and offsets are `off_t`,
thirty-two bits with wrap-around; counts of sectors are naturals.
-/
import PintosLabs.FreeMap

namespace PintosLabs

def inodeMagic : UInt32 := 0x494e4f44

/-- What `byte_to_sector` returns for a position that has no sector. -/
def noSector : BlockSector := -1

namespace InodeDisk

/-- The inode as it lies on its sector. -/
def toBlock (id : InodeDisk) : Block := blockOf fun i =>
  if i.val = 0 then id.length.toUInt32
  else if h : i.val - 1 < 124 then id.directIndex ⟨i.val - 1, h⟩
  else if i.val = 125 then id.indirectIndex
  else if i.val = 126 then id.doublyIndirectIndex
  else id.magic

def ofBlock (b : Block) : InodeDisk where
  length := (wordsOf b 0).toInt32
  directIndex i := wordsOf b ⟨i.val + 1, by omega⟩
  indirectIndex := wordsOf b 125
  doublyIndirectIndex := wordsOf b 126
  magic := wordsOf b 127

end InodeDisk

/-- `DIV_ROUND_UP`. -/
def bytesToSectors (size unit : Nat) : Nat := (size + unit - 1) / unit

section Store

variable {σ : Type} [SectorStore σ BlockSector Block]

/-- The lookup in `byte_to_sector`, for the index of a block.  The buffers it
allocates are taken to be there. -/
def indexToSector (st : σ) (id : InodeDisk) (offset : Nat) : BlockSector × σ :=
  if h : offset < 124 then (id.directIndex ⟨offset, h⟩, st)
  else if h : offset - 124 < 128 then
    let (iis, st) := SectorStore.read st id.indirectIndex
    (wordsOf iis ⟨offset - 124, h⟩, st)
  else if h : (offset - 252) / 128 < 128 then
    let (iis, st) := SectorStore.read st id.doublyIndirectIndex
    let (iis, st) :=
      SectorStore.read st (wordsOf iis ⟨(offset - 252) / 128, h⟩)
    (wordsOf iis ⟨(offset - 252) % 128, Nat.mod_lt _ (by decide)⟩, st)
  else (noSector, st)

/-- `byte_to_sector`. -/
def byteToSector (st : σ) (id : InodeDisk) (pos : Int32) : BlockSector × σ :=
  if 0 ≤ pos ∧ pos < id.length then
    indexToSector st id (pos.toInt.toNat / blockSectorSize)
  else (noSector, st)

/-- `chunk_size`, as `inode_read_at` and `inode_write_at` compute it. -/
def chunkSize (length size offset : Int32) : Int32 :=
  let inodeLeft := length - offset
  let sectorLeft := 512 - offset % 512
  let minLeft := if inodeLeft < sectorLeft then inodeLeft else sectorLeft
  if size < minLeft then size else minLeft

theorem chunkSize_toInt_le (length size offset : Int32) :
    (chunkSize length size offset).toInt ≤ size.toInt := by
  simp only [chunkSize, Int32.lt_iff_toInt_lt]
  split <;> split <;> omega

/-- What is left after a chunk is smaller. -/
theorem chunkSize_decreases {length size offset : Int32} (hsize : 0 < size)
    (hchunk : ¬ chunkSize length size offset ≤ 0) :
    (size - chunkSize length size offset).toInt.toNat < size.toInt.toNat := by
  have hle := chunkSize_toInt_le length size offset
  rw [Int32.lt_iff_toInt_lt] at hsize
  rw [Int32.le_iff_toInt_le] at hchunk
  simp only [Int32.toInt_zero] at hsize hchunk
  have hlt := size.toInt_lt
  rw [Int32.toInt_sub, Int.bmod_eq_of_le (by omega) (by omega)]
  omega

/-- The `n` bytes of a sector from `ofs` on. -/
def sectorBytes (b : Block) (ofs n : Nat) : List UInt8 :=
  ((List.ofFn b).drop ofs).take n

/-- The loop of `inode_read_at`, given the bytes read so far; their number is
`bytes_read`.  `memory` is what the `malloc` of the bounce buffer answers. -/
def readLoop (st : σ) (id : InodeDisk) (memory : Bool) (size offset : Int32)
    (buffer : List UInt8) : List UInt8 × σ :=
  if 0 < size then
    let (sectorIdx, st) := byteToSector st id offset
    let sectorOfs := offset % 512
    let chunk := chunkSize id.length size offset
    if chunk ≤ 0 then (buffer, st)
    else if sectorOfs = 0 ∧ chunk = 512 then
      let (block, st) := SectorStore.read st sectorIdx
      readLoop st id memory (size - chunk) (offset + chunk)
        (buffer ++ List.ofFn block)
    else if memory then
      let (bounce, st) := SectorStore.read st sectorIdx
      readLoop st id memory (size - chunk) (offset + chunk)
        (buffer ++ sectorBytes bounce sectorOfs.toInt.toNat chunk.toInt.toNat)
    else (buffer, st)
  else (buffer, st)
termination_by size.toInt.toNat
decreasing_by all_goals exact chunkSize_decreases ‹_› ‹_›

/-- The bounce buffer with a chunk of the caller's bytes copied into it. -/
def copyInto (bounce : Block) (sectorOfs : Nat) (buffer : Nat → UInt8)
    (bytesWritten chunk : Nat) : Block := fun i =>
  if sectorOfs ≤ i.val ∧ i.val < sectorOfs + chunk then
    buffer (bytesWritten + (i.val - sectorOfs))
  else bounce i

/-- The loop of `inode_write_at`. -/
def writeLoop (st : σ) (id : InodeDisk) (buffer : Nat → UInt8) (memory : Bool)
    (size offset bytesWritten : Int32) : Int32 × σ :=
  if 0 < size then
    let (sectorIdx, st) := byteToSector st id offset
    let sectorOfs := offset % 512
    let sectorLeft := 512 - sectorOfs
    let chunk := chunkSize id.length size offset
    if chunk ≤ 0 then (bytesWritten, st)
    else if sectorOfs = 0 ∧ chunk = 512 then
      let st := SectorStore.write st sectorIdx fun i =>
        buffer (bytesWritten.toInt.toNat + i.val)
      writeLoop st id buffer memory (size - chunk) (offset + chunk)
        (bytesWritten + chunk)
    else if memory then
      -- a chunk that leaves bytes of the sector as they are reads them first
      let (bounce, st) :=
        if 0 < sectorOfs ∨ chunk < sectorLeft then SectorStore.read st sectorIdx
        else (zeros, st)
      let st := SectorStore.write st sectorIdx
        (copyInto bounce sectorOfs.toInt.toNat buffer bytesWritten.toInt.toNat
          chunk.toInt.toNat)
      writeLoop st id buffer memory (size - chunk) (offset + chunk)
        (bytesWritten + chunk)
    else (bytesWritten, st)
  else (bytesWritten, st)
termination_by size.toInt.toNat
decreasing_by all_goals exact chunkSize_decreases ‹_› ‹_›

end Store

variable {σ : Type} [SectorStore σ BlockSector Block]

/-! Allocation and release of the sectors of an inode, given how the free map
is written to its file. -/

section Allocate

variable (bitmapWrite : FileSys σ → Option (Bool × FileSys σ))

/-- The lines that stand wherever a sector is needed: when the entry is zero,
take a free sector, whether or not there is one, and clear the sector the
entry names. -/
def allocateEntry (entry : BlockSector) (fs : FileSys σ) :
    Option (BlockSector × FileSys σ) :=
  if entry = 0 then do
    let (_, entry, fs) ← freeMapAllocate bitmapWrite 1 entry fs
    some (entry, fs.cacheWrite entry zeros)
  else some (entry, fs)

/-- The loop over the entries of an index: each is given what is left of
`num_sectors`, up to `unit`, and nothing may be left in the end. -/
def allocateEntries {m : Nat}
    (allocate : BlockSector → Nat → FileSys σ → Option (BlockSector × FileSys σ))
    (unit : Nat) :
    List (Fin m) → Nat → (Fin m → BlockSector) → FileSys σ →
      Option ((Fin m → BlockSector) × FileSys σ)
  | [], numSectors, entries, fs =>
      if numSectors = 0 then some (entries, fs) else none
  | i :: rest, numSectors, entries, fs => do
      let perSize := min numSectors unit
      let (entry, fs) ← allocate (entries i) perSize fs
      allocateEntries allocate unit rest (numSectors - perSize)
        (Function.update entries i entry) fs

/-- `inode_allocate_indirect`, which is called with levels up to two. -/
def inodeAllocateIndirect : Nat → BlockSector → Nat → FileSys σ →
    Option (BlockSector × FileSys σ)
  | 0, entry, _, fs => allocateEntry bitmapWrite entry fs
  | level + 1, entry, numSectors, fs => do
      let (entry, fs) ← allocateEntry bitmapWrite entry fs
      let (iis, fs) := fs.cacheRead entry
      let unit := if level = 0 then 1 else 128
      let l := bytesToSectors numSectors unit
      let (blocks, fs) ← allocateEntries (inodeAllocateIndirect level) unit
        ((List.finRange 128).take l) numSectors (wordsOf iis) fs
      some (entry, fs.cacheWrite entry (blockOf blocks))

/-- The part of `inode_allocate` for the doubly indirect block. -/
def allocateDoublyIndirect (id : InodeDisk) (numSectors : Nat)
    (fs : FileSys σ) : Option (Bool × InodeDisk × FileSys σ) :=
  if numSectors = 0 then some (true, id, fs)
  else do
    let l := min numSectors (128 * 128)
    let (entry, fs) ←
      inodeAllocateIndirect bitmapWrite 2 id.doublyIndirectIndex l fs
    if numSectors - l = 0 then
      some (true, { id with doublyIndirectIndex := entry }, fs)
    else none

/-- The part of `inode_allocate` for the indirect block. -/
def allocateIndirect (id : InodeDisk) (numSectors : Nat) (fs : FileSys σ) :
    Option (Bool × InodeDisk × FileSys σ) :=
  if numSectors = 0 then some (true, id, fs)
  else do
    let l := min numSectors 128
    let (entry, fs) ← inodeAllocateIndirect bitmapWrite 1 id.indirectIndex l fs
    allocateDoublyIndirect bitmapWrite { id with indirectIndex := entry }
      (numSectors - l) fs

/-- `inode_allocate`. -/
def inodeAllocate (id : InodeDisk) (fs : FileSys σ) :
    Option (Bool × InodeDisk × FileSys σ) :=
  if id.length < 0 then some (false, id, fs)
  else do
    let numSectors := bytesToSectors id.length.toInt.toNat blockSectorSize
    let l := min numSectors 124
    let (directIndex, fs) ← allocateEntries
      (fun entry _ fs => allocateEntry bitmapWrite entry fs) 1
      ((List.finRange 124).take l) l id.directIndex fs
    allocateIndirect bitmapWrite { id with directIndex := directIndex }
      (numSectors - l) fs

/-- The loop of `inode_deallocate_indirect`. -/
def deallocateEntries
    (deallocate : BlockSector → Nat → FileSys σ → Option (FileSys σ))
    (unit : Nat) : List BlockSector → Nat → FileSys σ → Option (FileSys σ)
  | [], numSectors, fs => if numSectors = 0 then some fs else none
  | entry :: rest, numSectors, fs => do
      let subsize := min numSectors unit
      let fs ← deallocate entry subsize fs
      deallocateEntries deallocate unit rest (numSectors - subsize) fs

def inodeDeallocateIndirect : Nat → BlockSector → Nat → FileSys σ →
    Option (FileSys σ)
  | 0, entry, _, fs => freeMapRelease bitmapWrite entry 1 fs
  | level + 1, entry, numSectors, fs => do
      let (iis, fs) := fs.cacheRead entry
      let unit := if level = 0 then 1 else 128
      let l := bytesToSectors numSectors unit
      let fs ← deallocateEntries (inodeDeallocateIndirect level) unit
        ((List.ofFn (wordsOf iis)).take l) numSectors fs
      freeMapRelease bitmapWrite entry 1 fs

/-- `inode_deallocate`, whose result nobody looks at. -/
def inodeDeallocate (id : InodeDisk) (fs : FileSys σ) : Option (FileSys σ) :=
  if id.length < 0 then some fs
  else do
    let numSectors := bytesToSectors id.length.toInt.toNat blockSectorSize
    let l := min numSectors 124
    let fs ← deallocateEntries
      (fun entry _ fs => freeMapRelease bitmapWrite entry 1 fs) 1
      ((List.ofFn id.directIndex).take l) l fs
    let numSectors := numSectors - l
    let l := min numSectors 128
    let fs ← deallocateIfAny 1 id.indirectIndex l fs
    let numSectors := numSectors - l
    let l := min numSectors (128 * 128)
    let fs ← deallocateIfAny 2 id.doublyIndirectIndex l fs
    if numSectors - l = 0 then some fs else none
where
  /-- `if (l > 0) inode_deallocate_indirect (entry, l, level)`. -/
  deallocateIfAny (level : Nat) (entry : BlockSector) (l : Nat)
      (fs : FileSys σ) : Option (FileSys σ) :=
    if 0 < l then inodeDeallocateIndirect bitmapWrite level entry l fs
    else some fs

/-- The growth of `inode_write_at`, when the last byte to write has no
sector: whether it succeeded, and the inode. -/
def inodeGrow (inode : Inode) (probe : BlockSector) (length : Int32)
    (fs : FileSys σ) : Option (Bool × Inode × FileSys σ) :=
  if probe = noSector then do
    let (success, data, fs) ←
      inodeAllocate bitmapWrite { inode.data with length := length } fs
    let inode := { inode with data := data }
    if success then
      let inode := { inode with data := { inode.data with length := length } }
      some (true, inode, fs.cacheWrite inode.sector inode.data.toBlock)
    else some (false, inode, fs)
  else some (true, inode, fs)

/-- `inode_write_at` on the open inode of a sector.  `memory` is what the
`malloc` of the bounce buffer answers. -/
def inodeWriteAtWith (sector : BlockSector) (buffer : Nat → UInt8)
    (size offset : Int32) (memory : Bool) (fs : FileSys σ) :
    Option (Int32 × FileSys σ) := do
  let inode ← fs.openInodes sector
  if inode.denyWriteCnt ≠ 0 then some (0, fs)
  else
    let (probe, store) := byteToSector fs.store inode.data (offset + size - 1)
    let (success, inode, fs) ← inodeGrow bitmapWrite inode probe
      (offset + size) { fs with store := store }
    let fs := fs.setInode sector (some inode)
    if success then
      let (bytesWritten, store) :=
        writeLoop fs.store inode.data buffer memory size offset 0
      some (bytesWritten, { fs with store := store })
    else some (0, fs)

end Allocate

/-- `bitmap_write` of the free map to its file.  The file has its full length
from the start; were it ever to grow in here, `free_map_allocate` would be
entered again from within itself, which is left undefined. -/
def bitmapWrite (fs : FileSys σ) : Option (Bool × FileSys σ) := do
  let sector ← fs.freeMapFile
  let size := Int32.ofNat (bitmapFileSize fs.freeMap)
  let (written, fs) ← inodeWriteAtWith (fun _ => none) sector
    (bitmapByte fs.freeMap) size 0 fs.nextMemory
    { fs with memory := fs.memory.tail }
  some (written == size, fs)

/-! The functions of the inode layer. -/

def inodeWriteAt (sector : BlockSector) (buffer : Nat → UInt8)
    (size offset : Int32) (memory : Bool) (fs : FileSys σ) :
    Option (Int32 × FileSys σ) :=
  inodeWriteAtWith bitmapWrite sector buffer size offset memory fs

def inodeReadAt (sector : BlockSector) (size offset : Int32) (memory : Bool)
    (fs : FileSys σ) : Option (List UInt8 × FileSys σ) := do
  let inode ← fs.openInodes sector
  let (bytes, store) := readLoop fs.store inode.data memory size offset []
  some (bytes, { fs with store := store })

/-- `inode_create`; `memory` is what its `calloc` answers. -/
def inodeCreate (sector : BlockSector) (length : Int32) (memory : Bool)
    (fs : FileSys σ) : Option (Bool × FileSys σ) :=
  if length < 0 then none
  else if memory then do
    let (success, diskInode, fs) ← inodeAllocate bitmapWrite
      { InodeDisk.ofBlock zeros with length := length, magic := inodeMagic } fs
    if success then
      some (true, fs.cacheWrite sector diskInode.toBlock)
    else some (false, fs)
  else some (false, fs)

/-- `inode_open`: whether there is memory for a new entry; the inode is the
one of the sector from then on. -/
def inodeOpen (sector : BlockSector) (memory : Bool) (fs : FileSys σ) :
    Bool × FileSys σ :=
  match fs.openInodes sector with
  | some inode =>
      (true, fs.setInode sector
        (some { inode with openCnt := inode.openCnt + 1 }))
  | none =>
      if memory then
        let (block, fs) := fs.cacheRead sector
        (true, fs.setInode sector (some
          { sector := sector, openCnt := 1, removed := false,
            denyWriteCnt := 0, data := InodeDisk.ofBlock block }))
      else (false, fs)

def inodeReopen (sector : BlockSector) (fs : FileSys σ) :
    Option (FileSys σ) := do
  let inode ← fs.openInodes sector
  some (fs.setInode sector (some { inode with openCnt := inode.openCnt + 1 }))

def inodeClose (sector : BlockSector) (fs : FileSys σ) :
    Option (FileSys σ) := do
  let inode ← fs.openInodes sector
  if inode.openCnt - 1 = 0 then
    let fs := fs.setInode sector none
    if inode.removed then
      let fs ← freeMapRelease bitmapWrite inode.sector 1 fs
      inodeDeallocate bitmapWrite inode.data fs
    else some fs
  else
    some (fs.setInode sector
      (some { inode with openCnt := inode.openCnt - 1 }))

def inodeRemove (sector : BlockSector) (fs : FileSys σ) :
    Option (FileSys σ) := do
  let inode ← fs.openInodes sector
  some (fs.setInode sector (some { inode with removed := true }))

def inodeDenyWrite (sector : BlockSector) (fs : FileSys σ) :
    Option (FileSys σ) := do
  let inode ← fs.openInodes sector
  if inode.denyWriteCnt + 1 ≤ inode.openCnt then
    some (fs.setInode sector
      (some { inode with denyWriteCnt := inode.denyWriteCnt + 1 }))
  else none

def inodeAllowWrite (sector : BlockSector) (fs : FileSys σ) :
    Option (FileSys σ) := do
  let inode ← fs.openInodes sector
  if 0 < inode.denyWriteCnt ∧ inode.denyWriteCnt ≤ inode.openCnt then
    some (fs.setInode sector
      (some { inode with denyWriteCnt := inode.denyWriteCnt - 1 }))
  else none

/-! Formatting. -/

def freeMapSector : BlockSector := 0

def rootDirSector : BlockSector := 1

/-- `free_map_init` for a device of `cnt` sectors.  A bitmap without bits has
no elements, and marking a bit in it follows a null pointer. -/
def freeMapInit (cnt : Nat) : Option (List Bool) :=
  if cnt = 0 then none
  else some
    (((List.replicate cnt false).set freeMapSector.toNat true).set
      rootDirSector.toNat true)

/-- `free_map_create`, or `none` where it panics. -/
def freeMapCreate (fs : FileSys σ) : Option (FileSys σ) := do
  let (created, fs) ← inodeCreate freeMapSector
    (Int32.ofNat (bitmapFileSize fs.freeMap)) true fs
  if created then
    let (_, fs) := inodeOpen freeMapSector true fs
    let (written, fs) ← bitmapWrite { fs with freeMapFile := some freeMapSector }
    if written then some fs else none
  else none

/-- `free_map_open`, or `none` where it panics. -/
def freeMapOpen (fs : FileSys σ) : Option (FileSys σ) := do
  let (_, fs) := inodeOpen freeMapSector true fs
  let fs := { fs with freeMapFile := some freeMapSector }
  let size := Int32.ofNat (bitmapFileSize fs.freeMap)
  let (bytes, fs) ← inodeReadAt freeMapSector size 0 true fs
  if Int32.ofNat bytes.length = size then
    some { fs with freeMap := bitmapOfBytes fs.freeMap.length bytes }
  else none

/-- `free_map_close`. -/
def freeMapClose (fs : FileSys σ) : Option (FileSys σ) := do
  let sector ← fs.freeMapFile
  inodeClose sector fs

/-- The length of a root directory of sixteen entries of twenty bytes. -/
def rootDirLength : Int32 := 16 * 20

/-- `do_format`, or `none` where it panics. -/
def doFormat (fs : FileSys σ) : Option (FileSys σ) := do
  let fs ← freeMapCreate fs
  let (created, fs) ← inodeCreate rootDirSector rootDirLength true fs
  if created then freeMapClose fs else none

/-- `filesys_init` on a device of `cnt` sectors. -/
def filesysInit (format : Bool) (cnt : BlockSector) (store : σ)
    (memory : List Bool) : Option (FileSys σ) := do
  let freeMap ← freeMapInit cnt.toNat
  let fs : FileSys σ :=
    { store := store, freeMap := freeMap, freeMapFile := none
      openInodes := fun _ => none, memory := memory, allocFailures := 0 }
  if format then (doFormat fs).bind freeMapOpen else freeMapOpen fs

end PintosLabs
