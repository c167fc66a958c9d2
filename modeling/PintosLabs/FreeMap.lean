/-
The state of the file system, and the free map (filesys/free-map.c,
lib/kernel/bitmap.c).  The sectors are reached through any store that keeps
what is written to it.  A step is `none` where the kernel panics on a failed
assertion or uses a pointer to nothing.
-/
import PintosLabs.SectorWords

namespace PintosLabs

/-- `struct inode_disk`. -/
structure InodeDisk where
  length : Int32
  directIndex : Fin 124 → BlockSector
  indirectIndex : BlockSector
  doublyIndirectIndex : BlockSector
  magic : UInt32

/-- The in-memory `struct inode`. -/
structure Inode where
  sector : BlockSector
  openCnt : Nat
  removed : Bool
  denyWriteCnt : Nat
  data : InodeDisk

/-- The state of the file system over a store of sectors.  `openInodes` is
keyed by sector, which no two entries of the list share.  `freeMapFile` is the
inode of `free_map_file`.  The last two fields are not in the source: `memory`
lists what the coming `malloc`s of a bounce buffer for the free map answer
(they succeed once the list is used up), and `allocFailures` counts the calls
of `free_map_allocate` that have failed. -/
structure FileSys (σ : Type) where
  store : σ
  freeMap : List Bool
  freeMapFile : Option BlockSector
  openInodes : BlockSector → Option Inode
  memory : List Bool
  allocFailures : Nat

variable {σ : Type} [SectorStore σ BlockSector Block]

namespace FileSys

/-- What a read of the sector through the cache delivers. -/
def view (fs : FileSys σ) : BlockSector → Block := SectorStore.view fs.store

def cacheRead (fs : FileSys σ) (sector : BlockSector) : Block × FileSys σ :=
  ((SectorStore.read fs.store sector).1,
    { fs with store := (SectorStore.read fs.store sector).2 })

def cacheWrite (fs : FileSys σ) (sector : BlockSector) (source : Block) :
    FileSys σ :=
  { fs with store := SectorStore.write fs.store sector source }

def setInode (fs : FileSys σ) (sector : BlockSector) (inode : Option Inode) :
    FileSys σ :=
  { fs with openInodes := Function.update fs.openInodes sector inode }

/-- What the next `malloc` for the free map answers. -/
def nextMemory (fs : FileSys σ) : Bool := fs.memory.headD true

end FileSys

/-! lib/kernel/bitmap.c -/

def bitmapContains (b : List Bool) (start cnt : Nat) (value : Bool) : Bool :=
  ((b.drop start).take cnt).contains value

def bitmapSetMultiple (b : List Bool) (start cnt : Nat) (value : Bool) :
    List Bool :=
  (List.range cnt).foldl (fun b i => b.set (start + i) value) b

/-- `bitmap_scan`, whose `BITMAP_ERROR` is `none`. -/
def bitmapScan (b : List Bool) (start cnt : Nat) (value : Bool) : Option Nat :=
  if cnt ≤ b.length then
    (List.range' start (b.length - cnt + 1 - start)).find? fun i =>
      !bitmapContains b i cnt (!value)
  else none

/-- `bitmap_file_size`: whole elements of thirty-two bits. -/
def bitmapFileSize (b : List Bool) : Nat := 4 * ((b.length + 31) / 32)

/-- The byte `j` of the elements of the bitmap.  Bits beyond the last one are
never looked at. -/
def bitmapByte (b : List Bool) (j : Nat) : UInt8 :=
  UInt8.ofNat (((List.range 8).map fun i =>
    if b[8 * j + i]?.getD false then 2 ^ i else 0).sum)

/-- The bits that the bytes of a bitmap file stand for. -/
def bitmapOfBytes (cnt : Nat) (bytes : List UInt8) : List Bool :=
  (List.range cnt).map fun k => (bytes.getD (k / 8) 0).toNat.testBit (k % 8)

/-! filesys/free-map.c.  Writing the bitmap to its file is a parameter here,
since it goes through the inode layer, which allocates from the free map. -/

section FreeMap

variable (bitmapWrite : FileSys σ → Option (Bool × FileSys σ))

/-- The write-back inside `free_map_allocate`, which is left out while there
is no free map file. -/
def flushFreeMap (fs : FileSys σ) : Option (Bool × FileSys σ) :=
  if fs.freeMapFile.isSome then bitmapWrite fs else some (true, fs)

/-- `free_map_allocate`: whether it succeeded, and the sector stored. -/
def freeMapAllocate (cnt : Nat) (sectorp : BlockSector) (fs : FileSys σ) :
    Option (Bool × BlockSector × FileSys σ) :=
  match bitmapScan fs.freeMap 0 cnt false with
  | none =>
      some (false, sectorp, { fs with allocFailures := fs.allocFailures + 1 })
  | some sector => do
      let (written, fs) ← flushFreeMap bitmapWrite
        { fs with freeMap := bitmapSetMultiple fs.freeMap sector cnt true }
      if written then some (true, UInt32.ofNat sector, fs)
      else
        some (false, sectorp,
          { fs with
            freeMap := bitmapSetMultiple fs.freeMap sector cnt false
            allocFailures := fs.allocFailures + 1 })

/-- `free_map_release`, which asserts that the sectors are in use. -/
def freeMapRelease (sector : BlockSector) (cnt : Nat) (fs : FileSys σ) :
    Option (FileSys σ) :=
  if sector.toNat + cnt ≤ fs.freeMap.length ∧
      bitmapContains fs.freeMap sector.toNat cnt false = false then do
    let (_, fs) ← bitmapWrite
      { fs with freeMap := bitmapSetMultiple fs.freeMap sector.toNat cnt false }
    some fs
  else none

end FreeMap

end PintosLabs
