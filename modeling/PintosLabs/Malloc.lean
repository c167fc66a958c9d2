/-
The allocator of blocks (threads/malloc.c).  A request of up to a kilobyte gets a
block of the next power of two, out of a page called an arena; a larger one gets
pages of its own.  The header of an arena lies in memory, at the start of its
first page; the blocks that are free are in the list of their descriptor.
-/
import PintosLabs.PageAllocator

namespace PintosLabs

open Exec (pgsize)
open Palloc (noFlags pallocGetMultiple pallocGetPage pallocFreeMultiple pallocFreePage)

namespace Malloc

/-- `ARENA_MAGIC` -/
def arenaMagic : BitVec 32 := 0x9a548eed

/-- `sizeof (struct arena)` -/
def arenaSize : Nat := 12

/-- `struct desc`, but for its lock.  The blocks of an arena fit behind its header. -/
structure Desc where
  blockSize : Nat
  blocksPerArena : Nat
  freeList : List Nat
  blockSize_pos : 0 < blockSize
  blocks_pos : 0 < blocksPerArena
  fits : arenaSize + blocksPerArena * blockSize ≤ pgsize

def Desc.setFreeList (d : Desc) (freeList : List Nat) : Desc := { d with freeList := freeList }

/-- `arena_to_block`, the assertions left out. -/
def Desc.arenaToBlock (d : Desc) (a idx : Nat) : Nat := a + arenaSize + idx * d.blockSize

/-- The blocks of an arena. -/
def Desc.blocksOf (d : Desc) (a : Nat) : List Nat :=
  (List.range d.blocksPerArena).map (d.arenaToBlock a)

/-- The memory of the kernel, and `descs`. -/
structure Heap where
  pages : Palloc.State
  descs : List Desc

/-- The room of `descs`. -/
def maxDescs : Nat := 10

/-- The loop of `malloc_init`, with `room` descriptors left.  It fails when there is
none. -/
def initLoop : Nat → (blockSize : Nat) → 0 < blockSize → List Desc → Option (List Desc)
  | room, blockSize, hpos, descs =>
      if hsize : blockSize < pgsize / 2 then
        match room with
        | 0 => none
        | room + 1 =>
            initLoop room (blockSize * 2) (Nat.mul_pos hpos (by decide)) (descs ++ [{
              blockSize := blockSize
              blocksPerArena := (pgsize - arenaSize) / blockSize
              freeList := []
              blockSize_pos := hpos
              blocks_pos := Nat.div_pos (by rw [pgsize, arenaSize] at *; omega) hpos
              fits := by
                have hle := Nat.div_mul_le_self (pgsize - arenaSize) blockSize
                rw [pgsize, arenaSize] at *
                omega }])
      else some descs

def mallocInit (pages : Palloc.State) : Option Heap :=
  (initLoop maxDescs 16 (by decide) []).map fun descs => ⟨pages, descs⟩

namespace Heap

/-- The pointer to a descriptor, as a word: the null pointer is zero, and the
descriptor `i` is `i + 1`. -/
def descPtr : Option Nat → BitVec 32
  | none => 0
  | some i => BitVec.ofNat 32 (i + 1)

def memory (h : Heap) : ByteMemory := h.pages.memory

def setMemory (h : Heap) (memory : ByteMemory) : Heap :=
  { h with pages := h.pages.setMemory memory }

def magic (h : Heap) (a : Nat) : BitVec 32 := h.memory.loadWord a

/-- The descriptor of an arena. -/
def desc (h : Heap) (a : Nat) : Option Nat :=
  let ptr := (h.memory.loadWord (a + 4)).toNat
  if ptr = 0 then none else some (ptr - 1)

def freeCnt (h : Heap) (a : Nat) : BitVec 32 := h.memory.loadWord (a + 8)

def setFreeCnt (h : Heap) (a : Nat) (cnt : BitVec 32) : Heap :=
  h.setMemory (h.memory.storeWord (a + 8) cnt)

/-- The header of a new arena. -/
def setHeader (h : Heap) (a : Nat) (desc : Option Nat) (cnt : Nat) : Heap :=
  h.setMemory (((h.memory.storeWord a arenaMagic).storeWord (a + 4) (descPtr desc)).storeWord
    (a + 8) (BitVec.ofNat 32 cnt))

def setFreeList (h : Heap) (i : Nat) (freeList : List Nat) : Heap :=
  { h with descs := h.descs.modify i (·.setFreeList freeList) }

/-- `block_to_arena`.  The offset of the block behind the header wraps around. -/
def blockToArena (h : Heap) (b : Nat) : Option Nat :=
  let a := b - pgOfs b
  if a ≠ 0 ∧ h.magic a = arenaMagic then
    match h.desc a with
    | none => if pgOfs b = arenaSize then some a else none
    | some i => do
        let d ← h.descs[i]?
        if (pgOfs b + 2 ^ 32 - arenaSize) % 2 ^ 32 % d.blockSize = 0 then some a else none
  else none

/-- `DIV_ROUND_UP (size + sizeof *a, PGSIZE)`, in which both sums wrap around. -/
def pageCount (size : Nat) : Nat := ((size + arenaSize) % 2 ^ 32 + pgsize - 1) % 2 ^ 32 / pgsize

/-- The branch of `malloc` for a block that is too big for any descriptor. -/
def mallocPages (size : Nat) (h : Heap) : Option (Nat × Heap) := do
  let (a, pages) ← pallocGetMultiple noFlags (pageCount size) h.pages
  let h := { h with pages := pages }
  if a = 0 then some (0, h)
  else some (a + arenaSize, h.setHeader a none (pageCount size))

/-- A new arena for the descriptor `i`, whose free list is empty; there may be no
page for it. -/
def newArena (i : Nat) (d : Desc) (h : Heap) : Option (Bool × Heap) := do
  let (a, pages) ← pallocGetPage noFlags h.pages
  let h := { h with pages := pages }
  if a = 0 then some (false, h)
  else
    some (true, (h.setHeader a (some i) d.blocksPerArena).setFreeList i
      (d.freeList ++ d.blocksOf a))

/-- The block at the front of the free list. -/
def popBlock (i : Nat) (h : Heap) : Option (Nat × Heap) := do
  let d ← h.descs[i]?
  match d.freeList with
  | [] => none
  | b :: rest => do
      let h := h.setFreeList i rest
      let a ← h.blockToArena b
      some (b, h.setFreeCnt a (h.freeCnt a - 1))

def malloc (size : Nat) (h : Heap) : Option (Nat × Heap) :=
  if size = 0 then some (0, h)
  else
    match h.descs.findIdx? (fun d => decide (size ≤ d.blockSize)) with
    | none => h.mallocPages size
    | some i => do
        let d ← h.descs[i]?
        let (ready, h) ← if d.freeList = [] then h.newArena i d else some (true, h)
        if ready then h.popBlock i else some (0, h)

def calloc (a b : Nat) (h : Heap) : Option (Nat × Heap) :=
  let size := a * b % 2 ^ 32
  if size < a ∨ size < b then some (0, h)
  else do
    let (p, h) ← h.malloc size
    some (p, if p = 0 then h else h.setMemory (h.memory.fill p size 0))

/-- `block_size` -/
def blockSize (h : Heap) (p : Nat) : Option Nat := do
  let a ← h.blockToArena p
  match h.desc a with
  | some i => do
      let d ← h.descs[i]?
      some d.blockSize
  | none => some (pgsize * (h.freeCnt a).toNat - pgOfs p)

/-- Take the blocks of an arena off the free list. -/
def removeBlocks (blocks freeList : List Nat) : Option (List Nat) :=
  blocks.foldlM (fun freeList b => if b ∈ freeList then some (freeList.erase b) else none)
    freeList

/-- The block is filled, and it is put at the front of the free list. -/
def pushBlock (p i : Nat) (d : Desc) (h : Heap) : Heap :=
  (h.setMemory (h.memory.fill p d.blockSize 0xcc)).setFreeList i (p :: d.freeList)

/-- A block of the arena `a` comes back to its descriptor. -/
def freeBlock (p a i : Nat) (d : Desc) (h : Heap) : Option Heap := do
  let h := h.pushBlock p i d
  let cnt := h.freeCnt a + 1
  let h := h.setFreeCnt a cnt
  if d.blocksPerArena ≤ cnt.toNat then
    if cnt.toNat = d.blocksPerArena then do
      let freeList ← removeBlocks (d.blocksOf a) (p :: d.freeList)
      let pages ← pallocFreePage a h.pages
      some ({ h with pages := pages }.setFreeList i freeList)
    else none
  else some h

def free (p : Nat) (h : Heap) : Option Heap :=
  if p = 0 then some h
  else do
    let a ← h.blockToArena p
    match h.desc a with
    | some i => do
        let d ← h.descs[i]?
        h.freeBlock p a i d
    | none => do
        let pages ← pallocFreeMultiple a (h.freeCnt a).toNat h.pages
        some { h with pages := pages }

def realloc (oldBlock newSize : Nat) (h : Heap) : Option (Nat × Heap) :=
  if newSize = 0 then do
    let h ← h.free oldBlock
    some (0, h)
  else do
    let (newBlock, h) ← h.malloc newSize
    if oldBlock ≠ 0 ∧ newBlock ≠ 0 then do
      let oldSize ← h.blockSize oldBlock
      let h := h.setMemory (h.memory.copy newBlock oldBlock (min newSize oldSize))
      let h ← h.free oldBlock
      some (newBlock, h)
    else some (newBlock, h)

end Heap

end Malloc

end PintosLabs
