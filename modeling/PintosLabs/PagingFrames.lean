/-
The paging simulator of lab8 (mm_paging.cpp): memory in frames of one page, a
list of the free frames and a list of those that processes hold.  The two
arrays of pointers have one entry for each whole page of memory; writing past
their end, or following a pointer that leads nowhere, makes a step `none`.
-/
import PintosLabs.LinkedNodes
import PintosLabs.Machine

namespace PintosLabs

/-- `set_page_size` reports a size but never assigns it. -/
def pageSize : Nat := 4

structure AllocatedFrame where
  pid : Int
  startAddr : Int
  processName : String

instance : Inhabited AllocatedFrame := ⟨⟨0, 0, ""⟩⟩

structure Paging where
  memSize : Nat
  pid : Int
  freeHeap : NodeHeap Int
  freeBlockHead : Option Nat
  allocHeap : NodeHeap AllocatedFrame
  allocatedBlockHead : Option Nat

/-- The whole pages in some bytes, and one more for what is left. -/
def pagesFor (size : Nat) : Nat :=
  if size % pageSize ≠ 0 then size / pageSize + 1 else size / pageSize

/-- The loop of `init_free_block` behind its first node. -/
def initLoop : Nat → NodeHeap Int → Nat → NodeHeap Int
  | 0, h, _ => h
  | n + 1, h, tmp =>
      initLoop n
        ((h.alloc (h.data tmp + pageSize)).setNext tmp (some h.size)) h.size

def initFreeBlock (memSize : Nat) : NodeHeap Int × Option Nat :=
  (initLoop (pagesFor memSize - 1) (NodeHeap.empty.alloc 0) 0, some 0)

/-- Memory before the first process: of the default size, or of the positive
one that `set_mem_size` was given. -/
def pagingBoot (memSize : Nat) : Paging where
  memSize := memSize
  pid := 0
  freeHeap := (initFreeBlock memSize).1
  freeBlockHead := (initFreeBlock memSize).2
  allocHeap := NodeHeap.empty
  allocatedBlockHead := none

/-- How many pointers `recoder` and `recorder` have room for. -/
def recorderSize (memSize : Nat) : Nat := memSize / pageSize

/-- The walk over the free list that fills `recoder`, up to `cnt` nodes. -/
def recordFree (h : NodeHeap Int) (room cnt : Nat) :
    Nat → List Nat → Option Nat → Option (List Nat)
  | 0, _, _ => none
  | _ + 1, recoder, none => some recoder
  | n + 1, recoder, some a =>
      if recoder.length < room then
        if (recoder ++ [a]).length = cnt then some (recoder ++ [a])
        else recordFree h room cnt n (recoder ++ [a]) (h.next a)
      else none

def rearrange (w : Paging) : Option Paging := do
  let freeHeap ← NodeHeap.exchangeSort id (w.freeHeap.size + 1) w.freeHeap
    w.freeBlockHead
  let allocHeap ← NodeHeap.exchangeSort AllocatedFrame.startAddr
    (w.allocHeap.size + 1) w.allocHeap w.allocatedBlockHead
  some { w with freeHeap := freeHeap, allocHeap := allocHeap }

/-- Nobody looks at the number that is returned. -/
def allocateMem (w : Paging) (cnt : Nat) (ab : AllocatedFrame) :
    Option Paging :=
  if w.freeBlockHead = none then some w
  else do
    let recoder ← recordFree w.freeHeap (recorderSize w.memSize) cnt
      (w.freeHeap.size + 1) [] w.freeBlockHead
    if recoder.length = cnt then
      let (allocHeap, allocatedBlockHead) :=
        w.allocHeap.insertAll w.allocatedBlockHead
          (recoder.map fun a => { ab with startAddr := w.freeHeap.data a })
      let freeBlockHead ← w.freeHeap.advance cnt w.freeBlockHead
      rearrange
        { w with
          allocHeap := allocHeap
          allocatedBlockHead := allocatedBlockHead
          freeBlockHead := freeBlockHead }
    else some w

def createNewProcess (w : Paging) (size : Int) : Option Paging :=
  if size ≤ 0 then some w
  else
    let pid := w.pid + 1
    allocateMem { w with pid := pid } (pagesFor size.toNat)
      { pid := pid, startAddr := 0, processName := toString pid }

/-- The variables of the first loop of `free_mem`. -/
structure FreeScan where
  heap : NodeHeap AllocatedFrame
  head : Option Nat
  pre : Option Nat
  recorder : List Nat

/-- The loop that takes the frames of a process off the list and notes them. -/
def freeScan (id : Int) (room : Nat) :
    Nat → FreeScan → Option Nat → Option FreeScan
  | 0, _, _ => none
  | _ + 1, st, none => some st
  | n + 1, st, some a =>
      if (st.heap.data a).pid = id then
        if st.recorder.length < room then do
          let (heap, head) ←
            st.heap.relink st.head st.pre (some a) (st.heap.next a)
          freeScan id room n
            { heap := heap, head := head, pre := st.pre
              recorder := st.recorder ++ [a] } (heap.next a)
        else none
      else do
        let pre ← st.heap.trail st.head st.pre (some a)
        freeScan id room n { st with pre := pre } (st.heap.next a)

/-- Whether a frame was found. -/
def freeMem (w : Paging) (id : Int) : Option (Paging × Bool) := do
  let st ← freeScan id (recorderSize w.memSize) (w.allocHeap.size + 1)
    ⟨w.allocHeap, w.allocatedBlockHead, w.allocatedBlockHead, []⟩
    w.allocatedBlockHead
  let w := { w with allocHeap := st.heap, allocatedBlockHead := st.head }
  if st.recorder.length ≠ 0 then
    let (freeHeap, freeBlockHead) := w.freeHeap.insertAll w.freeBlockHead
      (st.recorder.map fun a => (st.heap.data a).startAddr)
    let w ← rearrange
      { w with freeHeap := freeHeap, freeBlockHead := freeBlockHead }
    some (w, true)
  else some (w, false)

def killProcess (w : Paging) (pid : Int) : Option Paging :=
  (freeMem w pid).map Prod.fst

inductive PagingOp where
  | create (size : Int)
  | kill (pid : Int)

def pagingStep (w : Paging) : PagingOp → Option Paging
  | .create size => createNewProcess w size
  | .kill pid => killProcess w pid

end PintosLabs
