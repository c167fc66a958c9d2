/-
The contiguous allocator of lab8 (mm.cpp): a list of free blocks and a list of
the blocks that processes hold, under one of three ways to choose a block.
Following a pointer that leads nowhere makes a step `none`, and so does the
counter of pids at the largest `int`.
-/
import PintosLabs.LinkedNodes
import PintosLabs.Machine
import PintosLabs.Spans

namespace PintosLabs

def intMax : Int := 2 ^ 31 - 1

/-- `struct free_block`: its size and its start address. -/
abbrev FreeBlock := Span

structure AllocatedBlock where
  pid : Int
  size : Int
  startAddr : Int
  processName : String

instance : Inhabited AllocatedBlock := ⟨⟨0, 0, 0, ""⟩⟩

def AllocatedBlock.span (b : AllocatedBlock) : Span := ⟨b.size, b.startAddr⟩

/-- What `func` points to. -/
inductive FitPolicy where
  | firstFit
  | bestFit
  | worstFit

structure ContiguousMemory where
  memSize : Int
  pid : Int
  freeHeap : NodeHeap FreeBlock
  freeBlockHead : Option Nat
  allocHeap : NodeHeap AllocatedBlock
  allocatedBlockHead : Option Nat
  func : FitPolicy

/-- Memory before the first process, of the size it has been given. -/
def memoryBoot (memSize : Int) : ContiguousMemory where
  memSize := memSize
  pid := 0
  freeHeap := NodeHeap.empty.alloc ⟨memSize, 0⟩
  freeBlockHead := some 0
  allocHeap := NodeHeap.empty
  allocatedBlockHead := none
  func := .firstFit

/-- The loop of `find_process`. -/
def findProcess (h : NodeHeap AllocatedBlock) (id : Int) :
    Nat → Option Nat → Option (Option Nat)
  | 0, _ => none
  | _ + 1, none => some none
  | n + 1, some a =>
      if (h.data a).pid = id then some (some a)
      else findProcess h id n (h.next a)

/-- What a search leaves: the answer, the pointers `pre` and `tmp`, and the
start address it has put into the block. -/
structure Fit where
  hasSpace : Bool
  pre : Option Nat
  tmp : Option Nat
  startAddr : Int

def firstFit (h : NodeHeap FreeBlock) (head : Option Nat) (size startAddr : Int) :
    Option Fit := do
  let (pre, tmp) ← h.scanUntil (fun a => decide ((h.data a).size ≥ size)) head
    (h.size + 1) head head
  some
    { hasSpace := tmp.isSome
      pre := pre
      tmp := tmp
      startAddr := match tmp with
        | some a => (h.data a).start
        | none => startAddr }

/-- The search that goes through the whole list and keeps the block that is
better than the best one so far. -/
def keepScan (better : Int → Int → Bool) (h : NodeHeap FreeBlock)
    (head : Option Nat) (size : Int) :
    Nat → Fit → Int → Option Nat → Option Nat → Option Fit
  | 0, _, _, _, _ => none
  | _ + 1, kept, _, _, none => some kept
  | n + 1, kept, best, pre, some a => do
      let left := (h.data a).size - size
      let kept' := if better left best then
        ⟨true, pre, some a, (h.data a).start⟩ else kept
      let best' := if better left best then left else best
      let pre' ← h.trail head pre (some a)
      keepScan better h head size n kept' best' pre' (h.next a)

def bestFit (h : NodeHeap FreeBlock) (head : Option Nat) (size startAddr : Int) :
    Option Fit :=
  keepScan (fun left best => decide (left < best) && decide (left ≥ 0)) h head
    size (h.size + 1) ⟨false, head, head, startAddr⟩ intMax head head

def worstFit (h : NodeHeap FreeBlock) (head : Option Nat) (size startAddr : Int) :
    Option Fit :=
  keepScan (fun left worst => decide (left > worst)) h head size (h.size + 1)
    ⟨false, head, head, startAddr⟩ (-1) head head

def FitPolicy.search : FitPolicy → NodeHeap FreeBlock → Option Nat → Int → Int →
    Option Fit
  | .firstFit => PintosLabs.firstFit
  | .bestFit => PintosLabs.bestFit
  | .worstFit => PintosLabs.worstFit

def insertAllocated (h : NodeHeap AllocatedBlock) (head : Option Nat) (ab : Nat) :
    Option (NodeHeap AllocatedBlock × Option Nat) := do
  let head := if head = none then some ab else head
  let (pre, tmp) ← h.scanUntil
    (fun a => decide ((h.data a).startAddr > (h.data ab).startAddr)) head
    (h.size + 1) head head
  match tmp with
  | some _ => (h.setNext ab tmp).relink head pre tmp (some ab)
  | none => pre.map fun a => ((h.setNext a (some ab)).setNext ab none, head)

/-- The block `a` gives its first `size` bytes away: it leaves the list, or a
new block with what is left stands in its place. -/
def takeFrom (h : NodeHeap FreeBlock) (head pre : Option Nat) (a : Nat)
    (size : Int) : Option (NodeHeap FreeBlock × Option Nat) :=
  if (h.data a).size = size then h.relink head pre (some a) (h.next a)
  else do
    let (h', head') ←
      (h.alloc ⟨(h.data a).size - size, (h.data a).start + size⟩).relink head pre
        (some a) (some h.size)
    some (h'.setNext h.size (h'.next a), head')

def ContiguousMemory.allocateMem (w : ContiguousMemory) (ab : Nat) :
    Option (ContiguousMemory × Int) :=
  if w.freeBlockHead = none then some (w, -1)
  else do
    let block := w.allocHeap.data ab
    let fit ← w.func.search w.freeHeap w.freeBlockHead block.size block.startAddr
    let allocHeap := w.allocHeap.setData ab { block with startAddr := fit.startAddr }
    if fit.hasSpace then
      let a ← fit.tmp
      let (freeHeap, freeBlockHead) ←
        takeFrom w.freeHeap w.freeBlockHead fit.pre a block.size
      let (allocHeap, allocatedBlockHead) ←
        insertAllocated allocHeap w.allocatedBlockHead ab
      some ({ w with freeHeap, freeBlockHead, allocHeap, allocatedBlockHead }, 1)
    else some ({ w with allocHeap }, -1)

def ContiguousMemory.createNewProcess (w : ContiguousMemory) (size : Int) : Option ContiguousMemory :=
  if size ≤ 0 then some w
  else if w.pid < intMax then
    let pid := w.pid + 1
    let ab := w.allocHeap.size
    (ContiguousMemory.allocateMem
      { w with
        pid := pid
        allocHeap := w.allocHeap.alloc ⟨pid, size, 0, toString pid⟩ } ab).map
      Prod.fst
  else none

/-- The second loop of `rearrange`, one pass over the sorted list. -/
def mergeLoop : Nat → NodeHeap FreeBlock → Option Nat → Option (NodeHeap FreeBlock)
  | 0, _, _ => none
  | _ + 1, h, none => some h
  | n + 1, h, some a =>
      match h.next a with
      | none => some h
      | some b =>
          let h :=
            if (h.data a).start + (h.data a).size = (h.data b).start then
              (h.setData a { h.data a with
                size := (h.data a).size + (h.data b).size }).setNext a (h.next b)
            else h
          mergeLoop n h (h.next a)

def ContiguousMemory.rearrange (h : NodeHeap FreeBlock) (head : Option Nat) :
    Option (NodeHeap FreeBlock) := do
  let h ← NodeHeap.exchangeSort Span.start (h.size + 1) h head
  mergeLoop (h.size + 1) h head

/-- What the two searches of `free_mem` find is not used. -/
def ContiguousMemory.freeMem (w : ContiguousMemory) (ab : Nat) : Option ContiguousMemory := do
  let block := w.allocHeap.data ab
  let _ ← w.freeHeap.scanUntil
    (fun a => decide ((w.freeHeap.data a).start > block.startAddr))
    w.freeBlockHead (w.freeHeap.size + 1) w.freeBlockHead w.freeBlockHead
  let _ ← w.allocHeap.scanUntil (fun a => decide (a = ab)) w.allocatedBlockHead
    (w.allocHeap.size + 1) w.allocatedBlockHead w.allocatedBlockHead
  let (freeHeap, freeBlockHead) :=
    w.freeHeap.insertAll w.freeBlockHead [block.span]
  if w.freeBlockHead = none then some { w with freeHeap, freeBlockHead }
  else do
    let freeHeap ← ContiguousMemory.rearrange freeHeap freeBlockHead
    some { w with freeHeap, freeBlockHead }

/-- The loop of `dispose`: the node before the block. -/
def disposeScan (h : NodeHeap AllocatedBlock) (fab : Nat) :
    Nat → Nat → Option Nat → Option Nat
  | 0, _, _ => none
  | _ + 1, _, none => none
  | n + 1, pre, some ab =>
      if ab = fab then some pre else disposeScan h fab n ab (h.next ab)

def dispose (h : NodeHeap AllocatedBlock) (head : Option Nat) (fab : Nat) :
    Option (NodeHeap AllocatedBlock × Option Nat) := do
  let first ← head
  if fab = first then some (h, h.next first)
  else do
    let pre ← disposeScan h fab (h.size + 1) first (h.next first)
    some (h.setNext pre (h.next fab), head)

def ContiguousMemory.killProcess (w : ContiguousMemory) (pid : Int) : Option ContiguousMemory := do
  match ← findProcess w.allocHeap pid (w.allocHeap.size + 1)
    w.allocatedBlockHead with
  | none => some w
  | some ab =>
      let w ← ContiguousMemory.freeMem w ab
      let (allocHeap, allocatedBlockHead) ←
        dispose w.allocHeap w.allocatedBlockHead ab
      some { w with allocHeap, allocatedBlockHead }

def usemyAlgo (w : ContiguousMemory) (id : Int) : ContiguousMemory :=
  if id = 0 then { w with func := .firstFit }
  else if id = 1 then { w with func := .bestFit }
  else if id = 2 then { w with func := .worstFit }
  else w

inductive MemoryOp where
  | create (size : Int)
  | kill (pid : Int)
  | useAlgo (id : Int)

def memoryStep (w : ContiguousMemory) : MemoryOp → Option ContiguousMemory
  | .create size => ContiguousMemory.createNewProcess w size
  | .kill pid => ContiguousMemory.killProcess w pid
  | .useAlgo id => some (usemyAlgo w id)

end PintosLabs
