/-
The banker of lab7 (banker.cpp): the global vectors and maps, and one step of
the command loop.  Reading an element of an empty vector is out of range and
makes a step `none`; `int` arithmetic wraps.
-/
import Mathlib.Data.List.FinRange
import PintosLabs.Machine

namespace PintosLabs

variable {r : Nat}

/-- `map<int, vector<int>>`: iterated in key order. -/
abbrev PidMap (r : Nat) := Std.TreeMap Int (Vector Int32 r)

/-- `m[pid]` as the loops over `i < r` read it.  For a missing key the map
makes an empty vector, whose element 0 does not exist; only when `r` is zero
is no element read. -/
def PidMap.read (m : PidMap r) (pid : Int) : Option (Vector Int32 r) :=
  if r = 0 then some (m[pid]?.getD (Vector.replicate r 0)) else m[pid]?

structure Banker (r : Nat) where
  remain : Vector Int32 r
  needed : PidMap r
  allocated : PidMap r
  max : PidMap r
  resource : Vector Int32 r
  req : Vector Int32 r

def addVector (v w : Vector Int32 r) : Vector Int32 r :=
  Vector.zipWith (· + ·) v w

def subVector (v w : Vector Int32 r) : Vector Int32 r :=
  Vector.zipWith (· - ·) v w

def recycle (b : Banker r) (pid : Int) : Option (Banker r) := do
  let held ← b.allocated.read pid
  some
    { b with
      remain := addVector b.remain held
      max := b.max.erase pid
      allocated := b.allocated.erase pid
      needed := b.needed.erase pid }

/-- The state of the scan in `safe_check`. -/
structure ScanState (r : Nat) where
  work : Vector Int32 r
  finish : Int → Bool
  flagOuter : Bool

/-- `flag`: no entry of the need exceeds what is at work. -/
def fits (need work : Vector Int32 r) : Bool :=
  (List.finRange r).all fun j => !decide (need[j] > work[j])

/-- One entry of `tmp_needed` in one pass of the scan. -/
def scanEntry (tmpAllocated : PidMap r) (st : ScanState r)
    (entry : Int × Vector Int32 r) : Option (ScanState r) :=
  if st.finish entry.1 then some st
  else if fits entry.2 st.work then do
    let held ← tmpAllocated.read entry.1
    some
      { work := addVector st.work held
        finish := Function.update st.finish entry.1 true
        flagOuter := true }
  else some st

/-- The passes of the scan, at most one per process, ended by a pass that
finishes nobody. -/
def scanPasses (tmpAllocated tmpNeeded : PidMap r) :
    Nat → ScanState r → Option (ScanState r)
  | 0, st => some st
  | n + 1, st => do
      let st ← tmpNeeded.toList.foldlM (scanEntry tmpAllocated)
        { st with flagOuter := false }
      if st.flagOuter then scanPasses tmpAllocated tmpNeeded n st else some st

/-- The write-back of one entry of the copied maps. -/
def commitEntry (tmpAllocated : PidMap r) (maps : PidMap r × PidMap r)
    (entry : Int × Vector Int32 r) : Option (PidMap r × PidMap r) := do
  let held ← tmpAllocated.read entry.1
  let _ ← maps.1.read entry.1
  let _ ← maps.2.read entry.1
  some (maps.1.insert entry.1 held, maps.2.insert entry.1 entry.2)

def safeCheck (b : Banker r) (tmpAllocated tmpNeeded : PidMap r) :
    Option (Banker r × Bool) := do
  let st ← scanPasses tmpAllocated tmpNeeded tmpNeeded.size
    { work := subVector b.remain b.req
      finish := fun _ => false
      flagOuter := false }
  if tmpNeeded.keys.all st.finish then
    let maps ← tmpNeeded.toList.foldlM (commitEntry tmpAllocated)
      (b.allocated, b.needed)
    some
      ({ b with
          remain := subVector b.remain b.req
          allocated := maps.1
          needed := maps.2 }, true)
  else some (b, false)

/-- The first loop of `request_judge`. -/
def requestWithin (b : Banker r) (pid : Int) : Option Bool := do
  let cap ← b.max.read pid
  let held ← b.allocated.read pid
  some ((List.finRange r).all fun i =>
    !(decide (cap[i] < b.req[i] + held[i]) || decide (b.req[i] > b.remain[i])))

def tmpNeededOf (b : Banker r) (pid : Int) : PidMap r :=
  b.needed.map fun key need => if key = pid then subVector need b.req else need

def tmpAllocatedOf (b : Banker r) (pid : Int) : Option (PidMap r) :=
  b.needed.keys.foldlM
    (fun tmp key => do
      let held ← b.allocated.read key
      some (tmp.insert key (if key = pid then addVector held b.req else held)))
    ∅

def requestJudge (b : Banker r) (pid : Int) : Option (Banker r × Bool) := do
  if ← requestWithin b pid then
    let tmpAllocated ← tmpAllocatedOf b pid
    safeCheck b tmpAllocated (tmpNeededOf b pid)
  else some (b, false)

def newJudge (b : Banker r) (pid : Int) : Bool :=
  if pid ∈ b.max then false
  else (List.finRange r).all fun i => !decide (b.req[i] > b.resource[i])

/-- The `push_back`s onto the three vectors of a pid that has none yet; with
no resources there is nothing to push, and no vector is made. -/
def newProcess (b : Banker r) (pid : Int) : Banker r :=
  if r = 0 then b
  else
    { b with
      max := b.max.insert pid b.req
      needed := b.needed.insert pid b.req
      allocated := b.allocated.insert pid (Vector.replicate r 0) }

inductive BankerCommand (r : Nat) where
  | request (pid : Int) (amounts : Vector Int32 r)
  | new (pid : Int) (amounts : Vector Int32 r)
  | terminate (pid : Int)

/-- One turn of the command loop; the answer is whether `OK` is printed. -/
def bankerCommand (b : Banker r) :
    BankerCommand r → Option (Banker r × Bool)
  | .request pid amounts => requestJudge { b with req := amounts } pid
  | .new pid amounts =>
      let b := { b with req := amounts }
      if newJudge b pid then some (newProcess b pid, true) else some (b, false)
  | .terminate pid =>
      if pid ∈ b.max then (recycle b pid).map fun b => (b, true)
      else some (b, false)

def bankerStep (b : Banker r) (command : BankerCommand r) : Option (Banker r) :=
  (bankerCommand b command).map Prod.fst

/-- The state in which the command loop is entered. -/
def bankerBoot (resource : Vector Int32 r) : Banker r where
  remain := resource
  needed := ∅
  allocated := ∅
  max := ∅
  resource := resource
  req := Vector.replicate r 0

/-- The integers a vector stands for. -/
def vecInt (v : Vector Int32 r) : Fin r → Int := fun i => v[i].toInt

end PintosLabs
