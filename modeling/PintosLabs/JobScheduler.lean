/-
The job scheduler of lab4 (scheduler.c).  A timer signal makes it read a
command, choose a job and switch to it; `SIGCHLD` makes it ask `waitpid` which
child has ended.  One run of the handler is a step, and so is the end of a
child: what a child does while the handler runs, it does before or after.
-/
import PintosLabs.LinkedQueue
import PintosLabs.Machine

namespace PintosLabs

inductive JobState where
  | ready
  | running
  | done
  deriving DecidableEq

/-- `struct jobinfo`, without what only `do_stat` reads. -/
structure JobInfo where
  jid : Int
  pid : Nat
  defpri : Int
  curpri : Int
  waitTime : Int
  runTime : Int
  state : JobState
  deriving DecidableEq

instance : Inhabited JobInfo := ⟨⟨0, 0, 0, 0, 0, 0, .ready⟩⟩

/-- A child: a signal that would end it is kept for it while it is stopped; its
end is there until `waitpid` has reported it. -/
inductive Process where
  | running
  | stopped (doomed : Bool)
  | exited
  | killed
  deriving DecidableEq

def Process.isLive : Process → Bool
  | running | stopped _ => true
  | exited | killed => false

def sigKill : Nat := 9

def sigTerm : Nat := 15

def sigCont : Nat := 18

def sigStop : Nat := 19

inductive SignalAction where
  | terminate
  | kill
  | stop
  | cont
  | ignore

/-- What a signal does to a process by default; there is none with a number
above 64. -/
def signalAction (sig : Nat) : SignalAction :=
  if sig = sigKill then .kill
  else if sig = sigCont then .cont
  else if sig ∈ [sigStop, 20, 21, 22] then .stop
  else if sig ∈ [0, 17, 23, 28] ∨ 64 < sig then .ignore
  else .terminate

def Process.signal : SignalAction → Process → Process
  | .terminate, running => killed
  | .terminate, stopped _ => stopped true
  | .kill, running | .kill, stopped _ => killed
  | .stop, running => stopped false
  | .cont, stopped doomed => if doomed then killed else running
  | _, p => p

/-- `kill (pid, sig)`, in the order of its arguments that POSIX has. -/
def deliver (processes : Nat → Option Process) (pid sig : Nat) : Nat → Option Process :=
  Function.update processes pid
    ((processes pid).map (Process.signal (signalAction sig)))

/-- What the scheduler reads from the fifo.  `enq` sends a priority from 0 to 3
only; with it stands the pid that `fork` answers. -/
inductive JobCmd where
  | nothing
  | enq (defpri : Int) (pid : Nat)
  | deq (deqid : Int)
  | stat

structure Scheduler where
  heap : NodeHeap JobInfo
  head : Option Nat
  next : Option Nat
  current : Option Nat
  jobid : Int
  processes : Nat → Option Process
  /-- The jobs that were there when a command dequeued them. No function reads it. -/
  dequeued : List Int
  /-- The jobs marked done. No function reads it. -/
  finished : List Int

namespace Scheduler

def job (k : Scheduler) (a : Nat) : JobInfo := k.heap.data a

def setJob (k : Scheduler) (a : Nat) (job : JobInfo) : Scheduler :=
  { k with heap := k.heap.setData a job }

def kill (k : Scheduler) (pid sig : Nat) : Scheduler :=
  { k with processes := deliver k.processes pid sig }

def allocjid (k : Scheduler) : Option Int :=
  if k.jobid < 2 ^ 31 - 1 then some (k.jobid + 1) else none

/-- `current->job->run_time += 1` -/
def updateCurrent (k : Scheduler) : Scheduler :=
  match k.current with
  | none => k
  | some c => k.setJob c { k.job c with runTime := (k.job c).runTime + 1 }

/-- The turn of a job that waits. -/
def JobInfo.waits (j : JobInfo) : JobInfo :=
  { j with
    waitTime := j.waitTime + 1
    curpri := if j.curpri < 3 then j.curpri + 1 else j.curpri }

def updateall (k : Scheduler) : Option Scheduler := do
  let k := k.updateCurrent
  let heap ← k.heap.mapFrom JobInfo.waits (k.heap.size + 1) k.head
  some { k with heap := heap }

/-- What the loop of `jobselect` has found so far. -/
structure Choice where
  select : Option Nat
  selectprev : Option Nat
  highest : Int
  highestWait : Int

def Choice.look (job : Nat → JobInfo) (c : Choice) (prev : Option Nat) (p : Nat) :
    Choice :=
  if (job p).curpri > c.highest then
    { c with select := some p, selectprev := prev, highest := (job p).curpri }
  else if (job p).curpri = c.highest ∧ (job p).waitTime > c.highestWait then
    { c with select := some p, selectprev := prev, highestWait := (job p).waitTime }
  else c

/-- `next = jobselect ()` -/
def jobselect (k : Scheduler) : Option Scheduler :=
  match k.head with
  | none => some { k with next := none }
  | some _ => do
      let c ← k.heap.foldPairs (Choice.look k.job) (k.heap.size + 1) k.head k.head
        ⟨none, none, -1, -1⟩
      let (heap, head) ← k.heap.unlink k.head c.selectprev c.select
      some { k with heap := heap, head := head, next := c.select }

def putLast (k : Scheduler) (a : Nat) : Option Scheduler := do
  let (heap, head) ← k.heap.putLast k.head a
  some { k with heap := heap, head := head }

/-- A job that is done leaves `current`. -/
def removeDone (k : Scheduler) : Scheduler :=
  { k with current := k.current.filter fun c => (k.job c).state ≠ .done }

/-- `current = a; next = NULL;`, and the job is set going. -/
def resume (k : Scheduler) (a : Nat) : Scheduler :=
  ({ k with current := some a, next := none }.setJob a
    { k.job a with state := .running }).kill (k.job a).pid sigCont

/-- The test whether `current`, at its own priority, is ahead of `next`. -/
def staysAhead (k : Scheduler) (c n : Nat) : Bool :=
  decide ((k.job c).defpri > (k.job n).curpri)

def jobswitch (k : Scheduler) : Option Scheduler :=
  let k := k.removeDone
  match k.next, k.current with
  | none, _ => some k
  | some n, none => some (k.resume n)
  | some n, some c => do
      let stays := k.staysAhead c n
      let k := (k.kill (k.job c).pid sigStop).setJob c
        { k.job c with curpri := (k.job c).defpri, waitTime := 0, state := .ready }
      let k ← k.putLast (if stays then n else c)
      some (k.resume (if stays then c else n))

def doEnq (k : Scheduler) (defpri : Int) (pid : Nat) : Option Scheduler := do
  let jid ← k.allocjid
  let newnode := k.heap.size
  let k ← { k with
    heap := k.heap.alloc
      { jid := jid, pid := pid, defpri := defpri, curpri := defpri, waitTime := 0,
        runTime := 0, state := .ready }
    jobid := jid }.putLast newnode
  some { k with processes := Function.update k.processes pid (some (.stopped false)) }

/-- The part of `do_deq` that searches the wait queue. -/
def deqWaiting (k : Scheduler) (deqid : Int) : Option Scheduler := do
  let (selectprev, select) ← k.heap.findPair (fun p => decide ((k.job p).jid = deqid))
    (k.heap.size + 1) k.head k.head
  match select with
  | none => some k
  | some _ => do
      let (heap, head) ← k.heap.unlink k.head selectprev select
      some { k with heap := heap, head := head }

/-- The arguments of `kill` stand here as they do in the source. -/
def doDeq (k : Scheduler) (deqid : Int) : Option Scheduler :=
  let k := if 1 ≤ deqid ∧ deqid ≤ k.jobid then
    { k with dequeued := deqid :: k.dequeued } else k
  match k.current.filter fun c => (k.job c).jid = deqid with
  | some c => some { k.kill sigTerm (k.job c).pid with current := none }
  | none => k.deqWaiting deqid

def doCmd (k : Scheduler) : JobCmd → Option Scheduler
  | .enq defpri pid => k.doEnq defpri pid
  | .deq deqid => k.doDeq deqid
  | .nothing | .stat => some k

/-- `schedule`, up to `jobswitch`. -/
def select (k : Scheduler) (cmd : JobCmd) : Option Scheduler := do
  let k ← k.doCmd cmd
  let k ← k.updateall
  k.jobselect

def schedule (k : Scheduler) (cmd : JobCmd) : Option Scheduler := do
  let k ← k.select cmd
  k.jobswitch

/-- The handler of `SIGCHLD`, where `waitpid` has reported the end of `pid`: by
`exit` or by a signal. -/
def reportEnd (k : Scheduler) (pid : Nat) (exited : Bool) : Option Scheduler := do
  let c ← k.current
  let k := { k with processes := Function.update k.processes pid none }
  if exited then
    some { k.setJob c { k.job c with state := .done } with
      finished := (k.job c).jid :: k.finished }
  else some k

end Scheduler

/-- A timer signal with the command it finds, the end of a process that runs, and
`SIGCHLD` with the pid that `waitpid` reports, if it reports one. -/
inductive SchedulerAct where
  | schedule (cmd : JobCmd)
  | exits (pid : Nat)
  | crashes (pid : Nat)
  | sigchld (pid : Option Nat)

namespace Scheduler

/-- What `enq` sends, and what `fork` answers: a pid that is not in use. -/
def accepts (k : Scheduler) : JobCmd → Bool
  | .enq defpri pid =>
      decide (0 ≤ defpri ∧ defpri ≤ 3 ∧ 0 < pid ∧ k.processes pid = none)
  | _ => true

/-- A step of the scheduler or of a child; there is none where a null pointer is
followed. -/
def step (k : Scheduler) : SchedulerAct → Option Scheduler
  | .schedule cmd => if k.accepts cmd then k.schedule cmd else none
  | .exits pid =>
      if k.processes pid = some .running then
        some { k with processes := Function.update k.processes pid (some .exited) }
      else none
  | .crashes pid =>
      if k.processes pid = some .running then
        some { k with processes := Function.update k.processes pid (some .killed) }
      else none
  | .sigchld none => some k
  | .sigchld (some pid) =>
      match k.processes pid with
      | some .exited => k.reportEnd pid true
      | some .killed => k.reportEnd pid false
      | _ => none

def boot : Scheduler where
  heap := NodeHeap.empty
  head := none
  next := none
  current := none
  jobid := 0
  processes := fun _ => none
  dequeued := []
  finished := []

end Scheduler

end PintosLabs
