/-
The threads, semaphores, locks and condition variables of the priority
scheduler (pintos/src: threads/thread.c, threads/synch.c, devices/timer.c),
with `thread_mlfqs` false.  What runs with interrupts off is one step; where
they are on, a step is one access to what threads share, and a timer interrupt
may come before any step.
-/
import Mathlib.Logic.Function.Basic
import PintosLabs.ListSort
import PintosLabs.Machine

namespace PintosLabs

/-- A `struct thread`, by the order of creation. -/
abbrev ThreadId := Nat

abbrev LockId := Nat

abbrev CondId := Nat

def priMin : Int := 0

def priMax : Int := 63

def priDefault : Int := 31

def timeSlice : Nat := 4

/-- `tid_lock` -/
def tidLock : LockId := 0

def initialThread : ThreadId := 0

def idleThread : ThreadId := 1

inductive ThreadStatus where
  | running
  | ready
  | blocked
  deriving DecidableEq

/-- A semaphore: one of its own, the one in a lock, or the one on the stack of
a thread in `cond_wait`. -/
inductive SemaId where
  | sema (n : Nat)
  | lock (l : LockId)
  | waiter (t : ThreadId)
  deriving DecidableEq

/-- What a thread calls, or has still to call in the function it is in. -/
inductive Op where
  | threadYield
  | threadBlock
  | threadUnblock (t : ThreadId)
  | threadCreate (priority : Int)
  | allocateTid (t : ThreadId)
  | startThread (t : ThreadId)
  | yieldTo (priority : Int)
  | threadSetPriority (priority : Int)
  | timerSleep (ticks : Int)
  | semaDown (n : Nat)
  | semaTryDown (n : Nat)
  | semaUp (n : Nat)
  | lockAcquire (l : LockId)
  | lockRelease (l : LockId)
  | condWait (c : CondId) (l : LockId)
  | waiterDown
  | condSignal (c : CondId) (l : LockId)
  | condBroadcast (c : CondId) (l : LockId)

/-- The calls a program can make; the others are made inside of these. -/
def Op.isCall : Op → Bool
  | allocateTid _ | startThread _ | yieldTo _ | waiterDown => false
  | _ => true

/-- Where a thread is in the function it is in. -/
inductive Pc where
  /-- Between two calls. -/
  | next
  /-- In `lock_acquire (l)`: the lock was held. -/
  | setWaiting (l : LockId)
  | donateTest (l : LockId) (lk : Option LockId)
  | donateMax (l lk : LockId)
  | donatePri (l lk : LockId)
  | donateNext (l lk : LockId)
  | acquireDown (l : LockId)
  /-- In the loop of `sema_down`, after `thread_block`. -/
  | down (s : SemaId)
  /-- In `lock_acquire (l)`, after `sema_down`. -/
  | take (l : LockId)
  | setHolder (l : LockId)
  /-- In `lock_release (l)`, after `lock->holder = NULL`. -/
  | removeLock (l : LockId)
  | releaseUp (l : LockId)
  /-- In `cond_signal`. -/
  | condSort (c : CondId) (sort : Comparing ThreadId (List ThreadId × Nat))
  | condSorted (c : CondId) (sorted : Comparing ThreadId Bool)
  | condPop (c : CondId)
  | condUp (t : ThreadId)
  /-- Behind `thread_block` in `timer_sleep`, in a caller of it, in `idle`. -/
  | asleep
  | parked
  | idleBlock
  | idleWake

structure Thread where
  tid : Nat
  status : ThreadStatus
  priority : Int
  originalPri : Int
  bTick : Nat
  holdingLocks : List LockId
  waitingLock : Option LockId
  /-- Back from `schedule`, the thread has to turn interrupts on. -/
  restore : Bool
  pc : Pc
  ops : List Op
  /-- The locks of which `lock_acquire` has returned and `lock_release` has not
  begun.  No function reads it. -/
  inside : List LockId

/-- `init_thread` -/
def initThread (priority : Int) : Thread where
  tid := 0
  status := .blocked
  priority := priority
  originalPri := priority
  bTick := 0
  holdingLocks := []
  waitingLock := none
  restore := true
  pc := .next
  ops := []
  inside := []

/-- A semaphore, with its first value and the number of times it went up and
down, which no function reads. -/
structure Semaphore where
  value : Nat
  waiters : List ThreadId
  initial : Nat
  ups : Nat
  downs : Nat

/-- `sema_init` -/
def semaInit (value : Nat) : Semaphore where
  value := value % 2 ^ 32
  waiters := []
  initial := value % 2 ^ 32
  ups := 0
  downs := 0

/-- A lock; its semaphore stands among the others. -/
structure Lock where
  holder : Option ThreadId
  maxPri : Int

structure Kernel where
  threads : ThreadId → Thread
  /-- How many threads there are. -/
  count : Nat
  nextTid : Nat
  readyList : List ThreadId
  current : ThreadId
  intrOn : Bool
  threadTicks : Nat
  sema : SemaId → Semaphore
  lock : LockId → Lock
  /-- The waiters of a condition, each by its thread. -/
  cond : CondId → List ThreadId

namespace Kernel

def modify (k : Kernel) (t : ThreadId) (f : Thread → Thread) : Kernel :=
  { k with threads := Function.update k.threads t (f (k.threads t)) }

def setSema (k : Kernel) (s : SemaId) (f : Semaphore → Semaphore) : Kernel :=
  { k with sema := Function.update k.sema s (f (k.sema s)) }

def setLock (k : Kernel) (l : LockId) (f : Lock → Lock) : Kernel :=
  { k with lock := Function.update k.lock l (f (k.lock l)) }

def setCond (k : Kernel) (c : CondId) (waiters : List ThreadId) : Kernel :=
  { k with cond := Function.update k.cond c waiters }

section Update

variable {k : Kernel}

@[simp] theorem modify_self (t : ThreadId) (f : Thread → Thread) :
    (k.modify t f).threads t = f (k.threads t) := Function.update_self _ _ _

theorem modify_of_ne {t u : ThreadId} (h : u ≠ t) (f : Thread → Thread) :
    (k.modify t f).threads u = k.threads u := Function.update_of_ne h _ _

theorem modify_modify (t : ThreadId) (f g : Thread → Thread) :
    (k.modify t f).modify t g = k.modify t fun thread => g (f thread) := by
  simp only [modify, Function.update_self, Function.update_idem]

theorem modify_eq_self {t : ThreadId} {f : Thread → Thread}
    (h : f (k.threads t) = k.threads t) : k.modify t f = k := by
  rw [modify, h, Function.update_eq_self]

@[simp] theorem setSema_self (s : SemaId) (f : Semaphore → Semaphore) :
    (k.setSema s f).sema s = f (k.sema s) := Function.update_self _ _ _

theorem setSema_of_ne {s s' : SemaId} (h : s' ≠ s) (f : Semaphore → Semaphore) :
    (k.setSema s f).sema s' = k.sema s' := Function.update_of_ne h _ _

@[simp] theorem setLock_self (l : LockId) (f : Lock → Lock) :
    (k.setLock l f).lock l = f (k.lock l) := Function.update_self _ _ _

theorem setLock_of_ne {l m : LockId} (h : m ≠ l) (f : Lock → Lock) :
    (k.setLock l f).lock m = k.lock m := Function.update_of_ne h _ _

end Update

/-- `thread_current ()` -/
def cur (k : Kernel) : Thread := k.threads k.current

def goto (k : Kernel) (pc : Pc) : Kernel :=
  k.modify k.current fun t => { t with pc := pc }

def setOps (k : Kernel) (ops : List Op) : Kernel :=
  k.modify k.current fun t => { t with ops := ops }

def intrEnable (k : Kernel) : Kernel := { k with intrOn := true }

def intrDisable (k : Kernel) : Kernel := { k with intrOn := false }

/-- Interrupts are to be turned on when the thread comes back. -/
def setRestore (k : Kernel) (restore : Bool) : Kernel :=
  k.modify k.current fun t => { t with restore := restore }

def setStatus (k : Kernel) (t : ThreadId) (status : ThreadStatus) : Kernel :=
  k.modify t fun t => { t with status := status }

@[simp] theorem setStatus_sema (k : Kernel) (t : ThreadId) (status : ThreadStatus) :
    (k.setStatus t status).sema = k.sema := rfl

def setPriority (k : Kernel) (t : ThreadId) (priority : Int) : Kernel :=
  k.modify t fun t => { t with priority := priority }

def priority (k : Kernel) (t : ThreadId) : Int := (k.threads t).priority

/-- `thread_cmp_pri` -/
def threadCmpPri (k : Kernel) : ThreadId → ThreadId → Bool := byKey k.priority

/-- `lock_cmp_pri` -/
def lockCmpPri (k : Kernel) : LockId → LockId → Bool :=
  byKey fun l => (k.lock l).maxPri

/-! thread.c -/

/-- `list_insert_ordered (&ready_list, &t->elem, thread_cmp_pri)` -/
def insertReady (k : Kernel) (t : ThreadId) : Kernel :=
  { k with
    readyList := k.readyList.orderedInsert (fun t u => k.threadCmpPri t u) t }

def nextThreadToRun (k : Kernel) : ThreadId × List ThreadId :=
  match k.readyList with
  | [] => (idleThread, [])
  | t :: rest => (t, rest)

/-- `schedule`, with `thread_schedule_tail` in the thread switched to. -/
def schedule (k : Kernel) : Kernel :=
  let next := k.nextThreadToRun
  { k with
    readyList := next.2
    current := next.1
    threadTicks := 0 }.setStatus next.1 .running

def threadBlock (k : Kernel) : Kernel := (k.setStatus k.current .blocked).schedule

def threadUnblock (k : Kernel) (t : ThreadId) : Option Kernel :=
  if (k.threads t).status = .blocked then
    some ((k.insertReady t).setStatus t .ready)
  else none

def threadYield (k : Kernel) : Kernel :=
  let k := k.intrDisable
  let k := if k.current ≠ idleThread then k.insertReady k.current else k
  (k.setStatus k.current .ready).schedule

def threadSetPriority (k : Kernel) (newPriority : Int) : Kernel :=
  let oriPri := k.cur.originalPri
  let k := k.modify k.current fun t => { t with originalPri := newPriority }
  if oriPri = k.cur.priority ∨ k.cur.holdingLocks = [] ∨
      newPriority > k.cur.priority then
    ((k.setPriority k.current newPriority).setRestore true).threadYield
  else k

def threadUpdatePri (k : Kernel) (t : ThreadId) : Option Kernel := do
  let maxPri := (k.threads t).originalPri
  match (k.threads t).holdingLocks with
  | [] => some (k.setPriority t maxPri)
  | _ => do
      let sorted ← listSort k.lockCmpPri (k.threads t).holdingLocks
      match sorted with
      | [] => none
      | l :: _ =>
          let k := k.modify t fun t => { t with holdingLocks := sorted }
          some (k.setPriority t (max maxPri (k.lock l).maxPri))

def threadDonatePri (k : Kernel) (t : ThreadId) : Option Kernel := do
  let k ← k.threadUpdatePri t
  if (k.threads t).status = .ready then
    some ({ k with readyList := k.readyList.erase t }.insertReady t)
  else some k

/-- `thread_get_lock`, up to its test whether to yield. -/
def threadGetLock (k : Kernel) (l : LockId) : Kernel :=
  k.modify k.current fun t =>
    { t with holdingLocks :=
        t.holdingLocks.orderedInsert (fun l m => k.lockCmpPri l m) l }

def threadRemoveLock (k : Kernel) (l : LockId) : Option Kernel :=
  if l ∈ k.cur.holdingLocks then
    (k.modify k.current fun t =>
      { t with holdingLocks := t.holdingLocks.erase l }).threadUpdatePri k.current
  else none

/-- `thread_b_check` -/
def threadBCheck (k : Kernel) (t : ThreadId) : Option Kernel :=
  if (k.threads t).status = .blocked ∧ (k.threads t).bTick > 0 then
    let k := k.modify t fun t => { t with bTick := t.bTick - 1 }
    if (k.threads t).bTick = 0 then k.threadUnblock t else some k
  else some k

def threadForeach (k : Kernel) : List ThreadId → Option Kernel
  | [] => some k
  | t :: rest => do
      let k ← k.threadBCheck t
      k.threadForeach rest

/-- `timer_interrupt`, with `all_list` in some order. -/
def timerInterrupt (k : Kernel) (allList : List ThreadId) : Option Kernel := do
  let k ← { k with threadTicks := k.threadTicks + 1 }.threadForeach allList
  if k.threadTicks ≥ timeSlice then some (k.setRestore true).threadYield
  else some k

/-! synch.c -/

/-- Where a thread goes on behind `sema_down`. -/
def afterDown : SemaId → Pc
  | .lock l => .take l
  | _ => .next

/-- The test of the loop in `sema_down`, and what follows it. -/
def semaDown (k : Kernel) (s : SemaId) : Kernel :=
  let k := k.intrDisable
  if (k.sema s).value = 0 then
    let k := k.setSema s fun sema =>
      { sema with waiters :=
          sema.waiters.orderedInsert (fun t u => k.threadCmpPri t u) k.current }
    (k.goto (.down s)).threadBlock
  else
    let k := k.setSema s fun sema =>
      { sema with value := sema.value - 1, downs := sema.downs + 1 }
    (k.goto (afterDown s)).intrEnable

def semaTryDown (k : Kernel) (s : SemaId) : Kernel :=
  if (k.sema s).value > 0 then
    k.setSema s fun sema =>
      { sema with value := sema.value - 1, downs := sema.downs + 1 }
  else k

/-- The waiter that `sema_up` wakes. -/
def semaWake (k : Kernel) (s : SemaId) : Option Kernel :=
  match (k.sema s).waiters with
  | [] => some k
  | _ => do
      let sorted ← listSort k.threadCmpPri (k.sema s).waiters
      match sorted with
      | [] => none
      | t :: rest =>
          (k.setSema s fun sema => { sema with waiters := rest }).threadUnblock t

def semaUp (k : Kernel) (s : SemaId) : Option Kernel := do
  let k ← k.intrDisable.semaWake s
  let k := k.setSema s fun sema =>
    { sema with value := (sema.value + 1) % 2 ^ 32, ups := sema.ups + 1 }
  some (k.setRestore true).threadYield

/-- `lock->holder = cur`, the end of `lock_acquire`. -/
def setHolder (k : Kernel) (l : LockId) : Kernel :=
  let k := k.setLock l fun lock => { lock with holder := some k.current }
  let k := k.modify k.current fun t => { t with inside := l :: t.inside }
  (k.goto .next).intrEnable

/-- `lock_acquire` after `sema_down`, up to the test in `thread_get_lock`. -/
def lockTaken (k : Kernel) (l : LockId) : Kernel :=
  let k := k.intrDisable.modify k.current fun t => { t with waitingLock := none }
  let k := k.setLock l fun lock => { lock with maxPri := k.cur.priority }
  k.threadGetLock l

/-- What `lock_acquire` does after `sema_down`. -/
def lockTake (k : Kernel) (l : LockId) : Kernel :=
  let k := k.lockTaken l
  if (k.lock l).maxPri > k.cur.priority then
    ((k.setPriority k.current (k.lock l).maxPri).goto (.setHolder l)).threadYield
  else k.setHolder l

/-- `cond_sema_cmp_pri` -/
def condSemaCmpPri (k : Kernel) (x y : ThreadId) : Option Bool :=
  match (k.sema (.waiter x)).waiters, (k.sema (.waiter y)).waiters with
  | t :: _, u :: _ => some (k.threadCmpPri t u)
  | _, _ => none

/-- The start of a call. -/
def begin (k : Kernel) (rest : List Op) : Op → Option Kernel
  | .threadYield => some (k.setRestore true).threadYield
  | .threadBlock => some (k.intrDisable.goto .parked).threadBlock
  | .threadUnblock t =>
      match (k.threads t).pc with
      | .parked => k.threadUnblock t
      | _ => none
  | .threadCreate priority =>
      if priMin ≤ priority ∧ priority ≤ priMax then
        let t := k.count
        let k := { k with
          threads := Function.update k.threads t (initThread priority)
          count := k.count + 1 }
        some (k.setOps (.lockAcquire tidLock :: .allocateTid t ::
          .lockRelease tidLock :: .startThread t :: .yieldTo priority :: rest))
      else none
  | .allocateTid t =>
      some ({ k with nextTid := k.nextTid + 1 }.modify t fun thread =>
        { thread with tid := k.nextTid })
  | .startThread t => k.threadUnblock t
  | .yieldTo priority =>
      if k.cur.priority < priority then some (k.setRestore true).threadYield
      else some k
  | .threadSetPriority priority => some (k.threadSetPriority priority)
  | .timerSleep ticks =>
      if ticks ≤ 0 then some k
      else
        let k := k.intrDisable.modify k.current fun t =>
          { t with bTick := ticks.toNat }
        some (k.goto .asleep).threadBlock
  | .semaDown n => some (k.semaDown (.sema n))
  | .semaTryDown n => some (k.semaTryDown (.sema n))
  | .semaUp n => k.semaUp (.sema n)
  | .lockAcquire l =>
      if (k.lock l).holder = some k.current then none
      else if (k.lock l).holder ≠ none then some (k.goto (.setWaiting l))
      else some (k.goto (.acquireDown l))
  | .lockRelease l =>
      if (k.lock l).holder = some k.current then
        let k := k.setLock l fun lock => { lock with holder := none }
        let k := k.modify k.current fun t =>
          { t with inside := t.inside.filter fun m => m ≠ l }
        some (k.goto (.removeLock l))
      else none
  | .condWait c l =>
      if (k.lock l).holder = some k.current then
        let k := k.setSema (.waiter k.current) fun _ => semaInit 0
        let k := k.setCond c (k.cond c ++ [k.current])
        some (k.setOps (.lockRelease l :: .waiterDown :: .lockAcquire l :: rest))
      else none
  | .waiterDown => some (k.semaDown (.waiter k.current))
  | .condSignal c l =>
      if (k.lock l).holder = some k.current then
        match k.cond c with
        | [] => some k
        | waiters =>
            some (k.goto (.condSort c (sortPass waiters.length waiters)))
      else none
  | .condBroadcast c l =>
      match k.cond c with
      | [] => some k
      | _ => some (k.setOps (.condSignal c l :: .condBroadcast c l :: rest))

/-- What a thread does next where it is. -/
def advance (k : Kernel) : Pc → Option Kernel
  | .next =>
      match k.cur.ops with
      | [] => none
      | op :: rest => (k.setOps rest).begin rest op
  | .setWaiting l =>
      some ((k.modify k.current fun t => { t with waitingLock := some l }).goto
        (.donateTest l (some l)))
  | .donateTest l none => some (k.goto (.acquireDown l))
  | .donateTest l (some lk) =>
      if k.cur.priority > (k.lock lk).maxPri then some (k.goto (.donateMax l lk))
      else some (k.goto (.acquireDown l))
  | .donateMax l lk =>
      some ((k.setLock lk fun lock => { lock with maxPri := k.cur.priority }).goto
        (.donatePri l lk))
  | .donatePri l lk => do
      let holder ← (k.lock lk).holder
      let k ← k.threadDonatePri holder
      some (k.goto (.donateNext l lk))
  | .donateNext l lk => do
      let holder ← (k.lock lk).holder
      some (k.goto (.donateTest l (k.threads holder).waitingLock))
  | .acquireDown l => some (k.semaDown (.lock l))
  | .down s => some (k.semaDown s)
  | .take l => some (k.lockTake l)
  | .setHolder l => some (k.setHolder l)
  | .removeLock l => do
      let k ← k.threadRemoveLock l
      some (k.goto (.releaseUp l))
  | .releaseUp l => (k.goto .next).semaUp (.lock l)
  | .condSort c (.done (waiters, runs)) =>
      let k := k.setCond c waiters
      if runs > 1 then
        some (k.goto (.condSort c (sortPass waiters.length waiters)))
      else some (k.goto (.condSorted c (isSorted waiters)))
  | .condSort _ .failed => none
  | .condSort c (.compare x y next) => do
      let less ← k.condSemaCmpPri x y
      some (k.goto (.condSort c (next less)))
  | .condSorted c (.done sorted) =>
      if sorted then some (k.goto (.condPop c)) else none
  | .condSorted _ .failed => none
  | .condSorted c (.compare x y next) => do
      let less ← k.condSemaCmpPri x y
      some (k.goto (.condSorted c (next less)))
  | .condPop c =>
      match k.cond c with
      | [] => none
      | t :: rest => some ((k.setCond c rest).goto (.condUp t))
  | .condUp t => (k.goto .next).semaUp (.waiter t)
  | .asleep | .parked => some (k.goto .next).intrEnable
  | .idleBlock => some (k.intrDisable.goto .idleWake).threadBlock
  | .idleWake => some (k.goto .idleBlock).intrEnable

end Kernel

/-- A timer interrupt, a call by the running thread, or its next step. -/
inductive KernelAct where
  | tick (allList : List ThreadId)
  | call (op : Op)
  | run

namespace Kernel

/-- Nothing is left of what the running thread has called. -/
def isOutside (k : Kernel) : Bool :=
  match k.cur.pc, k.cur.ops with
  | .next, [] => !k.cur.restore
  | _, _ => false

/-- A step of the kernel; there is none where the kernel stops, by a failed
assertion or a null pointer. -/
def step (k : Kernel) : KernelAct → Option Kernel
  | .tick allList =>
      if k.intrOn ∧ allList.Perm (List.range k.count) then k.timerInterrupt allList
      else none
  | .call op =>
      if k.isOutside ∧ op.isCall then some (k.setOps [op]) else none
  | .run =>
      if k.cur.restore then some (k.setRestore false).intrEnable
      else k.advance k.cur.pc

/-- The kernel after `thread_start`: the idle thread has yet to come back from
its `sema_up`. -/
def boot (values : Nat → Nat) : Kernel where
  threads := Function.update
    (Function.update (fun _ => initThread priMin) initialThread
      { initThread priDefault with tid := 1, status := .running, restore := false })
    idleThread { initThread priMin with tid := 2, status := .ready, pc := .idleBlock }
  count := 2
  nextTid := 3
  readyList := []
  current := initialThread
  intrOn := true
  threadTicks := 0
  sema := fun
    | .sema n => semaInit (values n)
    | .lock _ => semaInit 1
    | .waiter _ => semaInit 0
  lock := fun _ => ⟨none, 0⟩
  cond := fun _ => []

end Kernel

end PintosLabs
