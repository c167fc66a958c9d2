/-
The threads of pintos-GDB and its external interrupts: semaphores, the queues
of bytes that threads share with the interrupt handlers, the ATA channels, and
`intr_handler`, inside of which no thread may be switched.
-/
import PintosLabs.Mlfqs

namespace PintosLabs

namespace Interrupts

/-- A semaphore of a thread, or `completion_wait` of an ATA channel. -/
inductive SemaId where
  | sema (n : Nat)
  | completionWait (c : Fin 2)
deriving DecidableEq

structure Semaphore where
  value : Nat
  waiters : List Nat

/-- The queues of bytes: `buffer` in input.c and `txq` in serial.c. -/
inductive Queue where
  | buffer
  | txq
deriving DecidableEq

/-- The member of a queue in which a waiting thread is. -/
inductive Waiter where
  | notFull
  | notEmpty
deriving DecidableEq

/-- `struct intq`; the lock is a semaphore among the others, and the bytes are
left out. -/
structure Intq where
  waiter : Waiter → Option Nat
  head : Nat
  tail : Nat

def intqBufsize : Nat := 64

/-- `next` in intq.c -/
def nextPos (pos : Nat) : Nat := (pos + 1) % intqBufsize

def Intq.empty (q : Intq) : Bool := decide (q.head = q.tail)

def Intq.full (q : Intq) : Bool := decide (nextPos q.head = q.tail)

/-- Whether the condition holds that the waiter is for. -/
def Intq.holds (q : Intq) : Waiter → Bool
  | .notFull => !q.full
  | .notEmpty => !q.empty

/-- Where a thread is in the function it is in. -/
inductive Pc where
  /-- After `init_thread`, before `thread_create` has unblocked it. -/
  | new
  /-- Between two calls. -/
  | next
  /-- Behind `thread_block` in `sema_down`, in `wait`, in `timer_sleep`. -/
  | down (id : SemaId)
  | wait (q : Queue) (w : Waiter)
  | asleep
  /-- In `idle`, before its `sema_up` and in its loop. -/
  | idleUp (id : SemaId)
  | idle
deriving DecidableEq

structure System where
  kernel : Mlfqs.Kernel
  threadMlfqs : Bool
  pc : Nat → Pc
  sema : SemaId → Semaphore
  queue : Queue → Intq
  expectingInterrupt : Fin 2 → Bool
  /-- Whether the serial port is in the mode `QUEUE`. -/
  queued : Bool
  inExternalIntr : Bool
  yieldOnReturn : Bool

namespace System

variable (s : System)

def setPc (t : Nat) (pc : Pc) : System :=
  { s with pc := Function.update s.pc t pc }

def setSema (id : SemaId) (f : Semaphore → Semaphore) : System :=
  { s with sema := Function.update s.sema id (f (s.sema id)) }

def setQueue (q : Queue) (f : Intq → Intq) : System :=
  { s with queue := Function.update s.queue q (f (s.queue q)) }

def setWaiter (q : Queue) (w : Waiter) (t : Option Nat) : System :=
  s.setQueue q fun intq => { intq with waiter := Function.update intq.waiter w t }

def setKernel (k : Mlfqs.Kernel) : System := { s with kernel := k }

/-! thread.c; a failed assertion is `none`. -/

def threadUnblock (t : Nat) : Option System :=
  (s.kernel.threadUnblock t).map s.setKernel

/-- `thread_block`, which asserts that it is not in an interrupt. -/
def threadBlock : Option System :=
  if s.inExternalIntr then none else some (s.setKernel s.kernel.threadBlock)

/-- `thread_yield`, which asserts that it is not in an interrupt. -/
def threadYield : Option System :=
  if s.inExternalIntr then none else some (s.setKernel s.kernel.threadYield)

/-- `thread_exit` -/
def threadExit : Option System :=
  if s.inExternalIntr then none
  else some (s.setKernel { s.kernel with
    allList := s.kernel.allList.filter fun t => t.tid ≠ s.kernel.current
    switching := true })

/-- `thread_set_priority`; `beyond` is what it reads behind an empty ready
list. -/
def threadSetPriority (newPriority beyond : Int) : Option System :=
  if s.threadMlfqs then some s
  else
    let k := s.kernel.modify s.kernel.current fun t =>
      { t with effectivePriority := newPriority }
    let first := (k.readyList.head?.map k.effectivePriority).getD beyond
    if newPriority < first then (s.setKernel k).threadYield
    else some (s.setKernel k)

/-- `thread_set_nice`; `update_priority` asserts `thread_mlfqs`. -/
def threadSetNice (nice : Int) : Option System :=
  if s.threadMlfqs then
    let k := s.kernel.modify s.kernel.current fun t => { t with nice := nice }
    (s.setKernel (k.updatePriority k.current)).threadYield
  else none

/-! synch.c -/

/-- The test of the loop in `sema_down`, and what follows it. -/
def semaDown (id : SemaId) : Option System :=
  if s.inExternalIntr then none
  else if (s.sema id).value = 0 then
    let waiters := (s.sema id).waiters.orderedInsert
      (fun t u => byKey s.kernel.effectivePriority t u) s.kernel.current
    ((s.setSema id fun sema => { sema with waiters := waiters }).setPc
      s.kernel.current (.down id)).threadBlock
  else
    some ((s.setSema id fun sema => { sema with value := sema.value - 1 }).setPc
      s.kernel.current .next)

def semaTryDown (id : SemaId) : System :=
  if (s.sema id).value > 0 then
    s.setSema id fun sema => { sema with value := sema.value - 1 }
  else s

/-- The waiter that `sema_up` unblocks. -/
def semaWake (id : SemaId) : Option System :=
  match (s.sema id).waiters with
  | [] => some s
  | _ => do
      let sorted ← listSort (byKey s.kernel.effectivePriority) (s.sema id).waiters
      match sorted with
      | [] => none
      | t :: rest =>
          (s.setSema id fun sema => { sema with waiters := rest }).threadUnblock t

def semaUp (id : SemaId) : Option System := do
  let s ← s.semaWake id
  (s.setSema id fun sema => { sema with value := (sema.value + 1) % 2 ^ 32 }).threadYield

/-! intq.c -/

/-- `wait` -/
def wait (q : Queue) (w : Waiter) : Option System :=
  if s.inExternalIntr ∨ (s.queue q).holds w then none
  else
    ((s.setWaiter q w (some s.kernel.current)).setPc s.kernel.current
      (.wait q w)).threadBlock

/-- `signal` -/
def signal (q : Queue) (w : Waiter) : Option System :=
  if (s.queue q).holds w then
    match (s.queue q).waiter w with
    | none => some s
    | some t => do
        let s ← s.threadUnblock t
        some (s.setWaiter q w none)
  else none

/-- `intq_getc` behind its loop, in which it may not be in an interrupt. -/
def intqGetc (q : Queue) : Option System :=
  if (s.queue q).empty then none
  else
    (s.setQueue q fun intq => { intq with tail := nextPos intq.tail }).signal q
      .notFull

/-- `intq_putc` behind its loop. -/
def intqPutc (q : Queue) : Option System :=
  if (s.queue q).full then none
  else
    (s.setQueue q fun intq => { intq with head := nextPos intq.head }).signal q
      .notEmpty

/-- `serial_putc` with interrupts off. -/
def serialPutc : Option System :=
  if s.queued then do
    let s ← if (s.queue .txq).full then s.intqGetc .txq else some s
    s.intqPutc .txq
  else some s

/-- `printf` in an interrupt, of so many characters. -/
def printf (s : System) : Nat → Option System
  | 0 => some s
  | n + 1 => do
      let s ← s.serialPutc
      s.printf n

/-! The interrupt handlers. -/

/-- `timer_interrupt`, with `thread_tick`. -/
def timerInterrupt : Option System := do
  let k ←
    if s.threadMlfqs then do
      let k ← s.kernel.timerWakes
      let k ← k.eachSecond
      some (if k.ticks % 4 = 0 then k.updatePriority k.current else k)
    else
      (s.kernel.allList.map Mlfqs.Thread.tid).foldlM Mlfqs.Kernel.checkBlockThread
        { s.kernel with ticks := s.kernel.ticks + 1 }
  let k := { k with threadTicks := k.threadTicks + 1 }
  some { s with
    kernel := k
    yieldOnReturn := s.yieldOnReturn || decide (k.threadTicks ≥ Mlfqs.timeSlice) }

/-- The first loop of `serial_interrupt`; the hardware has so many bytes. -/
def receive (s : System) : Nat → Option System
  | 0 => some s
  | n + 1 =>
      if (s.queue .buffer).full then some s
      else do
        let s ← s.intqPutc .buffer
        s.receive n

/-- The second loop of `serial_interrupt`; the hardware takes so many bytes. -/
def transmit (s : System) : Nat → Option System
  | 0 => some s
  | n + 1 =>
      if (s.queue .txq).empty then some s
      else do
        let s ← s.intqGetc .txq
        s.transmit n

def channelName (c : Fin 2) : String := if c = 0 then "ide0" else "ide1"

/-- `interrupt_handler` in ide.c -/
def interruptHandler (c : Fin 2) : Option System :=
  if s.expectingInterrupt c then s.semaUp (.completionWait c)
  else s.printf (channelName c ++ ": unexpected interrupt\n").length

end System

/-- An external interrupt, with what its handler finds in the hardware. -/
inductive Interrupt where
  | timer
  /-- Whether an ordinary key has been pressed. -/
  | keyboard (key : Bool)
  | serial (received transmitted : Nat)
  | ide (c : Fin 2)
  /-- Without a handler: how much `unexpected_interrupt` prints. -/
  | unexpected (printed : Nat)

/-- A call by the running thread.  `thread_create` is `initThread`,
`inheritNice`, `startThread` and perhaps `yield`, and takes a lock in between;
`intq_getc` is `wait` in a loop, with a lock around it, and then `getc`. -/
inductive Call where
  | yield
  | exit
  | setPriority (newPriority beyond : Int)
  | setNice (nice : Int)
  | timerSleep (ticks : Int)
  | semaDown (id : SemaId)
  | semaTryDown (id : SemaId)
  | semaUp (id : SemaId)
  | initThread (t : Nat) (priority : Int)
  | inheritNice (t : Nat)
  | startThread (t : Nat)
  | wait (q : Queue) (w : Waiter)
  | getc (q : Queue)
  | putc (q : Queue)
  | serialInitQueue
  | issuePioCommand (c : Fin 2)
  /-- The start of `idle`. -/
  | idle (started : SemaId)
  /-- The end of `thread_start`. -/
  | started

namespace System

variable (s : System)

def handler : Interrupt → Option System
  | .timer => s.timerInterrupt
  | .keyboard key =>
      if key ∧ !(s.queue .buffer).full then s.intqPutc .buffer else some s
  | .serial received transmitted => do
      let s ← s.receive received
      s.transmit transmitted
  | .ide c => s.interruptHandler c
  | .unexpected printed => s.printf printed

/-- What `intr_handler` does before it calls the handler of an external
interrupt. -/
def enter : System := { s with inExternalIntr := true, yieldOnReturn := false }

/-- `intr_handler`; the interrupt is acknowledged when the handler returns. -/
def intrHandler (i : Interrupt) : Option System := do
  let s ← s.enter.handler i
  let s := { s with inExternalIntr := false }
  if s.yieldOnReturn then s.threadYield else some s

def timerSleep (ticks : Int) : Option System :=
  if ticks ≤ 0 then some s
  else
    ((s.setKernel (s.kernel.modify s.kernel.current fun t =>
      { t with wakeUpTicks := Mlfqs.fixed ticks })).setPc s.kernel.current
        .asleep).threadBlock

def call : Call → Option System
  | .yield => s.threadYield
  | .exit => s.threadExit
  | .setPriority newPriority beyond => s.threadSetPriority newPriority beyond
  | .setNice nice => s.threadSetNice nice
  | .timerSleep ticks => s.timerSleep ticks
  | .semaDown id => s.semaDown id
  | .semaTryDown id => some (s.semaTryDown id)
  | .semaUp id => s.semaUp id
  | .initThread t priority =>
      if s.kernel.thread t = none ∧ Mlfqs.priMin ≤ priority ∧
          priority ≤ Mlfqs.priMax then
        some ((s.setKernel { s.kernel with
          allList := s.kernel.allList ++ [Mlfqs.initThread t priority] }).setPc t
            .new)
      else none
  | .inheritNice t =>
      (s.kernel.thread s.kernel.current).map fun u =>
        s.setKernel (s.kernel.modify t fun v => { v with nice := u.nice })
  | .startThread t =>
      if s.pc t = .new then (s.threadUnblock t).map fun s => s.setPc t .next
      else none
  | .wait q w => s.wait q w
  | .getc q => s.intqGetc q
  | .putc q => s.intqPutc q
  | .serialInitQueue => some { s with queued := true }
  | .issuePioCommand c =>
      some { s with
        expectingInterrupt := Function.update s.expectingInterrupt c true }
  | .idle started =>
      if s.kernel.idleThread = none then
        some ((s.setKernel { s.kernel with
          idleThread := some s.kernel.current }).setPc s.kernel.current
            (.idleUp started))
      else none
  | .started => some (s.setKernel { s.kernel with loadAverage := Mlfqs.fpConst 0 })

/-- The running thread goes on where it is. -/
def goOn : Pc → Option System
  | .down id => s.semaDown id
  | .wait _ _ | .asleep => some (s.setPc s.kernel.current .next)
  | .idleUp id => (s.setPc s.kernel.current .idle).semaUp id
  | .idle => s.threadBlock
  | .new | .next => none

end System

inductive Act where
  | interrupt (i : Interrupt)
  | call (c : Call)
  | goOn
  | schedule

/-- A step; there is none where an assertion fails. -/
def step (s : System) : Act → Option System
  | .schedule =>
      if s.kernel.switching then s.kernel.schedule.map s.setKernel else none
  | .interrupt i => if s.kernel.switching then none else s.intrHandler i
  | .call c =>
      if ¬ s.kernel.switching ∧ s.pc s.kernel.current = .next then s.call c
      else none
  | .goOn =>
      if s.kernel.switching then none else s.goOn (s.pc s.kernel.current)

/-- The main thread, alone. -/
def boot (threadMlfqs : Bool) (values : Nat → Nat) : System where
  kernel := Mlfqs.boot
  threadMlfqs := threadMlfqs
  pc := fun _ => .next
  sema := fun
    | .sema n => ⟨values n % 2 ^ 32, []⟩
    | .completionWait _ => ⟨0, []⟩
  queue := fun _ => ⟨fun _ => none, 0, 0⟩
  expectingInterrupt := fun _ => false
  queued := false
  inExternalIntr := false
  yieldOnReturn := false

end Interrupts

end PintosLabs
