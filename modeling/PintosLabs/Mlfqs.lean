/-
The multi-level feedback queue scheduler: the ready list is kept in the order
of the priorities, which are computed anew from `nice` and `recent_cpu` while
the threads are on it.
-/
import PintosLabs.ListSort
import PintosLabs.Machine
import Mathlib.Data.List.Nodup

namespace PintosLabs

namespace Mlfqs

/-! Fixed-point numbers: an `int` with 16 bits behind the point. -/

def fixed (x : Int) : Int := Int.bmod x (2 ^ 32)

def fpConst (a : Int) : Int := fixed (a * 2 ^ 16)
def fpAdd (a b : Int) : Int := fixed (a + b)
def fpAddMix (a b : Int) : Int := fpAdd a (fpConst b)
def fpSub (a b : Int) : Int := fixed (a - b)
def fpSubMix (a b : Int) : Int := fpSub a (fpConst b)
def fpMultMix (a b : Int) : Int := fixed (a * b)
def fpDivMix (a b : Int) : Int := fixed (a.tdiv b)
def fpMult (a b : Int) : Int := fixed (a * b / 2 ^ 16)
def fpDiv (a b : Int) : Int := fixed ((a * 2 ^ 16).tdiv b)
def fpIntPart (a : Int) : Int := a / 2 ^ 16

def priMin : Int := 0
def priDefault : Int := 31
def priMax : Int := 63
def timerFreq : Int := 100
def timeSlice : Nat := 4

inductive ThreadStatus
  | running
  | ready
  | blocked
deriving Repr, DecidableEq

structure Thread where
  tid : Nat
  status : ThreadStatus
  effectivePriority : Int
  wakeUpTicks : Int
  nice : Int
  recentCpu : Int
deriving Repr, DecidableEq

/-- The scheduler.  It is `switching` between the moment at which the running
thread gives up the processor and the return of `schedule`; interrupts are off
then. -/
structure Kernel where
  allList : List Thread
  readyList : List Nat
  current : Nat
  idleThread : Option Nat
  loadAverage : Int
  ticks : Int
  threadTicks : Nat
  switching : Bool
deriving Repr, DecidableEq

/-- `init_thread`. -/
def initThread (tid : Nat) (priority : Int) : Thread where
  tid := tid
  status := .blocked
  effectivePriority := priority
  wakeUpTicks := 0
  nice := 0
  recentCpu := fpConst 0

/-- The main thread, alone. -/
def boot : Kernel where
  allList := [{ initThread 0 priDefault with status := .running }]
  readyList := []
  current := 0
  idleThread := none
  loadAverage := 0
  ticks := 0
  threadTicks := 0
  switching := false

namespace Kernel

variable (k : Kernel)

def thread (t : Nat) : Option Thread := k.allList.find? (·.tid = t)

def modify (t : Nat) (f : Thread → Thread) : Kernel :=
  { k with allList := k.allList.map fun u => if u.tid = t then f u else u }

def effectivePriority (t : Nat) : Int :=
  ((k.thread t).map Thread.effectivePriority).getD 0

/-- `list_insert_ordered (&ready_list, &t->elem, compare_priority, NULL)` -/
def insertReady (t : Nat) : Kernel :=
  { k with
    readyList := k.readyList.orderedInsert
      (fun a b => byKey k.effectivePriority a b) t }

def threadUnblock (t : Nat) : Option Kernel :=
  match k.thread t with
  | some thread =>
      if thread.status = .blocked then
        some ((k.modify t fun u => { u with status := .ready }).insertReady t)
      else none
  | none => none

def checkBlockThread (t : Nat) : Option Kernel :=
  match k.thread t with
  | some thread =>
      if thread.status = .blocked ∧ thread.wakeUpTicks > 0 then
        let k := k.modify t fun u => { u with wakeUpTicks := u.wakeUpTicks - 1 }
        if thread.wakeUpTicks - 1 = 0 then k.threadUnblock t else some k
      else some k
  | none => some k

def updateRecentCpuByOne : Kernel :=
  if k.idleThread = some k.current then k
  else k.modify k.current fun u =>
    { u with recentCpu := fpAddMix u.recentCpu 1 }

def updateLoadAverage : Kernel :=
  let readyListSize : Int := k.readyList.length +
    if k.idleThread = some k.current then 0 else 1
  { k with
    loadAverage := fpDivMix
      (fpAdd (fpMultMix k.loadAverage 59) (fpConst readyListSize)) 60 }

/-- All threads but the idle one. -/
def modifyAll (f : Thread → Thread) : Kernel :=
  { k with
    allList := k.allList.map fun u =>
      if k.idleThread = some u.tid then u else f u }

/-- `update_recent_cpu_all`, which sorts the ready list. -/
def updateRecentCpuAll : Option Kernel := do
  let load := fpMultMix k.loadAverage 2
  let k := k.modifyAll fun u =>
    { u with
      recentCpu := fpAddMix
        (fpMult (fpDiv load (fpAddMix load 1)) u.recentCpu) u.nice }
  let sorted ← listSort (byKey k.effectivePriority) k.readyList
  pure { k with readyList := sorted }

/-- The priority that `update_priority` computes. -/
def calculatePriority (u : Thread) : Int :=
  let priority := fpIntPart (fpSubMix
    (fpSub (fpConst priMax) (fpDivMix u.recentCpu 4)) (2 * u.nice))
  let priority := if priority < priMin then priMin else priority
  if priority > priMax then priMax else priority

def updatePriorityAll : Kernel :=
  k.modifyAll fun u => { u with effectivePriority := calculatePriority u }

def updatePriority (t : Nat) : Kernel :=
  if k.idleThread = some t then k
  else k.modify t fun u => { u with effectivePriority := calculatePriority u }

/-- `thread_yield`, up to `schedule`. -/
def threadYield : Kernel :=
  let k' := if k.idleThread = some k.current then k
    else k.insertReady k.current
  { k'.modify k.current (fun u => { u with status := .ready }) with
    switching := true }

/-- `thread_block`, up to `schedule`. -/
def threadBlock : Kernel :=
  { k.modify k.current (fun u => { u with status := .blocked }) with
    switching := true }

def nextThreadToRun : Option (Nat × Kernel) :=
  match k.readyList with
  | [] => k.idleThread.map fun t => (t, k)
  | t :: rest => some (t, { k with readyList := rest })

/-- `schedule`, with the tail of the switch.  It asserts that the next thread
is one. -/
def schedule : Option Kernel :=
  k.nextThreadToRun.bind fun (next, k) =>
    if (k.thread next).isSome then
      some { k.modify next (fun u => { u with status := .running }) with
        current := next
        threadTicks := 0
        switching := false }
    else none

/-- `timer_interrupt`, up to the part of each second. -/
def timerWakes : Option Kernel :=
  let k := { k with ticks := k.ticks + 1 }
  ((k.allList.map Thread.tid).foldlM checkBlockThread k).map
    updateRecentCpuByOne

/-- The part of each second, up to the computation of the priorities. -/
def timerSecond : Option Kernel := k.updateLoadAverage.updateRecentCpuAll

/-- `thread_tick`, with the yield at the return from the interrupt. -/
def threadTick : Kernel :=
  let k := { k with threadTicks := k.threadTicks + 1 }
  if k.threadTicks ≥ timeSlice then k.threadYield else k

def eachSecond : Option Kernel :=
  if k.ticks % timerFreq = 0 then k.timerSecond.map updatePriorityAll
  else some k

def timerInterrupt : Option Kernel := do
  let k ← k.timerWakes
  let k ← k.eachSecond
  let k := if k.ticks % 4 = 0 then k.updatePriority k.current else k
  pure k.threadTick

end Kernel

/-- What happens.  `thread_create` is `initThread`, `inheritNice`, `unblock`
and perhaps `yield`; `thread_set_nice` is `assignNice`, `updatePriority` and
`yield`; interrupts can come between these. -/
inductive Action
  | timerInterrupt
  | initThread (t : Nat) (priority : Int)
  | inheritNice (t : Nat)
  | unblock (t : Nat)
  | yield
  | assignNice (nice : Int)
  | updatePriority
  | block
  | sleep (ticks : Int)
  /-- `idle_thread = thread_current ();`, which `idle` does once. -/
  | idle
  /-- The end of `thread_start`. -/
  | started
  | schedule
deriving Repr, DecidableEq

def step (k : Kernel) (a : Action) : Option Kernel :=
  if k.switching then
    match a with
    | .schedule => k.schedule
    | _ => none
  else
    match a with
    | .timerInterrupt => k.timerInterrupt
    | .initThread t priority =>
        if k.thread t = none ∧ priMin ≤ priority ∧ priority ≤ priMax then
          some { k with allList := k.allList ++ [Mlfqs.initThread t priority] }
        else none
    | .inheritNice t =>
        (k.thread k.current).map fun u =>
          k.modify t fun v => { v with nice := u.nice }
    | .unblock t => if k.idleThread = some t then none else k.threadUnblock t
    | .yield => some k.threadYield
    | .assignNice nice =>
        some (k.modify k.current fun u => { u with nice := nice })
    | .updatePriority => some (k.updatePriority k.current)
    | .block => some k.threadBlock
    | .sleep ticks =>
        if 0 < ticks then
          some (k.modify k.current fun u =>
            { u with wakeUpTicks := fixed ticks }).threadBlock
        else none
    | .idle =>
        if k.idleThread = none then some { k with idleThread := some k.current }
        else none
    | .started => some { k with loadAverage := fpConst 0 }
    | .schedule => none

/-! The ready list. -/

section Queue

variable {k k' : Kernel} {t u : Nat} {f : Thread → Thread} {x y : Thread}

theorem find_map {g : Thread → Thread} (hg : ∀ x, (g x).tid = x.tid)
    (threads : List Thread) : (threads.map g).find? (·.tid = t) =
      (threads.find? (·.tid = t)).map g := by
  induction threads with
  | nil => rfl
  | cons x rest ih =>
      rw [List.map_cons, List.find?_cons, List.find?_cons, hg]
      by_cases h : x.tid = t
      · simp [h]
      · simpa [h] using ih

theorem thread_tid (h : k.thread t = some x) : x.tid = t := by
  simpa using List.find?_some h

theorem thread_modify (hf : ∀ x, (f x).tid = x.tid) : (k.modify t f).thread u =
    if u = t then (k.thread u).map f else k.thread u := by
  unfold Kernel.thread Kernel.modify
  rw [find_map]
  · split_ifs with h
    · subst h
      refine Option.map_congr fun x hx => ?_
      rw [if_pos (by simpa using List.find?_some hx)]
    · refine (Option.map_congr fun x hx => ?_).trans Option.map_id'
      have htid : x.tid = u := by simpa using List.find?_some hx
      rw [if_neg (htid ▸ h)]
  · intro x
    split_ifs
    · exact hf x
    · rfl

theorem thread_modifyAll (hf : ∀ x, (f x).tid = x.tid) :
    (k.modifyAll f).thread u =
      if k.idleThread = some u then k.thread u else (k.thread u).map f := by
  unfold Kernel.thread Kernel.modifyAll
  rw [find_map]
  · split_ifs with h
    · refine (Option.map_congr fun x hx => ?_).trans Option.map_id'
      have htid : x.tid = u := by simpa using List.find?_some hx
      rw [if_pos (by rw [htid, h])]
    · refine Option.map_congr fun x hx => ?_
      have htid : x.tid = u := by simpa using List.find?_some hx
      rw [if_neg (by rwa [htid])]
  · intro x
    split_ifs
    · rfl
    · exact hf x

/-- Changes that do not touch the priorities. -/
theorem effectivePriority_modify (hf : ∀ x, (f x).tid = x.tid)
    (hpriority : ∀ x, (f x).effectivePriority = x.effectivePriority) :
    (k.modify t f).effectivePriority = k.effectivePriority := by
  funext u
  unfold Kernel.effectivePriority
  rw [thread_modify hf]
  split_ifs
  · cases k.thread u <;> simp [hpriority]
  · rfl

/-- The threads on the ready list are ready, and they are in the order of
their priorities. -/
structure Kernel.Queued (k : Kernel) : Prop where
  ready : ∀ t ∈ k.readyList, ∃ x, k.thread t = some x ∧ x.status = .ready
  nodup : k.readyList.Nodup
  sorted : Descending k.effectivePriority k.readyList

theorem Kernel.Queued.congr (hk : k.Queued) (hlist : k'.readyList = k.readyList)
    (hsame : ∀ t ∈ k.readyList, ∀ x, k.thread t = some x →
      ∃ y, k'.thread t = some y ∧ y.status = x.status ∧
        y.effectivePriority = x.effectivePriority) : k'.Queued where
  ready t ht := by
    rw [hlist] at ht
    obtain ⟨x, hx, hready⟩ := hk.ready t ht
    obtain ⟨y, hy, hstatus, -⟩ := hsame t ht x hx
    exact ⟨y, hy, hstatus.trans hready⟩
  nodup := by rw [hlist]; exact hk.nodup
  sorted := by
    have heq : ∀ t ∈ k.readyList,
        k'.effectivePriority t = k.effectivePriority t := by
      intro t ht
      obtain ⟨x, hx, -⟩ := hk.ready t ht
      obtain ⟨y, hy, -, hpriority⟩ := hsame t ht x hx
      simp [Kernel.effectivePriority, hx, hy, hpriority]
    rw [hlist]
    refine hk.sorted.imp_of_mem fun ha hb hle => ?_
    rwa [heq _ ha, heq _ hb]

/-- A thread that is not on the ready list may change as it likes. -/
theorem Kernel.Queued.modify (hk : k.Queued) (ht : t ∉ k.readyList)
    (hf : ∀ x, (f x).tid = x.tid) : (k.modify t f).Queued :=
  hk.congr rfl fun u hu x hx =>
    ⟨x, by rw [thread_modify hf, if_neg (ne_of_mem_of_not_mem hu ht), hx],
      rfl, rfl⟩

/-- Threads may change in what neither their status nor their priority is. -/
theorem Kernel.Queued.modify_other (hk : k.Queued) (hf : ∀ x, (f x).tid = x.tid)
    (hstatus : ∀ x, (f x).status = x.status)
    (hpriority : ∀ x, (f x).effectivePriority = x.effectivePriority) :
    (k.modify t f).Queued := by
  refine hk.congr rfl fun u hu x hx => ?_
  rw [thread_modify hf, hx]
  split_ifs
  · exact ⟨f x, rfl, hstatus x, hpriority x⟩
  · exact ⟨x, rfl, rfl, rfl⟩

theorem Kernel.Queued.not_mem (hk : k.Queued) (hx : k.thread t = some x)
    (hstatus : x.status ≠ .ready) : t ∉ k.readyList := by
  intro ht
  obtain ⟨y, hy, hready⟩ := hk.ready t ht
  exact hstatus (Option.some.inj (hx.symm.trans hy) ▸ hready)

/-- A thread that has become ready is put at its place. -/
theorem Kernel.Queued.insertReady (hk : k.Queued) (ht : t ∉ k.readyList)
    (hx : k.thread t = some x) (hready : x.status = .ready) :
    (k.insertReady t).Queued where
  ready u hu := by
    simp only [Kernel.insertReady, List.mem_orderedInsert] at hu
    rcases hu with rfl | hu
    · exact ⟨x, hx, hready⟩
    · exact hk.ready u hu
  nodup := by
    have hperm := List.perm_orderedInsert
      (fun a b => byKey k.effectivePriority a b) t k.readyList
    exact hperm.nodup_iff.mpr (List.nodup_cons.mpr ⟨ht, hk.nodup⟩)
  sorted := descending_orderedInsert t k.readyList hk.sorted

/-- A thread that is not yet ready becomes ready and is put at its place. -/
theorem Kernel.Queued.wake (hk : k.Queued) (hx : k.thread t = some x)
    (hstatus : x.status ≠ .ready) :
    ((k.modify t fun u => { u with status := .ready }).insertReady t).Queued := by
  have ht := hk.not_mem hx hstatus
  have hthread : (k.modify t fun u => { u with status := .ready }).thread t =
      some { x with status := .ready } := by
    rw [thread_modify (f := fun u => { u with status := .ready }) fun _ => rfl,
      if_pos rfl, hx]
    rfl
  exact (hk.modify (f := fun u => { u with status := .ready }) ht
    fun _ => rfl).insertReady ht hthread rfl

theorem insertReady_modify : (k.insertReady t).modify t
      (fun u => { u with status := .ready }) =
    (k.modify t fun u => { u with status := .ready }).insertReady t := by
  have heq := effectivePriority_modify (k := k) (t := t)
    (f := fun u => { u with status := .ready }) (fun _ => rfl) fun _ => rfl
  unfold Kernel.insertReady
  rw [heq]
  rfl

/-- The state while a thread runs. -/
structure Kernel.Awake (k : Kernel) : Prop where
  queued : k.Queued
  running : ∃ x, k.thread k.current = some x ∧ x.status = .running
  awake : k.switching = false

theorem Kernel.Awake.not_mem (hk : k.Awake) : k.current ∉ k.readyList := by
  obtain ⟨x, hx, hstatus⟩ := hk.running
  exact hk.queued.not_mem hx (by simp [hstatus])

/-- Threads may change in what neither their status nor their priority is. -/
theorem Kernel.Awake.modify_other (hk : k.Awake) (hf : ∀ x, (f x).tid = x.tid)
    (hstatus : ∀ x, (f x).status = x.status)
    (hpriority : ∀ x, (f x).effectivePriority = x.effectivePriority) :
    (k.modify t f).Awake where
  queued := hk.queued.modify_other hf hstatus hpriority
  running := by
    obtain ⟨x, hx, hrunning⟩ := hk.running
    change ∃ x, (k.modify t f).thread k.current = some x ∧ _
    rw [thread_modify hf, hx]
    split_ifs
    · exact ⟨f x, rfl, (hstatus x).trans hrunning⟩
    · exact ⟨x, rfl, hrunning⟩
  awake := hk.awake

/-- The running thread may change in all but its status. -/
theorem Kernel.Awake.modify_current (hk : k.Awake) (hf : ∀ x, (f x).tid = x.tid)
    (hstatus : ∀ x, (f x).status = x.status) :
    (k.modify k.current f).Awake where
  queued := hk.queued.modify hk.not_mem hf
  running := by
    obtain ⟨x, hx, hrunning⟩ := hk.running
    change ∃ x, (k.modify k.current f).thread k.current = some x ∧ _
    rw [thread_modify hf, if_pos rfl, hx]
    exact ⟨f x, rfl, (hstatus x).trans hrunning⟩
  awake := hk.awake

theorem Kernel.Awake.updatePriority (hk : k.Awake) :
    (k.updatePriority k.current).Awake := by
  unfold Kernel.updatePriority
  split_ifs
  · exact hk
  · exact hk.modify_current (fun _ => rfl) fun _ => rfl

theorem Kernel.Awake.threadUnblock (hk : k.Awake)
    (h : k.threadUnblock t = some k') : k'.Awake := by
  unfold Kernel.threadUnblock at h
  cases hx : k.thread t with
  | none => simp [hx] at h
  | some x =>
      rw [hx] at h
      simp only at h
      split_ifs at h with hblocked
      obtain rfl := Option.some.inj h
      refine ⟨hk.queued.wake hx (by simp [hblocked]), ?_, hk.awake⟩
      obtain ⟨y, hy, hrunning⟩ := hk.running
      have hne : k.current ≠ t := by
        rintro rfl
        rw [Option.some.inj (hy.symm.trans hx), hblocked] at hrunning
        cases hrunning
      refine ⟨y, ?_, hrunning⟩
      change (k.modify t fun u => { u with status := .ready }).thread k.current =
        some y
      rw [thread_modify (f := fun u => { u with status := .ready }) fun _ => rfl,
        if_neg hne, hy]

theorem Kernel.Awake.checkBlockThread (hk : k.Awake)
    (h : k.checkBlockThread t = some k') : k'.Awake := by
  unfold Kernel.checkBlockThread at h
  cases hx : k.thread t with
  | none => exact Option.some.inj (by simpa [hx] using h) ▸ hk
  | some x =>
      rw [hx] at h
      have hk' : (k.modify t fun u =>
          { u with wakeUpTicks := u.wakeUpTicks - 1 }).Awake :=
        hk.modify_other (fun _ => rfl) (fun _ => rfl) fun _ => rfl
      simp only at h
      split_ifs at h
      · exact hk'.threadUnblock h
      · exact Option.some.inj h ▸ hk'
      · exact Option.some.inj h ▸ hk

theorem Kernel.Awake.foreach {tids : List Nat} (hk : k.Awake)
    (h : tids.foldlM Kernel.checkBlockThread k = some k') : k'.Awake := by
  induction tids generalizing k with
  | nil => exact Option.some.inj h ▸ hk
  | cons t rest ih =>
      rw [List.foldlM_cons] at h
      obtain ⟨k₁, hcheck, hrest⟩ := Option.bind_eq_some_iff.mp h
      exact ih (hk.checkBlockThread hcheck) hrest

theorem Kernel.Awake.timerWakes (hk : k.Awake) (h : k.timerWakes = some k') :
    k'.Awake := by
  obtain ⟨k₁, hforeach, rfl⟩ := Option.map_eq_some_iff.mp h
  have hk₁ : k₁.Awake := Kernel.Awake.foreach
    (k := { k with ticks := k.ticks + 1 }) ⟨⟨hk.queued.ready, hk.queued.nodup,
      hk.queued.sorted⟩, hk.running, hk.awake⟩ hforeach
  unfold Kernel.updateRecentCpuByOne
  split_ifs
  · exact hk₁
  · exact hk₁.modify_other (fun _ => rfl) (fun _ => rfl) fun _ => rfl

/-- All threads may change in what is not their status, as long as the ready
list stays in order. -/
theorem Kernel.Awake.modifyAll (hk : k.Awake) (hf : ∀ x, (f x).tid = x.tid)
    (hstatus : ∀ x, (f x).status = x.status)
    (hsorted : Descending (k.modifyAll f).effectivePriority k.readyList) :
    (k.modifyAll f).Awake := by
  have hthread : ∀ t x, k.thread t = some x →
      ∃ y, (k.modifyAll f).thread t = some y ∧ y.status = x.status := by
    intro t x hx
    rw [thread_modifyAll hf, hx]
    split_ifs
    · exact ⟨x, rfl, rfl⟩
    · exact ⟨f x, rfl, hstatus x⟩
  refine ⟨⟨fun t ht => ?_, hk.queued.nodup, hsorted⟩, ?_, hk.awake⟩
  · obtain ⟨x, hx, hready⟩ := hk.queued.ready t ht
    obtain ⟨y, hy, heq⟩ := hthread t x hx
    exact ⟨y, hy, heq.trans hready⟩
  · obtain ⟨x, hx, hrunning⟩ := hk.running
    obtain ⟨y, hy, heq⟩ := hthread k.current x hx
    exact ⟨y, hy, heq.trans hrunning⟩

theorem effectivePriority_modifyAll (hf : ∀ x, (f x).tid = x.tid)
    (hpriority : ∀ x, (f x).effectivePriority = x.effectivePriority) :
    (k.modifyAll f).effectivePriority = k.effectivePriority := by
  funext u
  unfold Kernel.effectivePriority
  rw [thread_modifyAll hf]
  split_ifs
  · rfl
  · cases k.thread u <;> simp [hpriority]

/-- The part of each second sorts the ready list, by the old priorities. -/
theorem Kernel.Awake.timerSecond (hk : k.Awake) (h : k.timerSecond = some k') :
    k'.Awake := by
  have hload : k.updateLoadAverage.Awake :=
    ⟨⟨hk.queued.ready, hk.queued.nodup, hk.queued.sorted⟩, hk.running, hk.awake⟩
  unfold Kernel.timerSecond Kernel.updateRecentCpuAll at h
  obtain ⟨sorted, hsort, h⟩ := Option.bind_eq_some_iff.mp h
  obtain rfl := Option.some.inj h
  set f : Thread → Thread := fun u =>
    { u with
      recentCpu := fpAddMix
        (fpMult (fpDiv (fpMultMix k.updateLoadAverage.loadAverage 2)
          (fpAddMix (fpMultMix k.updateLoadAverage.loadAverage 2) 1))
          u.recentCpu) u.nice } with hf
  have hpriority := effectivePriority_modifyAll (k := k.updateLoadAverage)
    (f := f) (fun _ => rfl) fun _ => rfl
  have hall : (k.updateLoadAverage.modifyAll f).Awake :=
    hload.modifyAll (fun _ => rfl) (fun _ => rfl)
      (hpriority ▸ hload.queued.sorted)
  obtain ⟨ys, hys, hperm, hdescending⟩ := listSort_spec
    (k.updateLoadAverage.modifyAll f).effectivePriority
    (k.updateLoadAverage.modifyAll f).readyList
  obtain rfl := Option.some.inj (hys.symm.trans hsort)
  exact ⟨⟨fun t ht => hall.queued.ready t (hperm.mem_iff.mp ht),
    hperm.nodup_iff.mpr hall.queued.nodup, hdescending⟩, hall.running,
    hall.awake⟩

/-- A new thread is behind all the others in the list of all threads. -/
theorem Kernel.Awake.append (hk : k.Awake) (x : Thread) :
    Kernel.Awake { k with allList := k.allList ++ [x] } := by
  have hthread : ∀ t y, k.thread t = some y →
      Kernel.thread { k with allList := k.allList ++ [x] } t = some y := by
    intro t y hy
    unfold Kernel.thread at hy ⊢
    rw [List.find?_append, hy]
    rfl
  obtain ⟨y, hy, hrunning⟩ := hk.running
  exact ⟨hk.queued.congr rfl fun t _ z hz => ⟨z, hthread t z hz, rfl, rfl⟩,
    ⟨y, hthread _ y hy, hrunning⟩, hk.awake⟩

/-- What holds of every state, also while the kernel switches. -/
structure Kernel.Inv (k : Kernel) : Prop where
  queued : k.Queued
  awake : k.switching = false → k.Awake

theorem Kernel.Awake.inv (hk : k.Awake) : k.Inv := ⟨hk.queued, fun _ => hk⟩

theorem Kernel.Awake.threadYield (hk : k.Awake) : k.threadYield.Inv := by
  refine ⟨?_, fun h => by cases h⟩
  obtain ⟨x, hx, hrunning⟩ := hk.running
  suffices hqueued : ((if k.idleThread = some k.current then k
      else k.insertReady k.current).modify k.current
        fun u => { u with status := .ready }).Queued from
    ⟨hqueued.ready, hqueued.nodup, hqueued.sorted⟩
  split_ifs
  · exact hk.queued.modify (f := fun u => { u with status := .ready })
      hk.not_mem fun _ => rfl
  · rw [insertReady_modify]
    exact hk.queued.wake hx (by simp [hrunning])

theorem Kernel.Awake.threadBlock (hk : k.Awake) : k.threadBlock.Inv := by
  refine ⟨?_, fun h => by cases h⟩
  have hqueued := hk.queued.modify (f := fun u => { u with status := .blocked })
    hk.not_mem fun _ => rfl
  exact ⟨hqueued.ready, hqueued.nodup, hqueued.sorted⟩

theorem Kernel.Awake.threadTick (hk : k.Awake) : k.threadTick.Inv := by
  have hk' : Kernel.Awake { k with threadTicks := k.threadTicks + 1 } :=
    ⟨⟨hk.queued.ready, hk.queued.nodup, hk.queued.sorted⟩, hk.running, hk.awake⟩
  unfold Kernel.threadTick
  simp only
  split_ifs
  · exact hk'.threadYield
  · exact hk'.inv

/-- The head of the ready list runs, or the idle thread if there is none. -/
theorem Kernel.Inv.schedule (hk : k.Inv) (h : k.schedule = some k') :
    k'.Awake := by
  obtain ⟨⟨next, k₁⟩, hnext, h⟩ := Option.bind_eq_some_iff.mp h
  simp only at h
  split_ifs at h with hsome
  obtain rfl := Option.some.inj h
  obtain ⟨x, hx⟩ := Option.isSome_iff_exists.mp hsome
  have hqueued : k₁.Queued ∧ next ∉ k₁.readyList := by
    unfold Kernel.nextThreadToRun at hnext
    cases hlist : k.readyList with
    | nil =>
        rw [hlist] at hnext
        obtain ⟨t, ht, heq⟩ := Option.map_eq_some_iff.mp hnext
        obtain ⟨rfl, rfl⟩ := Prod.mk.inj heq
        exact ⟨hk.queued, by simp [hlist]⟩
    | cons t rest =>
        rw [hlist] at hnext
        obtain ⟨rfl, rfl⟩ := Prod.mk.inj (Option.some.inj hnext)
        have hnodup := hk.queued.nodup
        have hsorted := hk.queued.sorted
        rw [hlist, List.nodup_cons] at hnodup
        rw [hlist, Descending, List.pairwise_cons] at hsorted
        exact ⟨⟨fun u hu => hk.queued.ready u (by simp [hlist, hu]), hnodup.2,
          hsorted.2⟩, hnodup.1⟩
  obtain ⟨hqueued, hnot⟩ := hqueued
  have hmodify := hqueued.modify (f := fun u => { u with status := .running })
    hnot fun _ => rfl
  refine ⟨⟨hmodify.ready, hmodify.nodup, hmodify.sorted⟩,
    ⟨{ x with status := .running }, ?_, rfl⟩, rfl⟩
  change (k₁.modify next fun u => { u with status := .running }).thread next = _
  rw [thread_modify (f := fun u => { u with status := .running }) fun _ => rfl,
    if_pos rfl, hx]
  rfl

/-- The computation of the priorities once a second leaves the ready list in
the order in which it has just been sorted. -/
def KeepsOrder (k : Kernel) (a : Action) : Prop :=
  ∀ k₁ k₂, a = .timerInterrupt → k.timerWakes = some k₁ →
    k₁.ticks % timerFreq = 0 → k₁.timerSecond = some k₂ →
    Descending k₂.updatePriorityAll.effectivePriority k₂.readyList

theorem Kernel.Awake.timerInterrupt (hk : k.Awake)
    (hok : KeepsOrder k .timerInterrupt) (h : k.timerInterrupt = some k') :
    k'.Inv := by
  unfold Kernel.timerInterrupt at h
  obtain ⟨k₁, hwakes, h⟩ := Option.bind_eq_some_iff.mp h
  obtain ⟨k₂, hsecond, h⟩ := Option.bind_eq_some_iff.mp h
  obtain rfl := Option.some.inj h
  have hk₁ := hk.timerWakes hwakes
  have hk₂ : k₂.Awake := by
    unfold Kernel.eachSecond at hsecond
    split_ifs at hsecond with hticks
    · obtain ⟨k₃, hthird, rfl⟩ := Option.map_eq_some_iff.mp hsecond
      exact (hk₁.timerSecond hthird).modifyAll (fun _ => rfl) (fun _ => rfl)
        (hok k₁ k₃ rfl hwakes hticks hthird)
    · exact Option.some.inj hsecond ▸ hk₁
  split_ifs
  · exact hk₂.updatePriority.threadTick
  · exact hk₂.threadTick

theorem step_inv {a : Action} (hk : k.Inv) (hok : KeepsOrder k a)
    (h : step k a = some k') : k'.Inv := by
  unfold step at h
  by_cases hswitching : k.switching
  · rw [if_pos hswitching] at h
    cases a with
    | schedule => exact (hk.schedule h).inv
    | _ => cases h
  · rw [if_neg hswitching] at h
    have hawake := hk.awake (Bool.eq_false_iff.mpr hswitching)
    cases a with
    | timerInterrupt => exact hawake.timerInterrupt hok h
    | initThread t priority =>
        simp only at h
        split_ifs at h with hnew
        exact Option.some.inj h ▸ (hawake.append _).inv
    | inheritNice t =>
        obtain ⟨u, -, rfl⟩ := Option.map_eq_some_iff.mp h
        have hk' : (k.modify t fun v => { v with nice := u.nice }).Awake :=
          hawake.modify_other (fun _ => rfl) (fun _ => rfl) fun _ => rfl
        exact hk'.inv
    | unblock t =>
        simp only at h
        split_ifs at h
        exact (hawake.threadUnblock h).inv
    | yield => exact Option.some.inj h ▸ hawake.threadYield
    | assignNice nice =>
        have hk' : (k.modify k.current fun u => { u with nice := nice }).Awake :=
          hawake.modify_other (fun _ => rfl) (fun _ => rfl) fun _ => rfl
        exact Option.some.inj h ▸ hk'.inv
    | updatePriority => exact Option.some.inj h ▸ hawake.updatePriority.inv
    | block => exact Option.some.inj h ▸ hawake.threadBlock
    | sleep ticks =>
        simp only at h
        split_ifs at h
        have hk' : (k.modify k.current fun u =>
            { u with wakeUpTicks := fixed ticks }).Awake :=
          hawake.modify_other (fun _ => rfl) (fun _ => rfl) fun _ => rfl
        exact Option.some.inj h ▸ hk'.threadBlock
    | idle =>
        simp only at h
        split_ifs at h
        obtain rfl := Option.some.inj h
        exact Kernel.Awake.inv ⟨⟨hawake.queued.ready, hawake.queued.nodup,
          hawake.queued.sorted⟩, hawake.running, hawake.awake⟩
    | started =>
        obtain rfl := Option.some.inj h
        exact Kernel.Awake.inv ⟨⟨hawake.queued.ready, hawake.queued.nodup,
          hawake.queued.sorted⟩, hawake.running, hawake.awake⟩
    | schedule => cases h

theorem boot_inv : boot.Inv := by
  refine Kernel.Awake.inv ⟨⟨by simp [boot], by simp [boot], by simp [boot]⟩,
    ⟨_, rfl, rfl⟩, rfl⟩

/-- As long as the computation of the priorities keeps the ready list in
order, the thread that `next_thread_to_run` takes from it is ready, and none on
the list has a higher priority. -/
theorem mlfqs_dispatches_highest {actions : List Action}
    (hrun : Run step KeepsOrder boot actions k) (hlist : k.readyList ≠ []) :
    ∃ t k₁ x, k.nextThreadToRun = some (t, k₁) ∧ t ∈ k.readyList ∧
      k.thread t = some x ∧ x.status = .ready ∧
      ∀ u ∈ k.readyList, k.effectivePriority u ≤ k.effectivePriority t := by
  have hk : k.Inv :=
    hrun.invariant Kernel.Inv (fun hk hok hstep => step_inv hk hok hstep) boot_inv
  obtain ⟨t, rest, hcons⟩ := List.exists_cons_of_ne_nil hlist
  obtain ⟨x, hx, hready⟩ := hk.queued.ready t (by simp [hcons])
  have hsorted := hk.queued.sorted
  rw [hcons, Descending, List.pairwise_cons] at hsorted
  refine ⟨t, { k with readyList := rest }, x, by simp [Kernel.nextThreadToRun, hcons],
    by simp [hcons], hx, hready, fun u hu => ?_⟩
  rw [hcons] at hu
  rcases List.mem_cons.mp hu with rfl | hu
  · exact le_rfl
  · exact hsorted.1 u hu

end Queue

namespace MlfqsWitness

/-- The idle thread starts, and the main thread runs alone for almost a
second. -/
def almostSecond : List Action :=
  [Action.initThread 1 0, .unblock 1, .block, .schedule, .idle, .unblock 0, .yield,
    .schedule, .started] ++
  (List.replicate 24 [Action.timerInterrupt, .timerInterrupt, .timerInterrupt,
    .timerInterrupt, .schedule]).flatten ++
  [Action.timerInterrupt, .timerInterrupt, .timerInterrupt]

/-- The main thread sets its nice value and creates a thread. -/
def create (t : Nat) (priority nice : Int) : List Action :=
  [.assignNice nice, .updatePriority, .yield, .schedule, .initThread t priority,
    .inheritNice t, .unblock t]

/-- At the end of the second, the priorities of two ready threads change their
order, but not their places. -/
theorem dispatches_lower : ∃ actions k,
    Run step (fun _ _ => True) boot actions k ∧
      ∃ t k₁, k.nextThreadToRun = some (t, k₁) ∧
        ∃ u ∈ k.readyList, k.effectivePriority t < k.effectivePriority u := by
  have hrun : ((almostSecond ++ create 2 20 5 ++ create 3 10 0 ++
      [Action.timerInterrupt]).foldlM step boot).map (fun k =>
        (k.readyList, k.effectivePriority 2, k.effectivePriority 3)) =
      some ([2, 3], 51, 63) := by
    decide +kernel
  obtain ⟨k, hk, heq⟩ := Option.map_eq_some_iff.mp hrun
  obtain ⟨hlist, htwo, hthree⟩ : k.readyList = [2, 3] ∧
      k.effectivePriority 2 = 51 ∧ k.effectivePriority 3 = 63 := by
    simpa using heq
  exact ⟨_, k, Run.of_foldlM hk, 2, { k with readyList := [3] },
    by simp [Kernel.nextThreadToRun, hlist], 3, by simp [hlist],
    by simp [htwo, hthree]⟩

/-- The order, checked on the way. -/
def keepsOrder (k : Kernel) : Action → Bool
  | .timerInterrupt =>
      match k.timerWakes with
      | none => true
      | some k₁ =>
          if k₁.ticks % timerFreq = 0 then
            match k₁.timerSecond with
            | none => true
            | some k₂ =>
                decide (Descending k₂.updatePriorityAll.effectivePriority
                  k₂.readyList)
          else true
  | _ => true

theorem keepsOrder_spec {k : Kernel} {a : Action} (h : keepsOrder k a = true) :
    KeepsOrder k a := by
  rintro k₁ k₂ rfl hwakes hticks hsecond
  simpa [keepsOrder, hwakes, hticks, hsecond] using h

theorem mlfqs_dispatches_highest_second : ∃ actions k,
    Run step KeepsOrder boot actions k ∧ k.ticks = 100 ∧
      ∃ t k₁ x, k.nextThreadToRun = some (t, k₁) ∧ t ∈ k.readyList ∧
        k.thread t = some x ∧ x.status = .ready ∧
        ∀ u ∈ k.readyList, k.effectivePriority u ≤ k.effectivePriority t := by
  have hrun : ((almostSecond ++ create 2 20 5 ++
      [Action.timerInterrupt]).foldlM
        (fun k a => if keepsOrder k a then step k a else none) boot).map
          (fun k => (k.readyList, k.ticks)) = some ([2], 100) := by
    decide +kernel
  obtain ⟨k, hk, heq⟩ := Option.map_eq_some_iff.mp hrun
  obtain ⟨hlist, hticks⟩ : k.readyList = [2] ∧ k.ticks = 100 := by
    simpa using heq
  have hrun' : Run step KeepsOrder boot _ k :=
    Run.of_check keepsOrder (fun _ => True) (fun _ _ => trivial)
      (fun _ hcheck => keepsOrder_spec hcheck) trivial hk
  exact ⟨_, k, hrun', hticks, mlfqs_dispatches_highest hrun' (by simp [hlist])⟩

end MlfqsWitness

end Mlfqs

end PintosLabs
