/-
What the threads of the kernel share, apart from the scheduler's own lists:
whatever thread runs next, a step of the running thread changes the
semaphores, the holders of the locks and its own place in one of a few ways.
-/
import PintosLabs.Kernel

namespace PintosLabs

/-- The semaphores, the holders of the locks, and of each thread its place, the
lock it waits for and the locks it is inside of. -/
@[ext] structure Shared where
  pc : ThreadId → Pc
  waitingLock : ThreadId → Option LockId
  inside : ThreadId → List LockId
  holder : LockId → Option ThreadId
  sema : SemaId → Semaphore

namespace Shared

def goto (v : Shared) (c : ThreadId) (pc : Pc) : Shared :=
  { v with pc := Function.update v.pc c pc }

def setSema (v : Shared) (s : SemaId) (sema : Semaphore) : Shared :=
  { v with sema := Function.update v.sema s sema }

variable (v : Shared)

@[simp] theorem goto_self (c : ThreadId) (pc : Pc) : (v.goto c pc).pc c = pc :=
  Function.update_self _ _ _

theorem goto_of_ne {c t : ThreadId} (h : t ≠ c) (pc : Pc) :
    (v.goto c pc).pc t = v.pc t := Function.update_of_ne h _ _

theorem goto_pc_self (c : ThreadId) : v.goto c (v.pc c) = v := by
  rw [goto, Function.update_eq_self]

@[simp] theorem setSema_self (s : SemaId) (sema : Semaphore) :
    (v.setSema s sema).sema s = sema := Function.update_self _ _ _

theorem setSema_of_ne {s s' : SemaId} (h : s' ≠ s) (sema : Semaphore) :
    (v.setSema s sema).sema s' = v.sema s' := Function.update_of_ne h _ _

end Shared

/-- A thread that is not there yet. -/
structure Thread.Unused (t : Thread) : Prop where
  status : t.status = .blocked
  pc : t.pc = .next
  bTick : t.bTick = 0
  ops : t.ops = []
  waitingLock : t.waitingLock = none
  inside : t.inside = []

/-- A place where a thread has to do with no lock or semaphore. -/
def Pc.isQuiet : Pc → Bool
  | next | condSort _ _ | condSorted _ _ | condPop _ | asleep | parked | idleBlock
  | idleWake => true
  | _ => false

/-- The lock that a thread in `lock_acquire` has found held, before it comes to
`sema_down`. -/
def Pc.donatingFor : Pc → Option LockId
  | setWaiting l | donateTest l _ | donateMax l _ | donatePri l _
  | donateNext l _ => some l
  | _ => none

/-- Thread `c` may call `sema_down (s)` at this place, or be in it. -/
inductive Pc.Downs (c : ThreadId) : Pc → SemaId → Prop
  | sema (n : Nat) : Downs c next (.sema n)
  | waiter : Downs c next (.waiter c)
  | acquire (l : LockId) : Downs c (acquireDown l) (.lock l)
  | again (s : SemaId) : Downs c (down s) s

/-- A thread at this place may call `sema_up (s)`. -/
inductive Pc.Ups : Pc → SemaId → Prop
  | sema (n : Nat) : Ups next (.sema n)
  | waiter (t : ThreadId) : Ups (condUp t) (.waiter t)
  | release (l : LockId) : Ups (releaseUp l) (.lock l)

/-- A step of thread `c`, which starts the call `op` if it starts one. -/
inductive SharedStep (c : ThreadId) (op : Option Op) : Shared → Shared → Prop
  | stay (v : Shared) : SharedStep c op v v
  | move {v : Shared} {pc : Pc} (before : (v.pc c).isQuiet)
      (after : pc.isQuiet ∨ ∃ t, pc = .condUp t) : SharedStep c op v (v.goto c pc)
  | held {v : Shared} {l : LockId} (before : v.pc c = .next)
      (other : v.holder l ≠ some c) (held : v.holder l ≠ none) :
      SharedStep c op v (v.goto c (.setWaiting l))
  | free {v : Shared} {l : LockId} (before : v.pc c = .next)
      (free : v.holder l = none) : SharedStep c op v (v.goto c (.acquireDown l))
  | waits {v : Shared} {l : LockId} (before : v.pc c = .setWaiting l) :
      SharedStep c op v { v.goto c (.donateTest l (some l)) with
        waitingLock := Function.update v.waitingLock c (some l) }
  | passes {v : Shared} {l lk : LockId}
      (before : v.pc c = .donateTest l (some lk)) :
      SharedStep c op v (v.goto c (.donateMax l lk))
  | stops {v : Shared} {l : LockId} {lk : Option LockId}
      (before : v.pc c = .donateTest l lk) :
      SharedStep c op v (v.goto c (.acquireDown l))
  | raises {v : Shared} {l lk : LockId} (before : v.pc c = .donateMax l lk) :
      SharedStep c op v (v.goto c (.donatePri l lk))
  | donates {v : Shared} {l lk : LockId} (before : v.pc c = .donatePri l lk) :
      SharedStep c op v (v.goto c (.donateNext l lk))
  | follows {v : Shared} {l lk : LockId} {t : ThreadId}
      (before : v.pc c = .donateNext l lk) (holder : v.holder lk = some t) :
      SharedStep c op v (v.goto c (.donateTest l (v.waitingLock t)))
  | block {v : Shared} {s : SemaId} {waiters : List ThreadId}
      (before : (v.pc c).Downs c s) (zero : (v.sema s).value = 0)
      (queued : waiters.Perm (c :: (v.sema s).waiters)) :
      SharedStep c op v ((v.goto c (.down s)).setSema s
        { v.sema s with waiters := waiters })
  | pass {v : Shared} {s : SemaId} (before : (v.pc c).Downs c s)
      (positive : (v.sema s).value ≠ 0) :
      SharedStep c op v ((v.goto c (Kernel.afterDown s)).setSema s
        { v.sema s with
          value := (v.sema s).value - 1
          downs := (v.sema s).downs + 1 })
  | tryDown {v : Shared} {n : Nat} (before : v.pc c = .next)
      (positive : (v.sema (.sema n)).value ≠ 0) :
      SharedStep c op v (v.setSema (.sema n)
        { v.sema (.sema n) with
          value := (v.sema (.sema n)).value - 1
          downs := (v.sema (.sema n)).downs + 1 })
  | up {v : Shared} {s : SemaId} {waiters : List ThreadId}
      (before : (v.pc c).Ups s)
      (woken : (v.sema s).waiters = [] ∧ waiters = [] ∨
        ∃ t, (t :: waiters).Perm (v.sema s).waiters) :
      SharedStep c op v ((v.goto c .next).setSema s
        { v.sema s with
          value := ((v.sema s).value + 1) % 2 ^ 32
          waiters := waiters
          ups := (v.sema s).ups + 1 })
  | take {v : Shared} {l : LockId} (before : v.pc c = .take l) :
      SharedStep c op v { v.goto c .next with
        waitingLock := Function.update v.waitingLock c none
        inside := Function.update v.inside c (l :: v.inside c)
        holder := Function.update v.holder l (some c) }
  | setHolder {v : Shared} {l : LockId} (before : v.pc c = .setHolder l) :
      SharedStep c op v { v.goto c .next with
        inside := Function.update v.inside c (l :: v.inside c)
        holder := Function.update v.holder l (some c) }
  | release {v : Shared} {l : LockId} (before : v.pc c = .next)
      (call : op = some (.lockRelease l)) (holder : v.holder l = some c) :
      SharedStep c op v { v.goto c (.removeLock l) with
        inside := Function.update v.inside c ((v.inside c).filter fun m => m ≠ l)
        holder := Function.update v.holder l none }
  | removed {v : Shared} {l : LockId} (before : v.pc c = .removeLock l) :
      SharedStep c op v (v.goto c (.releaseUp l))
  | waiterInit {v : Shared} (before : v.pc c = .next) :
      SharedStep c op v (v.setSema (.waiter c) (semaInit 0))

namespace Kernel

def shared (k : Kernel) : Shared where
  pc t := (k.threads t).pc
  waitingLock t := (k.threads t).waitingLock
  inside t := (k.threads t).inside
  holder l := (k.lock l).holder
  sema := k.sema

section Frame

variable (k : Kernel) (t : ThreadId)

@[simp] theorem shared_pc : k.shared.pc t = (k.threads t).pc := rfl

@[simp] theorem shared_holder (l : LockId) :
    k.shared.holder l = (k.lock l).holder := rfl

@[simp] theorem shared_sema (s : SemaId) : k.shared.sema s = k.sema s := rfl

theorem shared_modify (f : Thread → Thread) :
    (k.modify t f).shared = { k.shared with
      pc := Function.update k.shared.pc t (f (k.threads t)).pc
      waitingLock :=
        Function.update k.shared.waitingLock t (f (k.threads t)).waitingLock
      inside := Function.update k.shared.inside t (f (k.threads t)).inside } := by
  simp only [shared, modify, Function.apply_update (fun _ thread => Thread.pc thread),
    Function.apply_update (fun _ thread => Thread.waitingLock thread),
    Function.apply_update (fun _ thread => Thread.inside thread)]

/-- A change of a thread in other fields is not seen. -/
theorem shared_modify_same {f : Thread → Thread}
    (hpc : (f (k.threads t)).pc = (k.threads t).pc)
    (hwaiting : (f (k.threads t)).waitingLock = (k.threads t).waitingLock)
    (hinside : (f (k.threads t)).inside = (k.threads t).inside) :
    (k.modify t f).shared = k.shared := by
  rw [shared_modify, hpc, hwaiting, hinside]
  exact Shared.ext (Function.update_eq_self t k.shared.pc)
    (Function.update_eq_self t k.shared.waitingLock)
    (Function.update_eq_self t k.shared.inside) rfl rfl

theorem shared_setInside (inside : Thread → List LockId) :
    (k.modify t fun thread => { thread with inside := inside thread }).shared =
      { k.shared with
        inside := Function.update k.shared.inside t (inside (k.threads t)) } := by
  rw [shared_modify]
  exact Shared.ext (Function.update_eq_self t k.shared.pc)
    (Function.update_eq_self t k.shared.waitingLock) rfl rfl rfl

theorem shared_setWaitingLock (lock : Option LockId) :
    (k.modify t fun thread => { thread with waitingLock := lock }).shared =
      { k.shared with
        waitingLock := Function.update k.shared.waitingLock t lock } := by
  rw [shared_modify]
  exact Shared.ext (Function.update_eq_self t k.shared.pc) rfl
    (Function.update_eq_self t k.shared.inside) rfl rfl

theorem shared_goto (pc : Pc) :
    (k.goto pc).shared = k.shared.goto k.current pc := by
  rw [goto, shared_modify]
  exact Shared.ext rfl (Function.update_eq_self k.current k.shared.waitingLock)
    (Function.update_eq_self k.current k.shared.inside) rfl rfl

theorem shared_setLock (l : LockId) (f : Lock → Lock) :
    (k.setLock l f).shared = { k.shared with
      holder := Function.update k.shared.holder l (f (k.lock l)).holder } := by
  simp only [shared, setLock, Function.apply_update (fun _ lock => Lock.holder lock)]

theorem shared_setMaxPri (l : LockId) (maxPri : Int) :
    (k.setLock l fun lock => { lock with maxPri := maxPri }).shared = k.shared := by
  rw [shared_setLock]
  exact Shared.ext rfl rfl rfl (Function.update_eq_self l k.shared.holder) rfl

theorem shared_setSema (s : SemaId) (f : Semaphore → Semaphore) :
    (k.setSema s f).shared = k.shared.setSema s (f (k.sema s)) := rfl

@[simp] theorem shared_setOps (ops : List Op) : (k.setOps ops).shared = k.shared :=
  k.shared_modify_same _ rfl rfl rfl

@[simp] theorem shared_setStatus (status : ThreadStatus) :
    (k.setStatus t status).shared = k.shared := k.shared_modify_same _ rfl rfl rfl

@[simp] theorem shared_setPriority (priority : Int) :
    (k.setPriority t priority).shared = k.shared := k.shared_modify_same _ rfl rfl rfl

@[simp] theorem shared_setRestore (restore : Bool) :
    (k.setRestore restore).shared = k.shared := k.shared_modify_same _ rfl rfl rfl

@[simp] theorem shared_intrEnable : k.intrEnable.shared = k.shared := rfl

@[simp] theorem shared_intrDisable : k.intrDisable.shared = k.shared := rfl

@[simp] theorem shared_insertReady : (k.insertReady t).shared = k.shared := rfl

@[simp] theorem shared_setCond (c : CondId) (waiters : List ThreadId) :
    (k.setCond c waiters).shared = k.shared := rfl

@[simp] theorem shared_schedule : k.schedule.shared = k.shared := by
  rw [schedule, shared_setStatus]
  rfl

@[simp] theorem shared_threadBlock : k.threadBlock.shared = k.shared := by
  rw [threadBlock, shared_schedule, shared_setStatus]

@[simp] theorem shared_threadYield : k.threadYield.shared = k.shared := by
  rw [threadYield, shared_schedule, shared_setStatus]
  split <;> rfl

@[simp] theorem shared_threadGetLock (l : LockId) :
    (k.threadGetLock l).shared = k.shared := k.shared_modify_same _ rfl rfl rfl

theorem shared_threadSetPriority (newPriority : Int) :
    (k.threadSetPriority newPriority).shared = k.shared := by
  simp only [threadSetPriority]
  split
  · rw [shared_threadYield, shared_setRestore, shared_setPriority,
      shared_modify_same _ _ rfl rfl rfl]
  · exact shared_modify_same _ _ rfl rfl rfl

variable {k t} {k' : Kernel}

theorem shared_threadUnblock (h : k.threadUnblock t = some k') :
    k'.shared = k.shared := by
  rw [threadUnblock] at h
  split at h
  · rw [← Option.some.inj h, shared_setStatus, shared_insertReady]
  · cases h

theorem shared_threadUpdatePri (h : k.threadUpdatePri t = some k') :
    k'.shared = k.shared := by
  rw [threadUpdatePri] at h
  split at h
  · rw [← Option.some.inj h, shared_setPriority]
  · obtain ⟨sorted, -, h⟩ := Option.bind_eq_some_iff.mp h
    split at h
    · cases h
    · rw [← Option.some.inj h, shared_setPriority]
      exact shared_modify_same _ _ rfl rfl rfl

theorem current_threadUpdatePri (h : k.threadUpdatePri t = some k') :
    k'.current = k.current := by
  rw [threadUpdatePri] at h
  split at h
  · rw [← Option.some.inj h]
    rfl
  · obtain ⟨sorted, -, h⟩ := Option.bind_eq_some_iff.mp h
    split at h
    · cases h
    · rw [← Option.some.inj h]
      rfl

theorem shared_threadDonatePri (h : k.threadDonatePri t = some k') :
    k'.shared = k.shared := by
  obtain ⟨k₁, hupdate, h⟩ := Option.bind_eq_some_iff.mp h
  rw [← shared_threadUpdatePri hupdate]
  split at h
  · rw [← Option.some.inj h]
    rfl
  · rw [← Option.some.inj h]

theorem current_threadDonatePri (h : k.threadDonatePri t = some k') :
    k'.current = k.current := by
  obtain ⟨k₁, hupdate, h⟩ := Option.bind_eq_some_iff.mp h
  rw [← current_threadUpdatePri hupdate]
  split at h
  · rw [← Option.some.inj h]
    rfl
  · rw [← Option.some.inj h]

theorem shared_threadRemoveLock {l : LockId} (h : k.threadRemoveLock l = some k') :
    k'.shared = k.shared := by
  rw [threadRemoveLock] at h
  split at h
  · rw [shared_threadUpdatePri h]
    exact shared_modify_same _ _ rfl rfl rfl
  · cases h

theorem current_threadRemoveLock {l : LockId} (h : k.threadRemoveLock l = some k') :
    k'.current = k.current := by
  rw [threadRemoveLock] at h
  split at h
  · rw [current_threadUpdatePri h]
    rfl
  · cases h

theorem shared_threadBCheck (h : k.threadBCheck t = some k') :
    k'.shared = k.shared := by
  rw [threadBCheck] at h
  split at h
  · simp only at h
    split at h
    · rw [shared_threadUnblock h]
      exact shared_modify_same _ _ rfl rfl rfl
    · rw [← Option.some.inj h]
      exact shared_modify_same _ _ rfl rfl rfl
  · rw [← Option.some.inj h]

theorem shared_threadForeach {allList : List ThreadId}
    (h : k.threadForeach allList = some k') : k'.shared = k.shared := by
  induction allList generalizing k with
  | nil => rw [← Option.some.inj h]
  | cons t rest ih =>
      obtain ⟨k₁, hcheck, h⟩ := Option.bind_eq_some_iff.mp h
      rw [ih h, shared_threadBCheck hcheck]

theorem current_threadUnblock (h : k.threadUnblock t = some k') :
    k'.current = k.current := by
  rw [threadUnblock] at h
  split at h
  · rw [← Option.some.inj h]
    rfl
  · cases h

theorem current_threadForeach {allList : List ThreadId}
    (h : k.threadForeach allList = some k') : k'.current = k.current := by
  induction allList generalizing k with
  | nil => rw [← Option.some.inj h]
  | cons t rest ih =>
      obtain ⟨k₁, hcheck, h⟩ := Option.bind_eq_some_iff.mp h
      rw [ih h]
      rw [threadBCheck] at hcheck
      split at hcheck
      · simp only at hcheck
        split at hcheck
        · rw [current_threadUnblock hcheck]
          rfl
        · rw [← Option.some.inj hcheck]
          rfl
      · rw [← Option.some.inj hcheck]

theorem shared_timerInterrupt {allList : List ThreadId}
    (h : k.timerInterrupt allList = some k') : k'.shared = k.shared := by
  obtain ⟨k₁, hforeach, h⟩ := Option.bind_eq_some_iff.mp h
  have hk₁ := shared_threadForeach hforeach
  change k₁.shared = k.shared at hk₁
  split at h
  · rw [← Option.some.inj h, shared_threadYield, shared_setRestore, hk₁]
  · rw [← Option.some.inj h, hk₁]

end Frame

/-! One step. -/

variable {k k' : Kernel}

@[simp] theorem setOps_current (ops : List Op) : (k.setOps ops).current = k.current :=
  rfl

@[simp] theorem setOps_cur_pc (ops : List Op) : (k.setOps ops).cur.pc = k.cur.pc := by
  simp [setOps, cur, modify]

theorem goto_self {pc : Pc} (h : k.cur.pc = pc) : k.goto pc = k := by
  have hcur : { k.cur with pc := pc } = k.cur := by rw [← h]
  change { k with threads := Function.update k.threads k.current { k.cur with pc := pc } } = k
  rw [hcur, cur, Function.update_eq_self]

theorem semaWake_spec {s : SemaId} (h : k.semaWake s = some k') :
    ∃ waiters, ((k.sema s).waiters = [] ∧ waiters = [] ∨
        ∃ t, (t :: waiters).Perm (k.sema s).waiters) ∧
      k'.shared = k.shared.setSema s { k.sema s with waiters := waiters } := by
  rw [semaWake] at h
  split at h
  case h_1 hnil =>
    refine ⟨[], Or.inl ⟨hnil, rfl⟩, ?_⟩
    have hsame : { k.sema s with waiters := [] } = k.shared.sema s := by
      rw [← hnil]
      rfl
    rw [← Option.some.inj h, hsame, Shared.setSema, Function.update_eq_self]
  case h_2 =>
    obtain ⟨sorted, hsorted, h⟩ := Option.bind_eq_some_iff.mp h
    obtain ⟨sorted', hsorted', hperm, -⟩ :=
      listSort_spec k.priority (k.sema s).waiters
    split at h
    · cases h
    case h_2 t rest =>
      rw [threadCmpPri, hsorted', Option.some.injEq] at hsorted
      subst hsorted
      refine ⟨rest, Or.inr ⟨t, hperm⟩, ?_⟩
      rw [shared_threadUnblock h, shared_setSema]

theorem current_semaWake {s : SemaId} (h : k.semaWake s = some k') :
    k'.current = k.current := by
  rw [semaWake] at h
  split at h
  · rw [← Option.some.inj h]
  · obtain ⟨sorted, -, h⟩ := Option.bind_eq_some_iff.mp h
    split at h
    · cases h
    · rw [current_threadUnblock h]
      rfl

theorem semaDown_of_zero {s : SemaId} (h : (k.sema s).value = 0) :
    k.semaDown s =
      ((k.intrDisable.setSema s fun sema =>
        { sema with waiters :=
          sema.waiters.orderedInsert (fun t u => k.threadCmpPri t u) k.current }).goto
            (.down s)).threadBlock := if_pos h

theorem semaDown_of_ne_zero {s : SemaId} (h : (k.sema s).value ≠ 0) :
    k.semaDown s =
      ((k.intrDisable.setSema s fun sema =>
        { sema with value := sema.value - 1, downs := sema.downs + 1 }).goto
          (afterDown s)).intrEnable := if_neg h

theorem semaDown_step {op : Option Op} {s : SemaId} (h : k.cur.pc.Downs k.current s) :
    SharedStep k.current op k.shared (k.semaDown s).shared := by
  by_cases hzero : (k.sema s).value = 0
  · rw [semaDown_of_zero hzero, shared_threadBlock, shared_goto, shared_setSema]
    exact .block h hzero (List.perm_orderedInsert _ _ _)
  · rw [semaDown_of_ne_zero hzero, shared_intrEnable, shared_goto, shared_setSema]
    exact .pass h hzero

theorem shared_semaUp {s : SemaId} (h : k.semaUp s = some k') :
    ∃ waiters, ((k.sema s).waiters = [] ∧ waiters = [] ∨
        ∃ t, (t :: waiters).Perm (k.sema s).waiters) ∧
      k'.shared = k.shared.setSema s
        { k.sema s with
          value := ((k.sema s).value + 1) % 2 ^ 32
          waiters := waiters
          ups := (k.sema s).ups + 1 } := by
  obtain ⟨k₁, hwake, h⟩ := Option.bind_eq_some_iff.mp h
  obtain ⟨waiters, hwaiters, hk₁⟩ := semaWake_spec hwake
  refine ⟨waiters, hwaiters, ?_⟩
  have hsema : k₁.sema s = { k.sema s with waiters := waiters } := by
    rw [← shared_sema, hk₁]
    exact Function.update_self _ _ _
  rw [← Option.some.inj h, shared_threadYield, shared_setRestore, shared_setSema, hsema,
    hk₁, shared_intrDisable]
  simp only [Shared.setSema, Function.update_idem]

theorem semaUp_step {op : Option Op} {s : SemaId} (h : k.cur.pc.Ups s)
    (hup : (k.goto .next).semaUp s = some k') :
    SharedStep k.current op k.shared k'.shared := by
  obtain ⟨waiters, hwaiters, hk'⟩ := shared_semaUp hup
  rw [hk', shared_goto]
  exact .up h hwaiters

theorem shared_setHolder (k : Kernel) (l : LockId) :
    (k.setHolder l).shared = { k.shared.goto k.current .next with
      inside := Function.update k.shared.inside k.current
        (l :: k.shared.inside k.current)
      holder := Function.update k.shared.holder l (some k.current) } := by
  rw [setHolder, shared_intrEnable, shared_goto]
  change Shared.goto ((k.setLock l _).modify k.current _).shared k.current .next = _
  rw [shared_setInside, shared_setLock]
  rfl

theorem lockTaken_maxPri (k : Kernel) (l : LockId) :
    ((k.lockTaken l).lock l).maxPri = (k.lockTaken l).cur.priority := by
  simp [lockTaken, threadGetLock, setLock, modify, cur, intrDisable]

/-- The lock has just been given the priority of the thread, so that
`thread_get_lock` does not yield. -/
theorem lockTake_eq (k : Kernel) (l : LockId) :
    k.lockTake l = (k.lockTaken l).setHolder l := by
  rw [lockTake]
  simp only [lockTaken_maxPri, gt_iff_lt, lt_irrefl, ↓reduceIte]

theorem shared_lockTaken (k : Kernel) (l : LockId) :
    (k.lockTaken l).shared = { k.shared with
      waitingLock := Function.update k.shared.waitingLock k.current none } := by
  rw [lockTaken, shared_threadGetLock, shared_setMaxPri, shared_setWaitingLock]
  rfl

theorem lockTake_step {op : Option Op} {l : LockId} (h : k.cur.pc = .take l) :
    SharedStep k.current op k.shared (k.lockTake l).shared := by
  rw [lockTake_eq, shared_setHolder, shared_lockTaken]
  exact .take h

theorem shared_threadCreate {priority : Int}
    (hfresh : (k.threads k.count).Unused) :
    Kernel.shared { k with
      threads := Function.update k.threads k.count (initThread priority)
      count := k.count + 1 } = k.shared := by
  have hmodify := @shared_modify_same k k.count (fun _ => initThread priority)
    hfresh.pc.symm hfresh.waitingLock.symm hfresh.inside.symm
  exact hmodify

theorem begin_step {rest : List Op} {op : Op} (h : k.cur.pc = .next)
    (hfresh : (k.threads k.count).Unused)
    (hbegin : k.begin rest op = some k') :
    SharedStep k.current (some op) k.shared k'.shared := by
  have hquiet : (k.shared.pc k.current).isQuiet := by
    change k.cur.pc.isQuiet
    rw [h]
    rfl
  cases op with
  | threadYield =>
      rw [← Option.some.inj hbegin, shared_threadYield, shared_setRestore]
      exact .stay _
  | threadBlock =>
      rw [← Option.some.inj hbegin, shared_threadBlock, shared_goto]
      exact .move hquiet (Or.inl rfl)
  | threadUnblock t =>
      simp only [begin] at hbegin
      split at hbegin
      · rw [shared_threadUnblock hbegin]
        exact .stay _
      · cases hbegin
  | threadCreate priority =>
      simp only [begin] at hbegin
      split at hbegin
      · rw [← Option.some.inj hbegin, shared_setOps, shared_threadCreate hfresh]
        exact .stay _
      · cases hbegin
  | allocateTid t =>
      rw [← Option.some.inj hbegin, shared_modify_same _ _ rfl rfl rfl]
      exact .stay _
  | startThread t =>
      rw [shared_threadUnblock hbegin]
      exact .stay _
  | yieldTo priority =>
      simp only [begin] at hbegin
      split at hbegin
      · rw [← Option.some.inj hbegin, shared_threadYield, shared_setRestore]
        exact .stay _
      · rw [← Option.some.inj hbegin]
        exact .stay _
  | threadSetPriority priority =>
      rw [← Option.some.inj hbegin, shared_threadSetPriority]
      exact .stay _
  | timerSleep ticks =>
      simp only [begin] at hbegin
      split at hbegin
      · rw [← Option.some.inj hbegin]
        exact .stay _
      · rw [← Option.some.inj hbegin, shared_threadBlock, shared_goto,
          shared_modify_same _ _ rfl rfl rfl]
        exact .move hquiet (Or.inl rfl)
  | semaDown n =>
      rw [← Option.some.inj hbegin]
      exact semaDown_step (h ▸ .sema n)
  | semaTryDown n =>
      rw [← Option.some.inj hbegin]
      by_cases hpositive : (k.sema (.sema n)).value > 0
      · rw [show k.semaTryDown (.sema n) = _ from if_pos hpositive, shared_setSema]
        exact .tryDown h (Nat.ne_of_gt hpositive)
      · rw [show k.semaTryDown (.sema n) = k from if_neg hpositive]
        exact .stay _
  | semaUp n =>
      refine @semaUp_step k k' (some (.semaUp n)) (.sema n) (h ▸ .sema n) ?_
      rw [goto_self h]
      exact hbegin
  | lockAcquire l =>
      simp only [begin] at hbegin
      split at hbegin
      · cases hbegin
      case isFalse hother =>
        split at hbegin
        case isTrue hheld =>
          rw [← Option.some.inj hbegin, shared_goto]
          exact .held h hother hheld
        case isFalse hfree =>
          rw [← Option.some.inj hbegin, shared_goto]
          exact .free h (not_not.mp hfree)
  | lockRelease l =>
      simp only [begin] at hbegin
      split at hbegin
      case isTrue hholder =>
        rw [← Option.some.inj hbegin, shared_goto, shared_setInside, shared_setLock]
        exact .release h rfl hholder
      · cases hbegin
  | condWait c l =>
      simp only [begin] at hbegin
      split at hbegin
      · rw [← Option.some.inj hbegin, shared_setOps, shared_setCond, shared_setSema]
        exact .waiterInit h
      · cases hbegin
  | waiterDown =>
      rw [← Option.some.inj hbegin]
      exact semaDown_step (h ▸ .waiter)
  | condSignal c l =>
      simp only [begin] at hbegin
      split at hbegin
      · split at hbegin
        · rw [← Option.some.inj hbegin]
          exact .stay _
        · rw [← Option.some.inj hbegin, shared_goto]
          exact .move hquiet (Or.inl rfl)
      · cases hbegin
  | condBroadcast c l =>
      simp only [begin] at hbegin
      split at hbegin
      · rw [← Option.some.inj hbegin]
        exact .stay _
      · rw [← Option.some.inj hbegin, shared_setOps]
        exact .stay _

/-- The call that the running thread is about to start. -/
def calling (k : Kernel) : Option Op :=
  match k.cur.pc with
  | .next => k.cur.ops.head?
  | _ => none

theorem advance_step (hfresh : (k.threads k.count).Unused)
    (hcur : k.current < k.count) (h : k.advance k.cur.pc = some k') :
    SharedStep k.current k.calling k.shared k'.shared := by
  obtain ⟨pc, hpc⟩ : ∃ pc, k.cur.pc = pc := ⟨_, rfl⟩
  have hquiet : pc.isQuiet → (k.shared.pc k.current).isQuiet := fun hq => by
    rwa [show k.shared.pc k.current = pc from hpc]
  rw [hpc] at h
  cases pc with
  | next =>
      simp only [advance] at h
      split at h
      · cases h
      case h_2 op rest hops =>
        have hstep := @begin_step (k.setOps rest) k' rest op (by simpa using hpc)
          (by simpa [setOps, modify, Function.update_of_ne hcur.ne'] using hfresh) h
        have hcalling : k.calling = some op := by
          simp only [calling, hpc, hops, List.head?_cons]
        rw [hcalling]
        simpa using hstep
  | setWaiting l =>
      rw [← Option.some.inj h, shared_goto, shared_setWaitingLock]
      exact .waits hpc
  | donateTest l lk =>
      cases lk with
      | none =>
          rw [← Option.some.inj h, shared_goto]
          exact .stops hpc
      | some lk =>
          simp only [advance] at h
          split at h
          · rw [← Option.some.inj h, shared_goto]
            exact .passes hpc
          · rw [← Option.some.inj h, shared_goto]
            exact .stops hpc
  | donateMax l lk =>
      rw [← Option.some.inj h, shared_goto, shared_setMaxPri]
      exact .raises hpc
  | donatePri l lk =>
      obtain ⟨holder, -, h⟩ := Option.bind_eq_some_iff.mp h
      obtain ⟨k₁, hdonate, h⟩ := Option.bind_eq_some_iff.mp h
      rw [← Option.some.inj h, shared_goto, shared_threadDonatePri hdonate,
        current_threadDonatePri hdonate]
      exact .donates hpc
  | donateNext l lk =>
      obtain ⟨holder, hholder, h⟩ := Option.bind_eq_some_iff.mp h
      rw [← Option.some.inj h, shared_goto]
      exact .follows hpc hholder
  | acquireDown l =>
      rw [← Option.some.inj h]
      exact semaDown_step (hpc ▸ .acquire l)
  | down s =>
      rw [← Option.some.inj h]
      exact semaDown_step (hpc ▸ .again s)
  | take l =>
      rw [← Option.some.inj h]
      exact lockTake_step hpc
  | setHolder l =>
      rw [← Option.some.inj h, shared_setHolder]
      exact .setHolder hpc
  | removeLock l =>
      obtain ⟨k₁, hremove, h⟩ := Option.bind_eq_some_iff.mp h
      rw [← Option.some.inj h, shared_goto, shared_threadRemoveLock hremove,
        current_threadRemoveLock hremove]
      exact .removed hpc
  | releaseUp l => exact semaUp_step (hpc ▸ .release l) h
  | condSort c sort =>
      cases sort with
      | done result =>
          simp only [advance] at h
          split at h
          · rw [← Option.some.inj h, shared_goto, shared_setCond]
            exact .move (hquiet rfl) (Or.inl rfl)
          · rw [← Option.some.inj h, shared_goto, shared_setCond]
            exact .move (hquiet rfl) (Or.inl rfl)
      | failed => cases h
      | compare x y next =>
          obtain ⟨less, -, h⟩ := Option.bind_eq_some_iff.mp h
          rw [← Option.some.inj h, shared_goto]
          exact .move (hquiet rfl) (Or.inl rfl)
  | condSorted c sorted =>
      cases sorted with
      | done result =>
          simp only [advance] at h
          split at h
          · rw [← Option.some.inj h, shared_goto]
            exact .move (hquiet rfl) (Or.inl rfl)
          · cases h
      | failed => cases h
      | compare x y next =>
          obtain ⟨less, -, h⟩ := Option.bind_eq_some_iff.mp h
          rw [← Option.some.inj h, shared_goto]
          exact .move (hquiet rfl) (Or.inl rfl)
  | condPop c =>
      simp only [advance] at h
      split at h
      · cases h
      case h_2 t rest hwaiters =>
        rw [← Option.some.inj h, shared_goto, shared_setCond]
        exact .move (hquiet rfl) (Or.inr ⟨t, rfl⟩)
  | condUp t => exact semaUp_step (hpc ▸ .waiter t) h
  | asleep =>
      rw [← Option.some.inj h, shared_intrEnable, shared_goto]
      exact .move (hquiet rfl) (Or.inl rfl)
  | parked =>
      rw [← Option.some.inj h, shared_intrEnable, shared_goto]
      exact .move (hquiet rfl) (Or.inl rfl)
  | idleBlock =>
      rw [← Option.some.inj h, shared_threadBlock, shared_goto]
      exact .move (hquiet rfl) (Or.inl rfl)
  | idleWake =>
      rw [← Option.some.inj h, shared_intrEnable, shared_goto]
      exact .move (hquiet rfl) (Or.inl rfl)

theorem step_run (hrestore : k.cur.restore = false) :
    k.step .run = k.advance k.cur.pc :=
  if_neg (by rw [hrestore]; exact fun h => by cases h)

/-- What threads share changes when the running thread goes on where it is. -/
theorem step_shared {act : KernelAct} (hfresh : (k.threads k.count).Unused)
    (hcur : k.current < k.count) (h : k.step act = some k') :
    k'.shared = k.shared ∨ act = .run ∧ k.cur.restore = false ∧
      SharedStep k.current k.calling k.shared k'.shared := by
  cases act with
  | tick allList =>
      simp only [step] at h
      split at h
      · exact Or.inl (shared_timerInterrupt h)
      · cases h
  | call op =>
      simp only [step] at h
      split at h
      · rw [← Option.some.inj h, shared_setOps]
        exact Or.inl rfl
      · cases h
  | run =>
      simp only [step] at h
      split at h
      · rw [← Option.some.inj h, shared_intrEnable, shared_setRestore]
        exact Or.inl rfl
      case isFalse hrestore =>
        exact Or.inr ⟨rfl, Bool.eq_false_of_not_eq_true hrestore,
          advance_step hfresh hcur h⟩

end Kernel

end PintosLabs
