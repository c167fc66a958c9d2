/-
What a step of the kernel does to a thread in `cond_wait` and to one in
`cond_signal`.  The queues of the conditions change at three places only, and
what a thread has still to call changes where it begins a call.
-/
import PintosLabs.KernelRuns

namespace PintosLabs

/-- What the threads have still to call, the queues of the conditions, and the
priorities of all threads but one. -/
@[ext] structure Plans where
  ops : ThreadId → List Op
  cond : CondId → List ThreadId
  priority : ThreadId → Int

namespace Kernel

def ops (k : Kernel) (t : ThreadId) : List Op := (k.threads t).ops

def plans (k : Kernel) (t : ThreadId) : Plans where
  ops := k.ops
  cond := k.cond
  priority u := if u = t then 0 else k.priority u

section Plans

variable {k k' : Kernel} {t : ThreadId}

theorem plans_modify_same (k : Kernel) (u : ThreadId) {f : Thread → Thread}
    (hops : (f (k.threads u)).ops = (k.threads u).ops)
    (hpriority : u ≠ t → (f (k.threads u)).priority = (k.threads u).priority) :
    (k.modify u f).plans t = k.plans t := by
  refine Plans.ext (funext fun v => ?_) rfl (funext fun v => ?_)
  · by_cases hv : v = u
    · subst hv
      exact (congrArg Thread.ops (modify_self v f)).trans hops
    · exact congrArg Thread.ops (modify_of_ne hv f)
  · by_cases hvt : v = t
    · simp only [plans, if_pos hvt]
    · simp only [plans, if_neg hvt, priority]
      by_cases hv : v = u
      · subst hv
        rw [modify_self, hpriority hvt]
      · rw [modify_of_ne hv]

variable (k)

@[simp] theorem plans_goto (pc : Pc) : (k.goto pc).plans t = k.plans t :=
  k.plans_modify_same _ rfl fun _ => rfl

@[simp] theorem plans_setRestore (restore : Bool) :
    (k.setRestore restore).plans t = k.plans t := k.plans_modify_same _ rfl fun _ => rfl

@[simp] theorem plans_setStatus (u : ThreadId) (status : ThreadStatus) :
    (k.setStatus u status).plans t = k.plans t := k.plans_modify_same _ rfl fun _ => rfl

@[simp] theorem plans_setPriority (priority : Int) :
    (k.setPriority t priority).plans t = k.plans t :=
  k.plans_modify_same _ rfl fun h => absurd rfl h

@[simp] theorem plans_setSema (s : SemaId) (f : Semaphore → Semaphore) :
    (k.setSema s f).plans t = k.plans t := rfl

@[simp] theorem plans_setLock (l : LockId) (f : Lock → Lock) :
    (k.setLock l f).plans t = k.plans t := rfl

@[simp] theorem plans_intrEnable : k.intrEnable.plans t = k.plans t := rfl

@[simp] theorem plans_intrDisable : k.intrDisable.plans t = k.plans t := rfl

@[simp] theorem plans_insertReady (u : ThreadId) : (k.insertReady u).plans t = k.plans t :=
  rfl

@[simp] theorem plans_schedule : k.schedule.plans t = k.plans t := plans_setStatus _ _ _

@[simp] theorem plans_threadBlock : k.threadBlock.plans t = k.plans t := by
  rw [threadBlock, plans_schedule, plans_setStatus]

@[simp] theorem plans_threadYield : k.threadYield.plans t = k.plans t := by
  rw [threadYield, plans_schedule, plans_setStatus]
  split <;> rfl

@[simp] theorem plans_semaDown (s : SemaId) : (k.semaDown s).plans t = k.plans t := by
  by_cases hzero : (k.sema s).value = 0
  · rw [semaDown_of_zero hzero]
    simp
  · rw [semaDown_of_ne_zero hzero]
    simp

@[simp] theorem plans_semaTryDown (s : SemaId) : (k.semaTryDown s).plans t = k.plans t := by
  rw [semaTryDown]
  split <;> rfl

@[simp] theorem plans_setHolder (l : LockId) : (k.setHolder l).plans t = k.plans t := by
  rw [setHolder, plans_intrEnable, plans_goto]
  exact plans_modify_same _ _ rfl fun _ => rfl

@[simp] theorem plans_lockTake (l : LockId) : (k.lockTake l).plans t = k.plans t := by
  rw [lockTake_eq, plans_setHolder, lockTaken, threadGetLock,
    plans_modify_same _ _ rfl fun _ => rfl, plans_setLock,
    plans_modify_same _ _ rfl fun _ => rfl, plans_intrDisable]

theorem plans_threadSetPriority (newPriority : Int) :
    (k.threadSetPriority newPriority).plans k.current = k.plans k.current := by
  have horiginal : (k.modify k.current fun t =>
      { t with originalPri := newPriority }).plans k.current = k.plans k.current :=
    plans_modify_same _ _ rfl fun _ => rfl
  rw [threadSetPriority]
  split
  · rw [plans_threadYield, plans_setRestore]
    exact (plans_setPriority _ _).trans horiginal
  · exact horiginal

variable {k}

theorem plans_threadUnblock {u : ThreadId} (hk' : k.threadUnblock u = some k') :
    k'.plans t = k.plans t := by
  rw [threadUnblock] at hk'
  split at hk'
  · rw [← Option.some.inj hk', plans_setStatus, plans_insertReady]
  · cases hk'

theorem plans_semaUp {s : SemaId} (hk' : k.semaUp s = some k') :
    k'.plans t = k.plans t := by
  obtain ⟨k₁, hwake, hk'⟩ := Option.bind_eq_some_iff.mp hk'
  have hwoken : k₁.plans t = k.plans t := by
    rw [semaWake] at hwake
    split at hwake
    · rw [← Option.some.inj hwake, plans_intrDisable]
    · obtain ⟨sorted, -, hwake⟩ := Option.bind_eq_some_iff.mp hwake
      split at hwake
      · cases hwake
      · rw [plans_threadUnblock hwake, plans_setSema, plans_intrDisable]
  rw [← Option.some.inj hk', plans_threadYield, plans_setRestore, plans_setSema, hwoken]

theorem plans_threadUpdatePri (hk' : k.threadUpdatePri t = some k') :
    k'.plans t = k.plans t := by
  obtain ⟨locks, priority, hupdate, -⟩ := k.threadUpdatePri_spec t
  rw [hupdate] at hk'
  rw [← Option.some.inj hk']
  exact plans_modify_same _ _ rfl fun h => absurd rfl h

theorem plans_threadDonatePri (hk' : k.threadDonatePri t = some k') :
    k'.plans t = k.plans t := by
  obtain ⟨k₁, hupdate, hk'⟩ := Option.bind_eq_some_iff.mp hk'
  rw [← plans_threadUpdatePri hupdate]
  split at hk' <;> rw [← Option.some.inj hk']
  rfl

theorem plans_threadRemoveLock {l : LockId} (hk' : k.threadRemoveLock l = some k') :
    k'.plans k.current = k.plans k.current := by
  rw [threadRemoveLock] at hk'
  split at hk'
  · rw [plans_threadUpdatePri hk']
    exact plans_modify_same _ _ rfl fun _ => rfl
  · cases hk'

theorem plans_threadBCheck {u : ThreadId} (hk' : k.threadBCheck u = some k') :
    k'.plans t = k.plans t := by
  have hticked : (k.modify u fun t => { t with bTick := t.bTick - 1 }).plans t =
      k.plans t := plans_modify_same _ _ rfl fun _ => rfl
  rw [threadBCheck] at hk'
  split at hk'
  · dsimp only at hk'
    split at hk'
    · rw [plans_threadUnblock hk', hticked]
    · rw [← Option.some.inj hk', hticked]
  · rw [← Option.some.inj hk']

theorem plans_threadForeach {allList : List ThreadId}
    (hk' : k.threadForeach allList = some k') : k'.plans t = k.plans t := by
  induction allList generalizing k with
  | nil => rw [← Option.some.inj hk']
  | cons u rest ih =>
      obtain ⟨k₁, hcheck, hrest⟩ := Option.bind_eq_some_iff.mp hk'
      rw [ih hrest, plans_threadBCheck hcheck]

theorem plans_timerInterrupt {allList : List ThreadId}
    (hk' : k.timerInterrupt allList = some k') : k'.plans t = k.plans t := by
  obtain ⟨k₁, hforeach, hk'⟩ := Option.bind_eq_some_iff.mp hk'
  have hplans : k₁.plans t = k.plans t := (plans_threadForeach hforeach).trans rfl
  split at hk' <;> rw [← Option.some.inj hk']
  · rw [plans_threadYield, plans_setRestore, hplans]
  · exact hplans

end Plans

end Kernel

/-- The condition on which a thread at this place in `cond_signal` sorts or pops. -/
def Pc.signals : Pc → Option CondId
  | condSort c _ | condSorted c _ | condPop c => some c
  | _ => none

/-- A place that is neither in `cond_signal` nor in `sema_down` in `cond_wait`. -/
def Pc.isPlain : Pc → Bool
  | condSort _ _ | condSorted _ _ | condPop _ | condUp _ | down (.waiter _) => false
  | _ => true

/-- A thread in `cond_wait` that has released the lock. -/
def Thread.Released (thread : Thread) (t : ThreadId) : Prop :=
  thread.pc = .down (.waiter t) ∨ thread.pc = .next ∧ ∃ rest, thread.ops = .waiterDown :: rest

/-- A call that neither starts nor goes on with `cond_wait`, or releases a lock. -/
def Op.isPlain : Op → Bool
  | lockRelease _ | condWait _ _ | waiterDown => false
  | _ => true

namespace Kernel

/-- A step, as a thread in `cond_wait` or `cond_signal` sees it; the thread that goes on
is the running thread. -/
inductive CondStep (k k' : Kernel) : Prop
  | stay (shared : k'.shared = k.shared) (ops : k'.ops = k.ops) (cond : k'.cond = k.cond)
  | call {op : Op} (isCall : op.isCall = true) (before : k.cur.pc = .next)
      (nothing : k.cur.ops = []) (shared : k'.shared = k.shared)
      (ops : k'.ops = Function.update k.ops k.current [op])
      (cond : k'.cond = k.cond)
  /-- Inside of a function that is not `cond_signal`. -/
  | goOn (before : k.cur.pc ≠ .next) (other : k.cur.pc.signals = none)
      (after : (k'.threads k.current).pc.signals = none)
      (up : ∀ t, (k'.threads k.current).pc = .condUp t → k.cur.pc = .condUp t)
      (ops : k'.ops = k.ops) (cond : k'.cond = k.cond)
  | begins {op : Op} {rest more : List Op} (plain : op.isPlain = true)
      (new : .waiterDown ∉ more) (before : k.cur.pc = .next) (calls : k.cur.ops = op :: rest)
      (waiters : ∀ t, k'.sema (.waiter t) = k.sema (.waiter t))
      (after : (k'.threads k.current).pc.isPlain = true)
      (ops : k'.ops = Function.update k.ops k.current (more ++ rest))
      (cond : k'.cond = k.cond)
  | releases {l : LockId} {rest : List Op} (before : k.cur.pc = .next)
      (calls : k.cur.ops = .lockRelease l :: rest)
      (shared : k'.shared = { k.shared.goto k.current (.removeLock l) with
        inside := Function.update k.shared.inside k.current
          (k.cur.inside.filter fun m => m ≠ l)
        holder := Function.update k.shared.holder l none })
      (ops : k'.ops = Function.update k.ops k.current rest)
      (cond : k'.cond = k.cond)
  | waits {c : CondId} {l : LockId} {rest : List Op} (before : k.cur.pc = .next)
      (calls : k.cur.ops = .condWait c l :: rest) (holder : (k.lock l).holder = some k.current)
      (shared : k'.shared = k.shared.setSema (.waiter k.current) (semaInit 0))
      (ops : k'.ops = Function.update k.ops k.current
        (.lockRelease l :: .waiterDown :: .lockAcquire l :: rest))
      (cond : k'.cond = Function.update k.cond c (k.cond c ++ [k.current]))
  | downs {rest : List Op} {pc : Pc} {sema : Semaphore} (before : k.cur.pc = .next)
      (calls : k.cur.ops = .waiterDown :: rest)
      (place : pc = .down (.waiter k.current) ∧ (k.sema (.waiter k.current)).value = 0 ∧
          sema.value = 0 ∨ pc = .next ∧ (k.sema (.waiter k.current)).value ≠ 0)
      (shared : k'.shared = (k.shared.goto k.current pc).setSema (.waiter k.current) sema)
      (ops : k'.ops = Function.update k.ops k.current rest) (cond : k'.cond = k.cond)
  | signals {c : CondId} {l : LockId} {rest : List Op} (before : k.cur.pc = .next)
      (calls : k.cur.ops = .condSignal c l :: rest)
      (holder : (k.lock l).holder = some k.current) (queued : k.cond c ≠ [])
      (shared : k'.shared = k.shared.goto k.current
        (.condSort c (sortPass (k.cond c).length (k.cond c))))
      (ops : k'.ops = Function.update k.ops k.current rest)
      (cond : k'.cond = k.cond)
  | compares {c : CondId} {x y : ThreadId} {less : Bool} {pc pc' : Pc}
      (place : (∃ next, pc = .condSort c (.compare x y next) ∧
          pc' = .condSort c (next less)) ∨
        ∃ next, pc = .condSorted c (.compare x y next) ∧ pc' = .condSorted c (next less))
      (before : k.cur.pc = pc) (answer : k.condSemaCmpPri x y = some less)
      (shared : k'.shared = k.shared.goto k.current pc')
      (ops : k'.ops = k.ops) (cond : k'.cond = k.cond)
  | passed {c : CondId} {waiters : List ThreadId} {runs : Nat}
      (before : k.cur.pc = .condSort c (.done (waiters, runs)))
      (shared : k'.shared = k.shared.goto k.current
        (if runs > 1 then .condSort c (sortPass waiters.length waiters)
        else .condSorted c (isSorted waiters)))
      (ops : k'.ops = k.ops)
      (cond : k'.cond = Function.update k.cond c waiters)
  | checked {c : CondId} (before : k.cur.pc = .condSorted c (.done true))
      (shared : k'.shared = k.shared.goto k.current (.condPop c))
      (ops : k'.ops = k.ops) (cond : k'.cond = k.cond)
  | pops {c : CondId} {t : ThreadId} {rest : List ThreadId} (before : k.cur.pc = .condPop c)
      (queue : k.cond c = t :: rest)
      (shared : k'.shared = k.shared.goto k.current (.condUp t))
      (ops : k'.ops = k.ops)
      (cond : k'.cond = Function.update k.cond c rest)

/-- Of a thread that has no lock, and is not the running thread unless that has released
the lock in `cond_wait`, the priority stays. -/
def KeepsPriorities (k k' : Kernel) : Prop :=
  ∀ t, (t = k.current → k.cur.Released t) → t ≠ k.count →
    (∀ l, (k.lock l).holder ≠ some t) → k'.priority t = k.priority t

section Step

variable {k k' : Kernel} {op : Op} {rest : List Op}

theorem ops_of_plans {t : ThreadId} (h : k'.plans t = k.plans t) : k'.ops = k.ops :=
  congrArg Plans.ops h

theorem cond_of_plans {t : ThreadId} (h : k'.plans t = k.plans t) : k'.cond = k.cond :=
  congrArg Plans.cond h

theorem priority_of_plans {t u : ThreadId} (h : k'.plans t = k.plans t) (hu : u ≠ t) :
    k'.priority u = k.priority u := by
  have hpriority := congrFun (congrArg Plans.priority h) u
  simpa only [plans, if_neg hu] using hpriority

theorem priority_eq_of_plans (h : ∀ t, k'.plans t = k.plans t) : k'.priority = k.priority :=
  funext fun t => priority_of_plans (h (t + 1)) (Nat.ne_of_lt t.lt_succ_self)

theorem keepsPriorities_of_eq (h : k'.priority = k.priority) : k.KeepsPriorities k' :=
  fun _ _ _ _ => congrFun h _

theorem keepsPriorities_of_plans (hreleased : ¬ k.cur.Released k.current)
    (h : k'.plans k.current = k.plans k.current) : k.KeepsPriorities k' :=
  fun t ht _ _ => priority_of_plans h fun hcurrent =>
    hreleased (by subst hcurrent; exact ht rfl)

theorem not_released_of_ops (hpc : k.cur.pc = .next) (hops : k.cur.ops = op :: rest)
    (hop : op ≠ .waiterDown) : ¬ k.cur.Released k.current := by
  rintro (h | ⟨-, rest', h⟩)
  · rw [hpc] at h
    cases h
  · rw [hops] at h
    exact hop (List.cons.inj h).1

theorem not_released_of_pc {pc : Pc} (hpc : k.cur.pc = pc) (hnext : pc ≠ .next)
    (hdown : ∀ s, pc ≠ .down s) : ¬ k.cur.Released k.current := by
  rintro (h | ⟨h, -⟩)
  · exact hdown _ (hpc.symm.trans h)
  · exact hnext (hpc.symm.trans h)

theorem ops_setOps (k : Kernel) (ops : List Op) :
    (k.setOps ops).ops = Function.update k.ops k.current ops := by
  funext t
  by_cases ht : t = k.current
  · subst ht
    rw [Function.update_self]
    exact congrArg Thread.ops (modify_self _ _)
  · rw [Function.update_of_ne ht]
    exact congrArg Thread.ops (modify_of_ne ht _)

theorem priority_setOps (k : Kernel) (ops : List Op) : (k.setOps ops).priority = k.priority := by
  funext t
  by_cases ht : t = k.current
  · subst ht
    change ((k.setOps ops).threads k.current).priority = _
    rw [setOps, modify_self]
    rfl
  · exact congrArg Thread.priority (modify_of_ne ht _)

/-- A plain call, after which the thread is at a plain place. -/
theorem begins_of (hpc : k.cur.pc = .next) (hops : k.cur.ops = op :: rest)
    (hplain : op.isPlain = true) {pc : Pc} (hplace : pc.isPlain = true)
    (hplans : k'.plans k.current = (k.setOps rest).plans k.current)
    (hshared : k'.shared = k.shared.goto k.current pc ∨ ∃ n sema,
      k'.shared = (k.shared.goto k.current pc).setSema (.sema n) sema) :
    CondStep k k' ∧ k.KeepsPriorities k' := by
  have hwaiters : ∀ t, k'.shared.sema (.waiter t) = k.shared.sema (.waiter t) := by
    intro t
    rcases hshared with hshared | ⟨n, sema, hshared⟩
    · rw [hshared]
      rfl
    · rw [hshared, Shared.setSema_of_ne _ (fun h => by cases h)]
      rfl
  have hafter : k'.shared.pc k.current = pc := by
    rcases hshared with hshared | ⟨n, sema, hshared⟩ <;> rw [hshared]
    · exact Shared.goto_self _ _ _
    · exact Shared.goto_self _ _ _
  refine ⟨@CondStep.begins k k' op rest [] hplain List.not_mem_nil hpc hops hwaiters ?_ ?_ ?_,
    ?_⟩
  · rw [← shared_pc, hafter]
    exact hplace
  · rw [ops_of_plans hplans, ops_setOps]
    rfl
  · exact (cond_of_plans hplans).trans rfl
  · intro t ht _ _
    rw [priority_of_plans hplans fun h => ?_, priority_setOps]
    refine not_released_of_ops hpc hops (fun h => ?_) (h ▸ ht h)
    rw [h] at hplain
    cases hplain

/-- A plain call that stays where it is. -/
theorem begins_stay (hpc : k.cur.pc = .next) (hops : k.cur.ops = op :: rest)
    (hplain : op.isPlain = true)
    (hplans : k'.plans k.current = (k.setOps rest).plans k.current)
    (hshared : k'.shared = k.shared) : CondStep k k' ∧ k.KeepsPriorities k' := by
  refine @begins_of k k' op rest hpc hops hplain .next rfl hplans (Or.inl ?_)
  rw [hshared, ← hpc]
  exact (Shared.goto_pc_self _ _).symm

/-- A plain call that is made of others. -/
theorem begins_more (hpc : k.cur.pc = .next) (hops : k.cur.ops = op :: rest)
    (hplain : op.isPlain = true) {more : List Op} (hnew : .waiterDown ∉ more) {k₁ : Kernel}
    (hcurrent : k₁.current = k.current)
    (hops₁ : k₁.ops = Function.update k.ops k.current rest) (hcond : k₁.cond = k.cond)
    (hshared : k₁.shared = k.shared)
    (hpriority : ∀ t, t ≠ k.count → k₁.priority t = k.priority t) :
    CondStep k (k₁.setOps (more ++ rest)) ∧ k.KeepsPriorities (k₁.setOps (more ++ rest)) := by
  have hshared' : (k₁.setOps (more ++ rest)).shared = k.shared := by
    rw [shared_setOps, hshared]
  refine ⟨.begins hplain hnew hpc hops (fun t => ?_) ?_ ?_ hcond, fun t _ ht _ => ?_⟩
  · exact congrFun (congrArg Shared.sema hshared') _
  · rw [← shared_pc, hshared', shared_pc]
    exact congrArg Pc.isPlain hpc
  · rw [ops_setOps, hops₁, hcurrent, Function.update_idem]
  · rw [priority_setOps, hpriority t ht]

theorem shared_semaDown (k : Kernel) (s : SemaId) :
    ∃ pc sema, (pc = .down s ∧ (k.sema s).value = 0 ∧ sema.value = 0 ∨
        pc = afterDown s ∧ (k.sema s).value ≠ 0) ∧
      (k.semaDown s).shared = (k.shared.goto k.current pc).setSema s sema := by
  by_cases hzero : (k.sema s).value = 0
  · refine ⟨.down s, { k.sema s with waiters :=
      (k.sema s).waiters.orderedInsert (fun t u => k.threadCmpPri t u) k.current },
      Or.inl ⟨rfl, hzero, hzero⟩, ?_⟩
    rw [semaDown_of_zero hzero, shared_threadBlock, shared_goto, shared_setSema]
    rfl
  · rw [semaDown_of_ne_zero hzero, shared_intrEnable, shared_goto, shared_setSema]
    exact ⟨_, _, Or.inr ⟨rfl, hzero⟩, rfl⟩

/-- The start of a call. -/
theorem begin_cond (hpc : k.cur.pc = .next) (hops : k.cur.ops = op :: rest)
    (hfresh : (k.threads k.count).Unused) (hcur : k.current ≠ k.count)
    (h : (k.setOps rest).begin rest op = some k') :
    CondStep k k' ∧ k.KeepsPriorities k' := by
  obtain ⟨k₀, hk₀⟩ : ∃ k₀, k.setOps rest = k₀ := ⟨_, rfl⟩
  have hcurrent : k₀.current = k.current := hk₀ ▸ rfl
  have hshared₀ : k₀.shared = k.shared := by rw [← hk₀, shared_setOps]
  have hnext : k.shared.goto k.current .next = k₀.shared := by
    rw [hshared₀, ← hpc]
    exact Shared.goto_pc_self _ _
  have hsetOps : k₀.ops = Function.update k.ops k.current rest := by rw [← hk₀, ops_setOps]
  have hcond : k₀.cond = k.cond := by
    rw [← hk₀]
    rfl
  have hpriority : k₀.priority = k.priority := by rw [← hk₀, priority_setOps]
  have hholder : ∀ {l}, (k₀.lock l).holder = some k₀.current →
      (k.lock l).holder = some k.current := by
    intro l h
    rwa [← hk₀] at h
  have hstay : op.isPlain = true → k'.plans k.current = k₀.plans k.current →
      k'.shared = k₀.shared → CondStep k k' ∧ k.KeepsPriorities k' :=
    fun hplain hplans hshared =>
      begins_stay hpc hops hplain (hk₀ ▸ hplans) (hshared.trans hshared₀)
  have hgoto : op.isPlain = true → ∀ pc : Pc, pc.isPlain = true →
      k'.plans k.current = k₀.plans k.current →
      k'.shared = k₀.shared.goto k₀.current pc → CondStep k k' ∧ k.KeepsPriorities k' :=
    fun hplain pc hplace hplans hshared =>
      begins_of hpc hops hplain hplace (hk₀ ▸ hplans)
        (Or.inl (by rw [hshared, hshared₀, hcurrent]))
  rw [hk₀] at h
  cases op with
  | threadYield =>
      rw [← Option.some.inj h] at hstay ⊢
      exact hstay rfl (by simp) (by rw [shared_threadYield, shared_setRestore])
  | threadBlock =>
      rw [← Option.some.inj h] at hgoto ⊢
      exact hgoto rfl .parked rfl (by simp) (by rw [shared_threadBlock, shared_goto]; rfl)
  | threadUnblock t =>
      simp only [begin] at h
      split at h
      · exact hstay rfl (plans_threadUnblock h) (shared_threadUnblock h)
      · cases h
  | threadCreate priority =>
      simp only [begin] at h
      split at h
      · have hunused : (k₀.threads k₀.count).Unused := by
          rw [← hk₀]
          change ((k.modify k.current _).threads k.count).Unused
          rwa [modify_of_ne (Ne.symm hcur)]
        rw [← Option.some.inj h]
        refine @begins_more k _ rest hpc hops rfl [.lockAcquire tidLock, .allocateTid k₀.count,
          .lockRelease tidLock, .startThread k₀.count, .yieldTo priority] (by simp) _
          hcurrent ?_ ?_ ?_ fun t ht => ?_
        · rw [← ops_setOps, hk₀]
          funext t
          by_cases ht : t = k₀.count
          · subst ht
            refine (congrArg Thread.ops (Function.update_self _ _ _)).trans ?_
            exact hunused.ops.symm
          · exact congrArg Thread.ops (Function.update_of_ne ht _ _)
        · rw [← hk₀]
          rfl
        · rw [shared_threadCreate hunused, hshared₀]
        · have hcount : k₀.count = k.count := hk₀ ▸ rfl
          refine (congrArg Thread.priority (Function.update_of_ne (hcount ▸ ht) _ _)).trans ?_
          rw [← hk₀]
          exact congrFun (priority_setOps k rest) t
      · cases h
  | allocateTid t =>
      rw [← Option.some.inj h] at hstay ⊢
      exact hstay rfl (plans_modify_same _ _ rfl fun _ => rfl)
        (shared_modify_same _ _ rfl rfl rfl)
  | startThread t => exact hstay rfl (plans_threadUnblock h) (shared_threadUnblock h)
  | yieldTo priority =>
      simp only [begin] at h
      split at h <;> rw [← Option.some.inj h] at hstay ⊢
      · exact hstay rfl (by simp) (by rw [shared_threadYield, shared_setRestore])
      · exact hstay rfl rfl rfl
  | threadSetPriority priority =>
      rw [← Option.some.inj h] at hstay ⊢
      refine hstay rfl ?_ (shared_threadSetPriority _ _)
      rw [← hcurrent]
      exact plans_threadSetPriority _ _
  | timerSleep ticks =>
      simp only [begin] at h
      split at h <;> rw [← Option.some.inj h] at hstay hgoto ⊢
      · exact hstay rfl rfl rfl
      · refine hgoto rfl .asleep rfl ?_ ?_
        · rw [plans_threadBlock, plans_goto, plans_modify_same _ _ rfl fun _ => rfl,
            plans_intrDisable]
        · rw [shared_threadBlock, shared_goto, shared_modify_same _ _ rfl rfl rfl]
          rfl
  | semaDown n =>
      rw [← Option.some.inj h]
      obtain ⟨pc, sema, hplace, hshared⟩ := k₀.shared_semaDown (.sema n)
      refine @begins_of k _ _ rest hpc hops rfl pc ?_ (by rw [plans_semaDown, hk₀])
        (Or.inr ⟨n, sema, by rw [hshared, hshared₀, hcurrent]⟩)
      rcases hplace with ⟨rfl, -⟩ | ⟨rfl, -⟩ <;> rfl
  | semaTryDown n =>
      rw [← Option.some.inj h]
      refine @begins_of k _ _ rest hpc hops rfl .next rfl (by rw [plans_semaTryDown, hk₀])
        (Or.inr ⟨n, (k₀.semaTryDown (.sema n)).sema (.sema n), ?_⟩)
      rw [hnext, semaTryDown]
      split
      · rw [shared_setSema, setSema_self]
      · exact Shared.ext rfl rfl rfl rfl (Function.update_eq_self _ _).symm
  | semaUp n =>
      obtain ⟨waiters, -, hshared⟩ := shared_semaUp h
      refine @begins_of k _ _ rest hpc hops rfl .next rfl (by rw [plans_semaUp h, hk₀])
        (Or.inr ⟨n, _, hshared.trans (by rw [hnext])⟩)
  | lockAcquire l =>
      simp only [begin] at h
      split at h
      · cases h
      · split at h <;> rw [← Option.some.inj h] at hgoto ⊢
        · exact hgoto rfl _ rfl (by simp) (shared_goto _ _)
        · exact hgoto rfl _ rfl (by simp) (shared_goto _ _)
  | lockRelease l =>
      simp only [begin] at h
      split at h
      case isTrue hholder =>
        have hplans : k'.plans k₀.current = k₀.plans k₀.current := by
          rw [← Option.some.inj h, plans_goto, plans_modify_same _ _ rfl fun _ => rfl,
            plans_setLock]
        refine ⟨.releases hpc hops ?_ ((ops_of_plans hplans).trans hsetOps)
          ((cond_of_plans hplans).trans hcond), fun t ht _ _ => ?_⟩
        · have hinside : k₀.cur.inside = k.cur.inside := by
            rw [cur, hcurrent]
            exact congrFun (congrArg Shared.inside hshared₀) _
          rw [← Option.some.inj h, shared_goto, shared_setInside, shared_setLock, hshared₀]
          change Shared.mk (Function.update k.shared.pc k₀.current (.removeLock l)) _
            (Function.update k.shared.inside k₀.current
              (k₀.cur.inside.filter fun m => decide (m ≠ l))) _ _ = _
          rw [hcurrent, hinside]
          rfl
        · rw [priority_of_plans hplans fun h => ?_, hpriority]
          rw [hcurrent] at h
          exact not_released_of_ops hpc hops (fun h => by cases h) (h ▸ ht h)
      · cases h
  | condWait c l =>
      simp only [begin] at h
      split at h
      case isTrue hheld =>
        rw [← Option.some.inj h]
        refine ⟨.waits hpc hops (hholder hheld) ?_ ?_ ?_, fun t _ _ _ => ?_⟩
        · rw [shared_setOps, shared_setCond, shared_setSema, hshared₀, hcurrent]
        · rw [ops_setOps]
          change Function.update k₀.ops k₀.current _ = _
          rw [hsetOps, hcurrent, Function.update_idem]
        · change Function.update k₀.cond c (k₀.cond c ++ [k₀.current]) = _
          rw [hcond, hcurrent]
        · rw [priority_setOps]
          exact congrFun hpriority t
      · cases h
  | waiterDown =>
      rw [← Option.some.inj h]
      obtain ⟨pc, sema, hplace, hshared⟩ := k₀.shared_semaDown (.waiter k₀.current)
      refine ⟨@CondStep.downs k _ rest pc sema hpc hops ?_ ?_ ?_ ?_, fun t ht _ _ => ?_⟩
      · rw [← hcurrent, ← shared_sema, ← hshared₀]
        exact hplace
      · rw [hshared, hshared₀, hcurrent]
      · rw [@ops_of_plans _ _ k.current (plans_semaDown _ _), hsetOps]
      · rw [@cond_of_plans _ _ k.current (plans_semaDown _ _), hcond]
      · rw [priority_eq_of_plans fun t => plans_semaDown _ _, hpriority]
  | condSignal c l =>
      simp only [begin] at h
      split at h
      case isTrue hheld =>
        cases hqueue : k₀.cond c with
        | nil =>
            rw [hqueue] at h
            exact hstay rfl (by rw [Option.some.inj h]) (by rw [Option.some.inj h])
        | cons t waiters =>
            rw [hqueue] at h
            have hplans : k'.plans k₀.current = k₀.plans k₀.current := by
              rw [← Option.some.inj h, plans_goto]
            refine ⟨@CondStep.signals k k' c l rest hpc hops (hholder hheld) ?_ ?_
              ((ops_of_plans hplans).trans hsetOps) ((cond_of_plans hplans).trans hcond),
              fun t ht _ _ => ?_⟩
            · rw [← hcond, hqueue]
              exact List.cons_ne_nil _ _
            · rw [← Option.some.inj h, shared_goto, hshared₀, hcurrent, ← hcond, hqueue]
            · rw [priority_of_plans hplans fun h => ?_, hpriority]
              rw [hcurrent] at h
              exact not_released_of_ops hpc hops (fun h => by cases h) (h ▸ ht h)
      · cases h
  | condBroadcast c l =>
      simp only [begin] at h
      split at h
      · exact hstay rfl (by rw [Option.some.inj h]) (by rw [Option.some.inj h])
      · rw [← Option.some.inj h]
        refine @begins_more k _ rest hpc hops rfl [.condSignal c l, .condBroadcast c l]
          (by simp) k₀ hcurrent ?_ ?_ hshared₀ fun t _ => ?_
        · exact hsetOps
        · exact hcond
        · rw [hpriority]

end Step

end Kernel

theorem afterDown_outside (s : SemaId) :
    (Kernel.afterDown s).signals = none ∧ ∀ t, Kernel.afterDown s ≠ .condUp t := by
  cases s <;> exact ⟨rfl, fun _ h => by cases h⟩

/-- Inside of a function that is not `cond_signal` no thread comes into it. -/
theorem SharedStep.outside {c : ThreadId} {op : Option Op} {v v' : Shared}
    (h : SharedStep c op v v') (hpc : (v.pc c).isQuiet = false) :
    (v'.pc c).signals = none ∧ ∀ t, v'.pc c = .condUp t → v.pc c = .condUp t := by
  have hgoto : ∀ pc : Pc, pc.signals = none → (∀ t, pc ≠ .condUp t) →
      v'.pc c = pc →
        (v'.pc c).signals = none ∧ ∀ t, v'.pc c = .condUp t → v.pc c = .condUp t :=
    fun pc hpc' hup h => ⟨h ▸ hpc', fun t ht => absurd (h.symm.trans ht) (hup t)⟩
  have hnext : v.pc c ≠ .next := fun h => by
    rw [h] at hpc
    cases hpc
  cases h with
  | stay =>
      refine ⟨?_, fun _ => id⟩
      cases h : v.pc c with
      | condSort | condSorted | condPop =>
          rw [h] at hpc
          cases hpc
      | _ => rfl
  | move before after => exact absurd (hpc.symm.trans before) (by decide)
  | held before other held => exact absurd before hnext
  | free before free => exact absurd before hnext
  | tryDown before positive => exact absurd before hnext
  | release before call holder => exact absurd before hnext
  | waiterInit before => exact absurd before hnext
  | pass before positive =>
      exact hgoto _ (afterDown_outside _).1 (afterDown_outside _).2 (Shared.goto_self _ _ _)
  | _ => exact hgoto _ rfl (fun _ h => by cases h) (Shared.goto_self _ _ _)

namespace Kernel

section Step

variable {k k' : Kernel}

/-- A step inside of a function that is not `cond_signal`. -/
theorem goOn_of (hpc : k.cur.pc.isQuiet = false) {op : Option Op}
    (hshared : SharedStep k.current op k.shared k'.shared) {t : ThreadId}
    (hplans : k'.plans t = k.plans t) : CondStep k k' := by
  obtain ⟨hafter, hup⟩ := hshared.outside hpc
  refine .goOn (fun h => ?_) ?_ hafter hup (ops_of_plans hplans) (cond_of_plans hplans)
  · rw [h] at hpc
    cases hpc
  · cases h : k.cur.pc with
    | condSort | condSorted | condPop =>
        rw [h] at hpc
        cases hpc
    | _ => rfl

/-- A step of `timer_sleep`, of `idle`, or of a caller of `thread_block`. -/
theorem wakes_of {before pc : Pc} (hbefore : k.cur.pc = before) (hnext : before ≠ .next)
    (hdown : ∀ s, before ≠ .down s) (hother : before.signals = none) (hsignals : pc.signals = none) (hup : ∀ t, pc ≠ .condUp t)
    (hshared : k'.shared = k.shared.goto k.current pc)
    (hplans : k'.plans k.current = k.plans k.current) :
    CondStep k k' ∧ k.KeepsPriorities k' := by
  have hpc : (k'.threads k.current).pc = pc := by
    rw [← shared_pc, hshared, Shared.goto_self]
  exact ⟨.goOn (hbefore ▸ hnext) (hbefore ▸ hother) (hpc ▸ hsignals)
    (fun t ht => absurd (hpc.symm.trans ht) (hup t)) (ops_of_plans hplans)
      (cond_of_plans hplans),
    keepsPriorities_of_plans (not_released_of_pc hbefore hnext hdown) hplans⟩

theorem advance_cond (hfresh : (k.threads k.count).Unused) (hcur : k.current < k.count)
    (h : k.advance k.cur.pc = some k') : CondStep k k' ∧ k.KeepsPriorities k' := by
  have hshared := advance_step hfresh hcur h
  obtain ⟨pc, hpc⟩ : ∃ pc, k.cur.pc = pc := ⟨_, rfl⟩
  have hkeeps : pc ≠ .next → (∀ s, pc ≠ .down s) →
      k'.plans k.current = k.plans k.current → k.KeepsPriorities k' :=
    fun hnext hdown => keepsPriorities_of_plans (not_released_of_pc hpc hnext hdown)
  have hkeepsCond : pc ≠ .next → (∀ s, pc ≠ .down s) → ∀ c waiters,
      k'.plans k.current = (k.setCond c waiters).plans k.current → k.KeepsPriorities k' :=
    fun hnext hdown c waiters hplans => keepsPriorities_of_plans
      (k := k.setCond c waiters) (not_released_of_pc hpc hnext hdown) hplans
  have hgoOn : pc.isQuiet = false → (∀ s, pc ≠ .down s) →
      k'.plans k.current = k.plans k.current → CondStep k k' ∧ k.KeepsPriorities k' :=
    fun hquiet hdown hplans => ⟨goOn_of (hpc ▸ hquiet) hshared hplans,
      hkeeps (fun h => by rw [h] at hquiet; cases hquiet) hdown hplans⟩
  rw [hpc] at h
  cases pc with
  | next =>
      simp only [advance] at h
      split at h
      · cases h
      case h_2 op rest hops => exact begin_cond hpc hops hfresh hcur.ne h
  | setWaiting l =>
      rw [← Option.some.inj h] at hgoOn ⊢
      exact hgoOn rfl (fun _ h => by cases h) ((plans_goto _ _).trans (plans_modify_same _ _ rfl fun _ => rfl))
  | donateTest l lk =>
      cases lk with
      | none =>
          rw [← Option.some.inj h] at hgoOn ⊢
          exact hgoOn rfl (fun _ h => by cases h) (plans_goto _ _)
      | some lk =>
          simp only [advance] at h
          split at h <;> rw [← Option.some.inj h] at hgoOn ⊢
          · exact hgoOn rfl (fun _ h => by cases h) (plans_goto _ _)
          · exact hgoOn rfl (fun _ h => by cases h) (plans_goto _ _)
  | donateMax l lk =>
      rw [← Option.some.inj h] at hgoOn ⊢
      exact hgoOn rfl (fun _ h => by cases h) ((plans_goto _ _).trans (plans_setLock _ _ _))
  | donatePri l lk =>
      obtain ⟨holder, hholder, h⟩ := Option.bind_eq_some_iff.mp h
      obtain ⟨k₁, hdonate, h⟩ := Option.bind_eq_some_iff.mp h
      have hplans : k'.plans holder = k.plans holder := by
        rw [← Option.some.inj h, plans_goto, plans_threadDonatePri hdonate]
      refine ⟨goOn_of (hpc ▸ rfl) hshared hplans,
        fun u _ _ hu => priority_of_plans hplans fun heq => ?_⟩
      exact hu lk (heq ▸ hholder)
  | donateNext l lk =>
      obtain ⟨holder, -, h⟩ := Option.bind_eq_some_iff.mp h
      rw [← Option.some.inj h] at hgoOn ⊢
      exact hgoOn rfl (fun _ h => by cases h) (plans_goto _ _)
  | acquireDown l =>
      rw [← Option.some.inj h] at hgoOn ⊢
      exact hgoOn rfl (fun _ h => by cases h) (plans_semaDown _ _)
  | down s =>
      rw [← Option.some.inj h] at hshared ⊢
      exact ⟨@goOn_of _ _ (hpc ▸ rfl) _ hshared k.current (plans_semaDown _ _),
        keepsPriorities_of_eq (priority_eq_of_plans fun t => plans_semaDown _ _)⟩
  | take l =>
      rw [← Option.some.inj h] at hgoOn ⊢
      exact hgoOn rfl (fun _ h => by cases h) (plans_lockTake _ _)
  | setHolder l =>
      rw [← Option.some.inj h] at hgoOn ⊢
      exact hgoOn rfl (fun _ h => by cases h) (plans_setHolder _ _)
  | removeLock l =>
      obtain ⟨k₁, hremove, h⟩ := Option.bind_eq_some_iff.mp h
      refine hgoOn rfl (fun _ h => by cases h) ?_
      rw [← Option.some.inj h, plans_goto, plans_threadRemoveLock hremove]
  | releaseUp l => exact hgoOn rfl (fun _ h => by cases h) ((plans_semaUp h).trans (plans_goto _ _))
  | condSort c sort =>
      cases sort with
      | done result =>
          obtain ⟨waiters, runs⟩ := result
          have hplans : k'.plans k.current = (k.setCond c waiters).plans k.current ∧
              k'.shared = k.shared.goto k.current
                (if runs > 1 then .condSort c (sortPass waiters.length waiters)
                else .condSorted c (isSorted waiters)) := by
            simp only [advance] at h
            split at h
            case isTrue hruns =>
              rw [← Option.some.inj h, plans_goto, shared_goto, shared_setCond, if_pos hruns]
              exact ⟨rfl, rfl⟩
            case isFalse hruns =>
              rw [← Option.some.inj h, plans_goto, shared_goto, shared_setCond, if_neg hruns]
              exact ⟨rfl, rfl⟩
          exact ⟨.passed hpc hplans.2 ((ops_of_plans hplans.1).trans rfl)
            ((cond_of_plans hplans.1).trans rfl),
            hkeepsCond (fun h => by cases h) (fun _ h => by cases h) _ _ hplans.1⟩
      | failed => cases h
      | compare x y next =>
          obtain ⟨less, hless, h⟩ := Option.bind_eq_some_iff.mp h
          rw [← Option.some.inj h] at hkeeps ⊢
          exact ⟨.compares (Or.inl ⟨next, rfl, rfl⟩) hpc hless (shared_goto _ _)
            (@ops_of_plans _ _ k.current (plans_goto _ _)) rfl, hkeeps (fun h => by cases h) (fun _ h => by cases h) (plans_goto _ _)⟩
  | condSorted c sorted =>
      cases sorted with
      | done result =>
          cases result with
          | false => cases h
          | true =>
              rw [← Option.some.inj h] at hkeeps ⊢
              exact ⟨.checked hpc (shared_goto _ _)
                (@ops_of_plans _ _ k.current (plans_goto _ _)) rfl, hkeeps (fun h => by cases h) (fun _ h => by cases h) (plans_goto _ _)⟩
      | failed => cases h
      | compare x y next =>
          obtain ⟨less, hless, h⟩ := Option.bind_eq_some_iff.mp h
          rw [← Option.some.inj h] at hkeeps ⊢
          exact ⟨.compares (Or.inr ⟨next, rfl, rfl⟩) hpc hless (shared_goto _ _)
            (@ops_of_plans _ _ k.current (plans_goto _ _)) rfl, hkeeps (fun h => by cases h) (fun _ h => by cases h) (plans_goto _ _)⟩
  | condPop c =>
      simp only [advance] at h
      split at h
      · cases h
      case h_2 t rest hqueue =>
        have hplans : k'.plans k.current = (k.setCond c rest).plans k.current := by
          rw [← Option.some.inj h, plans_goto]
        refine ⟨.pops hpc hqueue ?_ ((ops_of_plans hplans).trans rfl)
          ((cond_of_plans hplans).trans rfl),
          hkeepsCond (fun h => by cases h) (fun _ h => by cases h) _ _ hplans⟩
        rw [← Option.some.inj h, shared_goto, shared_setCond]
        rfl
  | condUp t => exact hgoOn rfl (fun _ h => by cases h) ((plans_semaUp h).trans (plans_goto _ _))
  | asleep =>
      rw [← Option.some.inj h]
      exact @wakes_of k _ _ .next hpc (fun h => by cases h) (fun _ h => by cases h) rfl rfl
        (fun _ h => by cases h) (by rw [shared_intrEnable, shared_goto])
        (by rw [plans_intrEnable, plans_goto])
  | parked =>
      rw [← Option.some.inj h]
      exact @wakes_of k _ _ .next hpc (fun h => by cases h) (fun _ h => by cases h) rfl rfl
        (fun _ h => by cases h) (by rw [shared_intrEnable, shared_goto])
        (by rw [plans_intrEnable, plans_goto])
  | idleBlock =>
      rw [← Option.some.inj h]
      refine @wakes_of k _ _ .idleWake hpc (fun h => by cases h) (fun _ h => by cases h) rfl
        rfl (fun _ h => by cases h) ?_ ?_
      · rw [shared_threadBlock, shared_goto]
        rfl
      · rw [plans_threadBlock, plans_goto, plans_intrDisable]
  | idleWake =>
      rw [← Option.some.inj h]
      exact @wakes_of k _ _ .idleBlock hpc (fun h => by cases h) (fun _ h => by cases h) rfl
        rfl (fun _ h => by cases h) (by rw [shared_intrEnable, shared_goto])
        (by rw [plans_intrEnable, plans_goto])

theorem outside_of (h : k.isOutside = true) : k.cur.pc = .next ∧ k.cur.ops = [] := by
  rw [isOutside] at h
  split at h
  case h_1 hpc hops => exact ⟨hpc, hops⟩
  · cases h

/-- A step of the kernel is one of these steps. -/
theorem step_cond {act : KernelAct} (hfresh : (k.threads k.count).Unused)
    (hcur : k.current < k.count) (h : k.step act = some k') :
    CondStep k k' ∧ k.KeepsPriorities k' := by
  cases act with
  | tick allList =>
      simp only [step] at h
      split at h
      · have hplans := fun t => @plans_timerInterrupt _ _ t _ h
        exact ⟨.stay (shared_timerInterrupt h) (ops_of_plans (hplans 0))
          (cond_of_plans (hplans 0)), keepsPriorities_of_eq (priority_eq_of_plans hplans)⟩
      · cases h
  | call op =>
      simp only [step] at h
      split at h
      case isTrue hcall =>
        obtain ⟨hpc, hops⟩ := outside_of hcall.1
        rw [← Option.some.inj h]
        exact ⟨.call hcall.2 hpc hops (shared_setOps _ _) (ops_setOps _ _) rfl,
          fun t _ _ _ => congrFun (priority_setOps _ _) t⟩
      · cases h
  | run =>
      simp only [step] at h
      split at h
      · have hplans : ∀ t, k'.plans t = k.plans t := fun t => by
          rw [← Option.some.inj h, plans_intrEnable, plans_setRestore]
        refine ⟨.stay ?_ (ops_of_plans (hplans 0)) (cond_of_plans (hplans 0)),
          keepsPriorities_of_eq (priority_eq_of_plans hplans)⟩
        rw [← Option.some.inj h, shared_intrEnable, shared_setRestore]
      · exact advance_cond hfresh hcur h

end Step

end Kernel

end PintosLabs
