/-
`lock_try_acquire` beside `lock_acquire`.  Both take the semaphore of a free
lock down and record the holder; only `lock_acquire` puts the lock on the list
of locks of the thread, from which `lock_release` takes it.
-/
import PintosLabs.HeldLocks
import PintosLabs.Preemption

namespace PintosLabs

/-- A step of the kernel, or a call of `lock_try_acquire`. -/
inductive TryAct where
  | kernel (act : KernelAct)
  | tryAcquire (l : LockId)

namespace Kernel

/-- `lock_try_acquire (l)`, up to `lock->holder = thread_current ()` where it
is to succeed. -/
def lockTryAcquire (k : Kernel) (l : LockId) : Option Kernel :=
  if (k.lock l).holder = some k.current then none
  else if (k.sema (.lock l)).value > 0 then
    some ((k.semaTryDown (.lock l)).goto (.setHolder l))
  else some (k.semaTryDown (.lock l))

def tryStep (k : Kernel) : TryAct → Option Kernel
  | .kernel act => k.step act
  | .tryAcquire l => if k.isOutside then k.lockTryAcquire l else none

/-- A run of the kernel in which threads also try to get locks. -/
abbrev TryReaches (values : Nat → Nat) (acts : List TryAct) (k : Kernel) : Prop :=
  Run tryStep (fun _ _ => True) (boot values) acts k

/-- The running thread calls `lock_acquire (l)`; it finds the lock free, and
nothing comes in between. -/
def acquired (k : Kernel) (l : LockId) : Option Kernel :=
  [.call (.lockAcquire l), .run, .run, .run].foldlM step k

/-- The running thread calls `lock_try_acquire (l)`. -/
def tried (k : Kernel) (l : LockId) : Option Kernel :=
  [.tryAcquire l, .kernel .run].foldlM tryStep k

/-- The running thread calls `lock_release (l)`, and comes to `sema_up`. -/
def released (k : Kernel) (l : LockId) : Option Kernel :=
  [.call (.lockRelease l), .run, .run].foldlM step k

/-- The state of the lock, of the locks of the running thread and of the
priorities is the same. -/
structure SameAcquired (k k' : Kernel) (l : LockId) : Prop where
  holder : (k'.lock l).holder = (k.lock l).holder
  value : (k'.sema (.lock l)).value = (k.sema (.lock l)).value
  holdingLocks : k'.cur.holdingLocks = k.cur.holdingLocks
  maxPri : (k'.lock l).maxPri = (k.lock l).maxPri
  priority : ∀ t, k'.priority t = k.priority t

/-- `lock_release (l)` takes the lock off the list of the running thread, and no
other list of locks changes. -/
def ReleasesLock (k : Kernel) (l : LockId) : Prop :=
  l ∈ k.cur.holdingLocks ∧ ∃ k', k.released l = some k' ∧
    k'.held = Function.update k.held k.current ((k.held k.current).erase l)

/-- To try for the lock is as good as to acquire it. -/
def TriesAsAcquires (k : Kernel) (l : LockId) : Prop :=
  ∀ ka kt, k.acquired l = some ka → k.tried l = some kt →
    ka.SameAcquired kt l ∧ ka.ReleasesLock l ∧ kt.ReleasesLock l

/-- What becomes of a free lock by `lock_acquire` and by `lock_try_acquire`. -/
structure TryDiffers (k ka kt : Kernel) (l : LockId) : Prop where
  holder : (ka.lock l).holder = some k.current ∧ (kt.lock l).holder = some k.current
  value : (ka.sema (.lock l)).value = 0 ∧ (kt.sema (.lock l)).value = 0
  priority : ∀ t, ka.priority t = k.priority t ∧ kt.priority t = k.priority t
  maxPri : (ka.lock l).maxPri = k.cur.priority ∧ (kt.lock l).maxPri = (k.lock l).maxPri
  acquired_held : ka.held = Function.update k.held k.current (l ::ₘ k.held k.current)
  tried_held : kt.held = k.held
  tried_notMem : ∀ t, l ∉ (kt.threads t).holdingLocks
  acquired_releases : ka.ReleasesLock l
  /-- `list_remove` finds the lock on no list. -/
  tried_fails : kt.released l = none

variable {k k' : Kernel} {l : LockId}

theorem isOutside_iff : k.isOutside ↔
    k.cur.pc = .next ∧ k.cur.ops = [] ∧ k.cur.restore = false := by
  rw [isOutside]
  split
  · rename_i hpc hops
    simp [hpc, hops]
  · rename_i hnot
    refine iff_of_false (fun h => by cases h) fun h => hnot h.1 h.2.1

theorem cur_modify (k : Kernel) (f : Thread → Thread) :
    (k.modify k.current f).cur = f k.cur := modify_self _ _

theorem cur_goto (k : Kernel) (pc : Pc) : (k.goto pc).cur = { k.cur with pc := pc } :=
  modify_self _ _

theorem cur_setOps (k : Kernel) (ops : List Op) :
    (k.setOps ops).cur = { k.cur with ops := ops } := modify_self _ _

theorem cur_setLock (k : Kernel) (l : LockId) (f : Lock → Lock) :
    (k.setLock l f).cur = k.cur := rfl

/-- The running thread starts a call of `lock_release` on a lock that it has. -/
theorem released_eq (hout : k.isOutside) (hholder : (k.lock l).holder = some k.current) :
    ∃ k₁ : Kernel, k₁.held = k.held ∧ k₁.current = k.current ∧
      k.released l = (k₁.threadRemoveLock l).map fun k => k.goto (.releaseUp l) := by
  obtain ⟨hpc, hops, hrestore⟩ := isOutside_iff.mp hout
  obtain ⟨k₀, hk₀⟩ : ∃ k₀, k₀ = (((k.setOps [.lockRelease l]).setOps []).setLock l
      fun lock => { lock with holder := none }) := ⟨_, rfl⟩
  obtain ⟨k₁, hk₁⟩ : ∃ k₁, k₁ = ((k₀.modify k₀.current fun t =>
      { t with inside := t.inside.filter fun m => m ≠ l }).goto (.removeLock l)) :=
    ⟨_, rfl⟩
  have hheld : k₁.held = k.held := by
    rw [hk₁, held_of_kept (kept_goto _ _), held_modify_same _ _ rfl, hk₀]
    change ((k.setOps _).setOps _).held = _
    rw [held_of_kept (kept_setOps _ _), held_of_kept (kept_setOps _ _)]
  have hcurrent : k₁.current = k.current := by
    rw [hk₁, hk₀]
    rfl
  have hcall : k.step (.call (.lockRelease l)) = some (k.setOps [.lockRelease l]) := by
    simp only [Kernel.step, hout, Op.isCall, and_self, if_true]
  have hbegin : (k.setOps [.lockRelease l]).step .run = some k₁ := by
    rw [step_run (by rw [cur_setOps]; exact hrestore), cur_setOps]
    simp only [hpc, advance, cur_setOps]
    have hholder' : (((k.setOps [.lockRelease l]).setOps []).lock l).holder =
        some ((k.setOps [.lockRelease l]).setOps []).current := hholder
    rw [Kernel.begin, if_pos hholder', hk₁, hk₀]
  have hcur₁ : k₁.cur.restore = false ∧ k₁.cur.pc = .removeLock l := by
    simp only [hk₁, cur_goto, cur_modify, hk₀, cur_setLock, cur_setOps]
    exact ⟨hrestore, trivial⟩
  refine ⟨k₁, hheld, hcurrent, ?_⟩
  rw [released, List.foldlM_cons, hcall, Option.bind_eq_bind, Option.bind_some,
    List.foldlM_cons, hbegin, Option.bind_eq_bind, Option.bind_some, List.foldlM_cons,
    step_run hcur₁.1, hcur₁.2]
  simp only [advance, List.foldlM_nil]
  cases k₁.threadRemoveLock l <;> rfl

theorem releasesLock_of_mem (hout : k.isOutside)
    (hholder : (k.lock l).holder = some k.current) (hmem : l ∈ k.held k.current) :
    k.ReleasesLock l := by
  obtain ⟨k₁, hheld, hcurrent, hreleased⟩ := released_eq hout hholder
  have hmem₁ : l ∈ k₁.held k₁.current := by rwa [hheld, hcurrent]
  obtain ⟨k₂, hk₂⟩ := threadRemoveLock_isSome hmem₁
  refine ⟨hmem, k₂.goto (.releaseUp l), by rw [hreleased, hk₂]; rfl, ?_⟩
  rw [held_of_kept (kept_goto _ _), (held_threadRemoveLock hk₂).2, hheld, hcurrent]

theorem released_of_notMem (hout : k.isOutside)
    (hholder : (k.lock l).holder = some k.current) (hmem : l ∉ k.held k.current) :
    k.released l = none := by
  obtain ⟨k₁, hheld, hcurrent, hreleased⟩ := released_eq hout hholder
  have hmem₁ : l ∉ k₁.held k₁.current := by rwa [hheld, hcurrent]
  rw [hreleased, threadRemoveLock_eq_none hmem₁]
  rfl

theorem cur_setSema (k : Kernel) (s : SemaId) (f : Semaphore → Semaphore) :
    (k.setSema s f).cur = k.cur := rfl

/-- The semaphore of the lock is down, and the running thread has still to
record that it has the lock. -/
structure Downed (k k' : Kernel) (l : LockId) : Prop where
  held : k'.held = k.held
  current : k'.current = k.current
  lock : k'.lock = k.lock
  value : (k'.sema (.lock l)).value = 0
  priorities : k'.priorities = k.priorities
  ops : k'.cur.ops = []
  restore : k'.cur.restore = false

theorem Downed.semaDown (k : Kernel) {pc : Pc} (hvalue : (k.sema (.lock l)).value = 1)
    (hops : k.cur.ops = []) (hrestore : k.cur.restore = false) :
    k.Downed ((k.setSema (.lock l) fun sema =>
      { sema with value := sema.value - 1, downs := sema.downs + 1 }).goto pc) l where
  held := by
    rw [held_of_kept (kept_goto _ _), held_of_kept (kept_setSema _ _ _)]
  current := rfl
  lock := rfl
  value := by
    change ((k.setSema (.lock l) fun sema =>
      { sema with value := sema.value - 1, downs := sema.downs + 1 }).sema _).value = 0
    rw [setSema_self, hvalue]
  priorities := by
    rw [priorities_of_ranks (ranks_goto _ _)]
    rfl
  ops := by
    rw [cur_goto, cur_setSema]
    exact hops
  restore := by
    rw [cur_goto, cur_setSema]
    exact hrestore

/-- `lock_acquire` on a free lock comes to the end of `sema_down`. -/
theorem acquired_eq (hout : k.isOutside) (hholder : (k.lock l).holder = none)
    (hvalue : (k.sema (.lock l)).value = 1) :
    ∃ k₁ : Kernel, k.Downed k₁ l ∧ k₁.cur.pc = .take l ∧
      k.acquired l = some (k₁.lockTake l) := by
  obtain ⟨hpc, hops, hrestore⟩ := isOutside_iff.mp hout
  obtain ⟨k₀, hk₀⟩ : ∃ k₀, k₀ =
      ((k.setOps [.lockAcquire l]).setOps []).goto (.acquireDown l) := ⟨_, rfl⟩
  obtain ⟨k₁, hk₁⟩ : ∃ k₁, k₁ = (k₀.setSema (.lock l) fun sema =>
      { sema with value := sema.value - 1, downs := sema.downs + 1 }).goto (.take l) :=
    ⟨_, rfl⟩
  have hcur₀ : k₀.cur = { k.cur with pc := .acquireDown l, ops := [] } := by
    rw [hk₀, cur_goto, cur_setOps, cur_setOps]
  have hvalue₀ : (k₀.sema (.lock l)).value = 1 := by
    rw [hk₀]
    exact hvalue
  have hdowned : k₀.Downed k₁ l := by
    rw [hk₁]
    exact Downed.semaDown k₀ hvalue₀ (by rw [hcur₀]) (by rw [hcur₀]; exact hrestore)
  have hcall : k.step (.call (.lockAcquire l)) = some (k.setOps [.lockAcquire l]) := by
    simp only [Kernel.step, hout, Op.isCall, and_self, if_true]
  have hbegin : (k.setOps [.lockAcquire l]).step .run = some k₀ := by
    rw [step_run (by rw [cur_setOps]; exact hrestore), cur_setOps]
    simp only [hpc, advance, cur_setOps]
    have hholder' : (((k.setOps [.lockAcquire l]).setOps []).lock l).holder = none :=
      hholder
    rw [Kernel.begin, hholder', if_neg (fun h => by cases h), if_neg (not_not.mpr rfl), hk₀]
  have hdown : k₀.step .run = some k₁.intrEnable := by
    rw [step_run (by rw [hcur₀]; exact hrestore), hcur₀]
    have hne : (k₀.sema (.lock l)).value ≠ 0 := by
      rw [hvalue₀]
      exact Nat.one_ne_zero
    simp only [advance, semaDown_of_ne_zero hne]
    rw [hk₁]
    rfl
  have hpc₁ : k₁.intrEnable.cur.pc = .take l := by
    rw [hk₁]
    exact congrArg Thread.pc (cur_goto _ _)
  have htake : k₁.intrEnable.step .run = some (k₁.intrEnable.lockTake l) := by
    have hrestore₁ : k₁.intrEnable.cur.restore = false := hdowned.restore
    rw [step_run hrestore₁, hpc₁]
    rfl
  refine ⟨k₁.intrEnable, ⟨?_, ?_, ?_, hdowned.value, ?_, hdowned.ops, hdowned.restore⟩,
    hpc₁, ?_⟩
  · refine hdowned.held.trans ?_
    rw [hk₀, held_of_kept (kept_goto _ _), held_of_kept (kept_setOps _ _),
      held_of_kept (kept_setOps _ _)]
  · rw [hk₁, hk₀]
    rfl
  · rw [hk₁, hk₀]
    rfl
  · refine hdowned.priorities.trans ?_
    rw [hk₀, priorities_of_ranks (ranks_goto _ _), setOps,
      priorities_modify_same _ _ rfl rfl, setOps, priorities_modify_same _ _ rfl rfl]
  · rw [acquired, List.foldlM_cons, hcall, Option.bind_eq_bind, Option.bind_some,
      List.foldlM_cons, hbegin, Option.bind_eq_bind, Option.bind_some, List.foldlM_cons,
      hdown, Option.bind_eq_bind, Option.bind_some, List.foldlM_cons, htake]
    rfl

/-- `lock_try_acquire` on a free lock. -/
theorem tried_eq (hout : k.isOutside) (hholder : (k.lock l).holder = none)
    (hvalue : (k.sema (.lock l)).value = 1) :
    ∃ k₁ : Kernel, k.Downed k₁ l ∧ k.tried l = some (k₁.setHolder l) := by
  obtain ⟨hpc, hops, hrestore⟩ := isOutside_iff.mp hout
  have hdowned := @Downed.semaDown l k (.setHolder l) hvalue hops hrestore
  refine ⟨_, hdowned, ?_⟩
  have hcall : k.tryStep (.tryAcquire l) = some ((k.setSema (.lock l) fun sema =>
      { sema with value := sema.value - 1, downs := sema.downs + 1 }).goto
        (.setHolder l)) := by
    have hpositive : (k.sema (.lock l)).value > 0 := by omega
    rw [tryStep, if_pos hout, lockTryAcquire, hholder, if_neg (fun h => by cases h),
      if_pos hpositive, semaTryDown, if_pos hpositive]
  rw [tried, List.foldlM_cons, hcall, Option.bind_eq_bind, Option.bind_some,
    List.foldlM_cons, tryStep, step_run hdowned.restore, cur_goto]
  rfl

theorem cur_setHolder (k : Kernel) (l : LockId) : (k.setHolder l).cur =
    { k.cur with pc := .next, inside := l :: k.cur.inside } := by
  simp [setHolder, cur, goto, modify, setLock, intrEnable]

theorem lock_setHolder (k : Kernel) (l : LockId) :
    (k.setHolder l).lock l = { k.lock l with holder := some k.current } := by
  change (k.setLock l fun lock => { lock with holder := some k.current }).lock l = _
  rw [setLock_self]

theorem priorities_setHolder (k : Kernel) (l : LockId) :
    (k.setHolder l).priorities = k.priorities := priorities_of_books (books_setHolder _ l)

theorem setHolder_outside (l : LockId) (hops : k.cur.ops = [])
    (hrestore : k.cur.restore = false) : (k.setHolder l).isOutside := by
  rw [isOutside_iff, cur_setHolder]
  exact ⟨rfl, hops, hrestore⟩

theorem cur_lockTaken (k : Kernel) (l : LockId) : ∃ locks, (k.lockTaken l).cur =
    { k.cur with waitingLock := none, holdingLocks := locks } := by
  refine ⟨(k.lockTaken l).cur.holdingLocks, ?_⟩
  simp only [lockTaken, threadGetLock, cur, modify, setLock, intrDisable,
    Function.update_self]

theorem priorities_lockTaken (k : Kernel) (l : LockId) :
    (k.lockTaken l).priorities = k.priorities := by
  rw [lockTaken, threadGetLock, priorities_modify_same _ _ rfl rfl]
  change (k.intrDisable.modify k.current fun t =>
    { t with waitingLock := none }).priorities = _
  rw [priorities_modify_same _ _ rfl rfl]
  rfl

/-! The states that the kernel reaches. -/

theorem shared_lockDown (k : Kernel) (l : LockId) (pc : Pc) :
    ((k.setSema (.lock l) fun sema =>
      { sema with value := sema.value - 1, downs := sema.downs + 1 }).goto pc).shared =
        (k.shared.goto k.current pc).setSema (.lock l)
          { k.sema (.lock l) with
            value := (k.sema (.lock l)).value - 1
            downs := (k.sema (.lock l)).downs + 1 } := by
  rw [shared_goto, shared_setSema]
  rfl

/-- A thread that tries for a lock does as one in `lock_acquire`. -/
theorem Sound.lockTryAcquire (h : k.Sound) (hpc : k.cur.pc = .next)
    (hk' : k.lockTryAcquire l = some k') : k'.Sound := by
  rw [Kernel.lockTryAcquire] at hk'
  split at hk'
  · cases hk'
  split at hk'
  case isFalse hzero =>
    rw [semaTryDown, if_neg hzero] at hk'
    rwa [← Option.some.inj hk']
  case isTrue hpositive =>
    rw [semaTryDown, if_pos hpositive] at hk'
    obtain rfl := Option.some.inj hk'
    have hne : (k.shared.sema (.lock l)).value ≠ 0 := Nat.ne_of_gt hpositive
    have hpc' : k.shared.pc k.current = .next := hpc
    refine ⟨?_, fun t u ht => ?_, ?_, fun s => ?_, fun m => ?_⟩
    · refine Lists.goto (h.lists.setSema (.lock l) rfl) fun hidle => absurd hidle ?_
      refine Pc.not_isIdle ?_
      rw [cur_setSema, hpc]
      rfl
    · rw [shared_lockDown] at ht
      by_cases hmine : t = k.current
      · subst hmine
        cases (k.shared.goto_self _ _).symm.trans ht
      · exact h.own t u ((k.shared.goto_of_ne hmine _).symm.trans ht)
    · intro s
      rw [← shared_sema, shared_lockDown]
      exact setSema_all (v := k.shared.goto k.current (.setHolder l)) h.counted
        ((h.counted _).down hne) s
    · rw [shared_lockDown]
      by_cases hs : s = .lock l
      · subst hs
        exact (h.covered _).pass rfl rfl
      · exact ((h.covered s).goto (by rw [hpc']; exact fun h => by cases h) _).setSema_of_ne
          hs _
    · rw [shared_lockDown]
      by_cases hm : m = l
      · subst hm
        exact (h.owned m).enter hne rfl rfl
      · refine ((h.owned m).goto ?_ ?_).setSema fun hs => ?_
        · rw [hpc']
          exact fun h => by cases h
        · exact fun heq => hm (Option.some.inj heq).symm
        · exact absurd (SemaId.lock.inj hs).symm hm

theorem LocksListed.lockTryAcquire (h : k.LocksListed) (hpc : k.cur.pc = .next)
    (hk' : k.lockTryAcquire l = some k') : k'.LocksListed := by
  rw [Kernel.lockTryAcquire] at hk'
  split at hk'
  · cases hk'
  split at hk'
  case isFalse hzero =>
    rw [semaTryDown, if_neg hzero] at hk'
    rwa [← Option.some.inj hk']
  case isTrue hpositive =>
    rw [semaTryDown, if_pos hpositive] at hk'
    obtain rfl := Option.some.inj hk'
    have hheld : ∀ {pc : Pc}, ((k.setSema (.lock l) fun sema =>
        { sema with value := sema.value - 1, downs := sema.downs + 1 }).goto pc).held =
          k.held := fun {pc} => held_of_kept (kept_goto _ _)
    have hplace : ∀ {pc pc' : Pc} {t : ThreadId}, pc' ≠ .next → pc ≠ pc' →
        (((k.setSema (.lock l) fun sema => { sema with
          value := sema.value - 1, downs := sema.downs + 1 }).goto pc).shared.pc t =
            pc' ↔ k.shared.pc t = pc') := by
      intro pc pc' t hnext hne
      rw [shared_lockDown]
      by_cases ht : t = k.current
      · subst ht
        refine iff_of_false (fun heq => hne ?_) fun heq => hnext ?_
        · exact (k.shared.goto_self _ _).symm.trans heq
        · exact heq.symm.trans hpc
      · exact iff_of_eq (congrArg (· = pc') (k.shared.goto_of_ne ht pc))
    refine ⟨fun t => hheld ▸ h.nodup t, fun t m hm => ?_, fun t m htake => ?_⟩
    · rw [hheld] at hm
      refine (h.listed t m hm).imp (fun hinside => ?_) fun hremove => ?_
      · rw [shared_lockDown]
        exact hinside
      · exact (hplace (fun h => by cases h) (fun h => by cases h)).mpr hremove
    · have hbefore := (hplace (fun h => by cases h) (fun h => by cases h)).mp htake
      have hinside := h.fresh t m hbefore
      change m ∉ ((k.setSema (.lock l) _).goto _).shared.inside t
      rw [shared_lockDown]
      exact hinside

/-- What holds of the kernel's data holds when threads also try for locks. -/
theorem invariants_of_run {values : Nat → Nat} {acts : List TryAct}
    (hrun : TryReaches values acts k) : k.Sound ∧ k.LocksListed := by
  refine hrun.invariant (fun k => k.Sound ∧ k.LocksListed) (fun h _ hk' => ?_)
    ⟨sound_boot values, locksListed_boot values⟩
  rename_i k k' act _
  cases act with
  | kernel act => exact ⟨h.1.step hk', h.2.step h.1 hk'⟩
  | tryAcquire l =>
      simp only [tryStep] at hk'
      split at hk'
      case isTrue hout =>
        have hpc := (isOutside_iff.mp hout).1
        exact ⟨h.1.lockTryAcquire hpc hk', h.2.lockTryAcquire hpc hk'⟩
      · cases hk'

theorem Downed.lockTake {k₁ : Kernel} (h : k.Downed k₁ l) :
    (k₁.lockTake l).isOutside ∧ (k₁.lockTake l).current = k.current ∧
      (k₁.lockTake l).lock l = ⟨some k.current, k.cur.priority⟩ ∧
        ((k₁.lockTake l).sema (.lock l)).value = 0 ∧
          (k₁.lockTake l).priorities = k.priorities ∧
            (k₁.lockTake l).held =
              Function.update k.held k.current (l ::ₘ k.held k.current) := by
  obtain ⟨locks, hcur⟩ := cur_lockTaken k₁ l
  have hpriority : k₁.cur.priority = k.cur.priority := by
    change k₁.priority k₁.current = k.priority k.current
    rw [priority_of_priorities h.priorities, h.current]
  rw [lockTake_eq]
  refine ⟨setHolder_outside l ?_ ?_, h.current, ?_, h.value, ?_, ?_⟩
  · rw [hcur]
    exact h.ops
  · rw [hcur]
    exact h.restore
  · have hmaxPri := lockTaken_maxPri k₁ l
    rw [hcur, hpriority] at hmaxPri
    rw [lock_setHolder]
    exact congrArg₂ Lock.mk (congrArg some h.current) hmaxPri
  · rw [priorities_setHolder, priorities_lockTaken, h.priorities]
  · rw [← lockTake_eq, held_lockTake, h.held, h.current]

/-- In every state in which a lock is free, what `lock_try_acquire` leaves is not
what `lock_acquire` leaves: the lock is on no list, and its release fails. -/
theorem try_acquire_differs {values : Nat → Nat} {acts : List TryAct}
    (hrun : TryReaches values acts k) (hout : k.isOutside)
    (hfree : (k.sema (.lock l)).value = 1) :
    ¬ k.TriesAsAcquires l ∧ ∃ ka kt, k.acquired l = some ka ∧ k.tried l = some kt ∧
      k.TryDiffers ka kt l := by
  obtain ⟨hsound, hlisted⟩ := invariants_of_run hrun
  have hnone : ∀ t, ¬ k.shared.Claims t l := by
    rcases (hsound.owned l).claim with ⟨-, hnone⟩ | ⟨hzero, -⟩
    · exact hnone
    · cases hfree.symm.trans hzero
  have hholder : (k.lock l).holder = none := by
    cases hholder : (k.lock l).holder with
    | none => rfl
    | some t =>
        exact absurd (Or.inr (((hsound.owned l).holder_iff t).mp hholder)) (hnone t)
  have hnot : ∀ t, l ∉ k.held t := fun t hmem => hnone t (hlisted.listed t l hmem).claims
  obtain ⟨k₁, hdown₁, -, hacquired⟩ := acquired_eq hout hholder hfree
  obtain ⟨k₂, hdown₂, htried⟩ := tried_eq hout hholder hfree
  obtain ⟨houta, hcurrenta, hlocka, hvaluea, hprioritya, hhelda⟩ := hdown₁.lockTake
  have houtt := setHolder_outside l hdown₂.ops hdown₂.restore
  have hlockt : (k₂.setHolder l).lock l = ⟨some k.current, (k.lock l).maxPri⟩ := by
    rw [lock_setHolder, hdown₂.current, hdown₂.lock]
  have hheldt : (k₂.setHolder l).held = k.held :=
    (held_of_kept (kept_setHolder k₂ l)).trans hdown₂.held
  have hnott : ∀ t, l ∉ (k₂.setHolder l).held t := hheldt ▸ hnot
  have hdiffers : k.TryDiffers (k₁.lockTake l) (k₂.setHolder l) l := {
    holder := ⟨by rw [hlocka], by rw [hlockt]⟩
    value := ⟨hvaluea, hdown₂.value⟩
    priority := fun t => ⟨congrFun (priority_of_priorities hprioritya) t,
      congrFun (priority_of_priorities
        ((priorities_setHolder k₂ l).trans hdown₂.priorities)) t⟩
    maxPri := ⟨by rw [hlocka], by rw [hlockt]⟩
    acquired_held := hhelda
    tried_held := hheldt
    tried_notMem := hnott
    acquired_releases := by
      refine releasesLock_of_mem houta (by rw [hlocka, hcurrenta]) ?_
      rw [hhelda, hcurrenta, Function.update_self]
      exact Multiset.mem_cons_self _ _
    tried_fails := by
      refine released_of_notMem houtt ?_ (hnott _)
      rw [hlockt]
      exact congrArg some hdown₂.current.symm }
  refine ⟨fun hsame => ?_, k₁.lockTake l, k₂.setHolder l, hacquired, htried, hdiffers⟩
  exact hnott _ (hsame _ _ hacquired htried).2.2.1

namespace TryAcquireWitness

/-- The first thread has a lock by `lock_acquire` and tries for another. -/
def acts : List TryAct :=
  [.kernel (.call (.lockAcquire 1)), .kernel .run, .kernel .run, .kernel .run]

theorem acts_reach : ∃ k, TryReaches (fun _ => 0) acts k ∧ k.isOutside ∧
    (k.sema (.lock 2)).value = 1 ∧ ∃ ka, k.acquired 2 = some ka ∧
      ∃ kt, k.tried 2 = some kt ∧ kt.cur.holdingLocks = [1] := by
  have hrun : ((acts.foldlM tryStep (boot fun _ => 0)).map fun k =>
      (k.isOutside, (k.sema (.lock 2)).value, (k.acquired 2).isSome,
        (k.tried 2).map fun kt => kt.cur.holdingLocks)) =
          some (true, 1, true, some [1]) := by decide +kernel
  obtain ⟨k, hk, hvalues⟩ := Option.map_eq_some_iff.mp hrun
  obtain ⟨hout, hvalue, hacquired, htried⟩ := by
    simpa only [Prod.mk.injEq] using hvalues
  obtain ⟨ka, hka⟩ := Option.isSome_iff_exists.mp hacquired
  obtain ⟨kt, hkt, hlocks⟩ := Option.map_eq_some_iff.mp htried
  exact ⟨k, Run.of_foldlM hk, hout, hvalue, ka, hka, kt, hkt, hlocks⟩

theorem try_acquire_leaves_list :
    ¬ ∀ (values : Nat → Nat) (acts : List TryAct) (k : Kernel) (l : LockId),
      TryReaches values acts k → k.isOutside → (k.sema (.lock l)).value = 1 →
        k.TriesAsAcquires l := by
  intro htries
  obtain ⟨k, hrun, hout, hvalue, ka, hka, kt, hkt, hlocks⟩ := acts_reach
  obtain ⟨-, -, hmem, -⟩ := htries _ acts k 2 hrun hout hvalue ka kt hka hkt
  rw [hlocks] at hmem
  exact absurd hmem (by decide)

theorem try_acquire_differs_second :
    ∃ k, TryReaches (fun _ => 0) acts k ∧ ¬ k.TriesAsAcquires 2 ∧ ∃ ka kt,
      k.acquired 2 = some ka ∧ k.tried 2 = some kt ∧ k.TryDiffers ka kt 2 := by
  obtain ⟨k, hrun, hout, hvalue, -⟩ := acts_reach
  exact ⟨k, hrun, try_acquire_differs hrun hout hvalue⟩

end TryAcquireWitness

end Kernel

end PintosLabs
