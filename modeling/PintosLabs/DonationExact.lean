/-
Whether a thread has the priority that those who wait for it give it.  A lock
remembers in `max_pri` the greatest priority that was given through it, and
`lock_acquire` puts there what its thread has itself, be it from whom it may.
-/
import PintosLabs.DonationChain
import PintosLabs.HeldLocks
import PintosLabs.KernelFrame
import PintosLabs.PriorityLedger

namespace PintosLabs

/-- What a thread in the donation loop is about to do. -/
def Pc.donorStage : Pc → DonorStage LockId
  | donateTest _ (some lk) | donateMax _ lk => .compares lk
  | donatePri _ lk => .raised lk
  | donateNext _ lk => .donated lk
  | _ => .idle

namespace Kernel

/-- The thread waits for the lock: it has recorded it, or is in the loop of
`sema_down` for it. -/
def WaitsFor (k : Kernel) (u : ThreadId) (l : LockId) : Prop :=
  (k.threads u).waitingLock = some l ∨ (k.threads u).pc = .down (.lock l)

/-- Thread `u` waits for a lock that `t` holds. -/
def Donates (k : Kernel) (u t : ThreadId) : Prop :=
  ∃ l, k.WaitsFor u l ∧ (k.lock l).holder = some t

/-- Each thread has the greatest of its own priority and those of the threads
that wait for it, directly or through others. -/
def ExactPriorities (k : Kernel) : Prop :=
  ∀ t, IsGreatest (insert (k.threads t).originalPri
    (k.priority '' {u | Relation.TransGen k.Donates u t})) (k.priority t)

/-- Each thread is between two calls or blocked on a semaphore in one. -/
def AtRest (k : Kernel) : Prop :=
  ∀ t, (k.threads t).pc.isQuiet ∨
    ∃ s, (k.threads t).pc = .down s ∧ (k.threads t).status = .blocked

/-! The condition on a step. -/

/-- `lock->max_pri = cur->priority` is what the threads waiting for the lock, or
the thread's own priority, account for. -/
def TakesGreatest (k : Kernel) (l : LockId) : Prop :=
  (∀ u < k.count, u ≠ k.current → (k.threads u).waitingLock = some l →
    k.priority u ≤ k.priority k.current) ∧
  (k.priority k.current ≤ k.cur.originalPri ∨
    ∃ u < k.count, u ≠ k.current ∧ (k.threads u).waitingLock = some l ∧
      k.priority k.current ≤ k.priority u)

/-- A thread with at least this priority waits for the lock. -/
def Backs (k : Kernel) (l : LockId) (priority : Int) : Prop :=
  ∃ u < k.count, (k.threads u).waitingLock = some l ∧ priority ≤ k.priority u

/-- A new priority below what is remembered of a lock is covered by a donation
through that lock. -/
def SetsFairly (k : Kernel) (newPriority : Int) : Prop :=
  ∀ l ∈ k.cur.holdingLocks, (k.lock l).maxPri ≤ newPriority ∨
    k.cur.originalPri ≠ k.priority k.current ∧ k.Backs l (k.lock l).maxPri

def OpDonatesFairly (k : Kernel) : Op → Prop
  | .threadSetPriority newPriority => k.SetsFairly newPriority
  | _ => True

def PcDonatesFairly (k : Kernel) : Pc → Prop
  | .next =>
      match k.cur.ops with
      | [] => True
      | op :: _ => k.OpDonatesFairly op
  | .donateMax _ lk => (k.lock lk).maxPri ≤ k.priority k.current ∧
      k.Backs lk (k.priority k.current)
  | .acquireDown l => (k.sema (.lock l)).value = 0 → k.cur.waitingLock = some l
  | .take l => k.TakesGreatest l
  | _ => True

/-- The condition on a step. -/
def DonatesFairly (k : Kernel) (act : KernelAct) : Prop :=
  act = .run → k.cur.restore = false → k.PcDonatesFairly k.cur.pc

end Kernel

/-! The ledger. -/

/-- The books, with where the threads are, as a ledger. -/
def Books.ledger (b : Books) (v : Shared) : PriorityLedger ThreadId LockId Int where
  own := b.originalPri
  priority := b.priority
  lent := b.maxPri
  held t := {l | l ∈ b.holdingLocks t}
  awaited := v.waitingLock
  stage t := (v.pc t).donorStage

def Kernel.ledger (k : Kernel) : PriorityLedger ThreadId LockId Int :=
  k.books.ledger k.shared

theorem Books.ledger_goto (b : Books) (v : Shared) (c : ThreadId) (pc : Pc) :
    b.ledger (v.goto c pc) = { b.ledger v with
      stage := Function.update (b.ledger v).stage c pc.donorStage } := by
  refine PriorityLedger.ext rfl rfl rfl rfl rfl (funext fun t => ?_)
  exact Function.apply_update (fun _ => Pc.donorStage) v.pc c pc t

/-- A thread goes on to a place with the same stage. -/
theorem Books.ledger_goto_same (b : Books) {v : Shared} {c : ThreadId} {pc : Pc}
    (hstage : pc.donorStage = (v.pc c).donorStage) : b.ledger (v.goto c pc) = b.ledger v := by
  rw [ledger_goto, hstage]
  exact PriorityLedger.ext rfl rfl rfl rfl rfl (Function.update_eq_self c (b.ledger v).stage)

theorem Pc.donorStage_of_isQuiet {pc : Pc} (h : pc.isQuiet) : pc.donorStage = .idle := by
  cases pc <;> first | rfl | cases h

theorem Pc.donorStage_afterDown (s : SemaId) :
    (Kernel.afterDown s).donorStage = .idle := by
  cases s <;> rfl

section SharedStep

variable {c : ThreadId} {op : Option Op} {v v' : Shared}

/-- A thread that is no donor and neither records nor forgets a lock leaves the
ledger as it is. -/
theorem SharedStep.calm (h : SharedStep c op v v') (hidle : (v.pc c).donorStage = .idle)
    (hwaits : ∀ l, v.pc c ≠ .setWaiting l) (htake : ∀ l, v.pc c ≠ .take l) (b : Books) :
    b.ledger v' = b.ledger v := by
  have hgoto : ∀ {pc : Pc}, pc.donorStage = .idle → b.ledger (v.goto c pc) = b.ledger v :=
    fun hpc => b.ledger_goto_same (hpc.trans hidle.symm)
  cases h with
  | stay => rfl
  | move before after =>
      rcases after with hquiet | ⟨t, rfl⟩
      · exact hgoto (Pc.donorStage_of_isQuiet hquiet)
      · exact hgoto rfl
  | held before other held => exact hgoto rfl
  | free before free => exact hgoto rfl
  | waits before => exact absurd before (hwaits _)
  | passes before => cases (before ▸ hidle : DonorStage.compares _ = _)
  | stops before => exact hgoto rfl
  | raises before => cases (before ▸ hidle : DonorStage.compares _ = _)
  | donates before => cases (before ▸ hidle : DonorStage.raised _ = _)
  | follows before holder => cases (before ▸ hidle : DonorStage.donated _ = _)
  | block before zero queued => exact hgoto rfl
  | pass before positive => exact hgoto (Pc.donorStage_afterDown _)
  | tryDown before positive => rfl
  | up before woken => exact hgoto rfl
  | take before => exact absurd before (htake _)
  | setHolder before => exact hgoto rfl
  | release before call holder => exact hgoto rfl
  | removed before => exact hgoto rfl
  | waiterInit before => rfl

/-- A thread in `sema_down` for a lock has recorded the lock, and none stands
behind the yield of `thread_get_lock`. -/
structure Shared.Noted (v : Shared) : Prop where
  recorded : v.Recorded
  down : ∀ t l, v.pc t = .down (.lock l) → v.waitingLock t = some l
  placed : ∀ t l, v.pc t ≠ .setHolder l

theorem SharedStep.placed_cur (h : SharedStep c op v v') {l : LockId}
    (hv : v.pc c ≠ .setHolder l) : v'.pc c ≠ .setHolder l := by
  intro hpc
  cases h with
  | stay => exact hv hpc
  | tryDown before positive => exact hv hpc
  | waiterInit before => exact hv hpc
  | move before after =>
      have hself := (v.goto_self c _).symm.trans hpc
      rw [hself] at after
      rcases after with hquiet | ⟨t, hup⟩
      · cases hquiet
      · cases hup
  | @pass s before positive =>
      have hself := (v.goto_self c _).symm.trans hpc
      cases s <;> cases hself
  | _ => cases (v.goto_self c _).symm.trans hpc

theorem SharedStep.down_cur (h : SharedStep c op v v') (hv : v.Noted) {l : LockId}
    (hdown : v.pc c = .acquireDown l → (v.sema (.lock l)).value = 0 →
      v.waitingLock c = some l)
    (hpc : v'.pc c = .down (.lock l)) : v'.waitingLock c = some l := by
  cases h with
  | stay => exact hv.down c l hpc
  | tryDown before positive => exact hv.down c l hpc
  | waiterInit before => exact hv.down c l hpc
  | move before after =>
      have hself := (v.goto_self c _).symm.trans hpc
      rw [hself] at after
      rcases after with hquiet | ⟨t, hup⟩
      · cases hquiet
      · cases hup
  | @pass s before positive =>
      have hself := (v.goto_self c _).symm.trans hpc
      cases s <;> cases hself
  | block before zero queued =>
      obtain rfl := Pc.down.inj ((v.goto_self c _).symm.trans hpc)
      obtain ⟨pc, hbefore⟩ : ∃ pc, v.pc c = pc := ⟨_, rfl⟩
      rw [hbefore] at before
      cases before with
      | acquire => exact hdown hbefore zero
      | again => exact hv.down c l hbefore
  | _ => cases (v.goto_self c _).symm.trans hpc

theorem SharedStep.noted (h : SharedStep c op v v') (hv : v.Noted)
    (hdown : ∀ l, v.pc c = .acquireDown l → (v.sema (.lock l)).value = 0 →
      v.waitingLock c = some l) : v'.Noted := by
  refine ⟨h.recorded hv.recorded, fun t l hpc => ?_, fun t l => ?_⟩
  · by_cases ht : t = c
    · subst ht
      exact h.down_cur hv (hdown l) hpc
    · rw [h.pc_of_ne ht] at hpc
      rw [h.waitingLock_of_ne ht]
      exact hv.down t l hpc
  · by_cases ht : t = c
    · subst ht
      exact h.placed_cur (hv.placed t l)
    · rw [h.pc_of_ne ht]
      exact hv.placed t l

/-- A thread gets inside a lock at two places. -/
theorem SharedStep.mem_inside (h : SharedStep c op v v') {t : ThreadId} {l : LockId}
    (htake : ∀ m, v.pc c ≠ .take m) (hset : ∀ m, v.pc c ≠ .setHolder m)
    (hl : l ∈ v'.inside t) : l ∈ v.inside t := by
  by_cases ht : t = c
  · subst ht
    cases h with
    | take before => exact absurd before (htake _)
    | setHolder before => exact absurd before (hset _)
    | release before call holder =>
        simp only [Function.update_self] at hl
        exact List.mem_of_mem_filter hl
    | _ => exact hl
  · rwa [h.inside_of_ne ht] at hl

end SharedStep

namespace Kernel

variable {k k' : Kernel} {t : ThreadId} {l : LockId}

theorem ledger_congr (hbooks : k'.books = k.books) (hshared : k'.shared = k.shared) :
    k'.ledger = k.ledger := by
  rw [ledger, hbooks, hshared, ledger]

theorem ledger_goto (k : Kernel) (pc : Pc) : (k.goto pc).ledger = { k.ledger with
    stage := Function.update k.ledger.stage k.current pc.donorStage } := by
  rw [ledger, books_goto, shared_goto]
  exact k.books.ledger_goto k.shared k.current pc

theorem ledger_goto_same {pc : Pc} (hstage : pc.donorStage = k.cur.pc.donorStage) :
    (k.goto pc).ledger = k.ledger := by
  rw [ledger, books_goto, shared_goto]
  exact k.books.ledger_goto_same hstage

/-- What the change of a thread enters in the ledger. -/
theorem ledger_modify (k : Kernel) (t : ThreadId) {f : Thread → Thread}
    (hpc : (f (k.threads t)).pc = (k.threads t).pc)
    (hwaiting : (f (k.threads t)).waitingLock = (k.threads t).waitingLock) :
    (k.modify t f).ledger = { k.ledger with
      own := Function.update k.ledger.own t (f (k.threads t)).originalPri
      priority := Function.update k.ledger.priority t (f (k.threads t)).priority
      held := Function.update k.ledger.held t {l | l ∈ (f (k.threads t)).holdingLocks} } := by
  refine PriorityLedger.ext ?_ ?_ rfl ?_ (k.field_modify t Thread.waitingLock hwaiting)
    (k.field_modify t (fun thread => thread.pc.donorStage) (congrArg _ hpc))
  · exact funext (Function.apply_update (fun _ => Thread.originalPri) k.threads t _)
  · exact funext (Function.apply_update (fun _ => Thread.priority) k.threads t _)
  · exact funext (Function.apply_update
      (fun _ thread => {l | l ∈ Thread.holdingLocks thread}) k.threads t _)

theorem ledger_setHoldingLocks (k : Kernel) (t : ThreadId) (locks : Thread → List LockId) :
    (k.modify t fun thread => { thread with holdingLocks := locks thread }).ledger =
      { k.ledger with
        held := Function.update k.ledger.held t {l | l ∈ locks (k.threads t)} } := by
  rw [ledger_modify _ _ rfl rfl]
  exact PriorityLedger.ext (Function.update_eq_self t k.ledger.own)
    (Function.update_eq_self t k.ledger.priority) rfl rfl rfl rfl

theorem ledger_setMaxPri (k : Kernel) (l : LockId) (maxPri : Int) :
    (k.setLock l fun lock => { lock with maxPri := maxPri }).ledger =
      { k.ledger with lent := Function.update k.ledger.lent l maxPri } := by
  rw [ledger, shared_setMaxPri]
  exact PriorityLedger.ext rfl rfl
    (funext (Function.apply_update (fun _ => Lock.maxPri) k.lock l _)) rfl rfl rfl

/-- The lock that the thread records. -/
theorem ledger_setWaitingLock (k : Kernel) (t : ThreadId) (lock : Option LockId) :
    (k.modify t fun thread => { thread with waitingLock := lock }).ledger =
      { k.ledger with awaited := Function.update k.ledger.awaited t lock } := by
  rw [ledger, books_modify_same _ _ rfl rfl rfl rfl, shared_setWaitingLock]
  rfl

/-- `thread_update_pri` enters the greatest of what the thread is owed. -/
theorem ledger_threadUpdatePri (hk' : k.threadUpdatePri t = some k') :
    ∃ q, k'.ledger = { k.ledger with priority := Function.update k.ledger.priority t q } ∧
      k.ledger.IsUpdated t (k.ledger.held t) q := by
  obtain ⟨locks, q, hupdate, hperm, hspec⟩ := k.threadUpdatePri_spec t
  refine ⟨q, ?_, hspec.original_le, hspec.maxPri_le, hspec.eq.imp (·.le) fun hlock => ?_⟩
  · rw [← Option.some.inj (hupdate.symm.trans hk'), ledger_modify _ _ rfl rfl]
    refine PriorityLedger.ext (Function.update_eq_self t k.ledger.own) rfl rfl ?_ rfl rfl
    have hset : {l | l ∈ locks} = k.ledger.held t := Set.ext fun l => hperm.mem_iff
    change Function.update k.ledger.held t {l | l ∈ locks} = k.ledger.held
    rw [hset, Function.update_eq_self]
  · obtain ⟨l, hl, heq⟩ := hlock
    exact ⟨l, hl, heq.le⟩

theorem ledger_threadDonatePri (hk' : k.threadDonatePri t = some k') :
    ∃ q, k'.ledger = { k.ledger with priority := Function.update k.ledger.priority t q } ∧
      k.ledger.IsUpdated t (k.ledger.held t) q := by
  obtain ⟨k₁, hupdate, hk'⟩ := Option.bind_eq_some_iff.mp hk'
  have hsame : k'.ledger = k₁.ledger := by
    split at hk' <;> rw [← Option.some.inj hk']
    rfl
  rw [hsame]
  exact ledger_threadUpdatePri hupdate

/-- `thread_remove_lock` takes the lock off the list first. -/
theorem ledger_threadRemoveLock (hk' : k.threadRemoveLock l = some k') :
    ∃ locks ⊆ k.ledger.held k.current, ∃ q, k'.ledger = { k.ledger with
        priority := Function.update k.ledger.priority k.current q
        held := Function.update k.ledger.held k.current locks } ∧
      k.ledger.IsUpdated k.current locks q := by
  rw [threadRemoveLock] at hk'
  split at hk'
  · obtain ⟨q, hledger, hq⟩ := ledger_threadUpdatePri hk'
    rw [ledger_setHoldingLocks] at hledger hq
    simp only [Function.update_self] at hq
    exact ⟨_, fun m hm => List.mem_of_mem_erase hm, q, hledger, hq.own_le, hq.lent_le,
      hq.covered⟩
  · cases hk'

theorem ledger_threadGetLock (k : Kernel) (l : LockId) :
    (k.threadGetLock l).ledger = { k.ledger with
      held := Function.update k.ledger.held k.current
        (insert l (k.ledger.held k.current)) } := by
  have hset : {m | m ∈ k.cur.holdingLocks.orderedInsert (fun l m => k.lockCmpPri l m) l} =
      insert l (k.ledger.held k.current) := Set.ext fun m => List.mem_orderedInsert _
  rw [threadGetLock, ledger_setHoldingLocks, ← hset]
  rfl

/-- `lock_acquire` enters the lock with the priority of the thread. -/
theorem ledger_lockTake (hidle : k.cur.pc.donorStage = .idle) :
    (k.lockTake l).ledger = { k.ledger with
      lent := Function.update k.ledger.lent l (k.ledger.priority k.current)
      held := Function.update k.ledger.held k.current
        (insert l (k.ledger.held k.current))
      awaited := Function.update k.ledger.awaited k.current none } := by
  have hholder : ((k.lockTaken l).setHolder l).ledger = (k.lockTaken l).ledger := by
    have hstage : ((k.lockTaken l).shared.pc k.current).donorStage = .idle := by
      rw [shared_lockTaken]
      exact hidle
    rw [ledger, books_setHolder, shared_setHolder]
    exact @Books.ledger_goto_same (k.lockTaken l).books (k.lockTaken l).shared k.current
      .next hstage.symm
  rw [lockTake_eq, hholder, lockTaken, ledger_threadGetLock, ledger_setMaxPri,
    ledger_setWaitingLock]
  have hpriority : (k.intrDisable.modify k.current fun t =>
      { t with waitingLock := none }).cur.priority = k.ledger.priority k.current := by
    change Thread.priority ((k.intrDisable.modify k.current _).threads k.current) = _
    rw [modify_self]
    rfl
  rw [hpriority]
  rfl

/-- `thread_set_priority` enters the new priority as the thread's own, and as the
greatest of what it is owed only if the test says so. -/
theorem ledger_threadSetPriority (k : Kernel) (priority : Int) :
    ∃ q, (k.threadSetPriority priority).ledger = { k.ledger with
        own := Function.update k.ledger.own k.current priority
        priority := Function.update k.ledger.priority k.current q } ∧
      (q = priority ∧ (k.cur.originalPri = k.cur.priority ∨ k.cur.holdingLocks = [] ∨
          k.cur.priority < priority) ∨
        q = k.cur.priority ∧ k.cur.originalPri ≠ k.cur.priority ∧
          priority ≤ k.cur.priority) := by
  obtain ⟨k₁, hk₁⟩ : ∃ k₁, (k.modify k.current fun t =>
    { t with originalPri := priority }) = k₁ := ⟨_, rfl⟩
  have hcurrent : k₁.current = k.current := by
    rw [← hk₁]
    rfl
  have hcur : k₁.cur = { k.cur with originalPri := priority } := by
    rw [cur, hcurrent, ← hk₁, modify_self]
    rfl
  have hledger : k₁.ledger = { k.ledger with
      own := Function.update k.ledger.own k.current priority } := by
    rw [← hk₁, ledger_modify _ _ rfl rfl]
    exact PriorityLedger.ext rfl (Function.update_eq_self k.current k.ledger.priority) rfl
      (Function.update_eq_self k.current k.ledger.held) rfl rfl
  simp only [threadSetPriority, hk₁, hcur]
  split
  case isTrue hset =>
    refine ⟨priority, ?_, Or.inl ⟨rfl, hset⟩⟩
    rw [ledger_congr (books_threadYield _) (shared_threadYield _),
      ledger_congr (books_setRestore _ _) (shared_setRestore _ _), setPriority,
      ledger_modify _ _ rfl rfl, hcurrent, hledger]
    have hthread : k₁.threads k.current = { k.cur with originalPri := priority } := by
      rw [← hcur, cur, hcurrent]
    rw [hthread]
    refine PriorityLedger.ext ?_ rfl rfl ?_ rfl rfl
    · exact Function.update_idem _ _ _
    · exact Function.update_eq_self k.current k.ledger.held
  case isFalse hset =>
    obtain ⟨hown, -, hle⟩ := not_or.mp hset |>.imp_right not_or.mp
    refine ⟨k.cur.priority, ?_, Or.inr ⟨rfl, hown, not_lt.mp hle⟩⟩
    rw [hledger]
    exact PriorityLedger.ext rfl (Function.update_eq_self k.current k.ledger.priority).symm
      rfl rfl rfl rfl

/-- A new priority keeps the ledger in order if what is remembered of the locks
of the thread is covered by it or by a donation. -/
theorem balanced_threadSetPriority (hbalanced : k.ledger.Balanced)
    (hidle : k.ledger.stage k.current = .idle) (hawaited : k.ledger.awaited k.current = none)
    {priority : Int} (hfair : ∀ m ∈ k.ledger.held k.current, k.ledger.lent m ≤ priority ∨
      k.ledger.own k.current ≠ k.ledger.priority k.current ∧
        ∃ u, k.ledger.awaited u = some m ∧ k.ledger.lent m ≤ k.ledger.priority u) :
    (k.threadSetPriority priority).ledger.Balanced := by
  obtain ⟨q, hledger, hq⟩ := k.ledger_threadSetPriority priority
  rw [hledger]
  have hupdate : priority ≤ q → (∀ m ∈ k.ledger.held k.current, k.ledger.lent m ≤ q ∨
      ∃ d, k.ledger.stage d = .raised m ∧ k.ledger.lent m ≤ k.ledger.priority d) →
      (q ≤ priority ∨ ∃ m ∈ k.ledger.held k.current, q ≤ k.ledger.lent m) →
      PriorityLedger.Balanced { k.ledger with
        own := Function.update k.ledger.own k.current priority
        priority := Function.update k.ledger.priority k.current q } := by
    intro hown hlent hcovered
    have hupdated := hbalanced.update hidle hawaited subset_rfl hown hlent hcovered
      fun m hm => (hfair m hm).imp_right fun hback => hback.2
    rwa [Function.update_eq_self] at hupdated
  rcases hq with ⟨rfl, hset⟩ | ⟨rfl, hdonated, hle⟩
  · refine hupdate le_rfl (fun m hm => ?_) (Or.inl le_rfl)
    rcases hfair m hm with hle | ⟨hdonated, -⟩
    · exact Or.inl hle
    · rcases hset with hown | hnil | hlt
      · exact absurd hown hdonated
      · exact absurd (hnil ▸ hm : m ∈ []) List.not_mem_nil
      · exact (hbalanced.lent_le k.current m hm).imp_left fun hle => hle.trans hlt.le
  · refine hupdate hle (hbalanced.lent_le k.current) ?_
    refine (hbalanced.covered k.current).imp_left fun hown => ?_
    exact absurd (le_antisymm (hbalanced.own_le k.current) hown) hdonated

/-- A new thread has its priority and no locks. -/
theorem balanced_threadCreate (hbalanced : k.ledger.Balanced)
    (hunused : (k.threads k.count).Unused) (priority : Int) :
    (k.modify k.count fun _ => initThread priority).ledger.Balanced := by
  rw [ledger_modify _ _ hunused.pc.symm hunused.waitingLock.symm]
  refine hbalanced.update (congrArg Pc.donorStage hunused.pc) hunused.waitingLock ?_ le_rfl
    ?_ (Or.inl le_rfl) ?_
  · exact fun m hm => absurd hm List.not_mem_nil
  · exact fun m hm => absurd hm List.not_mem_nil
  · exact fun m hm => absurd hm List.not_mem_nil

/-- A call that neither creates a thread nor sets a priority. -/
theorem ledger_begin {rest : List Op} {op : Op} (hpc : k.cur.pc = .next)
    (hunused : (k.threads k.count).Unused)
    (hcreate : ∀ priority, op ≠ .threadCreate priority)
    (hset : ∀ priority, op ≠ .threadSetPriority priority)
    (hk' : k.begin rest op = some k') : k'.ledger = k.ledger := by
  have hcalm : k'.books.ledger k'.shared = k'.books.ledger k.shared :=
    (begin_step hpc hunused hk').calm (congrArg Pc.donorStage hpc)
      (fun l hwaits => by cases hpc.symm.trans hwaits)
      (fun l htake => by cases hpc.symm.trans htake) _
  rw [ledger, hcalm, ledger]
  cases op with
  | threadCreate priority => exact absurd rfl (hcreate priority)
  | threadSetPriority priority => exact absurd rfl (hset priority)
  | timerSleep ticks =>
      simp only [Kernel.begin] at hk'
      split at hk'
      · rw [← Option.some.inj hk']
      · rw [← Option.some.inj hk', books_threadBlock, books_goto, books_setBTick,
          books_intrDisable]
        rfl
  | _ =>
      rw [books_begin (fun _ => by simp) (fun _ => by simp) (fun _ => by simp) hk']

/-! The invariant. -/

/-- The ledger is in order, and the lists of locks are those of the locks that
the threads have. -/
structure Donating (k : Kernel) : Prop where
  sound : k.Sound
  listed : k.LocksListed
  noted : k.shared.Noted
  inside : ∀ t, ∀ l ∈ (k.threads t).inside, l ∈ k.held t
  balanced : k.ledger.Balanced

namespace Donating

/-- A lock is on the list of nobody but its holder. -/
theorem holder_unique (h : k.Donating) (hholder : (k.lock l).holder = some t)
    (u : ThreadId) (hu : l ∈ k.ledger.held u) : u = t :=
  (h.sound.owned l).unique (h.listed.listed u l hu).claims
    (Or.inr (((h.sound.owned l).holder_iff t).mp hholder))

theorem awaited_eq_none (h : k.Donating) (hpc : (k.threads t).pc.awaits = none) :
    k.ledger.awaited t = none := by
  refine Option.eq_none_iff_forall_ne_some.mpr fun l hl => ?_
  cases hpc.symm.trans (h.noted.recorded t l hl)

theorem lt_count (h : k.Donating) (hl : k.ledger.awaited t = some l) : t < k.count := by
  refine Nat.lt_of_not_le fun hle => ?_
  cases (h.sound.lists.unused t hle).waitingLock.symm.trans hl

theorem balanced_setWaiting (h : k.Donating) (hpc : k.cur.pc = .setWaiting l)
    (hk' : k.advance (.setWaiting l) = some k') : k'.ledger.Balanced := by
  have hidle : k.ledger.stage k.current = .idle := congrArg Pc.donorStage hpc
  rw [← Option.some.inj hk', ledger_goto, ledger_setWaitingLock]
  refine h.balanced.await hidle fun m hm => ?_
  have hawaits := h.noted.recorded k.current m hm
  rw [show k.shared.pc k.current = .setWaiting l from hpc] at hawaits
  exact (Option.some.inj hawaits).symm

theorem balanced_donateTest (h : k.Donating) {lk : Option LockId}
    (hpc : k.cur.pc = .donateTest l lk) (hk' : k.advance (.donateTest l lk) = some k') :
    k'.ledger.Balanced := by
  cases lk with
  | none =>
      have hsame : (k.goto (.acquireDown l)).ledger = k.ledger :=
        ledger_goto_same (congrArg Pc.donorStage hpc).symm
      rw [← Option.some.inj hk', hsame]
      exact h.balanced
  | some lk =>
      have hstage : k.ledger.stage k.current = .compares lk := congrArg Pc.donorStage hpc
      simp only [advance] at hk'
      split at hk'
      · have hsame : (k.goto (.donateMax l lk)).ledger = k.ledger :=
          ledger_goto_same (congrArg Pc.donorStage hpc).symm
        rw [← Option.some.inj hk', hsame]
        exact h.balanced
      case isFalse hle =>
        rw [← Option.some.inj hk', ledger_goto]
        exact h.balanced.stop hstage (not_lt.mp hle)

theorem balanced_donateMax (h : k.Donating) {lk : LockId}
    (hpc : k.cur.pc = .donateMax l lk)
    (hfair : (k.lock lk).maxPri ≤ k.priority k.current ∧
      k.Backs lk (k.priority k.current))
    (hk' : k.advance (.donateMax l lk) = some k') : k'.ledger.Balanced := by
  obtain ⟨hle, u, -, hu, hback⟩ := hfair
  rw [← Option.some.inj hk', ledger_goto, ledger_setMaxPri]
  exact h.balanced.raise (congrArg Pc.donorStage hpc) hle ⟨u, hu, hback⟩

theorem balanced_donatePri (h : k.Donating) {lk : LockId}
    (hpc : k.cur.pc = .donatePri l lk) (hk' : k.advance (.donatePri l lk) = some k') :
    k'.ledger.Balanced := by
  obtain ⟨t, hholder, hk'⟩ := Option.bind_eq_some_iff.mp hk'
  obtain ⟨k₁, hdonate, hk'⟩ := Option.bind_eq_some_iff.mp hk'
  obtain ⟨q, hledger, hq⟩ := ledger_threadDonatePri hdonate
  rw [← Option.some.inj hk', ledger_goto, hledger, current_threadDonatePri hdonate]
  exact h.balanced.donate (congrArg Pc.donorStage hpc) (h.holder_unique hholder) hq

theorem balanced_donateNext (h : k.Donating) {lk : LockId}
    (hpc : k.cur.pc = .donateNext l lk) (hk' : k.advance (.donateNext l lk) = some k') :
    k'.ledger.Balanced := by
  obtain ⟨t, hholder, hk'⟩ := Option.bind_eq_some_iff.mp hk'
  rw [← Option.some.inj hk', ledger_goto]
  refine h.balanced.follow (congrArg Pc.donorStage hpc) (h.holder_unique hholder)
    fun m hm => ?_
  rw [show (k.threads t).waitingLock = some m from hm]
  rfl

theorem balanced_take (h : k.Donating) (hpc : k.cur.pc = .take l)
    (hfair : k.TakesGreatest l) : (k.lockTake l).ledger.Balanced := by
  have hclaims : k.shared.Claims k.current l := Or.inl ((congrArg Pc.claimed hpc).trans rfl)
  have hfree : ∀ t, l ∉ k.ledger.held t := by
    intro t hl
    have hlisted := h.listed.listed t l hl
    obtain rfl := (h.sound.owned l).unique hlisted.claims hclaims
    rcases hlisted with hinside | hremove
    · exact h.listed.fresh k.current l hpc hinside
    · cases hpc.symm.trans hremove
  have hidle : k.ledger.stage k.current = .idle := congrArg Pc.donorStage hpc
  rw [ledger_lockTake hidle]
  refine h.balanced.take hidle hfree (fun m hm => ?_)
    (fun u hne hu => hfair.1 u (h.lt_count hu) hne hu) ?_
  · have hawaits := h.noted.recorded k.current m hm
    rw [show k.shared.pc k.current = .take l from hpc] at hawaits
    exact (Option.some.inj hawaits).symm
  · exact hfair.2.imp_right fun hback => by
      obtain ⟨u, -, hne, hu, hle⟩ := hback
      exact ⟨u, hne, hu, hle⟩

theorem balanced_removeLock (h : k.Donating) (hpc : k.cur.pc = .removeLock l)
    (hk' : k.advance (.removeLock l) = some k') : k'.ledger.Balanced := by
  obtain ⟨k₁, hremove, hk'⟩ := Option.bind_eq_some_iff.mp hk'
  obtain ⟨locks, hsub, q, hledger, hq⟩ := ledger_threadRemoveLock hremove
  have hidle : k.ledger.stage k.current = .idle := congrArg Pc.donorStage hpc
  have hpc₁ : k₁.cur.pc.donorStage = .idle := by
    rw [cur, current_threadRemoveLock hremove]
    exact (congrFun (congrArg PriorityLedger.stage hledger) k.current).trans hidle
  have hsame : (k₁.goto (.releaseUp l)).ledger = k₁.ledger := ledger_goto_same hpc₁.symm
  have hbalanced := h.balanced.update hidle
    (h.awaited_eq_none ((congrArg Pc.awaits hpc).trans rfl)) hsub hq.own_le
    (fun m hm => Or.inl (hq.lent_le m hm)) hq.covered
    fun m hm => h.balanced.backed k.current m (hsub hm)
  rw [Function.update_eq_self] at hbalanced
  rw [← Option.some.inj hk', hsame, hledger]
  exact hbalanced

theorem balanced_begin (h : k.Donating) (hpc : k.cur.pc = .next) {op : Op}
    {rest : List Op} (hops : k.cur.ops = op :: rest) (hfair : k.OpDonatesFairly op)
    (hk' : (k.setOps rest).begin rest op = some k') : k'.ledger.Balanced := by
  have hsame : (k.setOps rest).ledger = k.ledger :=
    ledger_congr (books_setOps _ _) (shared_setOps _ _)
  have hunused : ((k.setOps rest).threads (k.setOps rest).count).Unused := by
    have hthread : (k.setOps rest).threads k.count = k.threads k.count :=
      modify_of_ne h.sound.lists.current_lt.ne' _
    exact hthread ▸ h.sound.lists.unused k.count (Nat.le_refl _)
  have hbalanced : (k.setOps rest).ledger.Balanced := hsame ▸ h.balanced
  have hbegun : (∀ priority, op ≠ .threadCreate priority) →
      (∀ priority, op ≠ .threadSetPriority priority) → k'.ledger.Balanced := by
    intro hcreate hset
    have hpc₁ : (k.setOps rest).cur.pc = .next := by rw [setOps_cur_pc, hpc]
    rwa [@ledger_begin (k.setOps rest) k' rest op hpc₁ hunused hcreate hset hk']
  cases op with
  | threadCreate priority =>
      simp only [Kernel.begin] at hk'
      split at hk'
      · rw [← Option.some.inj hk',
          ledger_congr (books_setOps _ _) (shared_setOps _ _)]
        exact balanced_threadCreate hbalanced hunused priority
      · cases hk'
  | threadSetPriority priority =>
      rw [← Option.some.inj hk']
      refine balanced_threadSetPriority hbalanced ?_ ?_ ?_
      · rw [hsame]
        exact congrArg Pc.donorStage hpc
      · rw [hsame]
        exact h.awaited_eq_none ((congrArg Pc.awaits hpc).trans rfl)
      · rw [hsame]
        refine fun m hm => (hfair m hm).imp_right fun hback => ?_
        obtain ⟨hdonated, u, -, hu⟩ := hback
        exact ⟨hdonated, u, hu⟩
  | _ => exact hbegun (fun _ => by simp) (fun _ => by simp)

theorem balanced_advance (h : k.Donating) (hfair : k.PcDonatesFairly k.cur.pc)
    (hk' : k.advance k.cur.pc = some k') : k'.ledger.Balanced := by
  obtain ⟨pc, hpc⟩ : ∃ pc, k.cur.pc = pc := ⟨_, rfl⟩
  have hcalm : pc.donorStage = .idle → pc ≠ .next → pc.booksIn = false →
      (∀ l, pc ≠ .setWaiting l) → k'.ledger.Balanced := by
    intro hidle hnext hbooks hwaits
    have hstep := (advance_step (h.sound.lists.unused _ (Nat.le_refl _))
      h.sound.lists.current_lt hk').calm ((congrArg Pc.donorStage hpc).trans hidle)
      (fun l hsets => hwaits l (hpc.symm.trans hsets))
      (fun l htakes => by
        rw [← hpc, show k.cur.pc = .take l from htakes] at hbooks
        cases hbooks)
    rw [ledger, hstep, books_advance (hpc ▸ hnext) (hpc ▸ hbooks) hk']
    exact h.balanced
  rw [hpc] at hk' hfair
  cases pc with
  | next =>
      simp only [advance] at hk'
      split at hk'
      · cases hk'
      case h_2 op rest hops =>
        refine h.balanced_begin hpc hops ?_ hk'
        simpa only [PcDonatesFairly, hops] using hfair
  | setWaiting l => exact h.balanced_setWaiting hpc hk'
  | donateTest l lk => exact h.balanced_donateTest hpc hk'
  | donateMax l lk => exact h.balanced_donateMax hpc hfair hk'
  | donatePri l lk => exact h.balanced_donatePri hpc hk'
  | donateNext l lk => exact h.balanced_donateNext hpc hk'
  | take l => exact Option.some.inj hk' ▸ h.balanced_take hpc hfair
  | removeLock l => exact h.balanced_removeLock hpc hk'
  | _ => exact hcalm rfl (fun h => by cases h) rfl (fun l h => by cases h)

theorem balanced_step (h : k.Donating) {act : KernelAct} (hfair : k.DonatesFairly act)
    (hk' : k.step act = some k') : k'.ledger.Balanced := by
  cases act with
  | tick allList =>
      simp only [Kernel.step] at hk'
      split at hk'
      · obtain ⟨bTick, hbooks⟩ := books_timerInterrupt hk'
        rw [ledger, hbooks, shared_timerInterrupt hk']
        exact h.balanced
      · cases hk'
  | call op =>
      simp only [Kernel.step] at hk'
      split at hk'
      · rw [← Option.some.inj hk', ledger_congr (books_setOps _ _) (shared_setOps _ _)]
        exact h.balanced
      · cases hk'
  | run =>
      simp only [Kernel.step] at hk'
      split at hk'
      · rw [← Option.some.inj hk']
        exact (ledger_congr (books_setRestore k false) (shared_setRestore k false)).symm ▸
          h.balanced
      case isFalse hrestore =>
        exact h.balanced_advance (hfair rfl (Bool.eq_false_of_not_eq_true hrestore)) hk'

theorem noted_step (h : k.Donating) {act : KernelAct} (hfair : k.DonatesFairly act)
    (hk' : k.step act = some k') : k'.shared.Noted := by
  rcases step_shared (h.sound.lists.unused _ (Nat.le_refl _)) h.sound.lists.current_lt hk'
    with hsame | ⟨rfl, hrestore, hstep⟩
  · exact hsame ▸ h.noted
  · refine hstep.noted h.noted fun l hpc hzero => ?_
    have hfair := hfair rfl hrestore
    rw [show k.cur.pc = .acquireDown l from hpc] at hfair
    exact hfair hzero

theorem inside_step (h : k.Donating) {act : KernelAct} (hk' : k.step act = some k')
    (t : ThreadId) (l : LockId) (hl : l ∈ k'.shared.inside t) : l ∈ k'.held t := by
  have hstep := h.sound.shared hk'
  rcases h.listed.held_step h.sound hk' with
    ⟨hheld, hshared | ⟨htake, -⟩⟩ | ⟨m, hpc, rfl⟩ | ⟨m, hpc, hheld⟩
  · rw [hshared] at hl
    exact hheld ▸ h.inside t l hl
  · exact hheld ▸ h.inside t l (hstep.mem_inside htake (h.noted.placed _) hl)
  · rw [held_lockTake]
    rw [lockTake_eq, shared_setHolder, shared_lockTaken] at hl
    change l ∈ Function.update k.shared.inside k.current _ t at hl
    by_cases ht : t = k.current
    · subst ht
      rw [Function.update_self] at hl ⊢
      exact Multiset.mem_cons.mpr ((List.mem_cons.mp hl).imp_right (h.inside _ l))
    · rw [Function.update_of_ne ht] at hl ⊢
      exact h.inside t l hl
  · have hbefore := hstep.mem_inside (fun n htake => by cases hpc.symm.trans htake)
      (h.noted.placed _) hl
    rw [hheld]
    by_cases ht : t = k.current
    · subst ht
      have hne : l ≠ m := by
        rintro rfl
        exact (h.sound.owned l).releasing k.current (Or.inl hpc) hbefore
      rw [Function.update_self, Multiset.mem_erase_of_ne hne]
      exact h.inside k.current l hbefore
    · rw [Function.update_of_ne ht]
      exact h.inside t l hbefore

theorem step (h : k.Donating) {act : KernelAct} (hfair : k.DonatesFairly act)
    (hk' : k.step act = some k') : k'.Donating where
  sound := h.sound.step hk'
  listed := h.listed.step h.sound hk'
  noted := h.noted_step hfair hk'
  inside := h.inside_step hk'
  balanced := h.balanced_step hfair hk'

end Donating

namespace Donating

/-- At rest the locks on a thread's list are those that it holds. -/
theorem lendsTo_iff (h : k.Donating) (hrest : k.AtRest) (u t : ThreadId) :
    k.ledger.LendsTo u t ↔ k.Donates u t := by
  refine exists_congr fun l => ?_
  have hwaits : k.ledger.awaited u = some l ↔ k.WaitsFor u l :=
    ⟨Or.inl, fun hwaits => hwaits.elim id (h.noted.down u l)⟩
  have hheld : l ∈ k.ledger.held t ↔ (k.lock l).holder = some t := by
    refine Iff.trans ⟨fun hl => ?_, h.inside t l⟩ ((h.sound.owned l).holder_iff t).symm
    refine (h.listed.listed t l hl).resolve_right fun hpc => ?_
    rcases hrest t with hquiet | ⟨s, hdown, -⟩
    · rw [show (k.threads t).pc = .removeLock l from hpc] at hquiet
      cases hquiet
    · cases hdown.symm.trans hpc
  rw [hheld, hwaits, and_comm]

theorem exact (h : k.Donating) (hrest : k.AtRest) : k.ExactPriorities := by
  have hidle : ∀ t, k.ledger.stage t = .idle := by
    intro t
    rcases hrest t with hquiet | ⟨s, hdown, -⟩
    · exact Pc.donorStage_of_isQuiet hquiet
    · exact congrArg Pc.donorStage hdown
  have hlends : k.ledger.LendsTo = k.Donates :=
    funext fun u => funext fun t => propext (h.lendsTo_iff hrest u t)
  have hexact := h.balanced.exact hidle
  rw [PriorityLedger.Exact, hlends] at hexact
  exact hexact

end Donating

instance (k : Kernel) (l : LockId) : Decidable (k.TakesGreatest l) :=
  inferInstanceAs (Decidable (_ ∧ _))

instance (k : Kernel) (l : LockId) (priority : Int) : Decidable (k.Backs l priority) :=
  inferInstanceAs (Decidable (∃ u < k.count, _))

namespace DonationExactWitness

/-- Another thread acquires a lock that the first one holds, and blocks. -/
def donates : List KernelAct :=
  .call (.lockAcquire 1) :: List.replicate 3 KernelAct.run ++
  .call (.threadCreate 32) :: List.replicate 12 KernelAct.run ++
  .call (.lockAcquire 1) :: List.replicate 9 KernelAct.run

end DonationExactWitness

end Kernel

end PintosLabs
