/-
What the scheduler and the semaphores leave alone: of each thread its
priorities, what is left of its sleep and the locks on its list, and of each lock
what it remembers.
-/
import PintosLabs.KernelShared

namespace PintosLabs

@[ext] structure Books where
  priority : ThreadId → Int
  originalPri : ThreadId → Int
  bTick : ThreadId → Nat
  holdingLocks : ThreadId → List LockId
  maxPri : LockId → Int

/-- Where within a call a priority, a list of locks or what a lock remembers
changes. -/
def Pc.booksIn : Pc → Bool
  | donateMax _ _ | donatePri _ _ | take _ | removeLock _ => true
  | _ => false

namespace Kernel

def books (k : Kernel) : Books where
  priority t := (k.threads t).priority
  originalPri t := (k.threads t).originalPri
  bTick t := (k.threads t).bTick
  holdingLocks t := (k.threads t).holdingLocks
  maxPri l := (k.lock l).maxPri

variable {k k' : Kernel} {t : ThreadId}

/-- A field that a change of thread `t` leaves is the same for all. -/
theorem field_modify (k : Kernel) (t : ThreadId) {f : Thread → Thread} {α : Type}
    (field : Thread → α) (hfield : field (f (k.threads t)) = field (k.threads t)) :
    (fun u => field ((k.modify t f).threads u)) = fun u => field (k.threads u) := by
  funext u
  by_cases hu : u = t
  · subst hu
    rw [modify_self, hfield]
  · rw [modify_of_ne hu]

theorem books_modify_same (k : Kernel) (t : ThreadId) {f : Thread → Thread}
    (hpriority : (f (k.threads t)).priority = (k.threads t).priority)
    (horiginal : (f (k.threads t)).originalPri = (k.threads t).originalPri)
    (hbTick : (f (k.threads t)).bTick = (k.threads t).bTick)
    (hlocks : (f (k.threads t)).holdingLocks = (k.threads t).holdingLocks) :
    (k.modify t f).books = k.books := by
  exact Books.ext (k.field_modify t Thread.priority hpriority)
    (k.field_modify t Thread.originalPri horiginal) (k.field_modify t Thread.bTick hbTick)
    (k.field_modify t Thread.holdingLocks hlocks) rfl

/-- Another holder of a lock leaves what it remembers. -/
theorem books_setLock (k : Kernel) (l : LockId) {f : Lock → Lock}
    (hmaxPri : (f (k.lock l)).maxPri = (k.lock l).maxPri) :
    (k.setLock l f).books = k.books := by
  refine Books.ext rfl rfl rfl rfl (funext fun m => ?_)
  change ((k.setLock l f).lock m).maxPri = (k.lock m).maxPri
  by_cases hm : m = l
  · subst hm
    rw [setLock_self, hmaxPri]
  · rw [setLock_of_ne hm]

section Frame

variable (k)

@[simp] theorem books_goto (pc : Pc) : (k.goto pc).books = k.books :=
  k.books_modify_same _ rfl rfl rfl rfl

@[simp] theorem books_setOps (ops : List Op) : (k.setOps ops).books = k.books :=
  k.books_modify_same _ rfl rfl rfl rfl

@[simp] theorem books_setRestore (restore : Bool) :
    (k.setRestore restore).books = k.books := k.books_modify_same _ rfl rfl rfl rfl

@[simp] theorem books_setStatus (t : ThreadId) (status : ThreadStatus) :
    (k.setStatus t status).books = k.books := k.books_modify_same _ rfl rfl rfl rfl

@[simp] theorem books_setSema (s : SemaId) (f : Semaphore → Semaphore) :
    (k.setSema s f).books = k.books := rfl

@[simp] theorem books_setCond (c : CondId) (waiters : List ThreadId) :
    (k.setCond c waiters).books = k.books := rfl

@[simp] theorem books_intrEnable : k.intrEnable.books = k.books := rfl

@[simp] theorem books_intrDisable : k.intrDisable.books = k.books := rfl

@[simp] theorem books_insertReady (t : ThreadId) : (k.insertReady t).books = k.books := rfl

@[simp] theorem books_schedule : k.schedule.books = k.books := by
  rw [schedule, books_setStatus]
  rfl

@[simp] theorem books_threadBlock : k.threadBlock.books = k.books := by
  rw [threadBlock, books_schedule, books_setStatus]

@[simp] theorem books_threadYield : k.threadYield.books = k.books := by
  rw [threadYield, books_schedule, books_setStatus]
  split <;> rfl

@[simp] theorem books_setHolder (l : LockId) : (k.setHolder l).books = k.books := by
  rw [setHolder, books_intrEnable, books_goto, books_modify_same _ _ rfl rfl rfl rfl]
  exact k.books_setLock l rfl

@[simp] theorem books_semaDown (s : SemaId) : (k.semaDown s).books = k.books := by
  by_cases hzero : (k.sema s).value = 0
  · rw [semaDown_of_zero hzero, books_threadBlock, books_goto, books_setSema,
      books_intrDisable]
  · rw [semaDown_of_ne_zero hzero, books_intrEnable, books_goto, books_setSema,
      books_intrDisable]

@[simp] theorem books_semaTryDown (s : SemaId) : (k.semaTryDown s).books = k.books := by
  rw [semaTryDown]
  split <;> rfl

variable {k}

theorem books_threadUnblock (hk' : k.threadUnblock t = some k') : k'.books = k.books := by
  rw [threadUnblock] at hk'
  split at hk'
  · rw [← Option.some.inj hk', books_setStatus, books_insertReady]
  · cases hk'

theorem books_semaWake {s : SemaId} (hk' : k.semaWake s = some k') :
    k'.books = k.books := by
  rw [semaWake] at hk'
  split at hk'
  · rw [← Option.some.inj hk']
  · obtain ⟨sorted, -, hk'⟩ := Option.bind_eq_some_iff.mp hk'
    split at hk'
    · cases hk'
    · rw [books_threadUnblock hk', books_setSema]

theorem books_semaUp {s : SemaId} (hk' : k.semaUp s = some k') : k'.books = k.books := by
  obtain ⟨k₁, hwake, hk'⟩ := Option.bind_eq_some_iff.mp hk'
  rw [← Option.some.inj hk', books_threadYield, books_setRestore, books_setSema,
    books_semaWake hwake, books_intrDisable]

/-- Of the calls, three enter something in the books. -/
theorem books_begin {rest : List Op} {op : Op}
    (hcreate : ∀ priority, op ≠ .threadCreate priority)
    (hset : ∀ priority, op ≠ .threadSetPriority priority)
    (hsleep : ∀ ticks, op ≠ .timerSleep ticks) (hk' : k.begin rest op = some k') :
    k'.books = k.books := by
  cases op with
  | threadCreate priority => exact absurd rfl (hcreate priority)
  | threadSetPriority priority => exact absurd rfl (hset priority)
  | timerSleep ticks => exact absurd rfl (hsleep ticks)
  | threadYield => rw [← Option.some.inj hk']; simp
  | threadBlock => rw [← Option.some.inj hk']; simp
  | threadUnblock u =>
      simp only [Kernel.begin] at hk'
      split at hk'
      · exact books_threadUnblock hk'
      · cases hk'
  | allocateTid u =>
      rw [← Option.some.inj hk', books_modify_same _ _ rfl rfl rfl rfl]
      rfl
  | startThread u => exact books_threadUnblock hk'
  | yieldTo priority =>
      simp only [Kernel.begin] at hk'
      split at hk' <;> rw [← Option.some.inj hk']
      simp
  | semaDown n => rw [← Option.some.inj hk']; simp
  | semaTryDown n => rw [← Option.some.inj hk']; simp
  | semaUp n => exact books_semaUp hk'
  | lockAcquire l =>
      simp only [Kernel.begin] at hk'
      split at hk'
      · cases hk'
      · split at hk' <;> rw [← Option.some.inj hk', books_goto]
  | lockRelease l =>
      simp only [Kernel.begin] at hk'
      split at hk'
      · rw [← Option.some.inj hk', books_goto, books_modify_same _ _ rfl rfl rfl rfl]
        exact k.books_setLock l rfl
      · cases hk'
  | condWait c l =>
      simp only [Kernel.begin] at hk'
      split at hk'
      · rw [← Option.some.inj hk', books_setOps, books_setCond, books_setSema]
      · cases hk'
  | waiterDown => rw [← Option.some.inj hk']; simp
  | condSignal c l =>
      simp only [Kernel.begin] at hk'
      split at hk'
      · split at hk' <;> rw [← Option.some.inj hk']
        rw [books_goto]
      · cases hk'
  | condBroadcast c l =>
      simp only [Kernel.begin] at hk'
      split at hk' <;> rw [← Option.some.inj hk']
      rw [books_setOps]

theorem books_advance (hnext : k.cur.pc ≠ .next) (hbooks : k.cur.pc.booksIn = false)
    (hk' : k.advance k.cur.pc = some k') : k'.books = k.books := by
  generalize k.cur.pc = pc at hk' hnext hbooks
  cases pc with
  | next => exact absurd rfl hnext
  | donateMax l lk => cases hbooks
  | donatePri l lk => cases hbooks
  | take l => cases hbooks
  | removeLock l => cases hbooks
  | setWaiting l =>
      rw [← Option.some.inj hk', books_goto, books_modify_same _ _ rfl rfl rfl rfl]
  | donateTest l lk =>
      cases lk with
      | none => rw [← Option.some.inj hk', books_goto]
      | some lk =>
          simp only [Kernel.advance] at hk'
          split at hk' <;> rw [← Option.some.inj hk', books_goto]
  | donateNext l lk =>
      obtain ⟨holder, -, hk'⟩ := Option.bind_eq_some_iff.mp hk'
      rw [← Option.some.inj hk', books_goto]
  | acquireDown l => rw [← Option.some.inj hk', books_semaDown]
  | down s => rw [← Option.some.inj hk', books_semaDown]
  | setHolder l => rw [← Option.some.inj hk', books_setHolder]
  | releaseUp l => rw [books_semaUp hk', books_goto]
  | condSort c sort =>
      cases sort with
      | done result =>
          simp only [Kernel.advance] at hk'
          split at hk' <;> rw [← Option.some.inj hk', books_goto, books_setCond]
      | failed => cases hk'
      | compare x y next =>
          obtain ⟨less, -, hk'⟩ := Option.bind_eq_some_iff.mp hk'
          rw [← Option.some.inj hk', books_goto]
  | condSorted c sorted =>
      cases sorted with
      | done result =>
          simp only [Kernel.advance] at hk'
          split at hk'
          · rw [← Option.some.inj hk', books_goto]
          · cases hk'
      | failed => cases hk'
      | compare x y next =>
          obtain ⟨less, -, hk'⟩ := Option.bind_eq_some_iff.mp hk'
          rw [← Option.some.inj hk', books_goto]
  | condPop c =>
      simp only [Kernel.advance] at hk'
      split at hk'
      · cases hk'
      · rw [← Option.some.inj hk', books_goto, books_setCond]
  | condUp u => rw [books_semaUp hk', books_goto]
  | asleep => rw [← Option.some.inj hk', books_intrEnable, books_goto]
  | parked => rw [← Option.some.inj hk', books_intrEnable, books_goto]
  | idleBlock =>
      rw [← Option.some.inj hk', books_threadBlock, books_goto, books_intrDisable]
  | idleWake => rw [← Option.some.inj hk', books_intrEnable, books_goto]

end Frame

theorem books_setBTick (k : Kernel) (t : ThreadId) (bTick : Thread → Nat) :
    (k.modify t fun thread => { thread with bTick := bTick thread }).books =
      { k.books with
        bTick := Function.update k.books.bTick t (bTick (k.threads t)) } := by
  refine Books.ext (k.field_modify t Thread.priority rfl)
    (k.field_modify t Thread.originalPri rfl) ?_
    (k.field_modify t Thread.holdingLocks rfl) rfl
  funext u
  by_cases hu : u = t
  · subst hu
    simp only [books, modify_self, Function.update_self]
  · simp only [books, modify_of_ne hu, Function.update_of_ne hu]

/-- A timer interrupt enters in the books only how long the threads sleep. -/
theorem books_timerInterrupt {allList : List ThreadId}
    (hk' : k.timerInterrupt allList = some k') :
    ∃ bTick, k'.books = { k.books with bTick := bTick } := by
  have hcheck : ∀ {k k' : Kernel} {t : ThreadId}, k.threadBCheck t = some k' →
      ∃ bTick, k'.books = { k.books with bTick := bTick } := by
    intro k k' t hk'
    rw [threadBCheck] at hk'
    split at hk'
    · simp only at hk'
      split at hk'
      · exact ⟨_, (books_threadUnblock hk').trans (books_setBTick _ _ _)⟩
      · exact ⟨_, (congrArg books (Option.some.inj hk').symm).trans (books_setBTick _ _ _)⟩
    · exact ⟨_, congrArg books (Option.some.inj hk').symm⟩
  have hforeach : ∀ {allList : List ThreadId} {k k' : Kernel},
      k.threadForeach allList = some k' →
        ∃ bTick, k'.books = { k.books with bTick := bTick } := by
    intro allList
    induction allList with
    | nil => exact fun hk' => ⟨_, congrArg books (Option.some.inj hk').symm⟩
    | cons t rest ih =>
        intro k k' hk'
        obtain ⟨k₁, hfirst, hrest⟩ := Option.bind_eq_some_iff.mp hk'
        obtain ⟨bTick, hfirst⟩ := hcheck hfirst
        obtain ⟨bTick', hrest⟩ := ih hrest
        exact ⟨bTick', by rw [hrest, hfirst]⟩
  obtain ⟨k₁, hall, hk'⟩ := Option.bind_eq_some_iff.mp hk'
  obtain ⟨bTick, hall⟩ := hforeach hall
  refine ⟨bTick, ?_⟩
  change k₁.books = { k.books with bTick := bTick } at hall
  rw [← hall]
  split at hk'
  · rw [← Option.some.inj hk', books_threadYield, books_setRestore]
  · rw [← Option.some.inj hk']

end Kernel

end PintosLabs
