/-
Whether the running thread is one of those with the greatest priority.  What
makes a thread ready or changes a priority has each its own rule for yielding:
`sema_up` always yields, `thread_create` and `thread_set_priority` compare,
and a timer interrupt yields at the end of a time slice only.
-/
import PintosLabs.KernelFrame
import PintosLabs.KernelRuns

namespace PintosLabs

/-- What decides who runs: of each thread its status, its priority and the
priority of its own. -/
@[ext] structure Ranks where
  current : ThreadId
  readyList : List ThreadId
  status : ThreadId → ThreadStatus
  priorities : ThreadId → Int × Int

/-- No priority is below `PRI_MIN`, where the idle thread is. -/
structure Floor (priorities : ThreadId → Int × Int) : Prop where
  least : ∀ t, priMin ≤ (priorities t).2
  original_le : ∀ t, (priorities t).2 ≤ (priorities t).1
  idle : (priorities idleThread).1 = priMin

namespace Floor

variable {priorities : ThreadId → Int × Int}

theorem priMin_le (h : Floor priorities) (t : ThreadId) :
    priMin ≤ (priorities t).1 := Int.le_trans (h.least t) (h.original_le t)

theorem update (h : Floor priorities) {t : ThreadId} (hidle : t ≠ idleThread)
    {priority original : Int} (hleast : priMin ≤ original)
    (hle : original ≤ priority) :
    Floor (Function.update priorities t (priority, original)) where
  least u := by
    by_cases hu : u = t
    · subst hu
      rwa [Function.update_self]
    · rw [Function.update_of_ne hu]
      exact h.least u
  original_le u := by
    by_cases hu : u = t
    · subst hu
      rwa [Function.update_self]
    · rw [Function.update_of_ne hu]
      exact h.original_le u
  idle := by
    rw [Function.update_of_ne hidle.symm]
    exact h.idle

end Floor

/-- The ready list as `schedule` is to find it. -/
structure Ranks.InOrder (v : Ranks) : Prop where
  sorted : Descending (fun t => (v.priorities t).1) v.readyList
  ready : ∀ t, v.status t = .ready → t ∈ v.readyList ∨ t = idleThread
  floor : Floor v.priorities

namespace Kernel

def priorities (k : Kernel) (t : ThreadId) : Int × Int :=
  ((k.threads t).priority, (k.threads t).originalPri)

def ranks (k : Kernel) : Ranks where
  current := k.current
  readyList := k.readyList
  status t := (k.threads t).status
  priorities := k.priorities

/-- No thread that is ready has a greater priority than the running thread. -/
def Leads (k : Kernel) : Prop :=
  ∀ t, (k.threads t).status = .ready → k.priority t ≤ k.priority k.current

section Frame

variable {k k' : Kernel} {t : ThreadId}

theorem Leads.congr (h : k.Leads) (hranks : k'.ranks = k.ranks) : k'.Leads := by
  intro u hu
  have hstatus : (k'.threads u).status = (k.threads u).status :=
    congrFun (congrArg Ranks.status hranks) u
  have hpriority : ∀ v, k'.priority v = k.priority v := fun v =>
    congrArg Prod.fst (congrFun (congrArg Ranks.priorities hranks) v)
  have hcurrent : k'.current = k.current := congrArg Ranks.current hranks
  rw [hpriority, hpriority, hcurrent]
  exact h u (hstatus.symm.trans hu)

theorem priorities_modify (k : Kernel) (t : ThreadId) (f : Thread → Thread) :
    (k.modify t f).priorities = Function.update k.priorities t
      ((f (k.threads t)).priority, (f (k.threads t)).originalPri) := by
  funext u
  by_cases hu : u = t
  · subst hu
    rw [priorities, modify_self, Function.update_self]
  · rw [priorities, modify_of_ne hu, Function.update_of_ne hu, priorities]

theorem priorities_modify_same (k : Kernel) (t : ThreadId) {f : Thread → Thread}
    (hpriority : (f (k.threads t)).priority = (k.threads t).priority)
    (horiginal : (f (k.threads t)).originalPri = (k.threads t).originalPri) :
    (k.modify t f).priorities = k.priorities := by
  rw [priorities_modify, hpriority, horiginal]
  exact Function.update_eq_self t k.priorities

theorem status_modify_same (k : Kernel) (t : ThreadId) {f : Thread → Thread}
    (hstatus : (f (k.threads t)).status = (k.threads t).status) (u : ThreadId) :
    ((k.modify t f).threads u).status = (k.threads u).status := by
  by_cases hu : u = t
  · subst hu
    rw [modify_self, hstatus]
  · rw [modify_of_ne hu]

/-- A change of a thread in other fields is not seen. -/
theorem ranks_modify_same (k : Kernel) (t : ThreadId) {f : Thread → Thread}
    (hstatus : (f (k.threads t)).status = (k.threads t).status)
    (hpriority : (f (k.threads t)).priority = (k.threads t).priority)
    (horiginal : (f (k.threads t)).originalPri = (k.threads t).originalPri) :
    (k.modify t f).ranks = k.ranks :=
  Ranks.ext rfl rfl (funext (status_modify_same k t hstatus))
    (priorities_modify_same k t hpriority horiginal)

variable (k)

@[simp] theorem ranks_goto (pc : Pc) : (k.goto pc).ranks = k.ranks :=
  k.ranks_modify_same _ rfl rfl rfl

@[simp] theorem ranks_setOps (ops : List Op) : (k.setOps ops).ranks = k.ranks :=
  k.ranks_modify_same _ rfl rfl rfl

@[simp] theorem ranks_setRestore (restore : Bool) :
    (k.setRestore restore).ranks = k.ranks := k.ranks_modify_same _ rfl rfl rfl

@[simp] theorem ranks_setSema (s : SemaId) (f : Semaphore → Semaphore) :
    (k.setSema s f).ranks = k.ranks := rfl

@[simp] theorem ranks_setLock (l : LockId) (f : Lock → Lock) :
    (k.setLock l f).ranks = k.ranks := rfl

@[simp] theorem ranks_setCond (c : CondId) (waiters : List ThreadId) :
    (k.setCond c waiters).ranks = k.ranks := rfl

@[simp] theorem ranks_intrEnable : k.intrEnable.ranks = k.ranks := rfl

@[simp] theorem ranks_intrDisable : k.intrDisable.ranks = k.ranks := rfl

theorem ranks_setHolder (l : LockId) : (k.setHolder l).ranks = k.ranks := by
  rw [setHolder, ranks_intrEnable, ranks_goto, ranks_modify_same _ _ rfl rfl rfl,
    ranks_setLock]

theorem ranks_lockTake (l : LockId) : (k.lockTake l).ranks = k.ranks := by
  rw [lockTake_eq, ranks_setHolder, lockTaken, threadGetLock,
    ranks_modify_same _ _ rfl rfl rfl, ranks_setLock,
    ranks_modify_same _ _ rfl rfl rfl, ranks_intrDisable]

variable {k}

/-- The priorities are a part of the books. -/
theorem priorities_of_books (h : k'.books = k.books) : k'.priorities = k.priorities := by
  funext t
  exact Prod.ext (congrFun (congrArg Books.priority h) t)
    (congrFun (congrArg Books.originalPri h) t)

@[simp] theorem priorities_setStatus (t : ThreadId) (status : ThreadStatus) :
    (k.setStatus t status).priorities = k.priorities :=
  priorities_of_books (books_setStatus _ _ _)

@[simp] theorem priorities_threadYield : k.threadYield.priorities = k.priorities :=
  priorities_of_books (books_threadYield _)

theorem priorities_of_ranks (h : k'.ranks = k.ranks) : k'.priorities = k.priorities :=
  congrArg Ranks.priorities h

theorem priority_of_priorities (h : k'.priorities = k.priorities) :
    k'.priority = k.priority := funext fun t => congrArg Prod.fst (congrFun h t)

theorem threadUnblock_spec (hk' : k.threadUnblock t = some k') :
    (k.threads t).status = .blocked ∧ k'.current = k.current ∧
      ∀ u, u ≠ t → k'.threads u = k.threads u := by
  rw [threadUnblock] at hk'
  split at hk'
  case isTrue hblocked =>
    rw [← Option.some.inj hk']
    exact ⟨hblocked, rfl, fun u hu => modify_of_ne hu _⟩
  · cases hk'

theorem priorities_threadUnblock (h : k.threadUnblock t = some k') :
    k'.priorities = k.priorities := priorities_of_books (books_threadUnblock h)

theorem priorities_semaUp {s : SemaId} (h : k.semaUp s = some k') :
    k'.priorities = k.priorities := priorities_of_books (books_semaUp h)

end Frame

/-! The scheduler. -/

variable {k k' : Kernel} {t : ThreadId} {r : Option ThreadId}

theorem Lists.inOrder (h : k.Lists r) (hfloor : Floor k.priorities) :
    k.ranks.InOrder where
  sorted := h.sorted
  ready t ht := by
    by_cases hidle : t = idleThread
    · exact Or.inr hidle
    · exact Or.inl ((h.ready_iff t).mpr ⟨ht, hidle⟩)
  floor := hfloor

theorem status_setStatus_of_ne {u : ThreadId} (hu : u ≠ t) (status : ThreadStatus) :
    ((k.setStatus t status).threads u).status = (k.threads u).status := by
  rw [setStatus, modify_of_ne hu]

theorem status_setStatus_self (status : ThreadStatus) :
    ((k.setStatus t status).threads t).status = status := by
  rw [setStatus, modify_self]

/-- The thread chosen is the first of the ready list, or the idle thread. -/
theorem schedule_leads (h : k.ranks.InOrder) : k.schedule.Leads := by
  obtain ⟨next, hnext⟩ : ∃ next, k.nextThreadToRun.1 = next := ⟨_, rfl⟩
  have hpriority : k.schedule.priority = k.priority :=
    priority_of_priorities (priorities_of_books k.books_schedule)
  have hmax : ∀ u, (k.threads u).status = .ready → k.priority u ≤ k.priority next := by
    intro u hu
    rcases h.ready u hu with hmem | rfl
    · have hsorted := h.sorted
      change u ∈ k.readyList at hmem
      change Descending k.priority k.readyList at hsorted
      rw [nextThreadToRun] at hnext
      cases hlist : k.readyList with
      | nil =>
          rw [hlist] at hmem
          exact absurd hmem List.not_mem_nil
      | cons first rest =>
          rw [hlist] at hnext hsorted hmem
          subst hnext
          rcases List.mem_cons.mp hmem with rfl | hmem
          · exact Int.le_refl _
          · exact (List.pairwise_cons.mp hsorted).1 u hmem
    · exact Int.le_trans (Int.le_of_eq h.floor.idle) (h.floor.priMin_le next)
  intro u hu
  rw [hpriority]
  change k.priority u ≤ k.priority k.nextThreadToRun.1
  rw [hnext]
  refine hmax u ?_
  rw [schedule, hnext] at hu
  by_cases heq : u = next
  · rw [heq, status_setStatus_self] at hu
    exact absurd hu (fun h => by cases h)
  · rw [status_setStatus_of_ne heq] at hu
    exact hu

theorem inOrder_setStatus {status : ThreadStatus} (h : k.ranks.InOrder)
    (hready : status = .ready → t ∈ k.readyList ∨ t = idleThread) :
    (k.setStatus t status).ranks.InOrder where
  sorted := by
    change Descending (fun u => ((k.setStatus t status).priorities u).1) k.readyList
    rw [priorities_setStatus]
    exact h.sorted
  ready u hu := by
    by_cases heq : u = t
    · subst heq
      exact hready ((status_setStatus_self status).symm.trans hu)
    · exact h.ready u ((status_setStatus_of_ne heq status).symm.trans hu)
  floor := by
    change Floor (k.setStatus t status).priorities
    rw [priorities_setStatus]
    exact h.floor

theorem threadBlock_leads (h : k.ranks.InOrder) : k.threadBlock.Leads :=
  schedule_leads (inOrder_setStatus h nofun)

theorem threadYield_leads (h : k.ranks.InOrder) : k.threadYield.Leads := by
  by_cases hidle : k.current = idleThread
  · rw [Lists.threadYield_of_idle hidle]
    exact schedule_leads (inOrder_setStatus h fun _ => Or.inr hidle)
  · rw [Lists.threadYield_of_ne_idle hidle]
    have hperm := List.perm_orderedInsert (fun t u => k.threadCmpPri t u = true)
      k.current k.readyList
    have hinsert : (k.intrDisable.insertReady k.current).ranks.InOrder := {
      sorted := descending_orderedInsert k.current k.readyList h.sorted
      ready := fun u hu => (h.ready u hu).imp_left fun hmem =>
        hperm.mem_iff.mpr (List.mem_cons_of_mem _ hmem)
      floor := h.floor }
    exact schedule_leads (inOrder_setStatus hinsert fun _ =>
      Or.inl (hperm.mem_iff.mpr List.mem_cons_self))

theorem semaUp_leads (h : k.Lists r) (hfloor : Floor k.priorities) {s : SemaId}
    (hk' : k.semaUp s = some k') : k'.Leads := by
  obtain ⟨k₁, hwake, hk'⟩ := Option.bind_eq_some_iff.mp hk'
  have hfloor₁ : Floor k₁.priorities := by
    rw [priorities_of_books (books_semaWake hwake)]
    exact hfloor
  have h₁ := (h.intrDisable.semaWake hwake).inOrder hfloor₁
  rw [← Option.some.inj hk']
  refine threadYield_leads ?_
  rw [ranks_setRestore, ranks_setSema]
  exact h₁

theorem semaDown_leads (h : k.ranks.InOrder) (hleads : k.Leads) (s : SemaId) :
    (k.semaDown s).Leads := by
  by_cases hzero : (k.sema s).value = 0
  · rw [semaDown_of_zero hzero]
    refine threadBlock_leads ?_
    rw [ranks_goto, ranks_setSema, ranks_intrDisable]
    exact h
  · rw [semaDown_of_ne_zero hzero]
    refine hleads.congr ?_
    rw [ranks_intrEnable, ranks_goto, ranks_setSema, ranks_intrDisable]

theorem priorities_semaDown (k : Kernel) (s : SemaId) :
    (k.semaDown s).priorities = k.priorities := priorities_of_books (books_semaDown _ s)

/-- A thread that becomes ready is no greater than the running thread. -/
theorem threadUnblock_leads (hleads : k.Leads) (hle : k.priority t ≤ k.priority k.current)
    (hk' : k.threadUnblock t = some k') : k'.Leads := by
  obtain ⟨-, hcurrent, hother⟩ := threadUnblock_spec hk'
  rw [Leads, hcurrent, priority_of_priorities (priorities_threadUnblock hk')]
  intro u hu
  by_cases heq : u = t
  · exact heq ▸ hle
  · rw [hother u heq] at hu
    exact hleads u hu

/-- What a timer interrupt does to thread `t` when its sleep is over. -/
theorem threadBCheck_spec (hk' : k.threadBCheck t = some k') :
    k'.current = k.current ∧ k'.priorities = k.priorities ∧
      k'.threadTicks = k.threadTicks ∧
      (∀ u, u ≠ t ∨ (k.threads u).status ≠ .blocked → k'.threads u = k.threads u) ∧
      ((k'.threads t).status = .ready → (k.threads t).status = .ready ∨
        (k.threads t).status = .blocked ∧ (k.threads t).bTick = 1) := by
  rw [threadBCheck] at hk'
  split at hk'
  case isTrue hsleeps =>
    have hne : ∀ {u}, u ≠ t ∨ (k.threads u).status ≠ .blocked → u ≠ t := by
      intro u hu
      refine hu.elim id fun hstatus heq => hstatus ?_
      rw [heq]
      exact hsleeps.1
    simp only [modify_self] at hk'
    split at hk'
    case isTrue hzero =>
      refine ⟨?_, ?_, ?_, fun u hu => ?_, fun _ => Or.inr ⟨hsleeps.1, by omega⟩⟩
      · rw [current_threadUnblock hk']
        rfl
      · rw [priorities_threadUnblock hk', priorities_modify_same _ _ rfl rfl]
      · rw [threadUnblock] at hk'
        split at hk'
        · rw [← Option.some.inj hk']
          rfl
        · cases hk'
      · rw [(threadUnblock_spec hk').2.2 u (hne hu), modify_of_ne (hne hu)]
    case isFalse =>
      rw [← Option.some.inj hk']
      refine ⟨rfl, priorities_modify_same _ _ rfl rfl, rfl, fun u hu =>
        modify_of_ne (hne hu) _, fun hready => ?_⟩
      rw [modify_self] at hready
      exact absurd (hsleeps.1.symm.trans hready) (fun h => by cases h)
  · rw [← Option.some.inj hk']
    exact ⟨rfl, rfl, rfl, fun _ _ => rfl, Or.inl⟩

/-- What becomes ready in a timer interrupt had one tick left to sleep. -/
theorem threadForeach_spec {allList : List ThreadId} (hnodup : allList.Nodup)
    (hk' : k.threadForeach allList = some k') :
    k'.current = k.current ∧ k'.priorities = k.priorities ∧
      k'.threadTicks = k.threadTicks ∧
      (∀ u, (k.threads u).status ≠ .blocked → k'.threads u = k.threads u) ∧
      ∀ u, (k'.threads u).status = .ready → (k.threads u).status = .ready ∨
        (k.threads u).status = .blocked ∧ (k.threads u).bTick = 1 := by
  suffices hall : k'.current = k.current ∧ k'.priorities = k.priorities ∧
      k'.threadTicks = k.threadTicks ∧
      (∀ u, u ∉ allList ∨ (k.threads u).status ≠ .blocked →
        k'.threads u = k.threads u) ∧
      ∀ u, (k'.threads u).status = .ready → (k.threads u).status = .ready ∨
        (k.threads u).status = .blocked ∧ (k.threads u).bTick = 1 from
    ⟨hall.1, hall.2.1, hall.2.2.1, fun u hu => hall.2.2.2.1 u (Or.inr hu),
      hall.2.2.2.2⟩
  induction allList generalizing k with
  | nil =>
      rw [← Option.some.inj hk']
      exact ⟨rfl, rfl, rfl, fun _ _ => rfl, fun _ => Or.inl⟩
  | cons t rest ih =>
      obtain ⟨k₁, hcheck, hrest⟩ := Option.bind_eq_some_iff.mp hk'
      obtain ⟨hnotMem, hnodup⟩ := List.nodup_cons.mp hnodup
      obtain ⟨hcurrent, hpriorities, hticks, hother, hready⟩ := threadBCheck_spec hcheck
      obtain ⟨hcurrent', hpriorities', hticks', hother', hready'⟩ := ih hnodup hrest
      refine ⟨hcurrent'.trans hcurrent, hpriorities'.trans hpriorities,
        hticks'.trans hticks, fun u hu => ?_, fun u hu => ?_⟩
      · have hu₁ : k₁.threads u = k.threads u :=
          hother u (hu.imp_left List.ne_of_not_mem_cons)
        rw [hother' u (hu.imp List.not_mem_of_not_mem_cons (hu₁.symm ▸ id)), hu₁]
      · by_cases heq : u = t
        · subst heq
          rw [hother' u (Or.inl hnotMem)] at hu
          exact hready hu
        · rw [← hother u (Or.inl heq)]
          exact hready' u hu

/-- A timer interrupt yields where the time slice ends; else the running thread
goes on, and what has become ready is no greater than it is. -/
theorem timerInterrupt_cases (h : k.Lists (some k.current)) (hfloor : Floor k.priorities)
    {allList : List ThreadId} (hnodup : allList.Nodup)
    (hwoken : timeSlice ≤ k.threadTicks + 1 ∨ ∀ t, (k.threads t).status = .blocked →
      (k.threads t).bTick = 1 → k.priority t ≤ k.priority k.current)
    (hk' : k.timerInterrupt allList = some k') :
    k'.priorities = k.priorities ∧ (k'.Leads ∨ k'.current = k.current ∧
      k'.cur = k.cur ∧ ∀ u, (k'.threads u).status = .ready →
        (k.threads u).status = .ready ∨ k.priority u ≤ k.priority k.current) := by
  obtain ⟨k₁, hforeach, hk'⟩ := Option.bind_eq_some_iff.mp hk'
  have h₁ : k₁.Lists (some k.current) :=
    @Lists.threadForeach { k with threadTicks := k.threadTicks + 1 } k₁ _
      (h.congr rfl rfl rfl (fun _ => rfl) h.holder) _ hforeach
  obtain ⟨hcurrent, hpriorities, hticks, hsame, hready⟩ :=
    threadForeach_spec hnodup hforeach
  change k₁.current = k.current at hcurrent
  change k₁.priorities = k.priorities at hpriorities
  change k₁.threadTicks = k.threadTicks + 1 at hticks
  split at hk'
  · rw [← Option.some.inj hk']
    refine ⟨?_, Or.inl (threadYield_leads ?_)⟩
    · rw [priorities_threadYield, priorities_of_ranks (ranks_setRestore _ true),
        hpriorities]
    · rw [ranks_setRestore]
      exact h₁.inOrder (hpriorities.symm ▸ hfloor)
  case isFalse hslice =>
    rw [← Option.some.inj hk']
    refine ⟨hpriorities, Or.inr ⟨hcurrent, ?_, fun u hu => ?_⟩⟩
    · rw [cur, hcurrent]
      exact hsame k.current (h.running.symm ▸ (fun h => by cases h))
    · refine (hready u hu).imp_right fun hu => ?_
      refine hwoken.elim (fun hle => ?_) fun hwoken => hwoken u hu.1 hu.2
      rw [hticks] at hslice
      exact absurd hle hslice

theorem timerInterrupt_leads (h : k.Lists (some k.current)) (hfloor : Floor k.priorities)
    (hleads : k.Leads) {allList : List ThreadId} (hnodup : allList.Nodup)
    (hwoken : timeSlice ≤ k.threadTicks + 1 ∨ ∀ t, (k.threads t).status = .blocked →
      (k.threads t).bTick = 1 → k.priority t ≤ k.priority k.current)
    (hk' : k.timerInterrupt allList = some k') :
    k'.Leads ∧ k'.priorities = k.priorities := by
  obtain ⟨hpriorities, hcases⟩ := timerInterrupt_cases h hfloor hnodup hwoken hk'
  refine ⟨?_, hpriorities⟩
  rcases hcases with hleads' | ⟨hcurrent, -, hready⟩
  · exact hleads'
  · intro u hu
    rw [priority_of_priorities hpriorities, hcurrent]
    exact (hready u hu).elim (hleads u) id

theorem threadSetPriority_leads (h : k.Lists (some k.current))
    (hidle : k.current ≠ idleThread) (hfloor : Floor k.priorities) (hleads : k.Leads)
    {newPriority : Int} (hmin : priMin ≤ newPriority) :
    (k.threadSetPriority newPriority).Leads ∧
      Floor (k.threadSetPriority newPriority).priorities := by
  obtain ⟨k₁, hk₁⟩ : ∃ k₁, (k.modify k.current fun t =>
    { t with originalPri := newPriority }) = k₁ := ⟨_, rfl⟩
  have hcurrent : k₁.current = k.current := hk₁ ▸ rfl
  have h₁ : k₁.Lists (some k₁.current) := by
    rw [hcurrent, ← hk₁]
    exact h.modifyCur rfl rfl (List.Sublist.refl _) id
  have hpriorities : k₁.priorities =
      Function.update k.priorities k.current (k.cur.priority, newPriority) := by
    rw [← hk₁, priorities_modify]
    rfl
  have hset : k.threadSetPriority newPriority =
      if k.cur.originalPri = k₁.cur.priority ∨ k₁.cur.holdingLocks = [] ∨
          newPriority > k₁.cur.priority then
        ((k₁.setPriority k₁.current newPriority).setRestore true).threadYield
      else k₁ := by
    rw [← hk₁]
    rfl
  rw [hset]
  split
  case isTrue =>
    have h₂ : (k₁.setPriority k₁.current newPriority).Lists (some k₁.current) :=
      @Lists.modifyCur _ h₁ (fun t => { t with priority := newPriority }) rfl rfl
        (List.Sublist.refl _) id
    have hfloor₂ : Floor (k₁.setPriority k₁.current newPriority).priorities := by
      have hown : k₁.cur.originalPri = newPriority := by
        rw [cur, hcurrent, ← hk₁, modify_self]
      rw [setPriority, priorities_modify, hpriorities, hcurrent, Function.update_idem]
      refine hfloor.update hidle ?_ (Int.le_of_eq ?_)
      · change priMin ≤ (k₁.threads k.current).originalPri
        rw [← hcurrent]
        exact hown ▸ hmin
      · change (k₁.threads k.current).originalPri = newPriority
        rw [← hcurrent]
        exact hown
    refine ⟨threadYield_leads ?_, ?_⟩
    · rw [ranks_setRestore]
      exact h₂.inOrder hfloor₂
    · rw [priorities_threadYield, priorities_of_ranks (ranks_setRestore _ true)]
      exact hfloor₂
  case isFalse hkeep =>
    have hpriority : k₁.priority = k.priority := by
      funext u
      change (k₁.priorities u).1 = (k.priorities u).1
      rw [hpriorities]
      by_cases hu : u = k.current
      · subst hu
        rw [Function.update_self]
        rfl
      · rw [Function.update_of_ne hu]
    refine ⟨fun u hu => ?_, ?_⟩
    · rw [hpriority, hcurrent]
      rw [← hk₁, status_modify_same _ _ rfl] at hu
      exact hleads u hu
    · rw [hpriorities]
      refine hfloor.update hidle hmin (Int.not_lt.mp fun hlt => hkeep ?_)
      have hsame : k₁.cur.priority = k.cur.priority := by
        rw [cur, hcurrent]
        exact congrFun hpriority k.current
      exact Or.inr (Or.inr (hsame ▸ hlt))

/-- Where `thread_update_pri` leaves no ready thread above the running one, when
thread `t` holds these locks. -/
def UpdateKeepsOrder (k : Kernel) (t : ThreadId) (locks : List LockId) : Prop :=
  ((k.threads t).status = .ready →
    ∀ l ∈ locks, (k.lock l).maxPri ≤ k.priority k.current) ∧
  (t = k.current → ∀ u < k.count, (k.threads u).status = .ready →
    k.priority u ≤ (k.threads t).originalPri ∨
      ∃ l ∈ locks, k.priority u ≤ (k.lock l).maxPri)

theorem threadUpdatePri_floor (hidle : t ≠ idleThread) (hfloor : Floor k.priorities)
    (hk' : k.threadUpdatePri t = some k') : Floor k'.priorities := by
  obtain ⟨locks, priority, hupdate, -, hspec⟩ := k.threadUpdatePri_spec t
  rw [hupdate] at hk'
  rw [← Option.some.inj hk', priorities_modify]
  exact hfloor.update hidle (hfloor.least t) hspec.original_le

theorem threadUpdatePri_leads (hlt : ∀ u, (k.threads u).status = .ready → u < k.count)
    (hfloor : Floor k.priorities) (hleads : k.Leads)
    (hkeeps : k.UpdateKeepsOrder t (k.threads t).holdingLocks)
    (hk' : k.threadUpdatePri t = some k') : k'.Leads := by
  obtain ⟨locks, priority, hupdate, -, hspec⟩ := k.threadUpdatePri_spec t
  obtain ⟨k₁, hk₁⟩ : ∃ k₁, (k.modify t fun thread =>
    { thread with holdingLocks := locks, priority := priority }) = k₁ := ⟨_, rfl⟩
  have hself : k₁.priority t = priority := by
    rw [← hk₁, Kernel.priority, modify_self]
  have hother : ∀ u, u ≠ t → k₁.priority u = k.priority u := by
    intro u hu
    rw [← hk₁, Kernel.priority, modify_of_ne hu, Kernel.priority]
  have hstatus : ∀ u, (k₁.threads u).status = (k.threads u).status :=
    hk₁ ▸ status_modify_same k t rfl
  have hcurrent : k₁.current = k.current := hk₁ ▸ rfl
  rw [hupdate, hk₁] at hk'
  rw [← Option.some.inj hk']
  intro u hu
  rw [hstatus] at hu
  rw [hcurrent]
  by_cases hcur : k.current = t
  · rw [hcur, hself]
    by_cases heq : u = t
    · rw [heq, hself]
    · rw [hother u heq]
      rcases hkeeps.2 hcur.symm u (hlt u hu) hu with hle | ⟨l, hl, hle⟩
      · exact Int.le_trans hle hspec.original_le
      · exact Int.le_trans hle (hspec.maxPri_le l hl)
  · rw [hother _ hcur]
    by_cases heq : u = t
    · subst heq
      rw [hself]
      rcases hspec.eq with heq | ⟨l, hl, heq⟩
      · rw [heq]
        exact Int.le_trans (hfloor.original_le u) (hleads u hu)
      · rw [heq]
        exact hkeeps.1 hu l hl
    · rw [hother u heq]
      exact hleads u hu

theorem threadDonatePri_leads (hlt : ∀ u, (k.threads u).status = .ready → u < k.count)
    (hidle : t ≠ idleThread) (hfloor : Floor k.priorities) (hleads : k.Leads)
    (hkeeps : k.UpdateKeepsOrder t (k.threads t).holdingLocks)
    (hk' : k.threadDonatePri t = some k') : k'.Leads ∧ Floor k'.priorities := by
  obtain ⟨k₁, hupdate, hk'⟩ := Option.bind_eq_some_iff.mp hk'
  have hleads₁ := threadUpdatePri_leads hlt hfloor hleads hkeeps hupdate
  have hfloor₁ := threadUpdatePri_floor hidle hfloor hupdate
  split at hk'
  · rw [← Option.some.inj hk']
    exact ⟨hleads₁, hfloor₁⟩
  · rw [← Option.some.inj hk']
    exact ⟨hleads₁, hfloor₁⟩

theorem ranks_eraseLock (k : Kernel) (l : LockId) :
    (k.modify k.current fun t =>
      { t with holdingLocks := t.holdingLocks.erase l }).ranks = k.ranks :=
  k.ranks_modify_same _ rfl rfl rfl

theorem threadRemoveLock_floor (hidle : k.current ≠ idleThread)
    (hfloor : Floor k.priorities) {l : LockId} (hk' : k.threadRemoveLock l = some k') :
    Floor k'.priorities := by
  rw [threadRemoveLock] at hk'
  split at hk'
  · refine threadUpdatePri_floor hidle ?_ hk'
    rw [priorities_of_ranks (k.ranks_eraseLock l)]
    exact hfloor
  · cases hk'

theorem threadRemoveLock_leads (hlt : ∀ u, (k.threads u).status = .ready → u < k.count)
    (hfloor : Floor k.priorities) (hleads : k.Leads) {l : LockId}
    (hkeeps : k.UpdateKeepsOrder k.current (k.cur.holdingLocks.erase l))
    (hk' : k.threadRemoveLock l = some k') : k'.Leads := by
  rw [threadRemoveLock] at hk'
  split at hk'
  · obtain ⟨k₁, hk₁⟩ : ∃ k₁, (k.modify k.current fun t =>
      { t with holdingLocks := t.holdingLocks.erase l }) = k₁ := ⟨_, rfl⟩
    have hranks : k₁.ranks = k.ranks := hk₁ ▸ k.ranks_eraseLock l
    have hstatus : ∀ u, (k₁.threads u).status = (k.threads u).status := fun u =>
      congrFun (congrArg Ranks.status hranks) u
    have hpriority : k₁.priority = k.priority :=
      priority_of_priorities (priorities_of_ranks hranks)
    have hself : k₁.threads k.current =
        { k.threads k.current with
          holdingLocks := k.cur.holdingLocks.erase l } := by
      rw [← hk₁, modify_self]
      rfl
    rw [hk₁] at hk'
    refine threadUpdatePri_leads (fun u hu => ?_) ?_ (hleads.congr hranks) ?_ hk'
    · rw [hstatus] at hu
      exact hk₁ ▸ hlt u hu
    · rw [priorities_of_ranks hranks]
      exact hfloor
    · have hcurrent : k₁.current = k.current := hk₁ ▸ rfl
      have hlock : k₁.lock = k.lock := hk₁ ▸ rfl
      have hcount : k₁.count = k.count := hk₁ ▸ rfl
      simpa only [UpdateKeepsOrder, hcurrent, hlock, hcount, hpriority, hself,
        hstatus] using hkeeps
  · cases hk'

/-! One step. -/

/-- What a call may do without a ready thread getting ahead of the running one:
`thread_unblock` does not yield, in `thread_create` either. -/
def OpKeepsOrder (k : Kernel) : Op → Prop
  | .threadUnblock t | .startThread t => k.priority t ≤ k.priority k.current
  | .threadSetPriority newPriority => priMin ≤ newPriority
  | _ => True

def PcKeepsOrder (k : Kernel) : Pc → Prop
  | .next =>
      match k.cur.ops with
      | [] => True
      | op :: _ => k.OpKeepsOrder op
  | .donatePri _ lk =>
      match (k.lock lk).holder with
      | none => True
      | some t => k.UpdateKeepsOrder t (k.threads t).holdingLocks
  | .removeLock l => k.UpdateKeepsOrder k.current (k.cur.holdingLocks.erase l)
  | _ => True

/-- The condition on a step: it makes no thread ready that is ahead of the
running thread, and takes the running thread behind none, unless it yields in
the same step. -/
def KeepsOrder (k : Kernel) : KernelAct → Prop
  | .tick _ => timeSlice ≤ k.threadTicks + 1 ∨
      ∀ t < k.count, (k.threads t).status = .blocked → (k.threads t).bTick = 1 →
        k.priority t ≤ k.priority k.current
  | .call _ => True
  | .run => k.cur.restore = false → k.PcKeepsOrder k.cur.pc

instance (k : Kernel) (t : ThreadId) (locks : List LockId) :
    Decidable (k.UpdateKeepsOrder t locks) := inferInstanceAs (Decidable (_ ∧ _))

instance (k : Kernel) (op : Op) : Decidable (k.OpKeepsOrder op) := by
  cases op <;> dsimp only [OpKeepsOrder] <;> infer_instance

instance (k : Kernel) (pc : Pc) : Decidable (k.PcKeepsOrder pc) := by
  cases pc with
  | next =>
      dsimp only [PcKeepsOrder]
      split <;> infer_instance
  | donatePri l lk =>
      dsimp only [PcKeepsOrder]
      split <;> infer_instance
  | removeLock l => exact inferInstanceAs (Decidable (k.UpdateKeepsOrder _ _))
  | _ => exact inferInstanceAs (Decidable True)

instance (k : Kernel) (act : KernelAct) : Decidable (k.KeepsOrder act) :=
  match act with
  | .tick _ => inferInstanceAs (Decidable (_ ∨ _))
  | .call _ => inferInstanceAs (Decidable True)
  | .run => inferInstanceAs (Decidable (_ → _))

/-- What every state keeps. -/
structure Ordered (k : Kernel) : Prop where
  leads : k.Leads
  floor : Floor k.priorities

theorem Ordered.congr (h : k.Ordered) (hranks : k'.ranks = k.ranks) : k'.Ordered where
  leads := h.leads.congr hranks
  floor := by
    rw [priorities_of_ranks hranks]
    exact h.floor

theorem OpKeepsOrder.congr {op : Op} (h : k.OpKeepsOrder op)
    (hranks : k'.ranks = k.ranks) : k'.OpKeepsOrder op := by
  have hpriority : k'.priority = k.priority :=
    priority_of_priorities (priorities_of_ranks hranks)
  have hcurrent : k'.current = k.current := congrArg Ranks.current hranks
  cases op with
  | threadUnblock t | startThread t =>
      change k'.priority t ≤ k'.priority k'.current
      rw [hpriority, hcurrent]
      exact h
  | _ => exact h

theorem Ordered.threadYield (h : k.Ordered) (hlists : k.Lists r) : k.threadYield.Ordered where
  leads := threadYield_leads (hlists.inOrder h.floor)
  floor := by
    rw [priorities_threadYield]
    exact h.floor

/-- The running thread blocks after a change that the scheduler does not see. -/
theorem Ordered.threadBlock (h : k.Ordered) (hlists : k.Lists r)
    (hranks : k'.ranks = k.ranks) : k'.threadBlock.Ordered where
  leads := by
    refine threadBlock_leads ?_
    rw [hranks]
    exact hlists.inOrder h.floor
  floor := by
    rw [priorities_of_books (books_threadBlock _), priorities_of_ranks hranks]
    exact h.floor

theorem Ordered.create (h : k.Ordered) (hlists : k.Lists (some k.current))
    {priority : Int} (hmin : priMin ≤ priority) :
    Ordered { k with
      threads := Function.update k.threads k.count (initThread priority)
      count := k.count + 1 } := by
  obtain ⟨k₁, hk₁⟩ : ∃ k₁, k.modify k.count (fun _ => initThread priority) = k₁ :=
    ⟨_, rfl⟩
  have hidle : k.count ≠ idleThread := by
    intro heq
    have hpc := (hlists.unused idleThread (Nat.le_of_eq heq)).pc
    rcases hlists.idle with hidle | hidle <;> exact absurd (hidle.symm.trans hpc) nofun
  have hother : ∀ u, u ≠ k.count → k₁.threads u = k.threads u := by
    intro u hu
    rw [← hk₁, modify_of_ne hu]
  have hcurrent : k₁.current = k.current := hk₁ ▸ rfl
  have h₁ : k₁.Ordered := by
    refine ⟨fun u hu => ?_, ?_⟩
    · have hne : u ≠ k.count := by
        rintro rfl
        rw [← hk₁, modify_self] at hu
        exact absurd hu nofun
      rw [hother u hne] at hu
      rw [hcurrent, Kernel.priority, Kernel.priority, hother u hne,
        hother _ (Nat.ne_of_lt hlists.current_lt)]
      exact h.leads u hu
    · rw [← hk₁, priorities_modify]
      exact h.floor.update hidle hmin (Int.le_refl _)
  refine h₁.congr ?_
  rw [← hk₁]
  rfl

theorem Ordered.begin (h : k.Ordered) (hlists : k.Lists (some k.current))
    (hpc : k.cur.pc = .next) {rest : List Op} {op : Op} (hkeeps : k.OpKeepsOrder op)
    (hk' : k.begin rest op = some k') : k'.Ordered := by
  have horder := hlists.inOrder h.floor
  have hidle : k.current ≠ idleThread := by
    refine hlists.ne_idle ?_
    change ¬ k.cur.pc.IsIdle
    rw [hpc]
    rintro (heq | heq) <;> cases heq
  have hyield : (k.setRestore true).threadYield.Ordered :=
    (h.congr (k.ranks_setRestore true)).threadYield (hlists.setRestore true)
  have hblock : ∀ {k₁ : Kernel}, k₁.ranks = k.ranks → k₁.threadBlock.Ordered :=
    fun hranks => h.threadBlock hlists hranks
  cases op with
  | threadYield =>
      rw [← Option.some.inj hk']
      exact hyield
  | threadBlock =>
      rw [← Option.some.inj hk']
      refine hblock ?_
      rw [ranks_goto, ranks_intrDisable]
  | threadUnblock t =>
      simp only [Kernel.begin] at hk'
      split at hk'
      · refine ⟨threadUnblock_leads h.leads hkeeps hk', ?_⟩
        rw [priorities_threadUnblock hk']
        exact h.floor
      · cases hk'
  | threadCreate priority =>
      simp only [Kernel.begin] at hk'
      split at hk'
      case isTrue hrange =>
        rw [← Option.some.inj hk']
        exact (h.create hlists hrange.1).congr (ranks_setOps _ _)
      · cases hk'
  | allocateTid t =>
      rw [← Option.some.inj hk']
      refine h.congr ?_
      rw [ranks_modify_same _ _ rfl rfl rfl]
      rfl
  | startThread t =>
      refine ⟨threadUnblock_leads h.leads hkeeps hk', ?_⟩
      rw [priorities_threadUnblock hk']
      exact h.floor
  | yieldTo priority =>
      simp only [Kernel.begin] at hk'
      split at hk'
      · rw [← Option.some.inj hk']
        exact hyield
      · rwa [← Option.some.inj hk']
  | threadSetPriority priority =>
      rw [← Option.some.inj hk']
      have hset := threadSetPriority_leads hlists hidle h.floor h.leads hkeeps
      exact ⟨hset.1, hset.2⟩
  | timerSleep ticks =>
      simp only [Kernel.begin] at hk'
      split at hk'
      · rwa [← Option.some.inj hk']
      · rw [← Option.some.inj hk']
        refine hblock ?_
        rw [ranks_goto, ranks_modify_same _ _ rfl rfl rfl, ranks_intrDisable]
  | semaDown n =>
      rw [← Option.some.inj hk']
      exact ⟨semaDown_leads horder h.leads _, (k.priorities_semaDown _).symm ▸ h.floor⟩
  | semaTryDown n =>
      rw [← Option.some.inj hk']
      simp only [Kernel.semaTryDown]
      split
      · exact h.congr rfl
      · exact h
  | semaUp n =>
      refine ⟨semaUp_leads hlists h.floor hk', ?_⟩
      rw [priorities_semaUp hk']
      exact h.floor
  | lockAcquire l =>
      simp only [Kernel.begin] at hk'
      split at hk'
      · cases hk'
      · split at hk'
        · rw [← Option.some.inj hk']
          exact h.congr (ranks_goto _ _)
        · rw [← Option.some.inj hk']
          exact h.congr (ranks_goto _ _)
  | lockRelease l =>
      simp only [Kernel.begin] at hk'
      split at hk'
      · rw [← Option.some.inj hk']
        refine h.congr ?_
        rw [ranks_goto, ranks_modify_same _ _ rfl rfl rfl, ranks_setLock]
      · cases hk'
  | condWait c l =>
      simp only [Kernel.begin] at hk'
      split at hk'
      · rw [← Option.some.inj hk']
        refine h.congr ?_
        rw [ranks_setOps, ranks_setCond, ranks_setSema]
      · cases hk'
  | waiterDown =>
      rw [← Option.some.inj hk']
      exact ⟨semaDown_leads horder h.leads _, (k.priorities_semaDown _).symm ▸ h.floor⟩
  | condSignal c l =>
      simp only [Kernel.begin] at hk'
      split at hk'
      · split at hk'
        · rwa [← Option.some.inj hk']
        · rw [← Option.some.inj hk']
          exact h.congr (ranks_goto _ _)
      · cases hk'
  | condBroadcast c l =>
      simp only [Kernel.begin] at hk'
      split at hk'
      · rwa [← Option.some.inj hk']
      · rw [← Option.some.inj hk']
        exact h.congr (ranks_setOps _ _)

theorem Ordered.advance (h : k.Ordered) (hlists : k.Lists (some k.current))
    (hkeeps : k.PcKeepsOrder k.cur.pc) (hk' : k.advance k.cur.pc = some k') :
    k'.Ordered := by
  obtain ⟨pc, hpc⟩ : ∃ pc, k.cur.pc = pc := ⟨_, rfl⟩
  have horder := hlists.inOrder h.floor
  have hlt : ∀ u, (k.threads u).status = .ready → u < k.count := fun u hu =>
    hlists.lt_count (hu ▸ nofun)
  have hgoto : ∀ pc', (k.goto pc').Ordered := fun pc' => h.congr (ranks_goto _ _)
  have hdown : ∀ s, (k.semaDown s).Ordered := fun s =>
    ⟨semaDown_leads horder h.leads s, (k.priorities_semaDown s).symm ▸ h.floor⟩
  have hup : ∀ {s}, (k.goto .next).semaUp s = some k' → ¬ pc.IsIdle → k'.Ordered := by
    intro s hup hidle
    have hlists' := @Lists.goto k hlists .next fun hcur => absurd (hpc ▸ hcur) hidle
    refine ⟨semaUp_leads hlists' (hgoto .next).floor hup, ?_⟩
    rw [priorities_semaUp hup]
    exact (hgoto .next).floor
  rw [hpc] at hk' hkeeps
  cases pc with
  | next =>
      simp only [Kernel.advance] at hk'
      split at hk'
      · cases hk'
      case h_2 op rest hops =>
        simp only [PcKeepsOrder, hops] at hkeeps
        have hranks := k.ranks_setOps rest
        refine (h.congr hranks).begin (hlists.starts_of_ops hops).1 ?_
          (hkeeps.congr hranks) hk'
        rw [setOps_cur_pc]
        exact hpc
  | setWaiting l =>
      rw [← Option.some.inj hk']
      refine h.congr ?_
      rw [ranks_goto, ranks_modify_same _ _ rfl rfl rfl]
  | donateTest l lk =>
      cases lk with
      | none =>
          rw [← Option.some.inj hk']
          exact hgoto _
      | some lk =>
          simp only [Kernel.advance] at hk'
          split at hk'
          · rw [← Option.some.inj hk']
            exact hgoto _
          · rw [← Option.some.inj hk']
            exact hgoto _
  | donateMax l lk =>
      rw [← Option.some.inj hk']
      refine h.congr ?_
      rw [ranks_goto, ranks_setLock]
  | donatePri l lk =>
      obtain ⟨holder, hholder, hk'⟩ := Option.bind_eq_some_iff.mp hk'
      obtain ⟨k₁, hdonate, hk'⟩ := Option.bind_eq_some_iff.mp hk'
      simp only [PcKeepsOrder, hholder] at hkeeps
      have hdonated := threadDonatePri_leads hlt
        (fun heq => hlists.holder lk (heq ▸ hholder)) h.floor h.leads hkeeps hdonate
      rw [← Option.some.inj hk']
      exact Ordered.congr ⟨hdonated.1, hdonated.2⟩ (ranks_goto _ _)
  | donateNext l lk =>
      obtain ⟨holder, -, hk'⟩ := Option.bind_eq_some_iff.mp hk'
      rw [← Option.some.inj hk']
      exact hgoto _
  | acquireDown l =>
      rw [← Option.some.inj hk']
      exact hdown _
  | down s =>
      rw [← Option.some.inj hk']
      exact hdown _
  | take l =>
      rw [← Option.some.inj hk']
      exact h.congr (k.ranks_lockTake l)
  | setHolder l =>
      rw [← Option.some.inj hk']
      exact h.congr (k.ranks_setHolder l)
  | removeLock l =>
      obtain ⟨k₁, hremove, hk'⟩ := Option.bind_eq_some_iff.mp hk'
      have hidle : k.current ≠ idleThread := by
        refine hlists.ne_idle ?_
        change ¬ k.cur.pc.IsIdle
        rw [hpc]
        rintro (heq | heq) <;> cases heq
      rw [← Option.some.inj hk']
      exact Ordered.congr ⟨threadRemoveLock_leads hlt h.floor h.leads hkeeps hremove,
        threadRemoveLock_floor hidle h.floor hremove⟩ (ranks_goto _ _)
  | releaseUp l => exact hup hk' (by rintro (heq | heq) <;> cases heq)
  | condSort c sort =>
      cases sort with
      | done result =>
          simp only [Kernel.advance] at hk'
          split at hk'
          · rw [← Option.some.inj hk']
            exact h.congr (ranks_goto _ _)
          · rw [← Option.some.inj hk']
            exact h.congr (ranks_goto _ _)
      | failed => cases hk'
      | compare x y next =>
          obtain ⟨less, -, hk'⟩ := Option.bind_eq_some_iff.mp hk'
          rw [← Option.some.inj hk']
          exact hgoto _
  | condSorted c sorted =>
      cases sorted with
      | done result =>
          simp only [Kernel.advance] at hk'
          split at hk'
          · rw [← Option.some.inj hk']
            exact hgoto _
          · cases hk'
      | failed => cases hk'
      | compare x y next =>
          obtain ⟨less, -, hk'⟩ := Option.bind_eq_some_iff.mp hk'
          rw [← Option.some.inj hk']
          exact hgoto _
  | condPop c =>
      simp only [Kernel.advance] at hk'
      split at hk'
      · cases hk'
      · rw [← Option.some.inj hk']
        exact h.congr (ranks_goto _ _)
  | condUp t => exact hup hk' (by rintro (heq | heq) <;> cases heq)
  | asleep =>
      rw [← Option.some.inj hk']
      exact (hgoto .next).congr rfl
  | parked =>
      rw [← Option.some.inj hk']
      exact (hgoto .next).congr rfl
  | idleBlock =>
      rw [← Option.some.inj hk']
      refine h.threadBlock hlists ?_
      rw [ranks_goto, ranks_intrDisable]
  | idleWake =>
      rw [← Option.some.inj hk']
      exact (hgoto .idleBlock).congr rfl

theorem woken_of_keepsOrder (hlists : k.Lists r) {allList : List ThreadId}
    (hkeeps : k.KeepsOrder (.tick allList)) :
    timeSlice ≤ k.threadTicks + 1 ∨ ∀ t, (k.threads t).status = .blocked →
      (k.threads t).bTick = 1 → k.priority t ≤ k.priority k.current := by
  refine hkeeps.imp_right fun hwoken t ht hbTick => hwoken t ?_ ht hbTick
  refine Nat.lt_of_not_le fun hle => ?_
  exact absurd ((hlists.unused t hle).bTick.symm.trans hbTick) nofun

theorem Ordered.step (h : k.Ordered) (hlists : k.Lists (some k.current))
    {act : KernelAct} (hkeeps : k.KeepsOrder act) (hk' : k.step act = some k') :
    k'.Ordered := by
  cases act with
  | tick allList =>
      simp only [Kernel.step] at hk'
      split at hk'
      case isTrue htick =>
        have htimer := timerInterrupt_leads hlists h.floor h.leads
          (htick.2.nodup_iff.mpr List.nodup_range) (woken_of_keepsOrder hlists hkeeps) hk'
        exact ⟨htimer.1, htimer.2.symm ▸ h.floor⟩
      · cases hk'
  | call op =>
      simp only [Kernel.step] at hk'
      split at hk'
      · rw [← Option.some.inj hk']
        exact h.congr (ranks_setOps _ _)
      · cases hk'
  | run =>
      simp only [Kernel.step] at hk'
      split at hk'
      · rw [← Option.some.inj hk']
        exact (h.congr (ranks_setRestore _ false)).congr rfl
      case isFalse hrestore =>
        exact h.advance hlists (hkeeps (Bool.eq_false_of_not_eq_true hrestore)) hk'

theorem ordered_boot (values : Nat → Nat) : (boot values).Ordered where
  leads := by
    intro t ht
    rcases boot_cases values t with rfl | rfl | ⟨-, -, ht'⟩
    · exact Int.le_refl _
    · exact (by decide : priMin ≤ priDefault)
    · rw [ht'] at ht
      exact absurd ht nofun
  floor := by
    have hcases : ∀ t, (boot values).priorities t = (priDefault, priDefault) ∨
        (boot values).priorities t = (priMin, priMin) := by
      intro t
      rcases boot_cases values t with rfl | rfl | ⟨-, -, ht⟩
      · exact Or.inl rfl
      · exact Or.inr rfl
      · rw [priorities, ht]
        exact Or.inr rfl
    refine ⟨fun t => ?_, fun t => ?_, rfl⟩
    · rcases hcases t with ht | ht
      · rw [ht]
        decide
      · rw [ht]
    · rcases hcases t with ht | ht
      · rw [ht]
      · rw [ht]

/-! In `thread_create` and in `lock_release` there is a moment before the thread
yields. -/

/-- The next step ends in the middle of `lock_release`, which goes on to yield, or
of `thread_create`, which goes on to compare. -/
def YieldsNext (k : Kernel) : Prop :=
  match k.cur.pc, k.cur.ops with
  | .removeLock _, _ => True
  | .next, .startThread t :: .yieldTo priority :: _ =>
      k.priority t ≤ max (k.priority k.current) priority
  | _, _ => False

instance (k : Kernel) : Decidable k.YieldsNext := by
  dsimp only [YieldsNext]
  split <;> infer_instance

/-- The condition on a step where that moment does not count. -/
def KeepsOrderAfter (k : Kernel) (act : KernelAct) : Prop :=
  k.KeepsOrder act ∨ act = .run ∧ k.YieldsNext

instance (k : Kernel) (act : KernelAct) : Decidable (k.KeepsOrderAfter act) :=
  match act with
  | .tick _ => decidable_of_iff _ (or_iff_left nofun).symm
  | .call _ => decidable_of_iff _ (or_iff_left nofun).symm
  | .run => decidable_of_iff _ (or_congr_right (and_iff_right rfl)).symm

/-- The thread is in the middle of one of the two. -/
def AboutToYield (k : Kernel) : Prop :=
  (∃ l, k.cur.pc = .releaseUp l) ∨ ∃ priority rest, k.cur.pc = .next ∧
    k.cur.ops = .yieldTo priority :: rest ∧ ∀ t, (k.threads t).status = .ready →
      k.priority t ≤ max (k.priority k.current) priority

theorem AboutToYield.congr (h : k.AboutToYield) (hranks : k'.ranks = k.ranks)
    (hpc : k'.cur.pc = k.cur.pc) (hops : k'.cur.ops = k.cur.ops) : k'.AboutToYield := by
  have hpriority : k'.priority = k.priority :=
    priority_of_priorities (priorities_of_ranks hranks)
  have hcurrent : k'.current = k.current := congrArg Ranks.current hranks
  have hstatus : ∀ u, (k'.threads u).status = (k.threads u).status := fun u =>
    congrFun (congrArg Ranks.status hranks) u
  rw [AboutToYield, hpc, hops, hpriority, hcurrent]
  simp only [hstatus]
  exact h

/-- A timer interrupt in that moment leaves the thread there, or yields. -/
theorem AboutToYield.tick (h : k.AboutToYield) (hlists : k.Lists (some k.current))
    (hfloor : Floor k.priorities) {allList : List ThreadId} (hnodup : allList.Nodup)
    (hwoken : timeSlice ≤ k.threadTicks + 1 ∨ ∀ t, (k.threads t).status = .blocked →
      (k.threads t).bTick = 1 → k.priority t ≤ k.priority k.current)
    (hk' : k.timerInterrupt allList = some k') :
    k'.priorities = k.priorities ∧ (k'.Leads ∨ k'.AboutToYield) := by
  obtain ⟨hpriorities, hcases⟩ := timerInterrupt_cases hlists hfloor hnodup hwoken hk'
  refine ⟨hpriorities, ?_⟩
  rcases hcases with hleads | ⟨hcurrent, hcur, hready⟩
  · exact Or.inl hleads
  · rw [AboutToYield, hcur, hcurrent, priority_of_priorities hpriorities]
    refine Or.inr (h.imp_right ?_)
    rintro ⟨priority, rest, hpc, hops, hle⟩
    refine ⟨priority, rest, hpc, hops, fun u hu => ?_⟩
    exact (hready u hu).elim (hle u) fun hle => Int.le_trans hle (Int.le_max_left _ _)

/-- Then it yields, unless there is nothing to yield to. -/
theorem AboutToYield.advance (h : k.AboutToYield) (hlists : k.Lists (some k.current))
    (hfloor : Floor k.priorities) (hk' : k.advance k.cur.pc = some k') : k'.Ordered := by
  rcases h with ⟨l, hpc⟩ | ⟨priority, rest, hpc, hops, hle⟩
  · rw [hpc] at hk'
    have hlists' := @Lists.goto k hlists .next fun hcur => by
      rw [hpc] at hcur
      rcases hcur with heq | heq <;> cases heq
    have hfloor' : Floor (k.goto .next).priorities := by
      rw [priorities_of_ranks (ranks_goto _ _)]
      exact hfloor
    refine ⟨semaUp_leads hlists' hfloor' hk', ?_⟩
    rw [priorities_semaUp hk']
    exact hfloor'
  · have hranks := k.ranks_setOps rest
    have hpriority := priority_of_priorities (priorities_of_ranks hranks)
    have hfloor' : Floor (k.setOps rest).priorities := by
      rw [priorities_of_ranks hranks]
      exact hfloor
    rw [hpc] at hk'
    simp only [Kernel.advance, hops, Kernel.begin] at hk'
    split at hk'
    case isTrue =>
      rw [← Option.some.inj hk']
      refine ⟨threadYield_leads ?_, ?_⟩
      · rw [ranks_setRestore]
        exact (hlists.starts_of_ops hops).1.inOrder hfloor'
      · rw [priorities_threadYield, priorities_of_ranks (ranks_setRestore _ true)]
        exact hfloor'
    case isFalse hnot =>
      have hmax : max (k.priority k.current) priority = k.priority k.current := by
        refine Int.max_eq_left (Int.not_lt.mp ?_)
        rw [← hpriority]
        exact hnot
      rw [hmax] at hle
      rw [← Option.some.inj hk']
      exact ⟨Leads.congr hle hranks, hfloor'⟩

/-- What every state keeps where that moment does not count. -/
structure OrderedAfter (k : Kernel) : Prop where
  leads : k.Leads ∨ k.AboutToYield
  floor : Floor k.priorities

theorem Ordered.after (h : k.Ordered) : k.OrderedAfter := ⟨Or.inl h.leads, h.floor⟩

/-- The step into that moment. -/
theorem Ordered.yieldsNext (h : k.Ordered) (hlists : k.Lists (some k.current))
    (hyields : k.YieldsNext) (hk' : k.advance k.cur.pc = some k') :
    k'.OrderedAfter := by
  rw [YieldsNext] at hyields
  split at hyields
  case h_1 _ _ l hpc =>
    have hidle : k.current ≠ idleThread := by
      refine hlists.ne_idle ?_
      change ¬ k.cur.pc.IsIdle
      rw [hpc]
      rintro (heq | heq) <;> cases heq
    rw [hpc] at hk'
    obtain ⟨k₁, hremove, hk'⟩ := Option.bind_eq_some_iff.mp hk'
    rw [← Option.some.inj hk']
    refine ⟨Or.inr (Or.inl ⟨l, ?_⟩), ?_⟩
    · simp only [cur, Kernel.goto, Kernel.modify, Function.update_self]
    · rw [priorities_of_ranks (ranks_goto _ _)]
      exact threadRemoveLock_floor hidle h.floor hremove
  case h_2 _ _ t priority rest hpc hops =>
    obtain ⟨k₁, hk₁⟩ : ∃ k₁, k.setOps (.yieldTo priority :: rest) = k₁ := ⟨_, rfl⟩
    have hranks : k₁.ranks = k.ranks := hk₁ ▸ k.ranks_setOps _
    have hlists₁ : k₁.Lists (some k₁.current) := hk₁ ▸ (hlists.starts_of_ops hops).1
    have hcurrent₁ : k₁.current = k.current := congrArg Ranks.current hranks
    have hstatus : ∀ u, (k₁.threads u).status = (k.threads u).status := fun u =>
      congrFun (congrArg Ranks.status hranks) u
    have hcur₁ : k₁.cur = { k.cur with ops := .yieldTo priority :: rest } := by
      rw [cur, hcurrent₁, ← hk₁, Kernel.setOps, modify_self, cur]
    rw [hpc] at hk'
    simp only [Kernel.advance, hops, Kernel.begin, hk₁] at hk'
    obtain ⟨hblocked, hcurrent, hother⟩ := threadUnblock_spec hk'
    have hpriorities : k'.priorities = k.priorities :=
      (priorities_threadUnblock hk').trans (priorities_of_ranks hranks)
    have hne : k₁.current ≠ t := by
      intro heq
      rw [← heq] at hblocked
      exact absurd (hlists₁.running.symm.trans hblocked) (fun h => by cases h)
    have hcur : k'.cur = k₁.cur := by
      rw [cur, hcurrent, hother _ hne, cur]
    refine ⟨Or.inr (Or.inr ⟨priority, rest, ?_, ?_, fun u hu => ?_⟩), ?_⟩
    · rw [hcur, hcur₁, hpc]
    · rw [hcur, hcur₁]
    · rw [priority_of_priorities hpriorities, hcurrent, hcurrent₁]
      by_cases heq : u = t
      · exact heq ▸ hyields
      · rw [hother u heq, hstatus] at hu
        exact Int.le_trans (h.leads u hu) (Int.le_max_left _ _)
    · rw [hpriorities]
      exact h.floor
  · exact absurd hyields id

theorem AboutToYield.step (h : k.AboutToYield) (hlists : k.Lists (some k.current))
    (hfloor : Floor k.priorities) {act : KernelAct} (hkeeps : k.KeepsOrderAfter act)
    (hk' : k.step act = some k') : k'.OrderedAfter := by
  cases act with
  | tick allList =>
      simp only [Kernel.step] at hk'
      split at hk'
      case isTrue htick =>
        have hkeeps' : k.KeepsOrder (.tick allList) := hkeeps.elim id nofun
        obtain ⟨hpriorities, hcases⟩ := h.tick hlists hfloor
          (htick.2.nodup_iff.mpr List.nodup_range) (woken_of_keepsOrder hlists hkeeps') hk'
        exact ⟨hcases, hpriorities.symm ▸ hfloor⟩
      · cases hk'
  | call op =>
      simp only [Kernel.step] at hk'
      split at hk'
      case isTrue hcall =>
        have houtside := hcall.1
        rcases h with ⟨l, hpc⟩ | ⟨priority, rest, hpc, hops, -⟩
        · simp only [isOutside, hpc, Bool.false_eq_true] at houtside
        · simp only [isOutside, hpc, hops, Bool.false_eq_true] at houtside
      · cases hk'
  | run =>
      simp only [Kernel.step] at hk'
      split at hk'
      · rw [← Option.some.inj hk']
        have hranks := k.ranks_setRestore false
        refine ⟨Or.inr (h.congr hranks ?_ ?_), ?_⟩
        · simp [cur, Kernel.setRestore, Kernel.modify, Kernel.intrEnable]
        · simp [cur, Kernel.setRestore, Kernel.modify, Kernel.intrEnable]
        · exact (priorities_of_ranks hranks).symm ▸ hfloor
      · exact (h.advance hlists hfloor hk').after

theorem OrderedAfter.step (h : k.OrderedAfter) (hlists : k.Lists (some k.current))
    {act : KernelAct} (hkeeps : k.KeepsOrderAfter act) (hk' : k.step act = some k') :
    k'.OrderedAfter := by
  rcases h.leads with hleads | hyields
  · have hordered : k.Ordered := ⟨hleads, h.floor⟩
    rcases hkeeps with hkeeps | ⟨rfl, hnext⟩
    · exact (hordered.step hlists hkeeps hk').after
    · by_cases hrestore : k.cur.restore = true
      · have hkeeps : k.KeepsOrder .run := fun hnot =>
          absurd (hrestore.symm.trans hnot) nofun
        exact (hordered.step hlists hkeeps hk').after
      · simp only [Kernel.step, hrestore] at hk'
        exact hordered.yieldsNext hlists hnext hk'
  · exact hyields.step hlists h.floor hkeeps hk'

/-- Outside of all calls, that moment is over. -/
theorem AboutToYield.not_outside (h : k.AboutToYield) : k.isOutside = false := by
  rcases h with ⟨l, hpc⟩ | ⟨priority, rest, hpc, hops, -⟩
  · simp only [isOutside, hpc]
  · simp only [isOutside, hpc, hops]

/-- The running thread is one of the greatest in every state, if all steps of the
run keep the order, and outside of all calls, if they do apart from
`thread_create` and `lock_release` before these yield. -/
theorem running_leads (values : Nat → Nat) (acts : List KernelAct) (k : Kernel) :
    (Run Kernel.step KeepsOrder (boot values) acts k → k.Leads) ∧
      (Run Kernel.step KeepsOrderAfter (boot values) acts k → k.isOutside → k.Leads) := by
  constructor
  · intro hrun
    have hboth := hrun.invariant (fun k => k.Sound ∧ k.Ordered)
      (fun h hkeeps hk' => ⟨h.1.step hk', h.2.step h.1.lists hkeeps hk'⟩)
      ⟨sound_boot values, ordered_boot values⟩
    exact hboth.2.leads
  · intro hrun houtside
    have hboth := hrun.invariant (fun k => k.Sound ∧ k.OrderedAfter)
      (fun h hkeeps hk' => ⟨h.1.step hk', h.2.step h.1.lists hkeeps hk'⟩)
      ⟨sound_boot values, (ordered_boot values).after⟩
    refine hboth.2.leads.resolve_right fun hyields => ?_
    exact absurd (houtside.symm.trans hyields.not_outside) nofun

namespace PreemptionWitness

/-- The first thread starts one of priority 40, which sleeps for a tick. -/
def wakes : List KernelAct :=
  .call (.threadCreate 40) :: List.replicate 12 KernelAct.run ++
    [KernelAct.call (.timerSleep 1), .run, .run, .tick [0, 1, 2]]

/-- A timer interrupt in the middle of a time slice wakes a greater thread, and
the running thread goes on. -/
theorem woken_thread_waits :
    ¬ ∀ (values : Nat → Nat) (acts : List KernelAct) (k : Kernel),
      Reaches values acts k → k.intrOn = true → k.Leads := by
  intro hleads
  have hrun : ((wakes.foldlM step (boot fun _ => 0)).map fun k =>
      (k.intrOn, k.isOutside, (k.threads 2).status, k.priority 2,
        k.priority k.current)) = some (true, true, .ready, 40, 31) := by
    decide +kernel
  obtain ⟨k, hk, hvalues⟩ := Option.map_eq_some_iff.mp hrun
  simp only [Prod.mk.injEq] at hvalues
  obtain ⟨hintr, -, hready, hwoken, hcurrent⟩ := hvalues
  have hle := hleads _ _ k (Run.of_foldlM hk) hintr 2 hready
  rw [hwoken, hcurrent] at hle
  exact absurd hle (by decide)

/-- The first thread starts a thread below it, goes below that thread, and comes
back when that thread goes further down. -/
def stepsDown : List KernelAct :=
  .call (.threadCreate 20) :: List.replicate 11 KernelAct.run ++
    [KernelAct.call (.threadSetPriority 10), .run, .run, .call (.threadSetPriority 5),
      .run, .run, .tick [0, 1, 2]]

/-- The first thread starts a thread above it. -/
def stepsUp : List KernelAct :=
  .call (.threadCreate 40) :: List.replicate 12 KernelAct.run ++
    [KernelAct.call (.threadSetPriority 50), .run, .run]

theorem running_leads_both :
    (∃ k, Run Kernel.step KeepsOrder (boot fun _ => 0) stepsDown k ∧ k.intrOn = true ∧
      (k.threads 2).status = .ready ∧ k.priority 2 = 5 ∧ k.priority k.current = 10 ∧
        k.Leads) ∧
    ∃ k, Run Kernel.step KeepsOrderAfter (boot fun _ => 0) stepsUp k ∧
      k.current = 2 ∧ k.priority k.current = 50 ∧ k.isOutside ∧ k.Leads := by
  have hdown : ((stepsDown.foldlM (fun k act =>
      if decide (KeepsOrder k act) then Kernel.step k act else none)
        (boot fun _ => 0)).map fun k =>
      (k.intrOn, (k.threads 2).status, k.priority 2, k.priority k.current)) =
        some (true, .ready, 5, 10) := by decide +kernel
  have hup : ((stepsUp.foldlM (fun k act =>
      if decide (KeepsOrderAfter k act) then Kernel.step k act else none)
        (boot fun _ => 0)).map fun k =>
      (k.current, k.priority k.current, k.isOutside)) = some (2, 50, true) := by
    decide +kernel
  constructor
  · obtain ⟨k, hk, hvalues⟩ := Option.map_eq_some_iff.mp hdown
    simp only [Prod.mk.injEq] at hvalues
    obtain ⟨hintr, hready, hwoken, hcurrent⟩ := hvalues
    have hreaches : Run Kernel.step KeepsOrder (boot fun _ => 0) stepsDown k :=
      Run.of_check _ (fun _ => True) (fun _ _ => trivial)
        (fun _ hcheck => of_decide_eq_true hcheck) trivial hk
    exact ⟨k, hreaches, hintr, hready, hwoken, hcurrent, (running_leads _ _ k).1 hreaches⟩
  · obtain ⟨k, hk, hvalues⟩ := Option.map_eq_some_iff.mp hup
    simp only [Prod.mk.injEq] at hvalues
    obtain ⟨hcurrent, hpriority, houtside⟩ := hvalues
    have hreaches : Run Kernel.step KeepsOrderAfter (boot fun _ => 0) stepsUp k :=
      Run.of_check _ (fun _ => True) (fun _ _ => trivial)
        (fun _ hcheck => of_decide_eq_true hcheck) trivial hk
    exact ⟨k, hreaches, hcurrent, hpriority, houtside,
      (running_leads _ _ k).2 hreaches houtside⟩

end PreemptionWitness

end Kernel

end PintosLabs
