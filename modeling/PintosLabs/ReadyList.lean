/-
The lists of the scheduler: the ready list holds the threads that are ready, in
the order of their priorities, and a semaphore's list those that are blocked on
it.  Every step keeps them so, whatever it does to priorities.
-/
import PintosLabs.KernelShared

namespace PintosLabs

def Op.starts : Op → Option ThreadId
  | startThread t => some t
  | _ => none

/-- The new threads that a thread has yet to start. -/
def Thread.starts (t : Thread) : List ThreadId := t.ops.filterMap Op.starts

def Pc.IsIdle (pc : Pc) : Prop := pc = idleBlock ∨ pc = idleWake

def Pc.idles : Pc → Bool
  | idleBlock | idleWake => true
  | _ => false

theorem Pc.not_isIdle {pc : Pc} (h : pc.idles = false) : ¬ pc.IsIdle := by
  rintro (rfl | rfl) <;> cases h

namespace Kernel

/-- The lists hold what they should, where `running` is the thread that runs,
if one does. -/
structure Lists (k : Kernel) (running : Option ThreadId) : Prop where
  running_iff : ∀ t, (k.threads t).status = .running ↔ running = some t
  ready_iff : ∀ t, t ∈ k.readyList ↔
    (k.threads t).status = .ready ∧ t ≠ idleThread
  ready_nodup : k.readyList.Nodup
  sorted : Descending k.priority k.readyList
  waiters_iff : ∀ s t, t ∈ (k.sema s).waiters ↔
    (k.threads t).status = .blocked ∧ (k.threads t).pc = .down s
  waiters_nodup : ∀ s, (k.sema s).waiters.Nodup
  asleep : ∀ t, 0 < (k.threads t).bTick →
    (k.threads t).status = .blocked ∧ (k.threads t).pc = .asleep
  unused : ∀ t, k.count ≤ t → (k.threads t).Unused
  idle : (k.threads idleThread).pc.IsIdle
  holder : ∀ l, (k.lock l).holder ≠ some idleThread
  starts_new : ∀ u, ∀ t ∈ (k.threads u).starts, t < k.count ∧
    (k.threads t).status = .blocked ∧ (k.threads t).pc = .next
  starts_nodup : ∀ u, (k.threads u).starts.Nodup
  starts_unique : ∀ u v, ∀ t ∈ (k.threads u).starts,
    t ∈ (k.threads v).starts → u = v

namespace Lists

variable {k k' : Kernel} {r : Option ThreadId}

theorem ne_idle (h : k.Lists r) {t : ThreadId} (ht : ¬ (k.threads t).pc.IsIdle) :
    t ≠ idleThread := by
  rintro rfl
  exact ht h.idle

theorem lt_count (h : k.Lists r) {t : ThreadId}
    (ht : (k.threads t).status ≠ .blocked) : t < k.count :=
  Nat.lt_of_not_le fun hle => ht (h.unused t hle).status

theorem running (h : k.Lists (some k.current)) :
    (k.threads k.current).status = .running := (h.running_iff _).mpr rfl

theorem current_lt (h : k.Lists (some k.current)) : k.current < k.count :=
  h.lt_count (by rw [h.running]; exact nofun)

theorem bTick_eq (h : k.Lists r) {t : ThreadId} (ht : (k.threads t).pc ≠ .asleep) :
    (k.threads t).bTick = 0 :=
  Nat.eq_zero_of_not_pos fun hpos => ht (h.asleep t hpos).2

/-- The lists depend on the threads and on the lists themselves. -/
theorem congr (h : k.Lists r) (hthreads : k'.threads = k.threads)
    (hready : k'.readyList = k.readyList) (hcount : k'.count = k.count)
    (hwaiters : ∀ s, (k'.sema s).waiters = (k.sema s).waiters)
    (hholder : ∀ l, (k'.lock l).holder ≠ some idleThread) : k'.Lists r where
  running_iff := by rw [hthreads]; exact h.running_iff
  ready_iff := by rw [hthreads, hready]; exact h.ready_iff
  ready_nodup := by rw [hready]; exact h.ready_nodup
  sorted := by
    rw [hready]
    have hpriority : k'.priority = k.priority := by
      funext t
      rw [priority, priority, hthreads]
    rw [hpriority]
    exact h.sorted
  waiters_iff := by rw [hthreads]; simp only [hwaiters]; exact h.waiters_iff
  waiters_nodup := by simp only [hwaiters]; exact h.waiters_nodup
  asleep := by rw [hthreads]; exact h.asleep
  unused := by rw [hthreads, hcount]; exact h.unused
  idle := by rw [hthreads]; exact h.idle
  holder := hholder
  starts_new := by rw [hthreads, hcount]; exact h.starts_new
  starts_nodup := by rw [hthreads]; exact h.starts_nodup
  starts_unique := by rw [hthreads]; exact h.starts_unique

theorem setSema (h : k.Lists r) (s : SemaId) {f : Semaphore → Semaphore}
    (hf : (f (k.sema s)).waiters = (k.sema s).waiters) : (k.setSema s f).Lists r := by
  refine h.congr rfl rfl rfl (fun s' => ?_) h.holder
  by_cases hs : s' = s
  · subst hs
    rw [setSema_self, hf]
  · rw [setSema_of_ne hs]

theorem setLock (h : k.Lists r) (l : LockId) {f : Lock → Lock}
    (hf : (f (k.lock l)).holder ≠ some idleThread) : (k.setLock l f).Lists r := by
  refine h.congr rfl rfl rfl (fun _ => rfl) fun m => ?_
  by_cases hm : m = l
  · subst hm
    rwa [setLock_self]
  · rw [setLock_of_ne hm]
    exact h.holder m

/-- What the lists see of a thread that is neither blocked nor ready to change
its place. -/
structure Keeps (th th' : Thread) : Prop where
  status : th'.status = th.status
  bTick : th'.bTick = th.bTick
  pc : th.status = .blocked → th'.pc = th.pc
  priority : th.status = .ready → th'.priority = th.priority
  unused : th.Unused → th'.Unused
  idle : th.pc.IsIdle → th'.pc.IsIdle

theorem Keeps.refl (th : Thread) : Keeps th th :=
  ⟨rfl, rfl, fun _ => rfl, fun _ => rfl, id, id⟩

theorem keeps_modify {t : ThreadId} {f : Thread → Thread}
    (hf : Keeps (k.threads t) (f (k.threads t))) (u : ThreadId) :
    Keeps (k.threads u) ((k.modify t f).threads u) := by
  by_cases hu : u = t
  · subst hu
    rwa [modify_self]
  · rw [modify_of_ne hu]
    exact Keeps.refl _

theorem modifyStarts (h : k.Lists r) (t : ThreadId) {f : Thread → Thread}
    (hf : Keeps (k.threads t) (f (k.threads t)))
    (hnew : ∀ u, ∀ v ∈ ((k.modify t f).threads u).starts, v < k.count ∧
      (k.threads v).status = .blocked ∧ (k.threads v).pc = .next)
    (hnodup : ∀ u, ((k.modify t f).threads u).starts.Nodup)
    (hunique : ∀ u v, ∀ x ∈ ((k.modify t f).threads u).starts,
      x ∈ ((k.modify t f).threads v).starts → u = v) : (k.modify t f).Lists r := by
  have hall := keeps_modify hf
  refine ⟨fun u => ?_, fun u => ?_, h.ready_nodup, ?_, fun s u => ?_,
    h.waiters_nodup, fun u hu => ?_, fun u hu => (hall u).unused (h.unused u hu),
    (hall _).idle h.idle, h.holder, fun u v hv => ?_, hnodup, hunique⟩
  · rw [(hall u).status]
    exact h.running_iff u
  · rw [(hall u).status]
    exact h.ready_iff u
  · refine h.sorted.imp_of_mem fun {u v} hu hv hle => ?_
    rw [priority, priority, (hall u).priority ((h.ready_iff u).mp hu).1,
      (hall v).priority ((h.ready_iff v).mp hv).1]
    exact hle
  · rw [(hall u).status]
    refine (h.waiters_iff s u).trans (and_congr_right fun hblocked => ?_)
    rw [(hall u).pc hblocked]
  · rw [(hall u).bTick] at hu
    have hu' := h.asleep u hu
    rw [(hall u).status, (hall u).pc hu'.1]
    exact hu'
  · have hv' := hnew u v hv
    rw [(hall v).status, (hall v).pc hv'.2.1]
    exact hv'

theorem modify (h : k.Lists r) (t : ThreadId) {f : Thread → Thread}
    (hf : Keeps (k.threads t) (f (k.threads t)))
    (hstarts : (f (k.threads t)).starts.Sublist (k.threads t).starts) :
    (k.modify t f).Lists r := by
  have hsub : ∀ u, ((k.modify t f).threads u).starts.Sublist (k.threads u).starts := by
    intro u
    by_cases hu : u = t
    · subst hu
      rwa [modify_self]
    · rw [modify_of_ne hu]
  exact h.modifyStarts t hf (fun u v hv => h.starts_new u v ((hsub u).mem hv))
    (fun u => (h.starts_nodup u).sublist (hsub u))
    (fun u v x hu hv => h.starts_unique u v x ((hsub u).mem hu) ((hsub v).mem hv))

theorem keepsCur (h : k.Lists (some k.current)) {f : Thread → Thread}
    (hstatus : (f k.cur).status = k.cur.status) (hbTick : (f k.cur).bTick = k.cur.bTick)
    (hidle : k.cur.pc.IsIdle → (f k.cur).pc.IsIdle) : Keeps k.cur (f k.cur) := by
  have hrunning : k.cur.status = .running := h.running
  refine ⟨hstatus, hbTick, fun hb => ?_, fun hr => ?_, fun hu => ?_, hidle⟩
  · exact absurd (hrunning.symm.trans hb) nofun
  · exact absurd (hrunning.symm.trans hr) nofun
  · exact absurd (hrunning.symm.trans hu.status) nofun

/-- The running thread may change anything but its status and what it has yet
to start. -/
theorem modifyCur (h : k.Lists (some k.current)) {f : Thread → Thread}
    (hstatus : (f k.cur).status = k.cur.status) (hbTick : (f k.cur).bTick = k.cur.bTick)
    (hstarts : (f k.cur).starts.Sublist k.cur.starts)
    (hidle : k.cur.pc.IsIdle → (f k.cur).pc.IsIdle) :
    (k.modify k.current f).Lists (some k.current) :=
  h.modify _ (h.keepsCur hstatus hbTick hidle) hstarts

end Lists

/-- The lists without thread `t`, which is on its way from one to another. -/
structure Loose (k : Kernel) (t : ThreadId) (running : Option ThreadId) : Prop where
  running_iff : ∀ u, u ≠ t → ((k.threads u).status = .running ↔ running = some u)
  running_ne : running ≠ some t
  ready_iff : ∀ u, u ≠ t →
    (u ∈ k.readyList ↔ (k.threads u).status = .ready ∧ u ≠ idleThread)
  ready_notMem : t ∉ k.readyList
  ready_nodup : k.readyList.Nodup
  sorted : Descending k.priority k.readyList
  waiters_iff : ∀ s u, u ≠ t → (u ∈ (k.sema s).waiters ↔
    (k.threads u).status = .blocked ∧ (k.threads u).pc = .down s)
  waiters_notMem : ∀ s, t ∉ (k.sema s).waiters
  waiters_nodup : ∀ s, (k.sema s).waiters.Nodup
  asleep : ∀ u, u ≠ t → 0 < (k.threads u).bTick →
    (k.threads u).status = .blocked ∧ (k.threads u).pc = .asleep
  lt_count : t < k.count
  unused : ∀ u, k.count ≤ u → (k.threads u).Unused
  idle : (k.threads idleThread).pc.IsIdle
  holder : ∀ l, (k.lock l).holder ≠ some idleThread
  starts_new : ∀ u, ∀ v ∈ (k.threads u).starts, v ≠ t ∧ v < k.count ∧
    (k.threads v).status = .blocked ∧ (k.threads v).pc = .next
  starts_nodup : ∀ u, (k.threads u).starts.Nodup
  starts_unique : ∀ u v, ∀ x ∈ (k.threads u).starts,
    x ∈ (k.threads v).starts → u = v

namespace Loose

variable {k k' : Kernel} {t : ThreadId} {r : Option ThreadId}

/-- The thread takes its place among the others. -/
theorem attach (h : k.Loose t r) {status : ThreadStatus} {running : Option ThreadId}
    (hthreads : k'.threads = (k.setStatus t status).threads)
    (hrunning : ∀ u, running = some u ↔
      u = t ∧ status = .running ∨ u ≠ t ∧ r = some u)
    (hready : ∀ u, u ∈ k'.readyList ↔
      u = t ∧ status = .ready ∧ t ≠ idleThread ∨ u ≠ t ∧ u ∈ k.readyList)
    (hnodup : k'.readyList.Nodup) (hsorted : Descending k.priority k'.readyList)
    (hwaiters : ∀ s u, u ∈ (k'.sema s).waiters ↔
      u = t ∧ status = .blocked ∧ (k.threads t).pc = .down s ∨
        u ≠ t ∧ u ∈ (k.sema s).waiters)
    (hwnodup : ∀ s, (k'.sema s).waiters.Nodup)
    (hasleep : 0 < (k.threads t).bTick →
      status = .blocked ∧ (k.threads t).pc = .asleep)
    (hcount : k'.count = k.count) (hlock : k'.lock = k.lock) :
    k'.Lists running := by
  have hself : k'.threads t = { k.threads t with status := status } := by
    rw [hthreads, setStatus, modify_self]
  have hother : ∀ u, u ≠ t → k'.threads u = k.threads u := by
    intro u hu
    rw [hthreads, setStatus, modify_of_ne hu]
  have hpc : ∀ u, (k'.threads u).pc = (k.threads u).pc ∧
      (k'.threads u).starts = (k.threads u).starts ∧
      (k'.threads u).priority = (k.threads u).priority := by
    intro u
    by_cases hu : u = t
    · subst hu
      rw [hself]
      exact ⟨rfl, rfl, rfl⟩
    · rw [hother u hu]
      exact ⟨rfl, rfl, rfl⟩
  have hpriority : k'.priority = k.priority := funext fun u => (hpc u).2.2
  refine ⟨fun u => ?_, fun u => ?_, hnodup, by rwa [hpriority], fun s u => ?_,
    hwnodup, fun u hu => ?_, fun u hu => ?_, ?_, ?_, fun u v hv => ?_, fun u => ?_,
    fun u v x hu hv => ?_⟩
  · rw [hrunning]
    by_cases hu : u = t
    · subst hu
      simp [hself]
    · rw [hother u hu, h.running_iff u hu]
      simp [hu]
  · rw [hready]
    by_cases hu : u = t
    · subst hu
      simp [hself]
    · rw [hother u hu, h.ready_iff u hu]
      simp [hu]
  · rw [hwaiters]
    by_cases hu : u = t
    · subst hu
      simp [hself]
    · rw [hother u hu, h.waiters_iff s u hu]
      simp [hu]
  · by_cases hut : u = t
    · subst hut
      rw [hself] at hu ⊢
      exact hasleep hu
    · rw [hother u hut] at hu ⊢
      exact h.asleep u hut hu
  · rw [hcount] at hu
    rw [hother u (Nat.ne_of_gt (Nat.lt_of_lt_of_le h.lt_count hu))]
    exact h.unused u hu
  · rw [(hpc _).1]
    exact h.idle
  · rw [hlock]
    exact h.holder
  · rw [(hpc u).2.1] at hv
    obtain ⟨hvt, hnew⟩ := h.starts_new u v hv
    rw [hother v hvt, hcount]
    exact hnew
  · rw [(hpc u).2.1]
    exact h.starts_nodup u
  · rw [(hpc u).2.1] at hu
    rw [(hpc v).2.1] at hv
    exact h.starts_unique u v x hu hv

theorem attachRunning (h : k.Loose t none) (hbTick : (k.threads t).bTick = 0) :
    (k.setStatus t .running).Lists (some t) := by
  refine h.attach rfl (fun u => ?_) (fun u => ?_) h.ready_nodup h.sorted
    (fun s u => ?_) h.waiters_nodup (fun hpos => ?_) rfl rfl
  · simp [eq_comm]
  · by_cases hu : u = t
    · subst hu
      simpa [setStatus, Kernel.modify] using h.ready_notMem
    · simp [hu, setStatus, Kernel.modify]
  · by_cases hu : u = t
    · subst hu
      simpa [setStatus, Kernel.modify] using h.waiters_notMem s
    · simp [hu, setStatus, Kernel.modify]
  · omega

theorem attachReady (h : k.Loose t r) (hbTick : (k.threads t).bTick = 0)
    (hidle : t ≠ idleThread) : ((k.insertReady t).setStatus t .ready).Lists r := by
  have hperm := List.perm_orderedInsert (fun t u => k.threadCmpPri t u = true) t
    k.readyList
  refine h.attach rfl (fun u => ?_) (fun u => ?_)
    (hperm.nodup_iff.mpr (List.nodup_cons.mpr ⟨h.ready_notMem, h.ready_nodup⟩))
    (descending_orderedInsert t _ h.sorted) (fun s u => ?_) h.waiters_nodup
    (fun hpos => ?_) rfl rfl
  · by_cases hu : u = t
    · subst hu
      simpa using h.running_ne
    · simp [hu]
  · refine hperm.mem_iff.trans ?_
    by_cases hu : u = t
    · subst hu
      simp [hidle]
    · simp [hu]
  · by_cases hu : u = t
    · subst hu
      simpa [setStatus, Kernel.modify, insertReady] using h.waiters_notMem s
    · simp [hu, setStatus, Kernel.modify, insertReady]
  · omega

/-- The idle thread is ready without being on the ready list. -/
theorem attachIdle (h : k.Loose idleThread r)
    (hbTick : (k.threads idleThread).bTick = 0) :
    (k.setStatus idleThread .ready).Lists r := by
  refine h.attach rfl (fun u => ?_) (fun u => ?_) h.ready_nodup h.sorted
    (fun s u => ?_) h.waiters_nodup (fun hpos => ?_) rfl rfl
  · by_cases hu : u = idleThread
    · subst hu
      simpa using h.running_ne
    · simp [hu]
  · by_cases hu : u = idleThread
    · subst hu
      simpa [setStatus, Kernel.modify] using h.ready_notMem
    · simp [hu, setStatus, Kernel.modify]
  · by_cases hu : u = idleThread
    · subst hu
      simpa [setStatus, Kernel.modify] using h.waiters_notMem s
    · simp [hu, setStatus, Kernel.modify]
  · omega

/-- A thread that was blocked becomes ready. -/
theorem threadUnblock (h : k.Loose t r) (hbTick : (k.threads t).bTick = 0)
    (hidle : t ≠ idleThread) (hk' : k.threadUnblock t = some k') : k'.Lists r := by
  rw [Kernel.threadUnblock] at hk'
  split at hk'
  · rw [← Option.some.inj hk']
    exact h.attachReady hbTick hidle
  · cases hk'

theorem modify (h : k.Loose t r) {f : Thread → Thread}
    (hstarts : (f (k.threads t)).starts.Sublist (k.threads t).starts)
    (hidle : (k.threads t).pc.IsIdle → (f (k.threads t)).pc.IsIdle) :
    (k.modify t f).Loose t r := by
  have hother : ∀ {u}, u ≠ t → (k.modify t f).threads u = k.threads u := by
    intro u hu
    exact modify_of_ne hu f
  have hsub : ∀ u, ((k.modify t f).threads u).starts.Sublist (k.threads u).starts := by
    intro u
    by_cases hu : u = t
    · subst hu
      rwa [modify_self]
    · rw [hother hu]
  refine ⟨fun u hu => ?_, h.running_ne, fun u hu => ?_, h.ready_notMem, h.ready_nodup,
    ?_, fun s u hu => ?_, h.waiters_notMem, h.waiters_nodup, fun u hu => ?_,
    h.lt_count, fun u hu => ?_, ?_, h.holder, fun u v hv => ?_,
    fun u => (h.starts_nodup u).sublist (hsub u),
    fun u v x hu hv => h.starts_unique u v x ((hsub u).mem hu) ((hsub v).mem hv)⟩
  · rw [hother hu]
    exact h.running_iff u hu
  · rw [hother hu]
    exact h.ready_iff u hu
  · refine h.sorted.imp_of_mem fun {u v} hu hv hle => ?_
    rw [priority, priority, hother (ne_of_mem_of_not_mem hu h.ready_notMem),
      hother (ne_of_mem_of_not_mem hv h.ready_notMem)]
    exact hle
  · rw [hother hu]
    exact h.waiters_iff s u hu
  · rw [hother hu]
    exact h.asleep u hu
  · rw [hother (Nat.ne_of_gt (Nat.lt_of_lt_of_le h.lt_count hu))]
    exact h.unused u hu
  · by_cases ht : idleThread = t
    · subst ht
      rw [modify_self]
      exact hidle h.idle
    · rw [hother ht]
      exact h.idle
  · obtain ⟨hvt, hnew⟩ := h.starts_new u v ((hsub u).mem hv)
    rw [hother hvt]
    exact ⟨hvt, hnew⟩

theorem attachSleeping (h : k.Loose t r) (hpc : ∀ s, (k.threads t).pc ≠ .down s)
    (hasleep : 0 < (k.threads t).bTick → (k.threads t).pc = .asleep) :
    (k.setStatus t .blocked).Lists r := by
  refine h.attach rfl (fun u => ?_) (fun u => ?_) h.ready_nodup h.sorted
    (fun s u => ?_) h.waiters_nodup (fun hpos => ⟨rfl, hasleep hpos⟩) rfl rfl
  · by_cases hu : u = t
    · subst hu
      simpa using h.running_ne
    · simp [hu]
  · by_cases hu : u = t
    · subst hu
      simpa [setStatus, Kernel.modify] using h.ready_notMem
    · simp [hu, setStatus, Kernel.modify]
  · by_cases hu : u = t
    · subst hu
      simpa [setStatus, Kernel.modify, hpc s] using h.waiters_notMem s
    · simp [hu, setStatus, Kernel.modify]

theorem attachWaiting (h : k.Loose t r) {s : SemaId} (hpc : (k.threads t).pc = .down s)
    (hbTick : (k.threads t).bTick = 0) {waiters : List ThreadId}
    (hwaiters : waiters.Perm (t :: (k.sema s).waiters)) :
    ((k.setSema s fun sema => { sema with waiters := waiters }).setStatus t
      .blocked).Lists r := by
  refine h.attach rfl (fun u => ?_) (fun u => ?_) h.ready_nodup h.sorted
    (fun s' u => ?_) (fun s' => ?_) (fun hpos => ?_) rfl rfl
  · by_cases hu : u = t
    · subst hu
      simpa using h.running_ne
    · simp [hu]
  · by_cases hu : u = t
    · subst hu
      simpa [setStatus, Kernel.modify, setSema] using h.ready_notMem
    · simp [hu, setStatus, Kernel.modify, setSema]
  · rw [setStatus_sema]
    by_cases hs : s' = s
    · subst hs
      rw [setSema_self, hwaiters.mem_iff, List.mem_cons, hpc]
      by_cases hu : u = t <;> simp [hu]
    · have hne : ¬ (k.threads t).pc = .down s' := by
        rw [hpc]
        exact fun heq => hs (Pc.down.inj heq).symm
      rw [setSema_of_ne hs]
      by_cases hu : u = t
      · subst hu
        simpa [hne] using h.waiters_notMem s'
      · simp [hu]
  · rw [setStatus_sema]
    by_cases hs : s' = s
    · subst hs
      rw [setSema_self]
      exact hwaiters.nodup_iff.mpr
        (List.nodup_cons.mpr ⟨h.waiters_notMem s', h.waiters_nodup s'⟩)
    · rw [setSema_of_ne hs]
      exact h.waiters_nodup s'
  · omega

end Loose

namespace Lists

variable {k k' : Kernel} {t : ThreadId} {r : Option ThreadId}

theorem detachRunning (h : k.Lists (some t)) : k.Loose t none := by
  have hrunning : (k.threads t).status = .running := (h.running_iff t).mpr rfl
  refine ⟨fun u hu => ?_, nofun, fun u _ => h.ready_iff u, fun hmem => ?_,
    h.ready_nodup, h.sorted, fun s u _ => h.waiters_iff s u, fun s hmem => ?_,
    h.waiters_nodup, fun u _ => h.asleep u,
    h.lt_count (by rw [hrunning]; exact nofun), h.unused, h.idle, h.holder,
    fun u v hv => ⟨?_, h.starts_new u v hv⟩, h.starts_nodup, h.starts_unique⟩
  · rw [h.running_iff u]
    simp [Ne.symm hu]
  · exact absurd (hrunning.symm.trans ((h.ready_iff t).mp hmem).1) nofun
  · exact absurd (hrunning.symm.trans ((h.waiters_iff s t).mp hmem).1) nofun
  · rintro rfl
    exact absurd (hrunning.symm.trans (h.starts_new u v hv).2.1) nofun

theorem detachReady (h : k.Lists r) (hmem : t ∈ k.readyList) :
    Loose { k with readyList := k.readyList.erase t } t r := by
  have ht := (h.ready_iff t).mp hmem
  refine ⟨fun u _ => h.running_iff u, fun hr => ?_, fun u hu => ?_,
    h.ready_nodup.not_mem_erase, h.ready_nodup.erase t,
    h.sorted.sublist List.erase_sublist, fun s u _ => h.waiters_iff s u,
    fun s hmem => ?_, h.waiters_nodup, fun u _ => h.asleep u,
    h.lt_count (by rw [ht.1]; exact nofun), h.unused, h.idle, h.holder,
    fun u v hv => ⟨?_, h.starts_new u v hv⟩, h.starts_nodup, h.starts_unique⟩
  · exact absurd (ht.1.symm.trans ((h.running_iff t).mpr hr)) nofun
  · rw [← h.ready_iff u]
    exact List.mem_erase_of_ne hu
  · exact absurd (ht.1.symm.trans ((h.waiters_iff s t).mp hmem).1) nofun
  · rintro rfl
    exact absurd (ht.1.symm.trans (h.starts_new u v hv).2.1) nofun

/-- The idle thread is on no list. -/
theorem detachIdle (h : k.Lists none) : k.Loose idleThread none := by
  have hne : ∀ {pc}, (k.threads idleThread).pc = pc → pc.IsIdle := fun heq =>
    heq ▸ h.idle
  refine ⟨fun u _ => h.running_iff u, nofun, fun u _ => h.ready_iff u,
    fun hmem => ((h.ready_iff _).mp hmem).2 rfl, h.ready_nodup, h.sorted,
    fun s u _ => h.waiters_iff s u, fun s hmem => ?_, h.waiters_nodup,
    fun u _ => h.asleep u, Nat.lt_of_not_le fun hle => ?_, h.unused, h.idle, h.holder,
    fun u v hv => ⟨?_, h.starts_new u v hv⟩, h.starts_nodup, h.starts_unique⟩
  · rcases hne ((h.waiters_iff s _).mp hmem).2 with heq | heq <;> cases heq
  · rcases hne (h.unused _ hle).pc with heq | heq <;> cases heq
  · rintro rfl
    rcases hne (h.starts_new u _ hv).2.2 with heq | heq <;> cases heq

/-- A blocked thread leaves the list it waits on, or was on none. -/
theorem detachBlocked (h : k.Lists r) (ht : (k.threads t).status = .blocked)
    (hlt : t < k.count) (hstarts : ∀ u, t ∉ (k.threads u).starts)
    (hthreads : k'.threads = k.threads) (hready : k'.readyList = k.readyList)
    (hcount : k'.count = k.count) (hlock : k'.lock = k.lock)
    (hwaiters : ∀ s u, u ∈ (k'.sema s).waiters ↔ u ∈ (k.sema s).waiters ∧ u ≠ t)
    (hnodup : ∀ s, (k'.sema s).waiters.Nodup) : k'.Loose t r := by
  have hpriority : k'.priority = k.priority := by
    funext u
    rw [priority, priority, hthreads]
  refine ⟨fun u _ => ?_, fun hr => ?_, fun u _ => ?_, fun hmem => ?_, ?_, ?_,
    fun s u hu => ?_, fun s hmem => ((hwaiters s t).mp hmem).2 rfl, hnodup,
    fun u _ => ?_, hcount ▸ hlt, ?_, ?_, ?_, fun u v hv => ?_, ?_, ?_⟩
  · rw [hthreads]
    exact h.running_iff u
  · exact absurd (ht.symm.trans ((h.running_iff t).mpr hr)) nofun
  · rw [hthreads, hready]
    exact h.ready_iff u
  · rw [hready, h.ready_iff t] at hmem
    exact absurd (ht.symm.trans hmem.1) nofun
  · rw [hready]
    exact h.ready_nodup
  · rw [hready, hpriority]
    exact h.sorted
  · rw [hwaiters, hthreads, h.waiters_iff]
    simp [hu]
  · rw [hthreads]
    exact h.asleep u
  · rw [hthreads, hcount]
    exact h.unused
  · rw [hthreads]
    exact h.idle
  · rw [hlock]
    exact h.holder
  · rw [hthreads] at hv ⊢
    rw [hcount]
    exact ⟨ne_of_mem_of_not_mem hv (hstarts u), h.starts_new u v hv⟩
  · rw [hthreads]
    exact h.starts_nodup
  · rw [hthreads]
    exact h.starts_unique

/-- The thread that is chosen leaves the ready list and runs. -/
theorem schedule (h : k.Lists none) : k.schedule.Lists (some k.schedule.current) := by
  rw [Kernel.schedule, nextThreadToRun]
  cases hready : k.readyList with
  | nil =>
      have hidle := h.detachIdle
      refine (hidle.attachRunning (h.bTick_eq fun heq => ?_)).congr rfl hready.symm rfl
        (fun _ => rfl) h.holder
      rcases h.idle with hpc | hpc <;> rw [heq] at hpc <;> cases hpc
  | cons t rest =>
      have hmem : t ∈ k.readyList := hready ▸ List.mem_cons_self
      have ht := (h.ready_iff t).mp hmem
      have hrest : k.readyList.erase t = rest := by
        rw [hready, List.erase_cons_head]
      have hbTick : (k.threads t).bTick = 0 := Nat.eq_zero_of_not_pos fun hpos =>
        absurd (ht.1.symm.trans (h.asleep t hpos).1) (fun h => by cases h)
      exact ((h.detachReady hmem).attachRunning hbTick).congr rfl hrest.symm rfl
        (fun _ => rfl) h.holder

theorem threadYield_of_idle (hidle : k.current = idleThread) :
    k.threadYield = (k.intrDisable.setStatus k.current .ready).schedule := by
  have hnot : ¬ k.intrDisable.current ≠ idleThread := not_not.mpr hidle
  simp only [Kernel.threadYield, if_neg hnot]
  rfl

theorem threadYield_of_ne_idle (hidle : k.current ≠ idleThread) :
    k.threadYield =
      ((k.intrDisable.insertReady k.current).setStatus k.current .ready).schedule := by
  have hne : k.intrDisable.current ≠ idleThread := hidle
  simp only [Kernel.threadYield, if_pos hne]
  rfl

theorem threadYield (h : k.Lists (some k.current)) :
    k.threadYield.Lists (some k.threadYield.current) := by
  have hloose := h.detachRunning
  have hbTick : (k.threads k.current).bTick = 0 := Nat.eq_zero_of_not_pos fun hpos =>
    absurd (h.running.symm.trans (h.asleep _ hpos).1) nofun
  by_cases hidle : k.current = idleThread
  · rw [threadYield_of_idle hidle]
    refine schedule ?_
    rw [hidle] at hloose hbTick ⊢
    exact (hloose.attachIdle hbTick).congr rfl rfl rfl (fun _ => rfl) h.holder
  · rw [threadYield_of_ne_idle hidle]
    refine schedule ?_
    exact (hloose.attachReady hbTick hidle).congr rfl rfl rfl (fun _ => rfl) h.holder

/-- The running thread blocks, with what it has changed of itself. -/
theorem block (h : k.Lists (some k.current)) {f : Thread → Thread}
    (hstarts : (f k.cur).starts = k.cur.starts)
    (hidle : k.cur.pc.IsIdle → (f k.cur).pc.IsIdle)
    (hpc : ∀ s, (f k.cur).pc ≠ .down s)
    (hasleep : 0 < (f k.cur).bTick → (f k.cur).pc = .asleep)
    (hthreads : k'.threads = (k.modify k.current f).threads)
    (hready : k'.readyList = k.readyList) (hcount : k'.count = k.count)
    (hsema : k'.sema = k.sema) (hlock : k'.lock = k.lock)
    (hcurrent : k'.current = k.current) :
    k'.threadBlock.Lists (some k'.threadBlock.current) := by
  refine schedule ?_
  have hloose := h.detachRunning.modify (hstarts ▸ List.Sublist.refl _) hidle
  have hlists := hloose.attachSleeping (by rw [modify_self]; exact hpc)
    (by rw [modify_self]; exact hasleep)
  refine hlists.congr ?_ hready hcount (fun s => by rw [setStatus_sema, hsema]; rfl)
    (hlock ▸ h.holder)
  rw [hcurrent, setStatus, setStatus, Kernel.modify, Kernel.modify, hthreads]

/-- The running thread blocks in `sema_down`. -/
theorem blockOn (h : k.Lists (some k.current)) (s : SemaId) {waiters : List ThreadId}
    (hwaiters : waiters.Perm (k.current :: (k.sema s).waiters))
    (hidle : ¬ k.cur.pc.IsIdle)
    (hk' : k' = (k.intrDisable.setSema s fun sema =>
      { sema with waiters := waiters }).goto (.down s)) :
    k'.threadBlock.Lists (some k'.threadBlock.current) := by
  subst hk'
  refine schedule ?_
  have hbTick : (k.threads k.current).bTick = 0 := Nat.eq_zero_of_not_pos fun hpos =>
    absurd (h.running.symm.trans (h.asleep _ hpos).1) nofun
  have hloose := @Loose.modify k k.current none h.detachRunning
    (fun t => { t with pc := .down s }) (List.Sublist.refl _)
    (fun hpc => absurd hpc hidle)
  have hlists := hloose.attachWaiting (by rw [modify_self])
    (by rw [modify_self]; exact hbTick) hwaiters
  exact hlists.congr rfl rfl rfl (fun _ => rfl) h.holder

/-- A thread that `sema_up` takes from the list of the semaphore. -/
theorem semaWake (h : k.Lists r) {s : SemaId} (hk' : k.semaWake s = some k') :
    k'.Lists r := by
  rw [Kernel.semaWake] at hk'
  split at hk'
  · rwa [← Option.some.inj hk']
  · obtain ⟨sorted, hsorted, hk'⟩ := Option.bind_eq_some_iff.mp hk'
    obtain ⟨sorted', hsorted', hperm, -⟩ :=
      listSort_spec k.priority (k.sema s).waiters
    split at hk'
    · cases hk'
    case h_2 t rest =>
      rw [threadCmpPri, hsorted', Option.some.injEq] at hsorted
      subst hsorted
      have hnodup := hperm.nodup_iff.mpr (h.waiters_nodup s)
      rw [List.nodup_cons] at hnodup
      have ht := (h.waiters_iff s t).mp (hperm.mem_iff.mp List.mem_cons_self)
      have hpc : ∀ {pc}, (k.threads t).pc = pc → pc = .down s := fun heq =>
        heq.symm.trans ht.2
      have hloose : Loose (k.setSema s fun sema => { sema with waiters := rest })
          t r := by
        refine h.detachBlocked ht.1 (Nat.lt_of_not_le fun hle => ?_)
          (fun u hu => ?_) rfl rfl rfl rfl (fun s' u => ?_) (fun s' => ?_)
        · exact absurd (hpc (h.unused t hle).pc) (fun h => by cases h)
        · exact absurd (hpc (h.starts_new u t hu).2.2) (fun h => by cases h)
        · by_cases hs : s' = s
          · subst hs
            rw [setSema_self, ← hperm.mem_iff, List.mem_cons]
            by_cases hu : u = t
            · subst hu
              simpa using hnodup.1
            · simp [hu]
          · rw [setSema_of_ne hs, iff_self_and]
            rintro hu rfl
            exact hs (Pc.down.inj (hpc ((h.waiters_iff s' u).mp hu).2)).symm.symm
        · by_cases hs : s' = s
          · subst hs
            rw [setSema_self]
            exact hnodup.2
          · rw [setSema_of_ne hs]
            exact h.waiters_nodup s'
      refine hloose.threadUnblock (h.bTick_eq ?_) (h.ne_idle ?_) hk'
      · rw [ht.2]
        exact fun h => by cases h
      · rw [ht.2]
        rintro (heq | heq) <;> cases heq

end Lists

/-- The priority that `thread_update_pri` computes: the greatest of the
thread's own and those of the locks it holds. -/
structure IsUpdatedPri (k : Kernel) (t : ThreadId) (priority : Int) : Prop where
  original_le : (k.threads t).originalPri ≤ priority
  maxPri_le : ∀ l ∈ (k.threads t).holdingLocks, (k.lock l).maxPri ≤ priority
  eq : priority = (k.threads t).originalPri ∨
    ∃ l ∈ (k.threads t).holdingLocks, priority = (k.lock l).maxPri

theorem threadUpdatePri_spec (k : Kernel) (t : ThreadId) :
    ∃ locks priority, k.threadUpdatePri t = some (k.modify t fun thread =>
        { thread with holdingLocks := locks, priority := priority }) ∧
      locks.Perm (k.threads t).holdingLocks ∧ k.IsUpdatedPri t priority := by
  cases hlocks : (k.threads t).holdingLocks with
  | nil =>
      refine ⟨[], (k.threads t).originalPri, ?_, .refl _, Int.le_refl _,
        by simp [hlocks], Or.inl rfl⟩
      simp only [threadUpdatePri, hlocks, setPriority, modify]
  | cons l rest =>
      obtain ⟨sorted, hsort, hperm, hsorted⟩ :=
        listSort_spec (fun l => (k.lock l).maxPri) (l :: rest)
      cases sorted with
      | nil => exact absurd hperm.length_eq (fun h => by cases h)
      | cons m others =>
          refine ⟨m :: others, max (k.threads t).originalPri (k.lock m).maxPri, ?_,
            hperm, Int.le_max_left _ _, fun l' hl' => ?_, ?_⟩
          · simp only [threadUpdatePri, hlocks, lockCmpPri, hsort,
              Option.bind_eq_bind, Option.bind_some, setPriority, modify_modify]
            rfl
          · rw [hlocks, ← hperm.mem_iff] at hl'
            refine Int.le_trans ?_ (Int.le_max_right _ _)
            rcases List.mem_cons.mp hl' with rfl | hl'
            · exact Int.le_refl _
            · exact (List.pairwise_cons.mp hsorted).1 l' hl'
          · rcases Int.le_total (k.threads t).originalPri (k.lock m).maxPri with hle | hle
            · refine Or.inr ⟨m, ?_, Int.max_eq_right hle⟩
              rw [hlocks, ← hperm.mem_iff]
              exact List.mem_cons_self
            · exact Or.inl (Int.max_eq_left hle)

namespace Lists

variable {k k' : Kernel} {t : ThreadId} {r : Option ThreadId}

/-- A donation moves a ready thread to its new place. -/
theorem threadDonatePri (h : k.Lists r) (hidle : t ≠ idleThread)
    (hk' : k.threadDonatePri t = some k') : k'.Lists r := by
  obtain ⟨locks, priority, hupdate, -⟩ := k.threadUpdatePri_spec t
  simp only [Kernel.threadDonatePri, hupdate, Option.bind_eq_bind, Option.bind_some,
    modify_self] at hk'
  split at hk'
  case isTrue hready =>
    rw [← Option.some.inj hk']
    have hmem : t ∈ k.readyList := (h.ready_iff t).mpr ⟨hready, hidle⟩
    have hbTick : (k.threads t).bTick = 0 := Nat.eq_zero_of_not_pos fun hpos =>
      absurd (hready.symm.trans (h.asleep t hpos).1) nofun
    have hloose := @Loose.modify _ t r (h.detachReady hmem)
      (fun thread => { thread with holdingLocks := locks, priority := priority })
      (List.Sublist.refl _) id
    have hlists := hloose.attachReady (by rw [modify_self]; exact hbTick) hidle
    rw [setStatus, modify_eq_self] at hlists
    · exact hlists
    · simp only [insertReady, modify_self, ← hready]
  case isFalse hnot =>
    rw [← Option.some.inj hk']
    exact h.modify t ⟨rfl, rfl, fun _ => rfl, fun hready => absurd hready hnot,
      fun hu => ⟨hu.1, hu.2, hu.3, hu.4, hu.5, hu.6⟩, id⟩ (List.Sublist.refl _)

theorem setRestore (h : k.Lists (some k.current)) (restore : Bool) :
    (k.setRestore restore).Lists (some k.current) :=
  h.modifyCur rfl rfl (List.Sublist.refl _) id

theorem goto (h : k.Lists (some k.current)) {pc : Pc}
    (hidle : k.cur.pc.IsIdle → pc.IsIdle) : (k.goto pc).Lists (some k.current) :=
  h.modifyCur rfl rfl (List.Sublist.refl _) hidle

theorem threadSetPriority (h : k.Lists (some k.current)) (newPriority : Int) :
    (k.threadSetPriority newPriority).Lists
      (some (k.threadSetPriority newPriority).current) := by
  have h₁ : (k.modify k.current fun t =>
      { t with originalPri := newPriority }).Lists (some k.current) :=
    h.modifyCur rfl rfl (List.Sublist.refl _) id
  simp only [Kernel.threadSetPriority]
  split
  · refine threadYield (setRestore ?_ true)
    exact @modifyCur _ h₁ (fun t => { t with priority := newPriority }) rfl rfl
      (List.Sublist.refl _) id
  · exact h₁

/-- A thread in `timer_sleep` is on no list. -/
theorem detachAsleep (h : k.Lists r) (ht : 0 < (k.threads t).bTick) : k.Loose t r := by
  have hasleep := h.asleep t ht
  have hpc : ∀ {pc}, (k.threads t).pc = pc → pc = .asleep := fun heq =>
    heq.symm.trans hasleep.2
  refine h.detachBlocked hasleep.1 (Nat.lt_of_not_le fun hle => ?_) (fun u hu => ?_)
    rfl rfl rfl rfl (fun s u => ?_) h.waiters_nodup
  · exact absurd (hpc (h.unused t hle).pc) nofun
  · exact absurd (hpc (h.starts_new u t hu).2.2) nofun
  · rw [iff_self_and]
    rintro hu rfl
    exact absurd (hpc ((h.waiters_iff s u).mp hu).2) nofun

theorem threadBCheck (h : k.Lists r) (hk' : k.threadBCheck t = some k') :
    k'.Lists r := by
  rw [Kernel.threadBCheck] at hk'
  split at hk'
  case isTrue hsleeps =>
    have ht := h.asleep t hsleeps.2
    have hloose := @Loose.modify _ _ _ (h.detachAsleep hsleeps.2)
      (fun thread => { thread with bTick := thread.bTick - 1 })
      (List.Sublist.refl _) id
    simp only [modify_self] at hk'
    split at hk'
    case isTrue hzero =>
      refine hloose.threadUnblock (by rw [modify_self]; exact hzero) (h.ne_idle ?_) hk'
      rw [ht.2]
      rintro (heq | heq) <;> cases heq
    case isFalse hlater =>
      have hlists := hloose.attachSleeping
        (by rw [modify_self, ht.2]; exact fun _ h => by cases h)
        (by rw [modify_self]; exact fun _ => ht.2)
      rw [setStatus, modify_eq_self (by rw [modify_self, ← ht.1])] at hlists
      rwa [← Option.some.inj hk']
  · rwa [← Option.some.inj hk']

theorem threadForeach (h : k.Lists r) {allList : List ThreadId}
    (hk' : k.threadForeach allList = some k') : k'.Lists r := by
  induction allList generalizing k with
  | nil => rwa [← Option.some.inj hk']
  | cons t rest ih =>
      obtain ⟨k₁, hcheck, hrest⟩ := Option.bind_eq_some_iff.mp hk'
      exact ih (h.threadBCheck hcheck) hrest

theorem timerInterrupt (h : k.Lists (some k.current)) {allList : List ThreadId}
    (hk' : k.timerInterrupt allList = some k') : k'.Lists (some k'.current) := by
  obtain ⟨k₁, hforeach, hk'⟩ := Option.bind_eq_some_iff.mp hk'
  have hticks : Lists { k with threadTicks := k.threadTicks + 1 } (some k.current) :=
    h.congr rfl rfl rfl (fun _ => rfl) h.holder
  have h₁ := hticks.threadForeach hforeach
  have hcurrent := current_threadForeach hforeach
  change k₁.current = k.current at hcurrent
  rw [← hcurrent] at h₁
  split at hk'
  · rw [← Option.some.inj hk']
    exact threadYield (h₁.setRestore true)
  · rwa [← Option.some.inj hk']

/-- The new thread of `thread_create`. -/
theorem grow (h : k.Lists r) (priority : Int) : Lists { k with
    threads := Function.update k.threads k.count (initThread priority)
    count := k.count + 1 } r := by
  have hunused := h.unused k.count (Nat.le_refl _)
  have h₁ := @modify k r h k.count (fun _ => initThread priority)
    ⟨hunused.status.symm, hunused.bTick.symm, fun _ => hunused.pc.symm,
      fun hready => absurd (hunused.status.symm.trans hready) nofun,
      fun _ => ⟨rfl, rfl, rfl, rfl, rfl, rfl⟩, fun hidle => ?_⟩ (List.nil_sublist _)
  · exact { h₁ with
      unused := fun t ht => h₁.unused t (Nat.le_of_succ_le ht)
      starts_new := fun u t ht =>
        ⟨Nat.lt_succ_of_lt (h₁.starts_new u t ht).1, (h₁.starts_new u t ht).2⟩ }
  · rw [hunused.pc] at hidle
    exact hidle

/-- The running thread has one more thread to start. -/
theorem addStart (h : k.Lists (some k.current)) (hlt : t < k.count)
    (hstatus : (k.threads t).status = .blocked) (hpc : (k.threads t).pc = .next)
    (ht : ∀ u, t ∉ (k.threads u).starts) {ops : List Op}
    (hops : ops.filterMap Op.starts = t :: k.cur.starts) :
    (k.setOps ops).Lists (some k.current) := by
  have hself : ((k.setOps ops).threads k.current).starts = t :: k.cur.starts := by
    rw [setOps, modify_self]
    exact hops
  have hother : ∀ u, u ≠ k.current →
      ((k.setOps ops).threads u).starts = (k.threads u).starts := by
    intro u hu
    rw [setOps, modify_of_ne hu]
  have hmem : ∀ u v, v ∈ ((k.setOps ops).threads u).starts →
      u = k.current ∧ v = t ∨ v ∈ (k.threads u).starts := by
    intro u v hv
    by_cases hu : u = k.current
    · subst hu
      rw [hself] at hv
      exact (List.mem_cons.mp hv).imp_left fun heq => ⟨rfl, heq⟩
    · exact Or.inr (hother u hu ▸ hv)
  refine h.modifyStarts _ (@keepsCur k h (fun t => { t with ops := ops }) rfl rfl id)
    (fun u v hv => ?_) (fun u => ?_) (fun u v x hu hv => ?_)
  · rcases hmem u v hv with ⟨-, rfl⟩ | hv
    · exact ⟨hlt, hstatus, hpc⟩
    · exact h.starts_new u v hv
  · by_cases hu : u = k.current
    · subst hu
      exact hself ▸ List.nodup_cons.mpr ⟨ht k.current, h.starts_nodup k.current⟩
    · exact hother u hu ▸ h.starts_nodup u
  · rcases hmem u x hu with ⟨hu, rfl⟩ | hu <;> rcases hmem v x hv with ⟨hv, hx⟩ | hv
    · rw [hu, hv]
    · exact absurd hv (ht v)
    · exact absurd (hx ▸ hu) (ht u)
    · exact h.starts_unique u v x hu hv

theorem intrEnable (h : k.Lists r) : k.intrEnable.Lists r :=
  h.congr rfl rfl rfl (fun _ => rfl) h.holder

theorem intrDisable (h : k.Lists r) : k.intrDisable.Lists r :=
  h.congr rfl rfl rfl (fun _ => rfl) h.holder

theorem setCond (h : k.Lists r) (c : CondId) (waiters : List ThreadId) :
    (k.setCond c waiters).Lists r := h.congr rfl rfl rfl (fun _ => rfl) h.holder

theorem semaDown (h : k.Lists (some k.current)) (s : SemaId)
    (hidle : ¬ k.cur.pc.IsIdle) :
    (k.semaDown s).Lists (some (k.semaDown s).current) := by
  by_cases hzero : (k.sema s).value = 0
  · rw [semaDown_of_zero hzero]
    exact h.blockOn s (List.perm_orderedInsert _ _ _) hidle rfl
  · rw [semaDown_of_ne_zero hzero]
    have h₁ := @setSema _ _ h.intrDisable s
      (fun sema => { sema with value := sema.value - 1, downs := sema.downs + 1 }) rfl
    exact (goto h₁ fun hpc => absurd hpc hidle).intrEnable

theorem semaUp (h : k.Lists (some k.current)) {s : SemaId}
    (hk' : k.semaUp s = some k') : k'.Lists (some k'.current) := by
  obtain ⟨k₁, hwake, hk'⟩ := Option.bind_eq_some_iff.mp hk'
  have h₁ := h.intrDisable.semaWake hwake
  have hcurrent := current_semaWake hwake
  change k₁.current = k.current at hcurrent
  rw [← hcurrent] at h₁
  have h₂ := @setSema _ _ h₁ s
    (fun sema => { sema with value := (sema.value + 1) % 2 ^ 32, ups := sema.ups + 1 })
    rfl
  rw [← Option.some.inj hk']
  exact threadYield (setRestore h₂ true)

theorem setHolder (h : k.Lists (some k.current)) (l : LockId)
    (hidle : ¬ k.cur.pc.IsIdle) :
    (k.setHolder l).Lists (some (k.setHolder l).current) := by
  have h₁ := @setLock _ _ h l (fun lock => { lock with holder := some k.current })
    fun heq => h.ne_idle hidle (Option.some.inj heq)
  have h₂ := @modifyCur _ h₁ (fun t => { t with inside := l :: t.inside }) rfl rfl
    (List.Sublist.refl _) id
  have h₃ := @goto _ h₂ .next fun hpc => by
    refine absurd ?_ hidle
    simpa [cur, Kernel.modify, Kernel.setLock] using hpc
  exact h₃.intrEnable

theorem threadGetLock (h : k.Lists (some k.current)) (l : LockId) :
    (k.threadGetLock l).Lists (some k.current) :=
  h.modifyCur rfl rfl (List.Sublist.refl _) id

theorem lockTaken (h : k.Lists (some k.current)) (l : LockId) :
    (k.lockTaken l).Lists (some k.current) := by
  have h₁ := @modifyCur _ h.intrDisable (fun t => { t with waitingLock := none }) rfl rfl
    (List.Sublist.refl _) id
  exact threadGetLock (setLock h₁ l (h.holder l)) l

theorem lockTake (h : k.Lists (some k.current)) (l : LockId)
    (hidle : ¬ k.cur.pc.IsIdle) :
    (k.lockTake l).Lists (some (k.lockTake l).current) := by
  rw [lockTake_eq]
  refine setHolder (h.lockTaken l) l fun hpc => hidle ?_
  have hsame : (k.lockTaken l).shared.pc k.current = k.shared.pc k.current := by
    rw [shared_lockTaken]
  change ((k.lockTaken l).shared.pc k.current).IsIdle at hpc
  rwa [hsame] at hpc

theorem threadRemoveLock (h : k.Lists (some k.current)) {l : LockId}
    (hk' : k.threadRemoveLock l = some k') : k'.Lists (some k'.current) := by
  have hcurrent := current_threadRemoveLock hk'
  rw [Kernel.threadRemoveLock] at hk'
  split at hk'
  · have h₁ := @modifyCur _ h
      (fun t => { t with holdingLocks := t.holdingLocks.erase l }) rfl rfl
      (List.Sublist.refl _) id
    obtain ⟨locks, priority, hupdate, -⟩ := threadUpdatePri_spec
      (k.modify k.current fun t => { t with holdingLocks := t.holdingLocks.erase l })
      k.current
    rw [hupdate] at hk'
    rw [← Option.some.inj hk']
    exact @modifyCur _ h₁
      (fun t => { t with holdingLocks := locks, priority := priority }) rfl rfl
      (List.Sublist.refl _) id
  · cases hk'

/-- A new thread, which is on no list, becomes ready. -/
theorem startThread (h : k.Lists r) (hlt : t < k.count)
    (hstatus : (k.threads t).status = .blocked) (hpc : (k.threads t).pc = .next)
    (ht : ∀ u, t ∉ (k.threads u).starts) (hk' : k.threadUnblock t = some k') :
    k'.Lists r := by
  have hloose : k.Loose t r := by
    refine h.detachBlocked hstatus hlt ht rfl rfl rfl rfl (fun s u => ?_)
      h.waiters_nodup
    rw [iff_self_and]
    rintro hu rfl
    exact absurd (hpc.symm.trans ((h.waiters_iff s u).mp hu).2) nofun
  refine hloose.threadUnblock (h.bTick_eq ?_) (h.ne_idle ?_) hk'
  · rw [hpc]
    exact nofun
  · rw [hpc]
    rintro (heq | heq) <;> cases heq

/-- A thread that has called `thread_block`. -/
theorem unpark (h : k.Lists r) (hpc : (k.threads t).pc = .parked)
    (hk' : k.threadUnblock t = some k') : k'.Lists r := by
  have hstatus : (k.threads t).status = .blocked := by
    rw [Kernel.threadUnblock] at hk'
    split at hk'
    · assumption
    · cases hk'
  have hne : ∀ {pc}, (k.threads t).pc = pc → pc = .parked := fun heq =>
    heq.symm.trans hpc
  have hloose : k.Loose t r := by
    refine h.detachBlocked hstatus (Nat.lt_of_not_le fun hle => ?_) (fun u hu => ?_)
      rfl rfl rfl rfl (fun s u => ?_) h.waiters_nodup
    · exact absurd (hne (h.unused t hle).pc) (fun h => by cases h)
    · exact absurd (hne (h.starts_new u t hu).2.2) (fun h => by cases h)
    · rw [iff_self_and]
      rintro hu rfl
      exact absurd (hne ((h.waiters_iff s u).mp hu).2) (fun h => by cases h)
  refine hloose.threadUnblock (h.bTick_eq ?_) (h.ne_idle ?_) hk'
  · rw [hpc]
    exact fun h => by cases h
  · rw [hpc]
    rintro (heq | heq) <;> cases heq

/-- The running thread has less to start. -/
theorem setOps (h : k.Lists (some k.current)) {ops : List Op}
    (hops : (ops.filterMap Op.starts).Sublist k.cur.starts) :
    (k.setOps ops).Lists (some k.current) := h.modifyCur rfl rfl hops id

theorem begin (h : k.Lists (some k.current)) {op : Op} (hpc : k.cur.pc = .next)
    (hstart : ∀ t, op = .startThread t → t < k.count ∧
      (k.threads t).status = .blocked ∧ (k.threads t).pc = .next ∧
        ∀ u, t ∉ (k.threads u).starts)
    (hown : ∀ t, (k.threads t).pc = .down (.waiter k.current) → t = k.current)
    (hbegin : k.begin k.cur.ops op = some k') : k'.Lists (some k'.current) := by
  have hidle : ¬ k.cur.pc.IsIdle := by
    rw [hpc]
    rintro (heq | heq) <;> cases heq
  cases op with
  | threadYield =>
      rw [← Option.some.inj hbegin]
      exact threadYield (h.setRestore true)
  | threadBlock =>
      rw [← Option.some.inj hbegin]
      exact @block k _ h (fun t => { t with pc := .parked }) rfl
        (fun hpc => absurd hpc hidle) (fun _ h => by cases h)
        (fun hpos => absurd (@bTick_eq _ _ h k.current (hpc ▸ fun h => by cases h))
          (Nat.ne_of_gt hpos))
        rfl rfl rfl rfl rfl rfl
  | threadUnblock t =>
      simp only [Kernel.begin] at hbegin
      split at hbegin
      case h_1 hparked =>
        rw [current_threadUnblock hbegin]
        exact h.unpark hparked hbegin
      · cases hbegin
  | threadCreate priority =>
      simp only [Kernel.begin] at hbegin
      split at hbegin
      · rw [← Option.some.inj hbegin]
        have hne : k.current ≠ k.count := Nat.ne_of_lt h.current_lt
        refine addStart (h.grow priority) (Nat.lt_succ_self k.count) ?_ ?_ (fun u hu => ?_)
          ?_
        · simp [initThread]
        · simp [initThread]
        · by_cases heq : u = k.count
          · subst heq
            simp [initThread, Thread.starts] at hu
          · simp only [Function.update_of_ne heq] at hu
            exact absurd (h.starts_new u _ hu).1 (Nat.lt_irrefl _)
        · change _ = k.count :: Thread.starts
            (Function.update k.threads k.count (initThread priority) k.current)
          rw [Function.update_of_ne hne]
          rfl
      · cases hbegin
  | allocateTid t =>
      rw [← Option.some.inj hbegin]
      have h₁ : Lists { k with nextTid := k.nextTid + 1 } (some k.current) :=
        h.congr rfl rfl rfl (fun _ => rfl) h.holder
      exact @modify _ _ h₁ t (fun thread => { thread with tid := k.nextTid })
        ⟨rfl, rfl, fun _ => rfl, fun _ => rfl,
          fun hu => ⟨hu.1, hu.2, hu.3, hu.4, hu.5, hu.6⟩, id⟩ (List.Sublist.refl _)
  | startThread t =>
      obtain ⟨hlt, hstatus, hnext, hstarts⟩ := hstart t rfl
      rw [current_threadUnblock hbegin]
      exact h.startThread hlt hstatus hnext hstarts hbegin
  | yieldTo priority =>
      simp only [Kernel.begin] at hbegin
      split at hbegin
      · rw [← Option.some.inj hbegin]
        exact threadYield (h.setRestore true)
      · rwa [← Option.some.inj hbegin]
  | threadSetPriority priority =>
      rw [← Option.some.inj hbegin]
      exact h.threadSetPriority priority
  | timerSleep ticks =>
      simp only [Kernel.begin] at hbegin
      split at hbegin
      · rwa [← Option.some.inj hbegin]
      · rw [← Option.some.inj hbegin]
        exact @block k _ h (fun t => { t with bTick := ticks.toNat, pc := .asleep }) rfl
          (fun hpc => absurd hpc hidle) (fun _ h => by cases h) (fun _ => rfl)
          (by simp [Kernel.goto, Kernel.modify, Kernel.intrDisable]) rfl rfl rfl rfl rfl
  | semaDown n =>
      rw [← Option.some.inj hbegin]
      exact h.semaDown _ hidle
  | semaTryDown n =>
      rw [← Option.some.inj hbegin]
      simp only [Kernel.semaTryDown]
      split
      · exact h.setSema _ rfl
      · exact h
  | semaUp n => exact h.semaUp hbegin
  | lockAcquire l =>
      simp only [Kernel.begin] at hbegin
      split at hbegin
      · cases hbegin
      · split at hbegin
        · rw [← Option.some.inj hbegin]
          exact h.goto fun hpc => absurd hpc hidle
        · rw [← Option.some.inj hbegin]
          exact h.goto fun hpc => absurd hpc hidle
  | lockRelease l =>
      simp only [Kernel.begin] at hbegin
      split at hbegin
      · have h₁ := @setLock _ _ h l (fun lock => { lock with holder := none })
          (fun h => by cases h)
        have h₂ := @modifyCur _ h₁
          (fun t => { t with inside := t.inside.filter fun m => m ≠ l }) rfl rfl
          (List.Sublist.refl _) id
        rw [← Option.some.inj hbegin]
        refine @goto _ h₂ _ fun hpc => absurd ?_ hidle
        simpa [cur, Kernel.modify, Kernel.setLock] using hpc
      · cases hbegin
  | condWait c l =>
      simp only [Kernel.begin] at hbegin
      split at hbegin
      · rw [← Option.some.inj hbegin]
        have hempty : (k.sema (.waiter k.current)).waiters = [] := by
          refine List.eq_nil_iff_forall_not_mem.mpr fun u hu => ?_
          have hu' := (h.waiters_iff _ u).mp hu
          rw [hown u hu'.2, h.running] at hu'
          exact absurd hu'.1 (fun h => by cases h)
        have h₁ := @setSema _ _ h (.waiter k.current) (fun _ => semaInit 0) hempty.symm
        exact setOps (h₁.setCond c _) (List.Sublist.refl _)
      · cases hbegin
  | waiterDown =>
      rw [← Option.some.inj hbegin]
      exact h.semaDown _ hidle
  | condSignal c l =>
      simp only [Kernel.begin] at hbegin
      split at hbegin
      · split at hbegin
        · rwa [← Option.some.inj hbegin]
        · rw [← Option.some.inj hbegin]
          exact h.goto fun hpc => absurd hpc hidle
      · cases hbegin
  | condBroadcast c l =>
      simp only [Kernel.begin] at hbegin
      split at hbegin
      · rwa [← Option.some.inj hbegin]
      · rw [← Option.some.inj hbegin]
        exact h.setOps (List.Sublist.refl _)

/-- What the running thread is to start, if that is what it does next. -/
theorem starts_of_ops (h : k.Lists (some k.current)) {op : Op} {rest : List Op}
    (hops : k.cur.ops = op :: rest) :
    (k.setOps rest).Lists (some k.current) ∧ ∀ t, op = .startThread t →
      t < k.count ∧ ((k.setOps rest).threads t).status = .blocked ∧
        ((k.setOps rest).threads t).pc = .next ∧
        ∀ u, t ∉ ((k.setOps rest).threads u).starts := by
  refine ⟨h.setOps ?_, fun t ht => ?_⟩
  · rw [Thread.starts, hops]
    exact (List.sublist_cons_self op rest).filterMap _
  · subst ht
    have hstarts : k.cur.starts = t :: rest.filterMap Op.starts := by
      rw [Thread.starts, hops]
      rfl
    have hmem : t ∈ (k.threads k.current).starts := hstarts ▸ List.mem_cons_self
    have hnew := h.starts_new _ t hmem
    have hne : t ≠ k.current := by
      rintro rfl
      exact absurd (h.running.symm.trans hnew.2.1) nofun
    rw [Kernel.setOps, modify_of_ne hne]
    refine ⟨hnew.1, hnew.2.1, hnew.2.2, fun u hu => ?_⟩
    by_cases heq : u = k.current
    · subst heq
      rw [modify_self] at hu
      exact (List.nodup_cons.mp (hstarts ▸ h.starts_nodup k.current)).1 hu
    · rw [modify_of_ne heq] at hu
      exact heq (h.starts_unique u k.current t hu hmem)

/-- After a change that leaves the threads in their places. -/
theorem gotoOf {k₁ : Kernel} (h₁ : k₁.Lists (some k₁.current))
    (hcurrent : k₁.current = k.current) (hshared : k₁.shared.pc = k.shared.pc)
    (hidle : ¬ k.cur.pc.IsIdle) (pc : Pc) : (k₁.goto pc).Lists (some k₁.current) := by
  refine h₁.goto fun hcur => absurd ?_ hidle
  have hsame : k₁.cur.pc = k.cur.pc := by
    change k₁.shared.pc k₁.current = k.shared.pc k.current
    rw [hshared, hcurrent]
  rwa [hsame] at hcur

theorem advance (h : k.Lists (some k.current))
    (hown : ∀ t, (k.threads t).pc = .down (.waiter k.current) → t = k.current)
    (hk' : k.advance k.cur.pc = some k') : k'.Lists (some k'.current) := by
  obtain ⟨pc, hpc⟩ : ∃ pc, k.cur.pc = pc := ⟨_, rfl⟩
  have hidle : ¬ pc.IsIdle → ¬ k.cur.pc.IsIdle := fun hnot => hpc ▸ hnot
  have hgoto : ∀ pc', ¬ pc.IsIdle → (k.goto pc').Lists (some k.current) :=
    fun pc' hnot => h.goto fun hcur => absurd hcur (hidle hnot)
  rw [hpc] at hk'
  cases pc with
  | next =>
      simp only [Kernel.advance] at hk'
      split at hk'
      · cases hk'
      case h_2 op rest hops =>
        obtain ⟨hrest, hstart⟩ := h.starts_of_ops hops
        have hpc' : ∀ t, ((k.setOps rest).threads t).pc = (k.threads t).pc :=
          fun t => congrFun (congrArg Shared.pc (k.shared_setOps rest)) t
        have hops' : (k.setOps rest).cur.ops = rest := by
          simp [Kernel.setOps, cur, Kernel.modify]
        refine @begin _ k' hrest op ?_ hstart (fun t ht => hown t ?_) ?_
        · exact (hpc' _).trans hpc
        · exact (hpc' t).symm.trans ht
        · rw [hops']
          exact hk'
  | setWaiting l =>
      have h₁ := @modifyCur _ h (fun t => { t with waitingLock := some l }) rfl rfl
        (List.Sublist.refl _) id
      rw [← Option.some.inj hk']
      exact @gotoOf k _ h₁ rfl (by rw [shared_setWaitingLock]) (hidle (Pc.not_isIdle rfl)) _
  | donateTest l lk =>
      cases lk with
      | none =>
          rw [← Option.some.inj hk']
          exact hgoto _ (Pc.not_isIdle rfl)
      | some lk =>
          simp only [Kernel.advance] at hk'
          split at hk'
          · rw [← Option.some.inj hk']
            exact hgoto _ (Pc.not_isIdle rfl)
          · rw [← Option.some.inj hk']
            exact hgoto _ (Pc.not_isIdle rfl)
  | donateMax l lk =>
      have h₁ := @setLock _ _ h lk (fun lock => { lock with maxPri := k.cur.priority })
        (h.holder lk)
      rw [← Option.some.inj hk']
      exact gotoOf h₁ rfl (by rw [shared_setMaxPri]) (hidle (Pc.not_isIdle rfl)) _
  | donatePri l lk =>
      obtain ⟨holder, hholder, hk'⟩ := Option.bind_eq_some_iff.mp hk'
      obtain ⟨k₁, hdonate, hk'⟩ := Option.bind_eq_some_iff.mp hk'
      have hcurrent := current_threadDonatePri hdonate
      have h₁ : k₁.Lists (some k₁.current) := by
        rw [hcurrent]
        exact h.threadDonatePri (fun heq => h.holder lk (heq ▸ hholder)) hdonate
      rw [← Option.some.inj hk']
      exact gotoOf h₁ hcurrent (by rw [shared_threadDonatePri hdonate])
        (hidle (Pc.not_isIdle rfl)) _
  | donateNext l lk =>
      obtain ⟨holder, -, hk'⟩ := Option.bind_eq_some_iff.mp hk'
      rw [← Option.some.inj hk']
      exact hgoto _ (Pc.not_isIdle rfl)
  | acquireDown l =>
      rw [← Option.some.inj hk']
      exact h.semaDown _ (hidle (Pc.not_isIdle rfl))
  | down s =>
      rw [← Option.some.inj hk']
      exact h.semaDown _ (hidle (Pc.not_isIdle rfl))
  | take l =>
      rw [← Option.some.inj hk']
      exact h.lockTake l (hidle (Pc.not_isIdle rfl))
  | setHolder l =>
      rw [← Option.some.inj hk']
      exact h.setHolder l (hidle (Pc.not_isIdle rfl))
  | removeLock l =>
      obtain ⟨k₁, hremove, hk'⟩ := Option.bind_eq_some_iff.mp hk'
      rw [← Option.some.inj hk']
      exact gotoOf (h.threadRemoveLock hremove) (current_threadRemoveLock hremove)
        (by rw [shared_threadRemoveLock hremove]) (hidle (Pc.not_isIdle rfl)) _
  | releaseUp l => exact semaUp (hgoto .next (Pc.not_isIdle rfl)) hk'
  | condSort c sort =>
      cases sort with
      | done result =>
          simp only [Kernel.advance] at hk'
          split at hk'
          · rw [← Option.some.inj hk']
            exact gotoOf (h.setCond c result.1) rfl rfl (hidle (Pc.not_isIdle rfl)) _
          · rw [← Option.some.inj hk']
            exact gotoOf (h.setCond c result.1) rfl rfl (hidle (Pc.not_isIdle rfl)) _
      | failed => cases hk'
      | compare x y next =>
          obtain ⟨less, -, hk'⟩ := Option.bind_eq_some_iff.mp hk'
          rw [← Option.some.inj hk']
          exact hgoto _ (Pc.not_isIdle rfl)
  | condSorted c sorted =>
      cases sorted with
      | done result =>
          simp only [Kernel.advance] at hk'
          split at hk'
          · rw [← Option.some.inj hk']
            exact hgoto _ (Pc.not_isIdle rfl)
          · cases hk'
      | failed => cases hk'
      | compare x y next =>
          obtain ⟨less, -, hk'⟩ := Option.bind_eq_some_iff.mp hk'
          rw [← Option.some.inj hk']
          exact hgoto _ (Pc.not_isIdle rfl)
  | condPop c =>
      simp only [Kernel.advance] at hk'
      split at hk'
      · cases hk'
      case h_2 t rest _ =>
        rw [← Option.some.inj hk']
        exact gotoOf (h.setCond c rest) rfl rfl (hidle (Pc.not_isIdle rfl)) _
  | condUp t => exact semaUp (hgoto .next (Pc.not_isIdle rfl)) hk'
  | asleep =>
      rw [← Option.some.inj hk']
      exact (hgoto .next (Pc.not_isIdle rfl)).intrEnable
  | parked =>
      rw [← Option.some.inj hk']
      exact (hgoto .next (Pc.not_isIdle rfl)).intrEnable
  | idleBlock =>
      rw [← Option.some.inj hk']
      have hbTick : k.cur.bTick = 0 := @bTick_eq _ _ h k.current (hpc ▸ (fun h => by cases h))
      exact @block k _ h (fun t => { t with pc := .idleWake }) rfl
        (fun _ => Or.inr rfl) (fun _ h => by cases h)
        (fun hpos => absurd hbTick (Nat.ne_of_gt hpos))
        rfl rfl rfl rfl rfl rfl
  | idleWake =>
      rw [← Option.some.inj hk']
      exact (h.goto fun _ => Or.inl rfl).intrEnable

/-- Every step of the kernel keeps the lists. -/
theorem step {act : KernelAct} (h : k.Lists (some k.current))
    (hown : ∀ t, (k.threads t).pc = .down (.waiter k.current) → t = k.current)
    (hk' : k.step act = some k') : k'.Lists (some k'.current) := by
  cases act with
  | tick allList =>
      simp only [Kernel.step] at hk'
      split at hk'
      · exact h.timerInterrupt hk'
      · cases hk'
  | call op =>
      simp only [Kernel.step] at hk'
      split at hk'
      case isTrue hcall =>
        rw [← Option.some.inj hk']
        refine h.setOps ?_
        have hnone : op.starts = none := by
          cases op with
          | startThread t => exact absurd hcall.2 (fun h => by cases h)
          | _ => rfl
        rw [List.filterMap_cons_none hnone]
        exact List.nil_sublist _
      · cases hk'
  | run =>
      simp only [Kernel.step] at hk'
      split at hk'
      · rw [← Option.some.inj hk']
        exact (h.setRestore false).intrEnable
      · exact h.advance hown hk'

end Lists

theorem boot_threads (values : Nat → Nat) {t : ThreadId} (hmain : t ≠ initialThread)
    (hidle : t ≠ idleThread) : (boot values).threads t = initThread priMin := by
  simp only [boot, Function.update_of_ne hidle, Function.update_of_ne hmain]

theorem boot_waiters (values : Nat → Nat) (s : SemaId) :
    ((boot values).sema s).waiters = [] := by
  cases s <;> rfl

theorem boot_cases (values : Nat → Nat) (t : ThreadId) :
    t = initialThread ∨ t = idleThread ∨
      t ≠ initialThread ∧ t ≠ idleThread ∧
        (boot values).threads t = initThread priMin := by
  by_cases hidle : t = idleThread
  · exact Or.inr (Or.inl hidle)
  · by_cases hmain : t = initialThread
    · exact Or.inl hmain
    · exact Or.inr (Or.inr ⟨hmain, hidle, boot_threads values hmain hidle⟩)

/-- The lists after `thread_start`. -/
theorem lists_boot (values : Nat → Nat) :
    (boot values).Lists (some (boot values).current) := by
  have hthreads : ∀ t, ((boot values).threads t).starts = [] ∧
      ((boot values).threads t).bTick = 0 ∧
      (∀ s, ((boot values).threads t).pc ≠ .down s) := by
    intro t
    rcases boot_cases values t with rfl | rfl | ⟨-, -, ht⟩
    · exact ⟨rfl, rfl, fun s => nofun⟩
    · exact ⟨rfl, rfl, fun s => nofun⟩
    · rw [ht]
      exact ⟨rfl, rfl, fun s => nofun⟩
  refine ⟨fun t => ?_, fun t => ?_, List.nodup_nil, List.Pairwise.nil, fun s t => ?_,
    fun s => ?_, fun t ht => ?_, fun t ht => ?_, Or.inl rfl, fun l => nofun,
    fun u t ht => ?_, fun u => ?_, fun u v t ht => ?_⟩
  · rcases boot_cases values t with rfl | rfl | ⟨hmain, -, ht⟩
    · exact iff_of_true rfl rfl
    · exact iff_of_false nofun nofun
    · rw [ht]
      exact iff_of_false nofun fun heq => hmain (Option.some.inj heq).symm
  · refine iff_of_false List.not_mem_nil ?_
    rcases boot_cases values t with rfl | rfl | ⟨-, -, ht⟩
    · exact fun hready => absurd hready.1 nofun
    · exact fun hready => hready.2 rfl
    · rw [ht]
      exact fun hready => absurd hready.1 nofun
  · rw [boot_waiters]
    exact iff_of_false List.not_mem_nil fun ht => (hthreads t).2.2 s ht.2
  · rw [boot_waiters]
    exact List.nodup_nil
  · exact absurd (hthreads t).2.1 (Nat.ne_of_gt ht)
  · rw [boot_threads values (Nat.ne_of_gt (Nat.lt_of_lt_of_le Nat.zero_lt_two ht))
      (Nat.ne_of_gt (Nat.lt_of_lt_of_le Nat.one_lt_two ht))]
    exact ⟨rfl, rfl, rfl, rfl, rfl, rfl⟩
  · rw [(hthreads u).1] at ht
    exact absurd ht List.not_mem_nil
  · rw [(hthreads u).1]
    exact List.nodup_nil
  · rw [(hthreads u).1] at ht
    exact absurd ht List.not_mem_nil

end Kernel

end PintosLabs
