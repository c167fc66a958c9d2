/-
What each function of the scheduler does to the status of the threads, to what
is left of their sleep, and to the ready list.
-/
import PintosLabs.Interrupts

namespace PintosLabs

namespace Mlfqs

namespace Kernel

def statusOf (k : Kernel) (t : Nat) : Option ThreadStatus :=
  (k.thread t).map Thread.status

/-- What is left of the sleep of a thread; zero when there is no thread. -/
def wakeOf (k : Kernel) (t : Nat) : Int :=
  ((k.thread t).map Thread.wakeUpTicks).getD 0

/-- Nothing has changed but priorities, what they are computed from, and the
order of the ready list. -/
structure Calm (k k' : Kernel) : Prop where
  status_eq : ∀ t, k'.statusOf t = k.statusOf t
  wake_eq : ∀ t, k'.wakeOf t = k.wakeOf t
  tids_eq : k'.allList.map Thread.tid = k.allList.map Thread.tid
  ready_perm : k'.readyList.Perm k.readyList
  current_eq : k'.current = k.current
  idle_eq : k'.idleThread = k.idleThread
  switching_eq : k'.switching = k.switching

variable {k k' k'' : Kernel} {t u : Nat} {f : Thread → Thread} {x : Thread}

theorem Calm.refl (k : Kernel) : k.Calm k :=
  ⟨fun _ => rfl, fun _ => rfl, rfl, List.Perm.refl _, rfl, rfl, rfl⟩

theorem Calm.trans (h : k.Calm k') (h' : k'.Calm k'') : k.Calm k'' where
  status_eq t := (h'.status_eq t).trans (h.status_eq t)
  wake_eq t := (h'.wake_eq t).trans (h.wake_eq t)
  tids_eq := h'.tids_eq.trans h.tids_eq
  ready_perm := h'.ready_perm.trans h.ready_perm
  current_eq := h'.current_eq.trans h.current_eq
  idle_eq := h'.idle_eq.trans h.idle_eq
  switching_eq := h'.switching_eq.trans h.switching_eq

theorem tids_modify (hf : ∀ x, (f x).tid = x.tid) :
    (k.modify t f).allList.map Thread.tid = k.allList.map Thread.tid := by
  rw [modify, List.map_map]
  refine List.map_congr_left fun x _ => ?_
  rw [Function.comp_apply]
  split
  · exact hf x
  · rfl

theorem statusOf_modify (hf : ∀ x, (f x).tid = x.tid) (u : Nat) :
    (k.modify t f).statusOf u =
      if u = t then (k.thread u).map fun x => (f x).status else k.statusOf u := by
  rw [statusOf, thread_modify hf]
  split
  · rw [Option.map_map]
    rfl
  · rfl

theorem wakeOf_modify (hf : ∀ x, (f x).tid = x.tid) (u : Nat) :
    (k.modify t f).wakeOf u =
      if u = t then ((k.thread u).map fun x => (f x).wakeUpTicks).getD 0
      else k.wakeOf u := by
  rw [wakeOf, thread_modify hf]
  split
  · rw [Option.map_map]
    rfl
  · rfl

theorem statusOf_setStatus (hx : k.thread t = some x) (status : ThreadStatus)
    (u : Nat) : (k.modify t fun x => { x with status := status }).statusOf u =
      if u = t then some status else k.statusOf u := by
  rw [statusOf_modify (f := fun x => { x with status := status }) fun _ => rfl]
  by_cases hu : u = t
  · rw [if_pos hu, if_pos hu, hu, hx]
    rfl
  · rw [if_neg hu, if_neg hu]

theorem wakeOf_setStatus (status : ThreadStatus) (u : Nat) :
    (k.modify t fun x => { x with status := status }).wakeOf u = k.wakeOf u := by
  rw [wakeOf_modify (f := fun x => { x with status := status }) fun _ => rfl]
  exact ite_self _

theorem statusOf_setWake (wakeUpTicks : Thread → Int) (u : Nat) :
    (k.modify t fun x => { x with wakeUpTicks := wakeUpTicks x }).statusOf u =
      k.statusOf u := by
  rw [statusOf_modify (f := fun x => { x with wakeUpTicks := wakeUpTicks x })
    fun _ => rfl]
  exact ite_self _

theorem wakeOf_setWake (hx : k.thread t = some x) (wakeUpTicks : Thread → Int)
    (u : Nat) :
    (k.modify t fun x => { x with wakeUpTicks := wakeUpTicks x }).wakeOf u =
      if u = t then wakeUpTicks x else k.wakeOf u := by
  rw [wakeOf_modify (f := fun x => { x with wakeUpTicks := wakeUpTicks x })
    fun _ => rfl]
  by_cases hu : u = t
  · rw [if_pos hu, if_pos hu, hu, hx]
    rfl
  · rw [if_neg hu, if_neg hu]

theorem calm_modify (hf : ∀ x, (f x).tid = x.tid)
    (hstatus : ∀ x, (f x).status = x.status)
    (hwake : ∀ x, (f x).wakeUpTicks = x.wakeUpTicks) : k.Calm (k.modify t f) where
  status_eq u := by
    simp only [statusOf_modify hf, hstatus]
    exact ite_self _
  wake_eq u := by
    simp only [wakeOf_modify hf, hwake]
    exact ite_self _
  tids_eq := tids_modify hf
  ready_perm := List.Perm.refl _
  current_eq := rfl
  idle_eq := rfl
  switching_eq := rfl

theorem calm_modifyAll (hf : ∀ x, (f x).tid = x.tid)
    (hstatus : ∀ x, (f x).status = x.status)
    (hwake : ∀ x, (f x).wakeUpTicks = x.wakeUpTicks) : k.Calm (k.modifyAll f) where
  status_eq u := by
    rw [statusOf, thread_modifyAll hf]
    split
    · rfl
    · rw [Option.map_map]
      exact congrArg (Option.map · (k.thread u)) (funext hstatus)
  wake_eq u := by
    rw [wakeOf, thread_modifyAll hf]
    split
    · rfl
    · rw [Option.map_map]
      exact congrArg (fun g => ((k.thread u).map g).getD 0) (funext hwake)
  tids_eq := by
    rw [modifyAll, List.map_map]
    refine List.map_congr_left fun x _ => ?_
    rw [Function.comp_apply]
    split
    · rfl
    · exact hf x
  ready_perm := List.Perm.refl _
  current_eq := rfl
  idle_eq := rfl
  switching_eq := rfl

/-- A change of what no thread has. -/
theorem Calm.of_same (hlist : k'.allList = k.allList)
    (hready : k'.readyList.Perm k.readyList) (hcurrent : k'.current = k.current)
    (hidle : k'.idleThread = k.idleThread)
    (hswitching : k'.switching = k.switching) : k.Calm k' where
  status_eq t := by rw [statusOf, thread, hlist]; rfl
  wake_eq t := by rw [wakeOf, thread, hlist]; rfl
  tids_eq := by rw [hlist]
  ready_perm := hready
  current_eq := hcurrent
  idle_eq := hidle
  switching_eq := hswitching

theorem calm_updateRecentCpuByOne (k : Kernel) : k.Calm k.updateRecentCpuByOne := by
  unfold updateRecentCpuByOne
  split
  · exact Calm.refl k
  · exact calm_modify (fun _ => rfl) (fun _ => rfl) fun _ => rfl

theorem calm_updatePriority (k : Kernel) (t : Nat) : k.Calm (k.updatePriority t) := by
  unfold updatePriority
  split
  · exact Calm.refl k
  · exact calm_modify (fun _ => rfl) (fun _ => rfl) fun _ => rfl

/-- The part of each second always comes to an end. -/
theorem exists_eachSecond (k : Kernel) : ∃ k', k.eachSecond = some k' ∧ k.Calm k' := by
  unfold eachSecond
  split
  · have hload : k.Calm k.updateLoadAverage :=
      Calm.of_same rfl (List.Perm.refl _) rfl rfl rfl
    obtain ⟨f, hf⟩ : ∃ f : Thread → Thread, f = fun u =>
        { u with
          recentCpu := fpAddMix
            (fpMult (fpDiv (fpMultMix k.updateLoadAverage.loadAverage 2)
              (fpAddMix (fpMultMix k.updateLoadAverage.loadAverage 2) 1))
              u.recentCpu) u.nice } := ⟨_, rfl⟩
    have hrecent : k.updateLoadAverage.Calm (k.updateLoadAverage.modifyAll f) := by
      rw [hf]
      exact calm_modifyAll (fun _ => rfl) (fun _ => rfl) fun _ => rfl
    obtain ⟨sorted, hsorted, hperm, -⟩ := listSort_spec
      (k.updateLoadAverage.modifyAll f).effectivePriority
      (k.updateLoadAverage.modifyAll f).readyList
    have hrun : k.timerSecond =
        some { k.updateLoadAverage.modifyAll f with readyList := sorted } := by
      rw [timerSecond, updateRecentCpuAll, ← hf, hsorted]
      rfl
    have hsort : (k.updateLoadAverage.modifyAll f).Calm
        { k.updateLoadAverage.modifyAll f with readyList := sorted } :=
      Calm.of_same rfl hperm rfl rfl rfl
    refine ⟨_, by rw [hrun]; rfl, (hload.trans (hrecent.trans hsort)).trans ?_⟩
    exact calm_modifyAll (fun _ => rfl) (fun _ => rfl) fun _ => rfl
  · exact ⟨k, rfl, Calm.refl k⟩

/-- A blocked thread has become ready. -/
structure Wakes (k k' : Kernel) (t : Nat) : Prop where
  blocked : k.statusOf t = some .blocked
  status_eq : ∀ u, k'.statusOf u = if u = t then some .ready else k.statusOf u
  wake_eq : ∀ u, k'.wakeOf u = k.wakeOf u
  tids_eq : k'.allList.map Thread.tid = k.allList.map Thread.tid
  ready_perm : k'.readyList.Perm (t :: k.readyList)
  current_eq : k'.current = k.current
  idle_eq : k'.idleThread = k.idleThread
  switching_eq : k'.switching = k.switching

theorem threadUnblock_wakes (h : k.threadUnblock t = some k') : k.Wakes k' t := by
  unfold threadUnblock at h
  split at h
  case h_2 => cases h
  case h_1 x hx =>
    split at h
    case isFalse => cases h
    case isTrue hblocked =>
      rw [← Option.some.inj h]
      have hstatus : k.statusOf t = some .blocked := by
        rw [statusOf, hx, Option.map_some, hblocked]
      refine ⟨hstatus, statusOf_setStatus hx .ready, wakeOf_setStatus .ready, ?_,
        List.perm_orderedInsert _ _ _, rfl, rfl, rfl⟩
      exact tids_modify (f := fun u => { u with status := .ready }) fun _ => rfl

theorem exists_threadUnblock (h : k.statusOf t = some .blocked) :
    ∃ k', k.threadUnblock t = some k' := by
  obtain ⟨x, hx, hstatus⟩ := Option.map_eq_some_iff.mp h
  exact ⟨_, by rw [threadUnblock, hx]; exact if_pos hstatus⟩

/-- The running thread is the only one that a yield changes. -/
theorem statusOf_threadYield (k : Kernel) (ht : t ≠ k.current) :
    k.threadYield.statusOf t = k.statusOf t := by
  have hother : (k.modify k.current fun u => { u with status := .ready }).statusOf t =
      k.statusOf t := by
    rw [statusOf_modify (f := fun u => { u with status := .ready }) fun _ => rfl,
      if_neg ht]
  rw [← hother]
  by_cases hidle : k.idleThread = some k.current
  · simp only [statusOf, thread, threadYield, if_pos hidle]
  · simp only [statusOf, thread, threadYield, if_neg hidle, modify, insertReady]

/-- One tick less is left of the sleep of a thread. -/
structure Ticks (k k' : Kernel) (t : Nat) : Prop where
  status_eq : ∀ u, k'.statusOf u = k.statusOf u
  wake_eq : ∀ u, k'.wakeOf u = if u = t then k.wakeOf t - 1 else k.wakeOf u
  tids_eq : k'.allList.map Thread.tid = k.allList.map Thread.tid
  ready_eq : k'.readyList = k.readyList
  current_eq : k'.current = k.current
  idle_eq : k'.idleThread = k.idleThread
  switching_eq : k'.switching = k.switching

theorem ticks_modify (hx : k.thread t = some x) :
    k.Ticks (k.modify t fun u => { u with wakeUpTicks := u.wakeUpTicks - 1 }) t where
  status_eq := statusOf_setWake fun x => x.wakeUpTicks - 1
  wake_eq u := by
    have hwake : k.wakeOf t = x.wakeUpTicks := by
      rw [wakeOf, hx]
      rfl
    rw [wakeOf_setWake hx fun x => x.wakeUpTicks - 1, hwake]
  tids_eq := tids_modify fun _ => rfl
  ready_eq := rfl
  current_eq := rfl
  idle_eq := rfl
  switching_eq := rfl

/-- `check_block_thread` never fails; it leaves a thread alone, or counts down,
and wakes at zero. -/
theorem checkBlockThread_spec (k : Kernel) (t : Nat) :
    ∃ k', k.checkBlockThread t = some k' ∧
      (k' = k ∧ (k.statusOf t ≠ some .blocked ∨ k.wakeOf t ≤ 0) ∨
        k.statusOf t = some .blocked ∧ 0 < k.wakeOf t ∧
          (k.wakeOf t ≠ 1 ∧ k.Ticks k' t ∨
            k.wakeOf t = 1 ∧ ∃ k₁, k.Ticks k₁ t ∧ k₁.Wakes k' t)) := by
  unfold checkBlockThread
  cases hx : k.thread t with
  | none =>
      refine ⟨k, rfl, Or.inl ⟨rfl, Or.inr ?_⟩⟩
      rw [wakeOf, hx]
      exact le_rfl
  | some x =>
      have hstatus : k.statusOf t = some x.status := by
        rw [statusOf, hx]
        rfl
      have hwake : k.wakeOf t = x.wakeUpTicks := by
        rw [wakeOf, hx]
        rfl
      have hticks := ticks_modify hx
      simp only
      split
      case isFalse hcond =>
        refine ⟨k, rfl, Or.inl ⟨rfl, ?_⟩⟩
        rw [hstatus, hwake]
        rcases not_and_or.mp hcond with hcond | hcond
        · exact Or.inl fun heq => hcond (Option.some.inj heq)
        · exact Or.inr (not_lt.mp hcond)
      case isTrue hcond =>
        have hblocked : k.statusOf t = some .blocked := by rw [hstatus, hcond.1]
        rw [hwake]
        split
        case isFalse hone =>
          exact ⟨_, rfl, Or.inr ⟨hblocked, hcond.2, Or.inl ⟨by omega, hticks⟩⟩⟩
        case isTrue hone =>
          obtain ⟨k', hk'⟩ := exists_threadUnblock
            ((hticks.status_eq t).trans hblocked)
          exact ⟨k', hk', Or.inr ⟨hblocked, hcond.2, Or.inr ⟨by omega, _, hticks,
            threadUnblock_wakes hk'⟩⟩⟩

end Kernel

end Mlfqs

namespace Interrupts

/-- A thread with what is left of its sleep, after a tick. -/
def tickDown (sleeper : Nat × Int) : Option (Nat × Int) :=
  if 0 < sleeper.2 then
    if sleeper.2 = 1 then none else some (sleeper.1, sleeper.2 - 1)
  else some sleeper

/-- The threads are where they should be: those on the ready list are ready,
those in a list of waiters are blocked, and what is left of a sleep is left to
a thread that sleeps.  One of these may be named. -/
structure Placed (k : Mlfqs.Kernel) (pc : Nat → Pc) (hooked : Nat → Prop)
    (sleeper : Option (Nat × Int)) : Prop where
  ready : ∀ t ∈ k.readyList, k.statusOf t = some .ready
  nodup : k.readyList.Nodup
  tids_nodup : (k.allList.map Mlfqs.Thread.tid).Nodup
  blocked : ∀ t, hooked t → k.statusOf t = some .blocked
  awaits : ∀ t, hooked t → (∃ id, pc t = .down id) ∨ ∃ q w, pc t = .wait q w
  asleep : ∀ t, k.wakeOf t ≠ 0 → k.statusOf t = some .blocked ∧ pc t = .asleep
  idle : ∀ i, k.idleThread = some i → pc i = .idle ∨ ∃ id, pc i = .idleUp id
  idle_mem : ∀ i, k.idleThread = some i → i ∈ k.allList.map Mlfqs.Thread.tid
  sleeps : ∀ t w, sleeper = some (t, w) →
    k.statusOf t = some .blocked ∧ k.wakeOf t = w ∧ pc t = .asleep

namespace Placed

variable {k k' : Mlfqs.Kernel} {pc : Nat → Pc} {hooked : Nat → Prop}
  {sleeper : Option (Nat × Int)} {t : Nat}

theorem calm (h : Placed k pc hooked sleeper) (hcalm : k.Calm k') :
    Placed k' pc hooked sleeper where
  ready t ht := by
    rw [hcalm.status_eq]
    exact h.ready t (hcalm.ready_perm.mem_iff.mp ht)
  nodup := hcalm.ready_perm.nodup_iff.mpr h.nodup
  tids_nodup := by
    rw [hcalm.tids_eq]
    exact h.tids_nodup
  blocked t ht := by
    rw [hcalm.status_eq]
    exact h.blocked t ht
  awaits := h.awaits
  asleep t ht := by
    rw [hcalm.wake_eq] at ht
    rw [hcalm.status_eq]
    exact h.asleep t ht
  idle i hi := h.idle i (hcalm.idle_eq ▸ hi)
  idle_mem i hi := by
    rw [hcalm.tids_eq]
    exact h.idle_mem i (hcalm.idle_eq ▸ hi)
  sleeps t w hsleeper := by
    rw [hcalm.status_eq, hcalm.wake_eq]
    exact h.sleeps t w hsleeper

theorem not_asleep (h : Placed k pc hooked sleeper) (ht : hooked t) :
    pc t ≠ .asleep := by
  intro hasleep
  rcases h.awaits t ht with ⟨id, hpc⟩ | ⟨q, w, hpc⟩ <;> cases hasleep.symm.trans hpc

theorem wakeOf_eq_zero (h : Placed k pc hooked sleeper) (ht : pc t ≠ .asleep) :
    k.wakeOf t = 0 := by
  by_contra hwake
  exact ht (h.asleep t hwake).2

/-- A blocked thread that is in no list becomes ready. -/
theorem wakes (h : Placed k pc hooked sleeper) (hwakes : k.Wakes k' t)
    (hloose : ¬ hooked t) (hzero : k.wakeOf t = 0)
    (hsleeper : ∀ w, sleeper ≠ some (t, w)) : Placed k' pc hooked sleeper where
  ready u hu := by
    rw [hwakes.status_eq]
    rcases List.mem_cons.mp (hwakes.ready_perm.mem_iff.mp hu) with rfl | hu
    · exact if_pos rfl
    · rw [h.ready u hu]
      exact ite_self _
  nodup := by
    refine hwakes.ready_perm.nodup_iff.mpr (List.nodup_cons.mpr ⟨fun hmem => ?_, h.nodup⟩)
    cases hwakes.blocked.symm.trans (h.ready t hmem)
  tids_nodup := by
    rw [hwakes.tids_eq]
    exact h.tids_nodup
  blocked u hu := by
    have hne : u ≠ t := by
      rintro rfl
      exact hloose hu
    rw [hwakes.status_eq, if_neg hne]
    exact h.blocked u hu
  awaits := h.awaits
  asleep u hu := by
    rw [hwakes.wake_eq] at hu
    have hne : u ≠ t := by
      rintro rfl
      exact hu hzero
    rw [hwakes.status_eq, if_neg hne]
    exact h.asleep u hu
  idle i hi := h.idle i (hwakes.idle_eq ▸ hi)
  idle_mem i hi := by
    rw [hwakes.tids_eq]
    exact h.idle_mem i (hwakes.idle_eq ▸ hi)
  sleeps u w hw := by
    have hne : u ≠ t := by
      rintro rfl
      exact hsleeper w hw
    rw [hwakes.status_eq, if_neg hne, hwakes.wake_eq]
    exact h.sleeps u w hw

/-- A thread that sleeps has one tick less to sleep. -/
theorem ticks (h : Placed k pc hooked sleeper) (hticks : k.Ticks k' t)
    (hpos : 0 < k.wakeOf t) {sleeper' : Option (Nat × Int)}
    (hother : ∀ u w, sleeper' = some (u, w) → u ≠ t → sleeper = some (u, w))
    (hself : ∀ w, sleeper' = some (t, w) → w = k.wakeOf t - 1) :
    Placed k' pc hooked sleeper' where
  ready u hu := by
    rw [hticks.ready_eq] at hu
    rw [hticks.status_eq]
    exact h.ready u hu
  nodup := by
    rw [hticks.ready_eq]
    exact h.nodup
  tids_nodup := by
    rw [hticks.tids_eq]
    exact h.tids_nodup
  blocked u hu := by
    rw [hticks.status_eq]
    exact h.blocked u hu
  awaits := h.awaits
  asleep u hu := by
    rw [hticks.status_eq]
    by_cases hut : u = t
    · rw [hut]
      exact h.asleep t (Int.ne_of_gt hpos)
    · rw [hticks.wake_eq, if_neg hut] at hu
      exact h.asleep u hu
  idle i hi := h.idle i (hticks.idle_eq ▸ hi)
  idle_mem i hi := by
    rw [hticks.tids_eq]
    exact h.idle_mem i (hticks.idle_eq ▸ hi)
  sleeps u w hw := by
    rw [hticks.status_eq, hticks.wake_eq]
    by_cases hut : u = t
    · subst hut
      have hasleep := h.asleep u (Int.ne_of_gt hpos)
      exact ⟨hasleep.1, by rw [if_pos rfl, hself w hw], hasleep.2⟩
    · rw [if_neg hut]
      exact h.sleeps u w (hother u w hw hut)

theorem congr (h : Placed k pc hooked sleeper) (hlist : k'.allList = k.allList)
    (hready : k'.readyList = k.readyList) (hidle : k'.idleThread = k.idleThread) :
    Placed k' pc hooked sleeper := by
  have hstatus : k'.statusOf = k.statusOf := by
    funext t
    rw [Mlfqs.Kernel.statusOf, Mlfqs.Kernel.statusOf, Mlfqs.Kernel.thread,
      Mlfqs.Kernel.thread, hlist]
  have hwake : k'.wakeOf = k.wakeOf := by
    funext t
    rw [Mlfqs.Kernel.wakeOf, Mlfqs.Kernel.wakeOf, Mlfqs.Kernel.thread,
      Mlfqs.Kernel.thread, hlist]
  refine ⟨?_, ?_, ?_, ?_, h.awaits, ?_, ?_, ?_, ?_⟩
  · rw [hready, hstatus]
    exact h.ready
  · rw [hready]
    exact h.nodup
  · rw [hlist]
    exact h.tids_nodup
  · rw [hstatus]
    exact h.blocked
  · rw [hstatus, hwake]
    exact h.asleep
  · rw [hidle]
    exact h.idle
  · rw [hidle, hlist]
    exact h.idle_mem
  · rw [hstatus, hwake]
    exact h.sleeps

theorem mono (h : Placed k pc hooked sleeper) {hooked' : Nat → Prop}
    (hsub : ∀ t, hooked' t → hooked t) : Placed k pc hooked' sleeper :=
  ⟨h.ready, h.nodup, h.tids_nodup, fun t ht => h.blocked t (hsub t ht),
    fun t ht => h.awaits t (hsub t ht), h.asleep, h.idle, h.idle_mem, h.sleeps⟩

theorem forget (h : Placed k pc hooked sleeper) : Placed k pc hooked none :=
  ⟨h.ready, h.nodup, h.tids_nodup, h.blocked, h.awaits, h.asleep, h.idle, h.idle_mem,
    fun t w hnone => by cases hnone⟩

end Placed

/-- What an interrupt may do to the threads: it wakes blocked ones. -/
structure Within (k k' : Mlfqs.Kernel) : Prop where
  current_eq : k'.current = k.current
  switching_eq : k'.switching = k.switching
  status_eq : ∀ t, k.statusOf t ≠ some .blocked → k'.statusOf t = k.statusOf t

namespace Within

variable {k k' k'' : Mlfqs.Kernel} {t : Nat}

theorem refl (k : Mlfqs.Kernel) : Within k k := ⟨rfl, rfl, fun _ _ => rfl⟩

theorem trans (h : Within k k') (h' : Within k' k'') : Within k k'' where
  current_eq := h'.current_eq.trans h.current_eq
  switching_eq := h'.switching_eq.trans h.switching_eq
  status_eq t ht := by
    have heq := h.status_eq t ht
    exact (h'.status_eq t (heq ▸ ht)).trans heq

theorem of_calm (h : k.Calm k') : Within k k' :=
  ⟨h.current_eq, h.switching_eq, fun t _ => h.status_eq t⟩

theorem of_ticks (h : k.Ticks k' t) : Within k k' :=
  ⟨h.current_eq, h.switching_eq, fun u _ => h.status_eq u⟩

theorem of_wakes (h : k.Wakes k' t) : Within k k' where
  current_eq := h.current_eq
  switching_eq := h.switching_eq
  status_eq u hu := by
    have hne : u ≠ t := by
      rintro rfl
      exact hu h.blocked
    rw [h.status_eq, if_neg hne]

end Within

/-! A tick counts every sleep down, once. -/

/-- The sleep after the threads in a list have been looked at. -/
def tickIn (tids : List Nat) (sleeper : Nat × Int) : Option (Nat × Int) :=
  if sleeper.1 ∈ tids then tickDown sleeper else some sleeper

namespace Placed

variable {k k' : Mlfqs.Kernel} {pc : Nat → Pc} {hooked : Nat → Prop}
  {sleeper : Option (Nat × Int)} {t : Nat}

theorem tickIn_eq_some {tids : List Nat} {p : Nat × Int} {u : Nat} {w : Int}
    (h : tickIn tids p = some (u, w)) : p.1 = u ∧
      (u ∉ tids ∧ p.2 = w ∨ u ∈ tids ∧ p.2 ≤ 0 ∧ p.2 = w ∨
        u ∈ tids ∧ 0 < p.2 ∧ p.2 ≠ 1 ∧ w = p.2 - 1) := by
  unfold tickIn tickDown at h
  split at h
  case isFalse hmem =>
    obtain rfl := Option.some.inj h
    exact ⟨rfl, Or.inl ⟨hmem, rfl⟩⟩
  case isTrue hmem =>
    split at h
    case isFalse hpos =>
      obtain rfl := Option.some.inj h
      exact ⟨rfl, Or.inr (Or.inl ⟨hmem, not_lt.mp hpos, rfl⟩)⟩
    case isTrue hpos =>
      split at h
      case isTrue => cases h
      case isFalse hone =>
        obtain ⟨rfl, rfl⟩ := Prod.mk.inj (Option.some.inj h)
        exact ⟨rfl, Or.inr (Or.inr ⟨hmem, hpos, hone, rfl⟩)⟩

theorem exists_checkBlockThread (h : Placed k pc hooked sleeper) (t : Nat) :
    ∃ k', k.checkBlockThread t = some k' ∧
      Placed k' pc hooked (sleeper.bind (tickIn [t])) ∧ Within k k' ∧
      k'.allList.map Mlfqs.Thread.tid = k.allList.map Mlfqs.Thread.tid ∧
      k'.idleThread = k.idleThread ∧
      (sleeper = some (t, 1) → k'.statusOf t = some .ready) := by
  have hbefore : ∀ u w, sleeper.bind (tickIn [t]) = some (u, w) →
      u ≠ t ∧ sleeper = some (u, w) ∨ u = t ∧ ∃ v, sleeper = some (t, v) ∧
        (v ≤ 0 ∧ w = v ∨ 0 < v ∧ v ≠ 1 ∧ w = v - 1) := by
    intro u w hu
    obtain ⟨p, hp, hu⟩ := Option.bind_eq_some_iff.mp hu
    obtain ⟨rfl, ⟨hmem, rfl⟩ | ⟨hmem, hle, rfl⟩ | ⟨hmem, hpos, hone, rfl⟩⟩ :=
      tickIn_eq_some hu
    · exact Or.inl ⟨fun heq => hmem (List.mem_singleton.mpr heq), hp⟩
    · obtain rfl := List.mem_singleton.mp hmem
      exact Or.inr ⟨rfl, p.2, hp, Or.inl ⟨hle, rfl⟩⟩
    · obtain rfl := List.mem_singleton.mp hmem
      exact Or.inr ⟨rfl, p.2, hp, Or.inr ⟨hpos, hone, rfl⟩⟩
  obtain ⟨k', hk', ⟨rfl, hrest⟩ | ⟨hblocked, hpos, hcase⟩⟩ := k.checkBlockThread_spec t
  · have hquiet : ∀ w, sleeper = some (t, w) → w ≤ 0 := by
      intro w hw
      obtain ⟨hstatus, rfl, -⟩ := h.sleeps t w hw
      exact hrest.resolve_left fun hne => hne hstatus
    refine ⟨k', hk', ?_, Within.refl k', rfl, rfl, fun hone => ?_⟩
    · refine ⟨h.ready, h.nodup, h.tids_nodup, h.blocked, h.awaits, h.asleep, h.idle,
        h.idle_mem, fun u w hu => ?_⟩
      rcases hbefore u w hu with ⟨-, hu⟩ | ⟨rfl, v, hv, ⟨-, rfl⟩ | ⟨hpos, -⟩⟩
      · exact h.sleeps u w hu
      · exact h.sleeps u w hv
      · exact absurd hpos (not_lt.mpr (hquiet v hv))
    · exact absurd (hquiet 1 hone) (by decide)
  · have hself : ∀ w, sleeper.bind (tickIn [t]) = some (t, w) →
        k.wakeOf t ≠ 1 ∧ w = k.wakeOf t - 1 := by
      intro w hw
      rcases hbefore t w hw with ⟨hne, -⟩ | ⟨-, v, hv, hcase⟩
      · exact absurd rfl hne
      · obtain ⟨-, rfl, -⟩ := h.sleeps t v hv
        rcases hcase with ⟨hle, -⟩ | ⟨-, hone, hw⟩
        · exact absurd hpos (not_lt.mpr hle)
        · exact ⟨hone, hw⟩
    have hother : ∀ u w, sleeper.bind (tickIn [t]) = some (u, w) → u ≠ t →
        sleeper = some (u, w) := by
      intro u w hu hne
      rcases hbefore u w hu with ⟨-, hu⟩ | ⟨heq, -⟩
      · exact hu
      · exact absurd heq hne
    rcases hcase with ⟨hone, hticks⟩ | ⟨hone, k₁, hticks, hwakes⟩
    · refine ⟨k', hk', h.ticks hticks hpos hother fun w hw => (hself w hw).2,
        Within.of_ticks hticks, hticks.tids_eq, hticks.idle_eq, fun hsleeper => ?_⟩
      exact absurd (h.sleeps t 1 hsleeper).2.1 hone
    · have hplaced := h.ticks hticks hpos hother fun w hw => (hself w hw).2
      have hloose : ¬ hooked t := fun ht =>
        h.not_asleep ht (h.asleep t (Int.ne_of_gt hpos)).2
      have hzero : k₁.wakeOf t = 0 := by
        rw [hticks.wake_eq, if_pos rfl, hone]
        rfl
      refine ⟨k', hk', hplaced.wakes hwakes hloose hzero
        (fun w hw => (hself w hw).1 hone),
        (Within.of_ticks hticks).trans (Within.of_wakes hwakes),
        hwakes.tids_eq.trans hticks.tids_eq, hwakes.idle_eq.trans hticks.idle_eq,
        fun _ => ?_⟩
      rw [hwakes.status_eq, if_pos rfl]

theorem tickIn_cons {t : Nat} {rest : List Nat} (ht : t ∉ rest) (p : Nat × Int) :
    (tickIn [t] p).bind (tickIn rest) = tickIn (t :: rest) p := by
  by_cases hp : p.1 = t
  · have hhead : tickIn [t] p = tickDown p := if_pos (List.mem_singleton.mpr hp)
    have hwhole : tickIn (t :: rest) p = tickDown p :=
      if_pos (hp ▸ List.mem_cons_self)
    rw [hhead, hwhole]
    refine (Option.bind_congr fun q hq => ?_).trans (Option.bind_fun_some _)
    obtain ⟨hq, -⟩ : p.1 = q.1 ∧ _ := tickIn_eq_some (hhead.trans hq)
    exact if_neg (hq ▸ hp ▸ ht)
  · have hhead : tickIn [t] p = some p :=
      if_neg fun hmem => hp (List.mem_singleton.mp hmem)
    rw [hhead, Option.bind_some]
    unfold tickIn
    simp only [List.mem_cons, hp, false_or]

/-- A tick looks at every thread. -/
theorem exists_checkAll {tids : List Nat} (hnodup : tids.Nodup)
    (h : Placed k pc hooked sleeper) :
    ∃ k', tids.foldlM Mlfqs.Kernel.checkBlockThread k = some k' ∧
      Placed k' pc hooked (sleeper.bind (tickIn tids)) ∧ Within k k' ∧
      k'.idleThread = k.idleThread ∧
      ∀ t ∈ tids, sleeper = some (t, 1) → k'.statusOf t = some .ready := by
  induction tids generalizing k sleeper with
  | nil =>
      refine ⟨k, rfl, ?_, Within.refl k, rfl, fun t ht => by cases ht⟩
      have hsame : sleeper.bind (tickIn []) = sleeper :=
        (Option.bind_congr fun p _ => if_neg List.not_mem_nil).trans
          (Option.bind_fun_some _)
      rw [hsame]
      exact h
  | cons t rest ih =>
      obtain ⟨hnot, hrest⟩ := List.nodup_cons.mp hnodup
      obtain ⟨k₁, hk₁, hplaced₁, hwithin₁, -, hidle₁, hready₁⟩ :=
        h.exists_checkBlockThread t
      obtain ⟨k', hk', hplaced', hwithin', hidle', hready'⟩ := ih hrest hplaced₁
      refine ⟨k', ?_, ?_, hwithin₁.trans hwithin', hidle'.trans hidle₁, ?_⟩
      · rw [List.foldlM_cons, hk₁]
        exact hk'
      · rw [Option.bind_assoc] at hplaced'
        simp only [tickIn_cons hnot] at hplaced'
        exact hplaced'
      · intro u hu hsleeper
        rcases List.mem_cons.mp hu with rfl | hu
        · have hready := hready₁ hsleeper
          rw [hwithin'.status_eq u (by rw [hready]; intro hne; cases hne), hready]
        · refine hready' u hu ?_
          have hne : u ≠ t := ne_of_mem_of_not_mem hu hnot
          rw [hsleeper, Option.bind_some]
          exact if_neg fun hmem => hne (List.mem_singleton.mp hmem)

theorem tickIn_of_mem {tids : List Nat} {p : Nat × Int} (hp : p.1 ∈ tids) :
    tickIn tids p = tickDown p := if_pos hp

theorem mem_tids (h : k.statusOf t ≠ none) : t ∈ k.allList.map Mlfqs.Thread.tid := by
  obtain ⟨x, hx⟩ := Option.ne_none_iff_exists'.mp h
  obtain ⟨y, hy, -⟩ := Option.map_eq_some_iff.mp hx
  rw [← Mlfqs.thread_tid hy]
  exact List.mem_map_of_mem (List.mem_of_find?_eq_some hy)

/-- What a tick does to the threads, for either scheduler. -/
theorem exists_tick (h : Placed k pc hooked sleeper) :
    ∃ k', (k.allList.map Mlfqs.Thread.tid).foldlM Mlfqs.Kernel.checkBlockThread
        { k with ticks := k.ticks + 1 } = some k' ∧
      Placed k' pc hooked (sleeper.bind tickDown) ∧ Within k k' ∧
      k'.idleThread = k.idleThread ∧
      ∀ t, sleeper = some (t, 1) → k'.statusOf t = some .ready := by
  have hcalm : k.Calm { k with ticks := k.ticks + 1 } :=
    Mlfqs.Kernel.Calm.of_same rfl (List.Perm.refl _) rfl rfl rfl
  obtain ⟨k', hk', hplaced, hwithin, hidle, hready⟩ :=
    exists_checkAll h.tids_nodup (h.calm hcalm)
  have hmem : ∀ t w, sleeper = some (t, w) → t ∈ k.allList.map Mlfqs.Thread.tid := by
    intro t w hsleeper
    refine mem_tids (h := ?_)
    rw [(h.sleeps t w hsleeper).1]
    exact Option.some_ne_none _
  refine ⟨k', hk', ?_, (Within.of_calm hcalm).trans hwithin, hidle,
    fun t ht => hready t (hmem t 1 ht) ht⟩
  have hall : sleeper.bind (tickIn (k.allList.map Mlfqs.Thread.tid)) =
      sleeper.bind tickDown :=
    Option.bind_congr fun p hp => tickIn_of_mem (hmem p.1 p.2 hp)
  rw [← hall]
  exact hplaced

/-! The running thread gives up the processor. -/

/-- A thread that is in no list and does not sleep gets another status. -/
theorem setStatus (h : Placed k pc hooked sleeper) {x : Mlfqs.Thread}
    (hx : k.thread t = some x) (hnot : t ∉ k.readyList) (hloose : ¬ hooked t)
    (hzero : k.wakeOf t = 0) (hsleeper : ∀ w, sleeper ≠ some (t, w))
    (status : Mlfqs.ThreadStatus) :
    Placed (k.modify t fun u => { u with status := status }) pc hooked sleeper where
  ready u hu := by
    rw [Mlfqs.Kernel.statusOf_setStatus hx, if_neg (ne_of_mem_of_not_mem hu hnot)]
    exact h.ready u hu
  nodup := h.nodup
  tids_nodup := by
    rw [Mlfqs.Kernel.tids_modify (f := fun u => { u with status := status }) fun _ => rfl]
    exact h.tids_nodup
  blocked u hu := by
    have hne : u ≠ t := by
      rintro rfl
      exact hloose hu
    rw [Mlfqs.Kernel.statusOf_setStatus hx, if_neg hne]
    exact h.blocked u hu
  awaits := h.awaits
  asleep u hu := by
    rw [Mlfqs.Kernel.wakeOf_setStatus] at hu
    have hne : u ≠ t := by
      rintro rfl
      exact hu hzero
    rw [Mlfqs.Kernel.statusOf_setStatus hx, if_neg hne]
    exact h.asleep u hu
  idle := h.idle
  idle_mem := by
    rw [Mlfqs.Kernel.tids_modify (f := fun u => { u with status := status }) fun _ => rfl]
    exact h.idle_mem
  sleeps u w hw := by
    have hne : u ≠ t := by
      rintro rfl
      exact hsleeper w hw
    rw [Mlfqs.Kernel.statusOf_setStatus hx, if_neg hne, Mlfqs.Kernel.wakeOf_setStatus]
    exact h.sleeps u w hw

theorem insertReady (h : Placed k pc hooked sleeper) (hnot : t ∉ k.readyList)
    (hready : k.statusOf t = some .ready) :
    Placed (k.insertReady t) pc hooked sleeper where
  ready u hu := by
    have hmem : u ∈ t :: k.readyList := (List.perm_orderedInsert _ _ _).mem_iff.mp hu
    rcases List.mem_cons.mp hmem with rfl | hu
    · exact hready
    · exact h.ready u hu
  nodup := by
    have hperm : (k.insertReady t).readyList.Perm (t :: k.readyList) :=
      List.perm_orderedInsert _ _ _
    exact hperm.nodup_iff.mpr (List.nodup_cons.mpr ⟨hnot, h.nodup⟩)
  tids_nodup := h.tids_nodup
  blocked := h.blocked
  awaits := h.awaits
  asleep := h.asleep
  idle := h.idle
  idle_mem := h.idle_mem
  sleeps := h.sleeps

section Running

variable (h : Placed k pc hooked sleeper)
  (hrunning : k.statusOf k.current = some .running)

include h hrunning

theorem current_not_ready : k.current ∉ k.readyList := by
  intro hmem
  cases hrunning.symm.trans (h.ready _ hmem)

theorem current_not_hooked : ¬ hooked k.current := by
  intro hmem
  cases hrunning.symm.trans (h.blocked _ hmem)

theorem wakeOf_current : k.wakeOf k.current = 0 := by
  by_contra hwake
  cases hrunning.symm.trans (h.asleep _ hwake).1

theorem sleeper_ne_current (w : Int) : sleeper ≠ some (k.current, w) := by
  intro hsleeper
  cases hrunning.symm.trans (h.sleeps _ w hsleeper).1

theorem setCurrent (status : Mlfqs.ThreadStatus) :
    Placed (k.modify k.current fun u => { u with status := status }) pc hooked
      sleeper := by
  obtain ⟨x, hx, -⟩ := Option.map_eq_some_iff.mp hrunning
  exact h.setStatus hx (h.current_not_ready hrunning) (h.current_not_hooked hrunning)
    (h.wakeOf_current hrunning) (h.sleeper_ne_current hrunning) status

theorem threadYield : Placed k.threadYield pc hooked sleeper := by
  have hready := h.setCurrent hrunning .ready
  by_cases hidle : k.idleThread = some k.current
  · refine hready.congr ?_ ?_ ?_ <;> simp only [Mlfqs.Kernel.threadYield, if_pos hidle]
  · obtain ⟨x, hx, -⟩ := Option.map_eq_some_iff.mp hrunning
    have hstatus := Mlfqs.Kernel.statusOf_setStatus hx .ready k.current
    rw [if_pos rfl] at hstatus
    have hnot : k.current ∉
        (k.modify k.current fun u => { u with status := .ready }).readyList :=
      h.current_not_ready hrunning
    refine (hready.insertReady hnot hstatus).congr ?_ ?_ ?_ <;>
      simp only [Mlfqs.Kernel.threadYield, if_neg hidle, Mlfqs.insertReady_modify]

/-- The running thread blocks, with another place in its function; it may now
wait in a list, or sleep. -/
theorem threadBlock {p : Pc} {hooked' : Nat → Prop}
    (hhooked : ∀ t, hooked' t → hooked t ∨ t = k.current ∧
      ((∃ id, p = .down id) ∨ ∃ q w, p = .wait q w))
    (hidle : k.idleThread = some k.current → p = .idle ∨ ∃ id, p = .idleUp id) :
    Placed k.threadBlock (Function.update pc k.current p) hooked' sleeper := by
  obtain ⟨x, hx, -⟩ := Option.map_eq_some_iff.mp hrunning
  have hstatus : ∀ u, k.threadBlock.statusOf u =
      if u = k.current then some .blocked else k.statusOf u :=
    Mlfqs.Kernel.statusOf_setStatus hx .blocked
  have hwake : ∀ u, k.threadBlock.wakeOf u = k.wakeOf u :=
    Mlfqs.Kernel.wakeOf_setStatus .blocked
  have hplaced := h.setCurrent hrunning .blocked
  refine ⟨hplaced.ready, hplaced.nodup, hplaced.tids_nodup, fun t ht => ?_,
    fun t ht => ?_, fun t ht => ?_, fun i hi => ?_, hplaced.idle_mem,
    fun t w ht => ?_⟩
  · rw [hstatus]
    rcases hhooked t ht with ht | ⟨rfl, -⟩
    · rw [h.blocked t ht]
      exact ite_self _
    · exact if_pos rfl
  · rcases hhooked t ht with ht | ⟨rfl, hp⟩
    · have hne : t ≠ k.current := by
        rintro rfl
        exact h.current_not_hooked hrunning ht
      rw [Function.update_of_ne hne]
      exact h.awaits t ht
    · rw [Function.update_self]
      exact hp
  · rw [hwake] at ht
    have hne : t ≠ k.current := by
      rintro rfl
      exact ht (h.wakeOf_current hrunning)
    rw [hstatus, if_neg hne, Function.update_of_ne hne]
    exact h.asleep t ht
  · by_cases hne : i = k.current
    · rw [hne, Function.update_self]
      exact hidle (hne ▸ hi)
    · rw [Function.update_of_ne hne]
      exact h.idle i hi
  · have hne : t ≠ k.current := by
      rintro rfl
      exact h.sleeper_ne_current hrunning w ht
    rw [hstatus, if_neg hne, hwake, Function.update_of_ne hne]
    exact h.sleeps t w ht

end Running

/-- A thread that sleeps gets another number of ticks. -/
theorem setWake (h : Placed k pc hooked sleeper)
    (hblocked : k.statusOf t = some .blocked) (hasleep : pc t = .asleep) {v : Int}
    {sleeper' : Option (Nat × Int)}
    (hother : ∀ u w, sleeper' = some (u, w) → u ≠ t → sleeper = some (u, w))
    (hself : ∀ w, sleeper' = some (t, w) → w = v) :
    Placed (k.modify t fun u => { u with wakeUpTicks := v }) pc hooked sleeper' := by
  obtain ⟨x, hx, -⟩ := Option.map_eq_some_iff.mp hblocked
  have hstatus : ∀ u, (k.modify t fun u => { u with wakeUpTicks := v }).statusOf u =
      k.statusOf u := Mlfqs.Kernel.statusOf_setWake fun _ => v
  have hwake : ∀ u, (k.modify t fun u => { u with wakeUpTicks := v }).wakeOf u =
      if u = t then v else k.wakeOf u := Mlfqs.Kernel.wakeOf_setWake hx fun _ => v
  have htids := Mlfqs.Kernel.tids_modify (k := k) (t := t)
    (f := fun u => { u with wakeUpTicks := v }) fun _ => rfl
  refine ⟨fun u hu => ?_, h.nodup, ?_, fun u hu => ?_, h.awaits, fun u hu => ?_, h.idle,
    ?_, fun u w hu => ?_⟩
  · rw [hstatus]
    exact h.ready u hu
  · rw [htids]
    exact h.tids_nodup
  · rw [hstatus]
    exact h.blocked u hu
  · rw [hstatus]
    by_cases hut : u = t
    · rw [hut]
      exact ⟨hblocked, hasleep⟩
    · rw [hwake, if_neg hut] at hu
      exact h.asleep u hu
  · rw [htids]
    exact h.idle_mem
  · rw [hstatus, hwake]
    by_cases hut : u = t
    · subst hut
      exact ⟨hblocked, by rw [if_pos rfl, hself w hu], hasleep⟩
    · rw [if_neg hut]
      exact h.sleeps u w (hother u w hu hut)

/-- The running thread goes to sleep. -/
theorem sleep (h : Placed k pc hooked sleeper)
    (hrunning : k.statusOf k.current = some .running)
    (hidle : k.idleThread ≠ some k.current) {v : Int}
    {sleeper' : Option (Nat × Int)}
    (hother : ∀ u w, sleeper' = some (u, w) → u ≠ k.current → sleeper = some (u, w))
    (hself : ∀ w, sleeper' = some (k.current, w) → w = v) :
    Placed (k.modify k.current fun u => { u with wakeUpTicks := v }).threadBlock
      (Function.update pc k.current .asleep) hooked sleeper' := by
  obtain ⟨x, hx, -⟩ := Option.map_eq_some_iff.mp hrunning
  have hplaced : Placed k.threadBlock (Function.update pc k.current .asleep) hooked
      sleeper := h.threadBlock hrunning (fun t ht => Or.inl ht) fun hcurrent =>
    absurd hcurrent hidle
  have hblocked : k.threadBlock.statusOf k.current = some .blocked :=
    (Mlfqs.Kernel.statusOf_setStatus hx .blocked k.current).trans (if_pos rfl)
  refine (hplaced.setWake hblocked (Function.update_self _ _ _) hother hself).congr
    ?_ rfl rfl
  unfold Mlfqs.Kernel.threadBlock Mlfqs.Kernel.modify
  simp only [List.map_map]
  refine List.map_congr_left fun u _ => ?_
  simp only [Function.comp_apply]
  split <;> rfl

theorem setPc (h : Placed k pc hooked sleeper) (hloose : ¬ hooked t)
    (hzero : k.wakeOf t = 0) (hsleeper : ∀ w, sleeper ≠ some (t, w)) {p : Pc}
    (hidle : k.idleThread = some t → p = .idle ∨ ∃ id, p = .idleUp id) :
    Placed k (Function.update pc t p) hooked sleeper := by
  refine ⟨h.ready, h.nodup, h.tids_nodup, h.blocked, fun u hu => ?_, fun u hu => ?_,
    fun i hi => ?_, h.idle_mem, fun u w hu => ?_⟩
  · have hne : u ≠ t := by
      rintro rfl
      exact hloose hu
    rw [Function.update_of_ne hne]
    exact h.awaits u hu
  · have hne : u ≠ t := by
      rintro rfl
      exact hu hzero
    rw [Function.update_of_ne hne]
    exact h.asleep u hu
  · by_cases hne : i = t
    · rw [hne, Function.update_self]
      exact hidle (hne ▸ hi)
    · rw [Function.update_of_ne hne]
      exact h.idle i hi
  · have hne : u ≠ t := by
      rintro rfl
      exact hsleeper w hu
    rw [Function.update_of_ne hne]
    exact h.sleeps u w hu

theorem setIdle (h : Placed k pc hooked sleeper)
    (hrunning : k.statusOf k.current = some .running)
    (hcurrent : pc k.current = .idle ∨ ∃ id, pc k.current = .idleUp id) :
    Placed { k with idleThread := some k.current } pc hooked sleeper :=
  ⟨h.ready, h.nodup, h.tids_nodup, h.blocked, h.awaits, h.asleep,
    fun _ hi => Option.some.inj hi ▸ hcurrent,
    fun _ hi => Option.some.inj hi ▸ mem_tids (hrunning ▸ Option.some_ne_none _),
    h.sleeps⟩

/-- The next thread runs: the first of the ready list, or the idle thread. -/
theorem schedule (h : Placed k pc hooked sleeper) (hs : k.schedule = some k') :
    Placed k' pc hooked sleeper ∧ k'.statusOf k'.current = some .running ∧
      k'.switching = false := by
  obtain ⟨next, hnext, hs⟩ := Option.bind_eq_some_iff.mp hs
  simp only at hs
  split at hs
  case isFalse => cases hs
  case isTrue hsome =>
    obtain ⟨x, hx⟩ := Option.isSome_iff_exists.mp hsome
    have hplaced : Placed next.2 pc hooked sleeper ∧ next.1 ∉ next.2.readyList ∧
        ¬ hooked next.1 ∧ next.2.wakeOf next.1 = 0 ∧
        ∀ w, sleeper ≠ some (next.1, w) := by
      unfold Mlfqs.Kernel.nextThreadToRun at hnext
      cases hlist : k.readyList with
      | nil =>
          rw [hlist] at hnext
          obtain ⟨i, hi, rfl⟩ := Option.map_eq_some_iff.mp hnext
          have hpc : pc i ≠ .asleep := by
            intro hasleep
            rcases h.idle i hi with hpc | ⟨id, hpc⟩ <;> cases hasleep.symm.trans hpc
          refine ⟨h, by rw [hlist]; exact List.not_mem_nil, fun hhooked => ?_,
            h.wakeOf_eq_zero hpc, fun w hw => hpc (h.sleeps i w hw).2.2⟩
          rcases h.idle i hi with hpc | ⟨id, hpc⟩ <;>
            rcases h.awaits i hhooked with ⟨id, hwait⟩ | ⟨q, w, hwait⟩ <;>
              cases hwait.symm.trans hpc
      | cons t rest =>
          rw [hlist] at hnext
          obtain rfl := Option.some.inj hnext
          have hmem : t ∈ k.readyList := hlist ▸ List.mem_cons_self
          have hready := h.ready t hmem
          obtain ⟨hnot, hrest⟩ := List.nodup_cons.mp (hlist ▸ h.nodup)
          refine ⟨⟨fun u hu => h.ready u (hlist ▸ List.mem_cons_of_mem t hu), hrest,
            h.tids_nodup, h.blocked, h.awaits, h.asleep, h.idle, h.idle_mem, h.sleeps⟩,
            hnot,
            fun hhooked => ?_, ?_, fun w hw => ?_⟩
          · cases hready.symm.trans (h.blocked t hhooked)
          · by_contra hwake
            cases hready.symm.trans (h.asleep t hwake).1
          · cases hready.symm.trans (h.sleeps t w hw).1
    obtain ⟨hplaced, hnot, hloose, hzero, hsleeper⟩ := hplaced
    rw [← Option.some.inj hs]
    refine ⟨(hplaced.setStatus hx hnot hloose hzero hsleeper .running).congr rfl rfl rfl,
      ?_, rfl⟩
    exact (Mlfqs.Kernel.statusOf_setStatus hx .running next.1).trans (if_pos rfl)

theorem threadExit (h : Placed k pc hooked sleeper)
    (hrunning : k.statusOf k.current = some .running)
    (hidle : k.idleThread ≠ some k.current) :
    Placed { k with
      allList := k.allList.filter fun t => t.tid ≠ k.current
      switching := true } pc hooked sleeper := by
  obtain ⟨k', hk'⟩ : ∃ k' : Mlfqs.Kernel, k' = { k with
      allList := k.allList.filter fun t => t.tid ≠ k.current
      switching := true } := ⟨_, rfl⟩
  rw [← hk']
  have hthread : ∀ u, u ≠ k.current → k'.thread u = k.thread u := by
    intro u hu
    rw [hk', Mlfqs.Kernel.thread, Mlfqs.Kernel.thread, List.find?_filter]
    refine congrArg (fun p => List.find? p k.allList) (funext fun x => ?_)
    by_cases hx : x.tid = u
    · simp only [hx, ne_eq, hu, not_false_eq_true, decide_true, and_self]
    · simp only [hx, decide_false, Bool.false_eq_true, and_false]
  have hstatus : ∀ u, u ≠ k.current → k'.statusOf u = k.statusOf u := by
    intro u hu
    rw [Mlfqs.Kernel.statusOf, Mlfqs.Kernel.statusOf, hthread u hu]
  have hwake : ∀ u, u ≠ k.current → k'.wakeOf u = k.wakeOf u := by
    intro u hu
    rw [Mlfqs.Kernel.wakeOf, Mlfqs.Kernel.wakeOf, hthread u hu]
  have hgone : k'.wakeOf k.current = 0 := by
    have hnone : k'.thread k.current = none := by
      rw [hk', Mlfqs.Kernel.thread, List.find?_eq_none]
      intro x hx hcurrent
      have hne := (List.mem_filter.mp hx).2
      exact of_decide_eq_true hne (of_decide_eq_true hcurrent)
    rw [Mlfqs.Kernel.wakeOf, hnone]
    rfl
  refine ⟨fun u hu => ?_, by rw [hk']; exact h.nodup, ?_, fun u hu => ?_, h.awaits,
    fun u hu => ?_, by rw [hk']; exact h.idle, fun i hi => ?_, fun u w hu => ?_⟩
  · rw [hk'] at hu
    rw [hstatus u (ne_of_mem_of_not_mem hu (h.current_not_ready hrunning))]
    exact h.ready u hu
  · rw [hk']
    exact h.tids_nodup.sublist (List.filter_sublist.map Mlfqs.Thread.tid)
  · have hne : u ≠ k.current := by
      rintro rfl
      exact h.current_not_hooked hrunning hu
    rw [hstatus u hne]
    exact h.blocked u hu
  · have hne : u ≠ k.current := by
      rintro rfl
      exact hu hgone
    rw [hwake u hne] at hu
    rw [hstatus u hne]
    exact h.asleep u hu
  · rw [hk'] at hi ⊢
    obtain ⟨x, hx, htid⟩ := List.mem_map.mp (h.idle_mem i hi)
    refine List.mem_map.mpr ⟨x, List.mem_filter.mpr ⟨hx, decide_eq_true ?_⟩, htid⟩
    rintro hcurrent
    exact hidle ((htid.symm.trans hcurrent) ▸ hi)
  · have hne : u ≠ k.current := by
      rintro rfl
      exact h.sleeper_ne_current hrunning w hu
    rw [hstatus u hne, hwake u hne]
    exact h.sleeps u w hu

/-- A new thread is blocked, and in no list. -/
theorem initThread (h : Placed k pc hooked sleeper) (hnew : k.thread t = none)
    (priority : Int) :
    Placed { k with allList := k.allList ++ [Mlfqs.initThread t priority] }
      (Function.update pc t .new) hooked sleeper := by
  obtain ⟨k', hk'⟩ : ∃ k' : Mlfqs.Kernel,
      k' = { k with allList := k.allList ++ [Mlfqs.initThread t priority] } :=
    ⟨_, rfl⟩
  rw [← hk']
  have hthread : ∀ u, u ≠ t → k'.thread u = k.thread u := by
    intro u hu
    rw [hk', Mlfqs.Kernel.thread, Mlfqs.Kernel.thread, List.find?_append,
      List.find?_singleton, if_neg fun heq => hu (of_decide_eq_true heq).symm,
      Option.or_none]
  have hstatus : ∀ u, u ≠ t → k'.statusOf u = k.statusOf u := by
    intro u hu
    rw [Mlfqs.Kernel.statusOf, Mlfqs.Kernel.statusOf, hthread u hu]
  have hwake : ∀ u, u ≠ t → k'.wakeOf u = k.wakeOf u := by
    intro u hu
    rw [Mlfqs.Kernel.wakeOf, Mlfqs.Kernel.wakeOf, hthread u hu]
  have hzero : k'.wakeOf t = 0 := by
    have hself : k'.thread t = some (Mlfqs.initThread t priority) := by
      rw [hk', Mlfqs.Kernel.thread, List.find?_append]
      rw [Mlfqs.Kernel.thread] at hnew
      rw [hnew, Option.none_or, List.find?_singleton]
      exact if_pos (decide_eq_true rfl)
    rw [Mlfqs.Kernel.wakeOf, hself]
    rfl
  have hnone : k.statusOf t = none := by
    rw [Mlfqs.Kernel.statusOf, hnew]
    rfl
  have hne : ∀ u status, k.statusOf u = some status → u ≠ t := by
    rintro u status hu rfl
    cases hu.symm.trans hnone
  have hnot : t ∉ k.allList.map Mlfqs.Thread.tid := by
    intro hmem
    obtain ⟨x, hx, htid⟩ := List.mem_map.mp hmem
    exact List.find?_eq_none.mp hnew x hx (decide_eq_true htid)
  refine ⟨fun u hu => ?_, by rw [hk']; exact h.nodup, ?_, fun u hu => ?_,
    fun u hu => ?_, fun u hu => ?_, fun i hi => ?_, fun i hi => ?_, fun u w hu => ?_⟩
  · have hready := h.ready u (by rw [hk'] at hu; exact hu)
    rw [hstatus u (hne u _ hready)]
    exact hready
  · rw [hk', List.map_append]
    refine List.nodup_append.mpr ⟨h.tids_nodup, List.nodup_singleton _, ?_⟩
    rintro u hu v hv rfl
    obtain rfl := List.mem_singleton.mp hv
    exact hnot hu
  · rw [hstatus u (hne u _ (h.blocked u hu))]
    exact h.blocked u hu
  · rw [Function.update_of_ne (hne u _ (h.blocked u hu))]
    exact h.awaits u hu
  · have hut : u ≠ t := by
      rintro rfl
      exact hu hzero
    rw [hwake u hut] at hu
    rw [hstatus u hut, Function.update_of_ne hut]
    exact h.asleep u hu
  · rw [hk'] at hi
    rw [Function.update_of_ne (ne_of_mem_of_not_mem (h.idle_mem i hi) hnot)]
    exact h.idle i hi
  · rw [hk'] at hi ⊢
    rw [List.map_append]
    exact List.mem_append_left _ (h.idle_mem i hi)
  · have hut := hne u _ (h.sleeps u w hu).1
    rw [hstatus u hut, hwake u hut, Function.update_of_ne hut]
    exact h.sleeps u w hu

end Placed

end Interrupts

end PintosLabs
