/-
Whom `sema_up` wakes.  The list of a semaphore was in order when its threads
were put there, but their priorities change while they wait; `sema_up` sorts it
again before it takes the first.
-/
import PintosLabs.Preemption

namespace PintosLabs

namespace Kernel

/-- The semaphore that the running thread is to up next. -/
def upNext (k : Kernel) : Option SemaId :=
  match k.cur.restore, k.cur.pc, k.cur.ops with
  | false, .next, .semaUp n :: _ => some (.sema n)
  | false, .releaseUp l, _ => some (.lock l)
  | false, .condUp t, _ => some (.waiter t)
  | _, _, _ => none

/-- One thread, of the greatest priority among those on the list of the
semaphore, is taken from it and is ready or runs; the others stay blocked on
that list and on no other, and no other thread blocks or is woken. -/
structure Wakes (k k' : Kernel) (s : SemaId) (t : ThreadId) : Prop where
  greatest : ∀ u ∈ (k.sema s).waiters, k.priority u ≤ k.priority t
  taken : (t :: (k'.sema s).waiters).Perm (k.sema s).waiters
  woken : (k'.threads t).status ≠ .blocked ∧ (t ∈ k'.readyList ∨ t = k'.current)
  others : ∀ u, u ≠ t →
    ((k'.threads u).status = .blocked ↔ (k.threads u).status = .blocked)
  queued : ∀ u ∈ (k'.sema s).waiters, (k'.sema s).waiters.count u = 1 ∧
    u ∉ k'.readyList ∧ ∀ s', s' ≠ s → u ∉ (k'.sema s').waiters
  elsewhere : ∀ s', s' ≠ s → k'.sema s' = k.sema s'
  priorities_eq : k'.priorities = k.priorities
  value_eq : (k'.sema s).value = ((k.sema s).value + 1) % 2 ^ 32

variable {k k' : Kernel} {s : SemaId} {t : ThreadId} {r : Option ThreadId}

theorem Wakes.congr {k₀ : Kernel} (h : k₀.Wakes k' s t) (hranks : k₀.ranks = k.ranks)
    (hsema : k₀.sema = k.sema) : k.Wakes k' s t := by
  have hpriorities := priorities_of_ranks hranks
  have hpriority := priority_of_priorities hpriorities
  have hstatus : ∀ u, (k₀.threads u).status = (k.threads u).status :=
    congrFun (congrArg Ranks.status hranks)
  obtain ⟨hgreatest, htaken, hwoken, hothers, hqueued, helsewhere, hsame, hvalue⟩ := h
  rw [hsema, hpriority] at hgreatest
  rw [hsema] at htaken hvalue helsewhere
  rw [hpriorities] at hsame
  exact ⟨hgreatest, htaken, hwoken, fun u hu => hstatus u ▸ hothers u hu, hqueued,
    helsewhere, hsame, hvalue⟩

/-- The thread that `schedule` switches to is not a blocked one. -/
theorem Lists.next_not_blocked (h : k.Lists none)
    (hidle : k.readyList = [] → (k.threads idleThread).status ≠ .blocked) :
    (k.threads k.nextThreadToRun.1).status ≠ .blocked := by
  rw [nextThreadToRun]
  cases hready : k.readyList with
  | nil => exact hidle hready
  | cons u rest =>
      have hu := (h.ready_iff u).mp (hready ▸ List.mem_cons_self)
      exact fun hblocked => by cases hu.1.symm.trans hblocked

theorem status_setStatus_blocked {u : ThreadId} {status : ThreadStatus}
    (hstatus : status ≠ .blocked) (hu : (k.threads u).status ≠ .blocked) :
    ((k.setStatus u status).threads t).status = .blocked ↔
      (k.threads t).status = .blocked := by
  by_cases ht : t = u
  · subst ht
    rw [status_setStatus_self]
    exact iff_of_false hstatus hu
  · rw [status_setStatus_of_ne ht]

theorem Lists.schedule_blocked (h : k.Lists none)
    (hidle : k.readyList = [] → (k.threads idleThread).status ≠ .blocked)
    (t : ThreadId) :
    (k.schedule.threads t).status = .blocked ↔ (k.threads t).status = .blocked :=
  @status_setStatus_blocked
    { k with
      readyList := k.nextThreadToRun.2
      current := k.nextThreadToRun.1
      threadTicks := 0 } t _ _ (fun h => by cases h) (h.next_not_blocked hidle)

/-- Who is blocked stays so when the running thread yields, and who is not. -/
theorem Lists.threadYield_blocked (h : k.Lists (some k.current)) (t : ThreadId) :
    (k.threadYield.threads t).status = .blocked ↔ (k.threads t).status = .blocked := by
  have hloose := h.detachRunning
  have hbTick : (k.threads k.current).bTick = 0 := Nat.eq_zero_of_not_pos fun hpos => by
    cases h.running.symm.trans (h.asleep _ hpos).1
  have hcurrent : (k.threads k.current).status ≠ .blocked := fun hblocked => by
    cases h.running.symm.trans hblocked
  have hready : ThreadStatus.ready ≠ .blocked := fun h => by cases h
  by_cases hidle : k.current = idleThread
  · rw [threadYield_of_idle hidle]
    have hlists : (k.intrDisable.setStatus k.current .ready).Lists none := by
      rw [hidle] at hloose hbTick ⊢
      exact (hloose.attachIdle hbTick).congr rfl rfl rfl (fun _ => rfl) h.holder
    rw [hlists.schedule_blocked fun _ => ?_]
    · exact @status_setStatus_blocked k.intrDisable t _ _ hready hcurrent
    · rw [hidle, status_setStatus_self]
      exact hready
  · rw [threadYield_of_ne_idle hidle]
    have hlists : ((k.intrDisable.insertReady k.current).setStatus k.current
        .ready).Lists none :=
      (hloose.attachReady hbTick hidle).congr rfl rfl rfl (fun _ => rfl) h.holder
    rw [hlists.schedule_blocked fun hnil => ?_]
    · exact @status_setStatus_blocked (k.intrDisable.insertReady k.current) t _ _
        hready hcurrent
    · have hmem := (List.mem_orderedInsert
        (fun t u => k.intrDisable.threadCmpPri t u = true)
        (a := k.current) (b := k.current) (l := k.readyList)).mpr (Or.inl rfl)
      change k.readyList.orderedInsert _ k.current = [] at hnil
      rw [hnil] at hmem
      exact absurd hmem List.not_mem_nil

/-- The part of `sema_up` that takes a thread from the list. -/
theorem Lists.exists_semaWake (h : k.Lists r) (hne : (k.sema s).waiters ≠ []) :
    ∃ k₁ t waiters, k.semaWake s = some k₁ ∧
      (t :: waiters).Perm (k.sema s).waiters ∧
      (∀ u ∈ (k.sema s).waiters, k.priority u ≤ k.priority t) ∧
      k₁.sema = Function.update k.sema s { k.sema s with waiters := waiters } ∧
      k₁.current = k.current ∧ (k₁.threads t).status = .ready ∧
      ∀ u, u ≠ t → k₁.threads u = k.threads u := by
  obtain ⟨sorted, hsorted, hperm, hdescending⟩ :=
    listSort_spec k.priority (k.sema s).waiters
  cases sorted with
  | nil => exact absurd (List.nil_perm.mp hperm) hne
  | cons t rest =>
      have ht := ((h.waiters_iff s t).mp (hperm.mem_iff.mp List.mem_cons_self)).1
      refine ⟨((k.setSema s fun sema => { sema with waiters := rest }).insertReady
        t).setStatus t .ready, t, rest, ?_, hperm, fun u hu => ?_, rfl, rfl, ?_,
        fun u hu => ?_⟩
      · rw [Kernel.semaWake]
        split
        case h_1 hnil => exact absurd hnil hne
        case h_2 =>
          rw [show listSort k.threadCmpPri _ = some (t :: rest) from hsorted]
          exact if_pos ht
      · rcases List.mem_cons.mp (hperm.mem_iff.mpr hu) with rfl | hu
        · exact Int.le_refl _
        · exact (List.pairwise_cons.mp hdescending).1 u hu
      · exact status_setStatus_self _
      · exact modify_of_ne hu _

/-- With threads on the list, `sema_up` wakes one of the greatest priority. -/
theorem Lists.semaUp_wakes (h : k.Lists (some k.current))
    (hne : (k.sema s).waiters ≠ []) :
    ∃ k' t, k.semaUp s = some k' ∧ k.Wakes k' s t := by
  obtain ⟨k₁, t, waiters, hwake, hperm, hgreatest, hsema, hcurrent, hready, hothers⟩ :=
    @exists_semaWake k.intrDisable _ _ h.intrDisable hne
  obtain ⟨k', hup⟩ : ∃ k', k.semaUp s = some k' := ⟨_, by rw [Kernel.semaUp, hwake]; rfl⟩
  obtain ⟨k₂, hk₂⟩ : ∃ k₂, k₂ = (k₁.setSema s fun sema =>
    { sema with value := (sema.value + 1) % 2 ^ 32, ups := sema.ups + 1 }).setRestore
      true := ⟨_, rfl⟩
  have hk' : k' = k₂.threadYield := by
    rw [Kernel.semaUp, hwake] at hup
    rw [hk₂]
    exact (Option.some.inj hup).symm
  have hlists : k'.Lists (some k'.current) := h.semaUp hup
  have hlists₂ : k₂.Lists (some k₂.current) := by
    have h₁ := h.intrDisable.semaWake hwake
    rw [show k.current = k₁.current from hcurrent.symm] at h₁
    rw [hk₂]
    exact setRestore (@setSema _ _ h₁ s (fun sema =>
      { sema with value := (sema.value + 1) % 2 ^ 32, ups := sema.ups + 1 }) rfl) true
  have hstatus : ∀ u, (k₂.threads u).status = (k₁.threads u).status := by
    rw [hk₂]
    exact status_modify_same _ _ rfl
  have hblocked : ∀ u, (k'.threads u).status = .blocked ↔
      (k₁.threads u).status = .blocked := by
    intro u
    rw [hk', hlists₂.threadYield_blocked, hstatus]
  have hsema' : k'.sema = Function.update k.sema s { k.sema s with
      value := ((k.sema s).value + 1) % 2 ^ 32
      waiters := waiters
      ups := (k.sema s).ups + 1 } := by
    have hyield : k'.sema = k₂.sema := by
      rw [hk']
      exact congrArg Shared.sema k₂.shared_threadYield
    rw [hyield, hk₂]
    change Function.update k₁.sema s _ = _
    rw [hsema, Function.update_idem, Function.update_self]
    rfl
  have hwaiters : (k'.sema s).waiters = waiters := by
    rw [hsema', Function.update_self]
  have htwoken : (k'.threads t).status ≠ .blocked := by
    rw [Ne, hblocked, hready]
    exact fun h => by cases h
  refine ⟨k', t, hup, {
    greatest := hgreatest
    taken := by rwa [hwaiters]
    woken := ⟨htwoken, ?_⟩
    others := fun u hu => by rw [hblocked, hothers u hu]; rfl
    queued := fun u hu => ?_
    elsewhere := fun s' hs' => by rw [hsema', Function.update_of_ne hs']
    priorities_eq := priorities_semaUp hup
    value_eq := by rw [hsema', Function.update_self] }⟩
  · have ht := (h.waiters_iff s t).mp (hperm.mem_iff.mp List.mem_cons_self)
    have hidle : t ≠ idleThread := h.ne_idle fun hpc => by
      rcases hpc with hpc | hpc <;> cases ht.2.symm.trans hpc
    cases hcase : (k'.threads t).status with
    | running =>
        exact Or.inr (Option.some.inj ((hlists.running_iff t).mp hcase)).symm
    | ready => exact Or.inl ((hlists.ready_iff t).mpr ⟨hcase, hidle⟩)
    | blocked => exact absurd hcase htwoken
  · have hu' := (hlists.waiters_iff s u).mp hu
    refine ⟨List.count_eq_one_of_mem (hlists.waiters_nodup s) hu, fun hmem => ?_,
      fun s' hs' hmem => hs' ?_⟩
    · cases hu'.1.symm.trans ((hlists.ready_iff u).mp hmem).1
    · exact Pc.down.inj (((hlists.waiters_iff s' u).mp hmem).2.symm.trans hu'.2)

/-- The value counts threads that have been woken and have not run yet. -/
theorem Sound.value_lt_count (h : k.Sound) (hne : (k.sema s).waiters ≠ []) :
    (k.sema s).value < k.count := by
  obtain ⟨woken, hnodup, hle, hwoken⟩ := h.covered s hne
  obtain ⟨u, waiters, hwaiters⟩ := List.exists_cons_of_ne_nil hne
  have hu : u ∈ (k.sema s).waiters := hwaiters ▸ List.mem_cons_self
  have hlt : ∀ t, (k.threads t).pc = .down s → t < k.count := by
    intro t ht
    refine Nat.lt_of_not_le fun hcount => ?_
    cases (h.lists.unused t hcount).pc.symm.trans ht
  have hsub : u :: woken ⊆ List.range k.count := by
    intro t ht
    refine List.mem_range.mpr (hlt t ?_)
    rcases List.mem_cons.mp ht with rfl | ht
    · exact ((h.lists.waiters_iff s t).mp hu).2
    · exact (hwoken t ht).1
  have hnodup' : (u :: woken).Nodup :=
    List.nodup_cons.mpr ⟨fun hmem => (hwoken u hmem).2 hu, hnodup⟩
  have hlength := hnodup'.length_le_of_subset hsub
  rw [List.length_cons, List.length_range] at hlength
  exact Nat.lt_of_lt_of_le (Nat.lt_succ_of_le hle) hlength

/-- The step that ups a semaphore. -/
theorem step_of_upNext (hup : k.upNext = some s) (hlists : k.Lists (some k.current)) :
    ∃ k₀ : Kernel, k.step .run = k₀.semaUp s ∧ k₀.Lists (some k₀.current) ∧
      k₀.ranks = k.ranks ∧ k₀.sema = k.sema := by
  have hgoto : ¬ k.cur.pc.IsIdle → (k.goto .next).Lists (some k.current) :=
    fun hidle => hlists.goto fun hpc => absurd hpc hidle
  unfold upNext at hup
  split at hup
  · cases hup
    case _ n rest hrestore hpc hops =>
      refine ⟨k.setOps rest, ?_, (hlists.starts_of_ops hops).1, ranks_setOps _ _, rfl⟩
      rw [step_run hrestore, hpc, advance, hops]
      rfl
  · cases hup
    case _ l hrestore hpc =>
      refine ⟨k.goto .next, ?_, hgoto ?_, ranks_goto _ _, rfl⟩
      · rw [step_run hrestore, hpc]
        rfl
      · rw [hpc]
        exact Pc.not_isIdle rfl
  · cases hup
    case _ t hrestore hpc =>
      refine ⟨k.goto .next, ?_, hgoto ?_, ranks_goto _ _, rfl⟩
      · rw [step_run hrestore, hpc]
        rfl
      · rw [hpc]
        exact Pc.not_isIdle rfl
  · cases hup

/-- Whatever has become of the priorities of the waiters, `sema_up` wakes one of
the greatest, and the value grows by one: it could only wrap around with a
thread for each number that fits into a word. -/
theorem sema_up_wakes_greatest {values : Nat → Nat} {acts : List KernelAct}
    (hrun : Reaches values acts k) (hup : k.upNext = some s)
    (hne : (k.sema s).waiters ≠ []) :
    ∃ k' t, k.step .run = some k' ∧ k.Wakes k' s t ∧
      (k.count < 2 ^ 32 → (k'.sema s).value = (k.sema s).value + 1) := by
  have hsound := Sound.of_run hrun
  obtain ⟨k₀, hstep, hlists, hranks, hsema⟩ := step_of_upNext hup hsound.lists
  obtain ⟨k', t, hk', hwakes⟩ := hlists.semaUp_wakes (s := s) (by rwa [hsema])
  have hwakes' := hwakes.congr hranks hsema
  refine ⟨k', t, hstep.trans hk', hwakes', fun hcount => ?_⟩
  rw [hwakes'.value_eq, Nat.mod_eq_of_lt]
  have := hsound.value_lt_count hne
  omega

namespace SemaUpWitness

/-- Another thread waits on a semaphore that is about to go up. -/
def waits : List KernelAct :=
  .call (.threadCreate 40) :: List.replicate 12 KernelAct.run ++
    [KernelAct.call (.semaDown 0), .run, .run, .call (.semaUp 0)]

theorem sema_up_wakes_greatest_waits :
    ∃ k, Reaches (fun _ => 0) waits k ∧ (k.sema (.sema 0)).waiters = [2] ∧
      ∃ k' t, k.step .run = some k' ∧ k.Wakes k' (.sema 0) t ∧
        (k.count < 2 ^ 32 →
          (k'.sema (.sema 0)).value = (k.sema (.sema 0)).value + 1) := by
  have hrun : ((waits.foldlM step (boot fun _ => 0)).map fun k =>
      ((k.sema (.sema 0)).waiters, k.upNext)) = some ([2], some (.sema 0)) := by
    decide +kernel
  obtain ⟨k, hk, hvalues⟩ := Option.map_eq_some_iff.mp hrun
  have hwaiters := congrArg Prod.fst hvalues
  have hne : (k.sema (.sema 0)).waiters ≠ [] := fun hnil => by
    cases hwaiters.symm.trans hnil
  exact ⟨k, Run.of_foldlM hk, hwaiters, sema_up_wakes_greatest (Run.of_foldlM hk)
    (congrArg Prod.snd hvalues) hne⟩

end SemaUpWitness

end Kernel

end PintosLabs
