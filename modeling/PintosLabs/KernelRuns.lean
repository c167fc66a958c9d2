/-
The states that the kernel reaches after `thread_start`: its lists, its
semaphores and its locks in every one of them.
-/
import PintosLabs.LockOwners
import PintosLabs.ReadyList

namespace PintosLabs

namespace Kernel

/-- A run of the kernel; which steps there are depends on the timer and on what
the threads call. -/
abbrev Reaches (values : Nat → Nat) (acts : List KernelAct) (k : Kernel) : Prop :=
  Run step (fun _ _ => True) (boot values) acts k

/-- What holds in every state. -/
structure Sound (k : Kernel) : Prop where
  lists : k.Lists (some k.current)
  own : k.shared.Own
  counted : ∀ s, (k.sema s).Counted
  covered : ∀ s, k.shared.Covered s
  owned : ∀ l, k.shared.Owned l

variable {k k' : Kernel} {act : KernelAct}

theorem Lists.queued (h : k.Lists (some k.current)) : k.shared.Queued k.current where
  pc s t ht := ((h.waiters_iff s t).mp ht).2
  nodup := h.waiters_nodup
  notMem s hmem := absurd (h.running.symm.trans ((h.waiters_iff s _).mp hmem).1) nofun

theorem Sound.shared (h : k.Sound) (hk' : k.step act = some k') :
    SharedStep k.current k.calling k.shared k'.shared := by
  rcases step_shared (h.lists.unused _ (Nat.le_refl _)) h.lists.current_lt hk' with
    hsame | ⟨-, -, hstep⟩
  · rw [hsame]
    exact .stay _
  · exact hstep

theorem Sound.step (h : k.Sound) (hk' : k.step act = some k') : k'.Sound := by
  have hshared := h.shared hk'
  exact {
    lists := h.lists.step (fun t ht => h.own t _ ht) hk'
    own := hshared.own h.own
    counted := hshared.counted h.counted
    covered := hshared.covered h.lists.queued h.covered
    owned := hshared.owned h.owned }

/-- No thread has begun anything. -/
theorem boot_place (values : Nat → Nat) (t : ThreadId) :
    (((boot values).threads t).pc = .next ∨ ((boot values).threads t).pc = .idleBlock) ∧
      ((boot values).threads t).inside = [] ∧
        ((boot values).threads t).waitingLock = none := by
  rcases boot_cases values t with rfl | rfl | ⟨-, -, ht⟩
  · exact ⟨Or.inl rfl, rfl, rfl⟩
  · exact ⟨Or.inr rfl, rfl, rfl⟩
  · rw [ht]
    exact ⟨Or.inl rfl, rfl, rfl⟩

theorem owned_boot (values : Nat → Nat) (l : LockId) : (boot values).shared.Owned l := by
  have hinside : ∀ t, l ∉ (boot values).shared.inside t := by
    intro t
    change l ∉ ((boot values).threads t).inside
    rw [(boot_place values t).2.1]
    exact List.not_mem_nil
  have hpc : ∀ t, ((boot values).shared.pc t).claimed = none := by
    intro t
    rcases (boot_place values t).1 with ht | ht <;> exact (congrArg Pc.claimed ht).trans rfl
  refine ⟨Or.inl ⟨rfl, fun t ht => ?_⟩, fun t => ?_, fun t _ => hinside t⟩
  · rcases ht with ht | ht
    · exact absurd ((hpc t).symm.trans ht) nofun
    · exact hinside t ht
  · exact iff_of_false nofun (hinside t)

theorem sound_boot (values : Nat → Nat) : (boot values).Sound where
  lists := lists_boot values
  own t u ht := by
    change ((boot values).threads t).pc = _ at ht
    rcases (boot_place values t).1 with hpc | hpc <;> rw [hpc] at ht <;> cases ht
  counted s := by
    cases s <;> exact counted_semaInit _
  covered s := Shared.Covered.of_empty (boot_waiters values s)
  owned := owned_boot values

theorem Sound.of_run {ok : Kernel → KernelAct → Prop} {values : Nat → Nat}
    {acts : List KernelAct} (hrun : Run Kernel.step ok (boot values) acts k) : k.Sound :=
  hrun.invariant Sound (fun h _ hk' => h.step hk') (sound_boot values)

namespace SchedulerQueueWitness

/-- The first thread sleeps for a tick, which passes before the idle thread has
blocked. -/
def sleeps : List KernelAct :=
  [.call (.timerSleep 1), .run, .run, .tick [0, 1], .run]

end SchedulerQueueWitness

/-- A semaphore between two steps.  The value is a machine word; short of an
overflow it is the first value with the ups added and the downs subtracted. -/
structure SemaphoreSafe (k : Kernel) (s : SemaId) : Prop where
  downs_le : (k.sema s).downs ≤ (k.sema s).initial + (k.sema s).ups
  value_eq : (k.sema s).value =
    ((k.sema s).initial + (k.sema s).ups - (k.sema s).downs) % 2 ^ 32
  no_underflow : ∀ act k', k.step act = some k' →
    (k'.sema s).downs = (k.sema s).downs + 1 →
      (k'.sema s).value + 1 = (k.sema s).value
  woken : 0 < (k.sema s).value → (k.sema s).waiters ≠ [] →
    ∃ woken : List ThreadId, woken.Nodup ∧ (k.sema s).value ≤ woken.length ∧
      ∀ t ∈ woken, (k.threads t).pc = .down s ∧ (k.threads t).status ≠ .blocked

/-- A thread that has a lock is the one that has it, and the lock says so. -/
def LockSafe (k : Kernel) (l : LockId) : Prop :=
  ∀ t, l ∈ (k.threads t).inside → (k.lock l).holder = some t ∧
    ∀ u, l ∈ (k.threads u).inside → u = t

end Kernel

theorem setSema_downs {v : Shared} {s s' : SemaId} {sema : Semaphore}
    (hsema : sema.downs = (v.sema s').downs + 1 → sema.value + 1 = (v.sema s').value)
    (hdowns : ((v.setSema s' sema).sema s).downs = (v.sema s).downs + 1) :
    ((v.setSema s' sema).sema s).value + 1 = (v.sema s).value := by
  by_cases hs : s = s'
  · subst hs
    rw [Shared.setSema_self] at hdowns ⊢
    exact hsema hdowns
  · rw [Shared.setSema_of_ne v hs] at hdowns
    exact absurd hdowns (Nat.ne_of_lt (Nat.lt_succ_self _))

/-- Whoever gets through a semaphore finds a positive value. -/
theorem SharedStep.no_underflow {c : ThreadId} {op : Option Op} {v v' : Shared}
    (h : SharedStep c op v v') {s : SemaId}
    (hdowns : (v'.sema s).downs = (v.sema s).downs + 1) :
    (v'.sema s).value + 1 = (v.sema s).value := by
  have hsame : ∀ {n : Nat}, n ≠ n + 1 := fun heq => Nat.ne_of_lt (Nat.lt_succ_self _) heq
  cases h with
  | block before zero queued =>
      exact @setSema_downs (v.goto c _) _ _ _ (fun heq => absurd heq hsame) hdowns
  | pass before positive =>
      exact @setSema_downs (v.goto c _) _ _ _
        (fun _ => Nat.succ_pred_eq_of_ne_zero positive) hdowns
  | tryDown before positive =>
      exact setSema_downs (fun _ => Nat.succ_pred_eq_of_ne_zero positive) hdowns
  | up before woken =>
      exact @setSema_downs (v.goto c _) _ _ _ (fun heq => absurd heq hsame) hdowns
  | waiterInit before => exact setSema_downs (fun heq => absurd heq nofun) hdowns
  | _ => exact absurd hdowns hsame

namespace Kernel

variable {k k' : Kernel}

/-- Semaphores and locks are safe in every state that the kernel reaches. -/
theorem semaphores_and_locks {values : Nat → Nat} {acts : List KernelAct}
    (hrun : Reaches values acts k) :
    (∀ s, k.SemaphoreSafe s) ∧ ∀ l, k.LockSafe l := by
  have hsound := Sound.of_run hrun
  refine ⟨fun s => ⟨(hsound.counted s).downs_le, (hsound.counted s).value_eq,
    fun act k' hk' hdowns => (hsound.shared hk').no_underflow hdowns, fun _ hwaiters => ?_⟩,
    fun l t ht => ⟨((hsound.owned l).holder_iff t).mpr ht, fun u hu => ?_⟩⟩
  · obtain ⟨woken, hnodup, hle, hwoken⟩ := hsound.covered s hwaiters
    refine ⟨woken, hnodup, hle, fun t ht => ⟨(hwoken t ht).1, fun hblocked => ?_⟩⟩
    exact (hwoken t ht).2 ((hsound.lists.waiters_iff s t).mpr ⟨hblocked, (hwoken t ht).1⟩)
  · exact (hsound.owned l).unique (Or.inr hu) (Or.inr ht)

namespace SemaphoreWitness

/-- One more up than a machine word can count. -/
theorem value_may_overflow :
    ¬ ∀ (values : Nat → Nat) (acts : List KernelAct) (k : Kernel),
      Reaches values acts k → ∀ s, ((k.sema s).value : Int) =
        (k.sema s).initial + (k.sema s).ups - (k.sema s).downs := by
  intro hvalue
  obtain ⟨k, hrun, hsema⟩ : ∃ k,
      [KernelAct.call (.semaUp 0), .run].foldlM step (boot fun _ => 2 ^ 32 - 1) = some k ∧
      (k.sema (.sema 0)).value = 0 ∧ (k.sema (.sema 0)).initial = 2 ^ 32 - 1 ∧
        (k.sema (.sema 0)).ups = 1 ∧ (k.sema (.sema 0)).downs = 0 :=
    ⟨_, rfl, rfl, rfl, rfl, rfl⟩
  obtain ⟨hzero, hinitial, hups, hdowns⟩ := hsema
  have heq := hvalue _ _ k (Run.of_foldlM hrun) (.sema 0)
  rw [hzero, hinitial, hups, hdowns] at heq
  exact absurd heq (by decide)

/-- Another thread waits on a semaphore and is woken. -/
def wakes : List KernelAct :=
  .call (.threadCreate 40) :: List.replicate 12 KernelAct.run ++
    [KernelAct.call (.semaDown 0), .run, .run, .call (.semaUp 0), .run]

theorem semaphores_and_locks_woken :
    ∃ k, Reaches (fun _ => 0) wakes k ∧ k.current = 2 ∧ (k.sema (.sema 0)).value = 1 ∧
      (∀ s, k.SemaphoreSafe s) ∧ ∀ l, k.LockSafe l := by
  have hrun : ((wakes.foldlM step (boot fun _ => 0)).map fun k =>
      (k.current, (k.sema (.sema 0)).value)) = some (2, 1) := by decide +kernel
  obtain ⟨k, hk, hvalues⟩ := Option.map_eq_some_iff.mp hrun
  have hreaches := Run.of_foldlM hk
  exact ⟨k, hreaches, congrArg Prod.fst hvalues, congrArg Prod.snd hvalues,
    semaphores_and_locks hreaches⟩

end SemaphoreWitness

end Kernel

end PintosLabs
