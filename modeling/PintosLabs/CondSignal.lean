/-
The sort in `cond_signal`, between the steps of the other threads.  With one
lock for each condition the threads queued do not change while a thread is in
`cond_signal`, nor do their priorities, and the sort puts the greatest in
front, provided that it compares none that has not blocked.
-/
import PintosLabs.CondSort
import PintosLabs.CondWaiters

namespace PintosLabs

/-- In `cond_signal`. -/
theorem SharedStep.inside_of_signals {c : ThreadId} {op : Option Op} {v v' : Shared}
    (h : SharedStep c op v v') {d : CondId}
    (hpc : (v.pc c).signals = some d) : v'.inside = v.inside := by
  cases h with
  | take before =>
      rw [before] at hpc
      cases hpc
  | setHolder before =>
      rw [before] at hpc
      cases hpc
  | release before call holder =>
      rw [before] at hpc
      cases hpc
  | _ => rfl

namespace Kernel

/-- Thread `t`, in `cond_signal`, comes in `n` of its steps to where it pops the first of
`zs`. -/
structure Sorting (k : Kernel) (t : ThreadId) (c : CondId) (n : Nat) (zs : List ThreadId) :
    Prop where
  signals : (k.threads t).pc.signals = some c
  queued : k.cond c ≠ []
  sorts : SortsTo k.threadCmpPri c (k.threads t).pc (k.cond c) n zs
  descending : Descending k.priority zs

structure Signals (lockOf : CondId → LockId) (k : Kernel) : Prop extends
    Waiters lockOf k where
  sorting : ∀ t c, (k.threads t).pc.signals = some c →
    lockOf c ∈ (k.threads t).inside ∧ ∃ n zs, k.Sorting t c n zs

section Step

variable {lockOf : CondId → LockId} {k k' : Kernel} {l : LockId} {c : CondId}
  {t u : ThreadId}

theorem inWait_signals {thread : Thread} (h : thread.InWait t l) : thread.pc.signals = none := by
  cases h with
  | releasing pc ops inside => rcases pc with pc | pc <;> rw [pc] <;> rfl
  | _ pc => rw [pc]; rfl

/-- While a thread is in `cond_signal`, those queued have released the lock. -/
theorem Signals.queued_released (h : Signals lockOf k) (hsound : k.Sound)
    (ht : (k.threads t).pc.signals = some c) (hu : u ∈ k.cond c) :
    (k.threads u).Released u ∧ (k.threads u).inside = [] := by
  obtain ⟨l, hwait, hl⟩ := (h.waiting u (.queue c) hu).inWait
  have hlock : lockOf c ∈ k.shared.inside t := (h.sorting t c ht).1
  rw [← hl c rfl] at hlock
  have hother : ¬ k.shared.Claims u l := by
    intro hclaims
    have heq := (hsound.owned l).unique hclaims (Or.inr hlock)
    subst heq
    rw [inWait_signals hwait] at ht
    cases ht
  cases hwait with
  | entering pc ops inside =>
      refine absurd (Or.inr ?_) hother
      change l ∈ (k.threads u).inside
      rw [inside]
      exact List.mem_cons_self
  | releasing pc ops inside =>
      refine absurd (Or.inl ?_) hother
      rcases pc with pc | pc <;> exact (congrArg Pc.claimed pc).trans rfl
  | released pc ops inside => exact ⟨Or.inr ⟨pc, _, ops⟩, inside⟩
  | sleeping pc inside => exact ⟨Or.inl pc, inside⟩

theorem Signals.priority_kept (h : Signals lockOf k) (hsound : k.Sound)
    (hkeeps : k.KeepsPriorities k') (ht : (k.threads t).pc.signals = some c) :
    ∀ u ∈ k.cond c, k'.priority u = k.priority u := by
  intro u hu
  obtain ⟨hreleased, hinside⟩ := h.queued_released hsound ht hu
  refine hkeeps u (fun hcurrent => ?_) (fun hcount => ?_) fun l hl => ?_
  · subst hcurrent
    exact hreleased
  · have hunused := hsound.lists.unused u (Nat.le_of_eq hcount.symm)
    rcases hreleased with hpc | ⟨-, rest, hops⟩
    · cases hunused.pc.symm.trans hpc
    · cases hunused.ops.symm.trans hops
  · have hmem : l ∈ (k.threads u).inside := ((hsound.owned l).holder_iff u).mp hl
    rw [hinside] at hmem
    cases hmem

/-- While a thread is in `cond_signal`, no other thread queues one or takes one out. -/
theorem Signals.cond_kept (h : Signals lockOf k) (hsound : k.Sound)
    (hok : k.UnderOneLock lockOf) (hstep : CondStep k k')
    (ht : (k.threads t).pc.signals = some c) (hne : t ≠ k.current) :
    k'.cond c = k.cond c := by
  have hlock : lockOf c ∈ k.shared.inside t := (h.sorting t c ht).1
  have hother : lockOf c ∉ k.shared.inside k.current := fun hmem =>
    hne ((hsound.owned _).unique (Or.inr hlock) (Or.inr hmem))
  have hupdate : ∀ {d : CondId} {ws : List ThreadId},
      k'.cond = Function.update k.cond d ws → lockOf d ∈ k.shared.inside k.current →
      k'.cond c = k.cond c := by
    intro d ws hcond hmem
    rw [hcond]
    refine Function.update_of_ne (fun hc => ?_) _ _
    exact hother (hc ▸ hmem)
  have hsignals : ∀ {d : CondId}, k.cur.pc.signals = some d →
      lockOf d ∈ k.shared.inside k.current := fun hd => (h.sorting _ _ hd).1
  cases hstep with
  | stay _ _ cond | call _ _ _ _ _ cond | goOn _ _ _ _ _ cond | begins _ _ _ _ _ _ _ cond
  | releases _ _ _ _ cond | downs _ _ _ _ _ cond | signals _ _ _ _ _ _ cond
  | compares _ _ _ _ _ cond | checked _ _ _ cond => exact congrFun cond c
  | waits before calls holder shared ops cond =>
      obtain ⟨hl, hinside⟩ := (hok before _ _ _).1 calls
      refine hupdate cond ?_
      change _ ∈ k.cur.inside
      rw [hinside, ← hl]
      exact List.mem_cons_self
  | passed before shared ops cond => exact hupdate cond (hsignals (before ▸ rfl))
  | pops before queue shared ops cond => exact hupdate cond (hsignals (before ▸ rfl))

theorem Sorting.of_sorts {pc : Pc} {ws zs : List ThreadId} {n : Nat}
    (hsorts : SortsTo k.threadCmpPri c pc ws n zs) (hdescending : Descending k.priority zs)
    (hqueued : ws ≠ []) (hkept : ∀ u ∈ ws, k'.priority u = k.priority u)
    (hsignals : pc.signals = some c) (hpc : (k'.threads t).pc = pc) (hcond : k'.cond c = ws) :
    k'.Sorting t c n zs := by
  refine ⟨hpc ▸ hsignals, hcond ▸ hqueued, ?_, ?_⟩
  · rw [hpc, hcond]
    refine hsorts.congr fun _ x hx y hy => ?_
    simp only [threadCmpPri, byKey, hkept x hx, hkept y hy]
  · refine List.Pairwise.imp_of_mem (fun hx hy hle => ?_) hdescending
    rwa [hkept _ (hsorts.perm.mem_iff.mp hx), hkept _ (hsorts.perm.mem_iff.mp hy)]

/-- What a step of the kernel does to thread `t` in `cond_signal`. -/
def Advances (k k' : Kernel) (t : ThreadId) (c : CondId) (n : Nat) (zs : List ThreadId) :
    Prop :=
  k'.Sorting t c n zs ∨ t = k.current ∧ ((∃ m, n = m + 1 ∧ k'.Sorting t c m zs) ∨
    n = 0 ∧ ∃ u rest, zs = u :: rest ∧ k.cond c = zs ∧ k'.cond c = rest ∧
      (k'.threads t).pc = .condUp u)

/-- A comparison that is made is the one of the priorities. -/
theorem condSemaCmpPri_eq (hsound : k.Sound) {x y : ThreadId} {less : Bool}
    (h : k.condSemaCmpPri x y = some less) : less = k.threadCmpPri x y := by
  have hwaiter : ∀ {x v : ThreadId}, v ∈ (k.sema (.waiter x)).waiters → v = x := fun hv =>
    hsound.own _ _ ((hsound.lists.waiters_iff _ _).mp hv).2
  rw [condSemaCmpPri] at h
  split at h
  case h_1 hx hy =>
    rw [← Option.some.inj h]
    exact congrArg₂ k.threadCmpPri (hwaiter (hx ▸ List.mem_cons_self))
      (hwaiter (hy ▸ List.mem_cons_self))
  · cases h

theorem Sorting.step {n : Nat} {zs : List ThreadId} (hsorting : k.Sorting t c n zs)
    (h : Signals lockOf k) (hsound : k.Sound) (hok : k.UnderOneLock lockOf)
    (hstep : CondStep k k') (hkeeps : k.KeepsPriorities k')
    (hshared : SharedStep k.current k.calling k.shared k'.shared) :
    Advances k k' t c n zs := by
  obtain ⟨ht, hqueued, hsorts, hdescending⟩ := hsorting
  have hkept := h.priority_kept hsound hkeeps ht
  by_cases hcurrent : t = k.current
  swap
  · exact Or.inl (.of_sorts hsorts hdescending hqueued hkept ht
      (hshared.pc_of_ne hcurrent) (h.cond_kept hsound hok hstep ht hcurrent))
  subst hcurrent
  have hpc' : ∀ {v : Shared} {pc : Pc}, k'.shared = v → v.pc k.current = pc →
      (k'.threads k.current).pc = pc :=
    fun hv hpc => (congrFun (congrArg Shared.pc hv) _).trans hpc
  have hnext : k.cur.pc ≠ .next := fun hpc => by
    rw [show (k.threads k.current).pc = .next from hpc] at ht
    cases ht
  cases hstep with
  | stay shared ops cond =>
      exact Or.inl (.of_sorts hsorts hdescending hqueued hkept ht (hpc' shared rfl)
        (congrFun cond c))
  | call isCall before => exact absurd before hnext
  | begins plain new before => exact absurd before hnext
  | releases before => exact absurd before hnext
  | waits before => exact absurd before hnext
  | downs before => exact absurd before hnext
  | signals before => exact absurd before hnext
  | goOn before other => cases ht.symm.trans other
  | compares place before answer shared ops cond =>
      have hless := condSemaCmpPri_eq hsound answer
      have hpc := hpc' shared (Shared.goto_self _ _ _)
      have hcond := congrFun cond c
      rw [show (k.threads k.current).pc = _ from before] at hsorts ht
      rcases place with ⟨next, rfl, rfl⟩ | ⟨next, rfl, rfl⟩
      · cases ht
        cases hsorts with
        | compare left right many rest =>
            rw [← hless] at rest
            exact Or.inr ⟨rfl, Or.inl ⟨_, rfl,
              .of_sorts rest hdescending hqueued hkept rfl hpc hcond⟩⟩
      · cases ht
        cases hsorts with
        | check left right many rest =>
            rw [← hless] at rest
            exact Or.inr ⟨rfl, Or.inl ⟨_, rfl,
              .of_sorts rest hdescending hqueued hkept rfl hpc hcond⟩⟩
  | @passed d waiters runs before shared ops cond =>
      have hpc := hpc' shared (Shared.goto_self _ _ _)
      rw [show (k.threads k.current).pc = _ from before] at hsorts ht
      cases ht
      have hcond : k'.cond c = waiters := by rw [cond, Function.update_self]
      have hmoved : waiters.Perm (k.cond c) → waiters ≠ [] ∧
          ∀ u ∈ waiters, k'.priority u = k.priority u := fun hperm =>
        ⟨fun hnil => hqueued (List.nil_perm.mp (hnil ▸ hperm)), fun u hu =>
          hkept u (hperm.mem_iff.mp hu)⟩
      cases hsorts with
      | again perm many rest =>
          rw [if_pos many] at hpc
          exact Or.inr ⟨rfl, Or.inl ⟨_, rfl, .of_sorts rest hdescending (hmoved perm).1
            (hmoved perm).2 rfl hpc hcond⟩⟩
      | once perm one rest =>
          rw [if_neg one] at hpc
          exact Or.inr ⟨rfl, Or.inl ⟨_, rfl, .of_sorts rest hdescending (hmoved perm).1
            (hmoved perm).2 rfl hpc hcond⟩⟩
  | checked before shared ops cond =>
      have hpc := hpc' shared (Shared.goto_self _ _ _)
      rw [show (k.threads k.current).pc = _ from before] at hsorts ht
      cases ht
      cases hsorts with
      | checked rest =>
          exact Or.inr ⟨rfl, Or.inl ⟨_, rfl,
            .of_sorts rest hdescending hqueued hkept rfl hpc (congrFun cond c)⟩⟩
  | @pops d u rest before queue shared ops cond =>
      have hpc := hpc' shared (Shared.goto_self _ _ _)
      rw [show (k.threads k.current).pc = _ from before] at hsorts ht
      cases ht
      cases hsorts with
      | sorted ws =>
          exact Or.inr ⟨rfl, Or.inr ⟨rfl, u, rest, queue, rfl,
            by rw [cond, Function.update_self], hpc⟩⟩

theorem Sorting.of_advances {n : Nat} {zs : List ThreadId} {d : CondId}
    (h : Advances k k' t c n zs) (ht : (k'.threads t).pc.signals = some d) :
    d = c ∧ ∃ n zs, k'.Sorting t c n zs := by
  have hsame : ∀ {m : Nat}, k'.Sorting t c m zs → d = c ∧ ∃ n zs, k'.Sorting t c n zs :=
    fun hsorting => ⟨Option.some.inj (ht.symm.trans hsorting.signals), _, _, hsorting⟩
  rcases h with hsorting | ⟨-, ⟨m, -, hsorting⟩ | ⟨-, u, rest, -, -, -, hpc⟩⟩
  · exact hsame hsorting
  · exact hsame hsorting
  · rw [hpc] at ht
    cases ht

/-- A thread comes into `cond_signal` by the call. -/
theorem CondStep.enters (h : CondStep k k') (hbefore : k.cur.pc.signals = none)
    (hafter : (k'.threads k.current).pc.signals = some c) :
    ∃ l rest, k.cur.pc = .next ∧ k.cur.ops = .condSignal c l :: rest ∧ k.cond c ≠ [] ∧
      k'.shared = k.shared.goto k.current
        (.condSort c (sortPass (k.cond c).length (k.cond c))) ∧
      k'.cond = k.cond := by
  have hpc' : ∀ {v : Shared} {pc : Pc}, k'.shared = v → v.pc k.current = pc →
      pc.signals = some c :=
    fun hv hpc => ((congrFun (congrArg Shared.pc hv) _).trans hpc) ▸ hafter
  cases h with
  | stay shared =>
      have hsignals := hpc' shared rfl
      cases hbefore.symm.trans hsignals
  | call _ before _ shared => cases hpc' shared before
  | goOn _ _ after => cases after.symm.trans hafter
  | begins _ _ _ _ _ after =>
      generalize (k'.threads k.current).pc = pc at after hafter
      cases pc with
      | condSort | condSorted | condPop => cases after
      | _ => cases hafter
  | releases _ _ shared => cases hpc' shared (Shared.goto_self _ _ _)
  | waits before _ _ shared => cases hpc' shared before
  | downs before _ place shared =>
      have hsignals := hpc' shared (Shared.goto_self _ _ _)
      rcases place with ⟨rfl, -⟩ | ⟨rfl, -⟩ <;> cases hsignals
  | signals before calls holder queued shared ops cond =>
      cases hpc' shared (Shared.goto_self _ _ _)
      exact ⟨_, _, before, calls, queued, shared, cond⟩
  | compares place before =>
      rw [before] at hbefore
      rcases place with ⟨next, rfl, -⟩ | ⟨next, rfl, -⟩ <;> cases hbefore
  | passed before =>
      rw [before] at hbefore
      cases hbefore
  | checked before =>
      rw [before] at hbefore
      cases hbefore
  | pops before =>
      rw [before] at hbefore
      cases hbefore

theorem Signals.step {act : KernelAct} (h : Signals lockOf k) (hsound : k.Sound)
    (hok : k.UnderOneLock lockOf) (hk' : k.step act = some k') : Signals lockOf k' := by
  have hshared := hsound.shared hk'
  obtain ⟨hstep, hkeeps⟩ := step_cond (hsound.lists.unused _ (Nat.le_refl _))
    hsound.lists.current_lt hk'
  have hperm : ∀ c ws runs, k.cur.pc = .condSort c (.done (ws, runs)) →
      ws.Perm (k.cond c) := by
    intro c ws runs hpc
    obtain ⟨-, n, zs, hsorting⟩ := h.sorting k.current c ((congrArg Pc.signals hpc).trans rfl)
    have hsorts := hsorting.sorts
    rw [show (k.threads k.current).pc = _ from hpc] at hsorts
    cases hsorts with
    | again perm many rest => exact perm
    | once perm one rest => exact perm
  have hwaiters := h.toWaiters.step hsound.own hok hstep hshared hperm
  refine ⟨hwaiters, fun t c ht => ?_⟩
  -- whoever is in `cond_signal` has been there, or begins it
  by_cases hbefore : ∃ d, (k.threads t).pc.signals = some d
  · obtain ⟨d, hd⟩ := hbefore
    obtain ⟨hlock, n, zs, hsorting⟩ := h.sorting t d hd
    obtain ⟨rfl, hsorting'⟩ :=
      Sorting.of_advances (hsorting.step h hsound hok hstep hkeeps hshared) ht
    refine ⟨?_, hsorting'⟩
    change lockOf c ∈ k'.shared.inside t
    by_cases hcurrent : t = k.current
    · subst hcurrent
      rw [hshared.inside_of_signals hd]
      exact hlock
    · rw [hshared.inside_of_ne hcurrent]
      exact hlock
  · have hnone : (k.threads t).pc.signals = none :=
      Option.eq_none_iff_forall_ne_some.mpr fun d hd => hbefore ⟨d, hd⟩
    have hcurrent : t = k.current := by
      by_contra hne
      rw [show (k'.threads t).pc = (k.threads t).pc from hshared.pc_of_ne hne] at ht
      cases hnone.symm.trans ht
    subst hcurrent
    obtain ⟨l, rest, hpc, hcalls, hqueued, hshared', hcond⟩ := hstep.enters hnone ht
    obtain ⟨rfl, hholder⟩ := (hok hpc c l rest).2 hcalls
    refine ⟨?_, ?_⟩
    · change lockOf c ∈ k'.shared.inside k.current
      rw [hshared']
      exact ((hsound.owned _).holder_iff _).mp hholder
    · obtain ⟨n, zs, hsorts, hdescending⟩ :=
        @SortsTo.of_waiters c (k.cond c) k'.priority hqueued
      have hpc' : (k'.threads k.current).pc = _ :=
        (congrFun (congrArg Shared.pc hshared') _).trans (Shared.goto_self _ _ _)
      refine ⟨n, zs, ht, hcond ▸ hqueued, ?_, hdescending⟩
      rw [hpc', hcond]
      exact hsorts

theorem signals_boot (lockOf : CondId → LockId) (values : Nat → Nat) :
    Signals lockOf (boot values) := by
  have hpc : ∀ t, ((boot values).threads t).pc.signals = none ∧
      ∀ u, ((boot values).threads t).pc ≠ .condUp u := by
    intro t
    rcases (boot_place values t).1 with hpc | hpc <;> rw [hpc]
    · exact ⟨rfl, fun _ h => by cases h⟩
    · exact ⟨rfl, fun _ h => by cases h⟩
  refine ⟨⟨fun _ => List.nodup_nil, fun u p hp => ?_⟩, fun t c ht => ?_⟩
  · cases p with
    | queue c => cases hp
    | hand t => exact absurd hp ((hpc t).2 u)
  · cases (hpc t).1.symm.trans ht

/-- `sema_up` finds the threads on its list blocked. -/
theorem exists_semaUp {s : SemaId}
    (h : ∀ t ∈ (k.sema s).waiters, (k.threads t).status = .blocked) :
    ∃ k', k.semaUp s = some k' := by
  have hwake : ∃ k₁, k.intrDisable.semaWake s = some k₁ := by
    rw [semaWake]
    split
    · exact ⟨_, rfl⟩
    case h_2 hne =>
      obtain ⟨sorted, hsorted, hperm, -⟩ :=
        listSort_spec k.priority (k.intrDisable.sema s).waiters
      rw [show listSort k.intrDisable.threadCmpPri _ = some sorted from hsorted]
      cases sorted with
      | nil => exact absurd (List.nil_perm.mp hperm) hne
      | cons t rest => exact ⟨_, if_pos (h t (hperm.mem_iff.mp List.mem_cons_self))⟩
  obtain ⟨k₁, hk₁⟩ := hwake
  exact ⟨_, by rw [semaUp, hk₁]; rfl⟩

end Step

end Kernel

/-- The waiters that `cond_sema_cmp_pri` is to compare at this place. -/
def Pc.compares : Pc → Option (ThreadId × ThreadId)
  | condSort _ (.compare x y _) | condSorted _ (.compare x y _) => some (x, y)
  | _ => none

namespace Kernel

/-- If the running thread is about to compare two waiters, both have blocked. -/
def WaitersBlocked (k : Kernel) : Prop :=
  k.cur.restore = false → ∀ x y, k.cur.pc.compares = some (x, y) →
    x ∈ (k.sema (.waiter x)).waiters ∧ y ∈ (k.sema (.waiter y)).waiters

/-- `cond_signal` in one state: it fails nowhere, it comes to an end whatever the other
threads do, and it takes out a thread of the greatest priority and ups its semaphore. -/
structure SignalSafe (lockOf : CondId → LockId) (k : Kernel) : Prop where
  begins : k.UnderOneLock lockOf → k.cur.restore = false → k.cur.pc = .next →
    ∀ c l rest, k.cur.ops = .condSignal c l :: rest →
      ∃ k', k.step .run = some k' ∧
        (k.cond c ≠ [] → (k'.threads k.current).pc.signals = some c)
  goes_on : k.cur.restore = false →
    k.cur.pc.signals ≠ none ∨ (∃ t, k.cur.pc = .condUp t) → ∃ k', k.step .run = some k'
  sorts : ∀ t c, (k.threads t).pc.signals = some c → ∃ n zs, k.Sorting t c n zs
  advances : k.UnderOneLock lockOf → ∀ act k', k.step act = some k' →
    ∀ t c n zs, k.Sorting t c n zs → Advances k k' t c n zs
  pops : ∀ t c, (k.threads t).pc = .condPop c → ∃ u rest, k.cond c = u :: rest ∧
    ∀ v ∈ k.cond c, k.priority v ≤ k.priority u
  ups : k.cur.restore = false → ∀ u, k.cur.pc = .condUp u → ∀ k', k.step .run = some k' →
    (k'.sema (.waiter u)).value = 1 ∧
      (k'.sema (.waiter u)).ups = (k.sema (.waiter u)).ups + 1

section Runs

variable {lockOf : CondId → LockId} {k k' : Kernel} {c : CondId} {t u : ThreadId}

theorem condSemaCmpPri_isSome (hsound : k.Sound) (x y : ThreadId) :
    (k.condSemaCmpPri x y).isSome ↔
      x ∈ (k.sema (.waiter x)).waiters ∧ y ∈ (k.sema (.waiter y)).waiters := by
  have hmem : ∀ x, x ∈ (k.sema (.waiter x)).waiters ↔ (k.sema (.waiter x)).waiters ≠ [] := by
    intro x
    refine ⟨List.ne_nil_of_mem, fun hne => ?_⟩
    obtain ⟨v, hv⟩ := List.exists_mem_of_ne_nil _ hne
    have hvx : v = x := hsound.own _ _ ((hsound.lists.waiters_iff _ _).mp hv).2
    exact hvx ▸ hv
  rw [hmem, hmem, condSemaCmpPri]
  cases hx : (k.sema (.waiter x)).waiters with
  | nil => simp
  | cons v rest => cases hy : (k.sema (.waiter y)).waiters <;> simp

/-- The step of a thread in `cond_signal`: only a comparison can fail. -/
theorem Signals.goes_on (h : Signals lockOf k) (hsound : k.Sound)
    (hrestore : k.cur.restore = false) (ht : k.cur.pc.signals = some c) :
    (∃ k', k.step .run = some k') ↔ ∀ x y, k.cur.pc.compares = some (x, y) →
      x ∈ (k.sema (.waiter x)).waiters ∧ y ∈ (k.sema (.waiter y)).waiters := by
  obtain ⟨-, n, zs, hsorting⟩ := h.sorting k.current c ht
  have hsorts := hsorting.sorts
  have hqueued := hsorting.queued
  rw [step_run hrestore]
  change SortsTo _ _ k.cur.pc _ _ _ at hsorts
  generalize k.cur.pc = pc at hsorts
  have hcompare : ∀ {x y : ThreadId} {pc : Pc} {next : Bool → Pc},
      pc.compares = some (x, y) → ((∃ k', ((k.condSemaCmpPri x y).bind fun less =>
        some (k.goto (next less))) = some k') ↔ ∀ x' y', pc.compares = some (x', y') →
          x' ∈ (k.sema (.waiter x')).waiters ∧ y' ∈ (k.sema (.waiter y')).waiters) := by
    intro x y pc next hpc
    constructor
    · rintro ⟨k', hk'⟩ x' y' heq
      obtain ⟨less, hless, -⟩ := Option.bind_eq_some_iff.mp hk'
      cases hpc.symm.trans heq
      exact (condSemaCmpPri_isSome hsound x y).mp (Option.isSome_of_eq_some hless)
    · intro hblocked
      have hsome := (condSemaCmpPri_isSome hsound x y).mpr (hblocked x y hpc)
      obtain ⟨less, hless⟩ := Option.isSome_iff_exists.mp hsome
      exact ⟨_, by rw [hless]; rfl⟩
  have hother : ∀ {pc : Pc}, pc.compares = none → (∃ k', k.advance pc = some k') →
      ((∃ k', k.advance pc = some k') ↔ ∀ x y, pc.compares = some (x, y) →
        x ∈ (k.sema (.waiter x)).waiters ∧ y ∈ (k.sema (.waiter y)).waiters) :=
    fun hnone hsome => iff_of_true hsome fun _ _ heq => by cases hnone.symm.trans heq
  cases hsorts with
  | sorted ws =>
      cases hcond : k.cond c with
      | nil => exact absurd hcond hqueued
      | cons u rest => exact hother rfl ⟨_, by rw [advance, hcond]⟩
  | compare left right many rest => exact hcompare rfl
  | again perm many rest => exact hother rfl ⟨_, if_pos many⟩
  | once perm one rest => exact hother rfl ⟨_, if_neg one⟩
  | check left right many rest => exact hcompare rfl
  | checked rest => exact hother rfl ⟨_, rfl⟩

theorem Sound.goes_up (hsound : k.Sound) (hrestore : k.cur.restore = false)
    (hpc : k.cur.pc = .condUp u) : ∃ k', k.step .run = some k' := by
  rw [step_run hrestore, hpc]
  refine exists_semaUp fun t ht => ?_
  have hblocked := ((hsound.lists.waiters_iff _ t).mp ht).1
  by_cases hcurrent : t = k.current
  · subst hcurrent
    exact (congrArg Thread.status (modify_self _ _)).trans hblocked
  · exact (congrArg Thread.status (modify_of_ne hcurrent _)).trans hblocked

theorem UnderOneLock.begins (hok : k.UnderOneLock lockOf) (hrestore : k.cur.restore = false)
    (hpc : k.cur.pc = .next) {l : LockId} {rest : List Op}
    (hops : k.cur.ops = .condSignal c l :: rest) : ∃ k', k.step .run = some k' ∧
      (k.cond c ≠ [] → (k'.threads k.current).pc.signals = some c) := by
  have hholder := ((hok hpc c l rest).2 hops).2
  rw [step_run hrestore, hpc, advance, hops]
  change ∃ k', (k.setOps rest).begin rest (.condSignal c l) = some k' ∧ _
  have hbegin : (k.setOps rest).begin rest (.condSignal c l) =
      if (k.setOps rest).cond c = [] then some (k.setOps rest)
      else some ((k.setOps rest).goto (.condSort c
        (sortPass ((k.setOps rest).cond c).length ((k.setOps rest).cond c)))) := by
    refine (if_pos hholder).trans ?_
    cases (k.setOps rest).cond c <;> rfl
  rw [hbegin]
  split
  case isTrue hcond => exact ⟨_, rfl, fun hne => absurd hcond hne⟩
  case isFalse =>
      refine ⟨_, rfl, fun _ => ?_⟩
      exact congrArg (fun thread : Thread => thread.pc.signals) (modify_self _ _)

theorem Signals.pops (h : Signals lockOf k) (ht : (k.threads t).pc = .condPop c) :
    ∃ u rest, k.cond c = u :: rest ∧ ∀ v ∈ k.cond c, k.priority v ≤ k.priority u := by
  obtain ⟨-, n, zs, hsorting⟩ := h.sorting t c (ht ▸ rfl)
  have hsorts := hsorting.sorts
  have hdescending := hsorting.descending
  rw [ht] at hsorts
  cases hsorts with
  | sorted ws =>
      cases hcond : k.cond c with
      | nil => exact absurd hcond hsorting.queued
      | cons u rest =>
          rw [hcond, Descending, List.pairwise_cons] at hdescending
          refine ⟨u, rest, rfl, fun v hv => ?_⟩
          rcases List.mem_cons.mp hv with rfl | hv
          · exact Int.le_refl _
          · exact hdescending.1 v hv

theorem Signals.ups (h : Signals lockOf k)
    (hrestore : k.cur.restore = false) (hpc : k.cur.pc = .condUp u)
    (hk' : k.step .run = some k') : (k'.sema (.waiter u)).value = 1 ∧
      (k'.sema (.waiter u)).ups = (k.sema (.waiter u)).ups + 1 := by
  have hzero := (h.waiting u (.hand k.current) hpc).zero
  rw [step_run hrestore, hpc] at hk'
  obtain ⟨waiters, -, hshared⟩ := shared_semaUp hk'
  have hsema : k'.sema (.waiter u) = _ :=
    (congrFun (congrArg Shared.sema hshared) _).trans (Shared.setSema_self _ _ _)
  rw [hsema]
  refine ⟨?_, rfl⟩
  change ((k.sema (.waiter u)).value + 1) % 2 ^ 32 = 1
  rw [hzero]
  exact Nat.mod_eq_of_lt (by decide)

/-- With one lock for each condition, and apart from a comparison of a waiter that has not
blocked, `cond_signal` does what it is to do in every state that the kernel reaches. -/
theorem cond_signal_safe_iff {values : Nat → Nat} {acts : List KernelAct}
    (hrun : Run Kernel.step (fun k _ => k.UnderOneLock lockOf) (boot values) acts k) :
    k.SignalSafe lockOf ↔ k.WaitersBlocked := by
  obtain ⟨hsound, h⟩ := hrun.invariant (fun k => k.Sound ∧ Signals lockOf k)
    (fun h hok hk' => ⟨h.1.step hk', h.2.step h.1 hok hk'⟩)
    ⟨sound_boot values, signals_boot lockOf values⟩
  constructor
  · intro hsafe hrestore
    cases hpc : k.cur.pc.signals with
    | none =>
        intro x y hcompares
        generalize k.cur.pc = pc at hpc hcompares
        cases pc with
        | condSort c sort => cases hpc
        | condSorted c sorted => cases hpc
        | _ => cases hcompares
    | some c =>
        refine (h.goes_on hsound hrestore hpc).mp (hsafe.goes_on hrestore (Or.inl ?_))
        rw [hpc]
        exact fun h => by cases h
  · intro hblocked
    refine ⟨fun hok hrestore hpc c l rest => hok.begins hrestore hpc,
      fun hrestore hpc => ?_, fun t c ht => (h.sorting t c ht).2,
      fun hok act k' hk' t c n zs hsorting => ?_, fun t c => h.pops,
      fun hrestore u hpc k' => h.ups hrestore hpc⟩
    · rcases hpc with hpc | ⟨u, hpc⟩
      · obtain ⟨c, hc⟩ := Option.ne_none_iff_exists'.mp hpc
        exact (h.goes_on hsound hrestore hc).mpr (hblocked hrestore)
      · exact hsound.goes_up hrestore hpc
    · obtain ⟨hstep, hkeeps⟩ := step_cond (hsound.lists.unused _ (Nat.le_refl _))
        hsound.lists.current_lt hk'
      exact hsorting.step h hsound hok hstep hkeeps (hsound.shared hk')

end Runs

namespace CondSignalWitness

/-- A call, with the steps of its thread behind it. -/
def calls (op : Op) (steps : Nat) : List KernelAct :=
  .call op :: List.replicate steps .run

/-- One thread is in `sema_down` in `cond_wait`, and another one has yielded in
`lock_release` when the first thread signals. -/
def signals : List KernelAct :=
  calls (.threadCreate 31) 11 ++ calls (.threadCreate 31) 9 ++ calls (.lockAcquire 1) 3 ++
    calls (.condWait 0 1) 7 ++ calls .threadYield 4 ++ calls (.lockAcquire 1) 3 ++
      calls (.condWait 0 1) 5 ++ calls (.lockAcquire 1) 3 ++ calls (.condSignal 0 1) 1

/-- Two threads of greater priority have blocked in `cond_wait` when the first thread
signals. -/
def signalsBlocked : List KernelAct :=
  calls (.threadCreate 40) 12 ++ calls (.lockAcquire 1) 3 ++ calls (.condWait 0 1) 7 ++
    calls (.threadCreate 50) 12 ++ calls (.lockAcquire 1) 3 ++ calls (.condWait 0 1) 7 ++
      calls (.lockAcquire 1) 3 ++ calls (.condSignal 0 1) 5

def check (k : Kernel) : Bool :=
  match k.cur.pc, k.cur.ops with
  | .next, .condWait _ l :: _ => l = 1 ∧ k.cur.inside = [1]
  | .next, .condSignal _ l :: _ => l = 1 ∧ (k.lock 1).holder = some k.current
  | _, _ => true

theorem underOneLock_of_check {k : Kernel} (h : check k = true) :
    k.UnderOneLock fun _ => 1 := by
  intro hpc c l rest
  refine ⟨fun hops => ?_, fun hops => ?_⟩
  · rw [check, hpc, hops] at h
    obtain ⟨rfl, hinside⟩ := of_decide_eq_true h
    exact ⟨rfl, hinside⟩
  · rw [check, hpc, hops] at h
    obtain ⟨rfl, hholder⟩ := of_decide_eq_true h
    exact ⟨rfl, hholder⟩

/-- The steps of a run, each of which is checked. -/
def checked (acts : List KernelAct) : Option Kernel :=
  acts.foldlM (fun k act => if check k then k.step act else none) (boot fun _ => 0)

theorem run_of_checked {acts : List KernelAct} {k : Kernel} (h : checked acts = some k) :
    Run Kernel.step (fun k _ => k.UnderOneLock fun _ => 1) (boot fun _ => 0) acts k :=
  Run.of_check (fun k _ => check k) (fun _ => True) (fun _ _ => trivial)
    (fun _ hcheck => underOneLock_of_check hcheck) trivial h

/-- `cond_signal` compares the waiter that has not blocked, and fails. -/
theorem signal_fails :
    ¬ ∀ (lockOf : CondId → LockId) (values : Nat → Nat) (acts : List KernelAct) (k : Kernel),
      Run Kernel.step (fun k _ => k.UnderOneLock lockOf) (boot values) acts k →
        k.SignalSafe lockOf := by
  intro hsafe
  have hrun : ((checked signals).map fun k => (k.cur.restore, k.cur.pc.signals,
      (k.step .run).isSome)) = some (false, some 0, false) := by decide +kernel
  obtain ⟨k, hk, hvalues⟩ := Option.map_eq_some_iff.mp hrun
  rw [Prod.mk.injEq, Prod.mk.injEq] at hvalues
  obtain ⟨hrestore, hsignals, hnone⟩ := hvalues
  obtain ⟨k', hk'⟩ := (hsafe _ _ _ k (run_of_checked hk)).goes_on hrestore
    (Or.inl (by rw [hsignals]; exact fun h => by cases h))
  rw [hk'] at hnone
  cases hnone

theorem cond_signal_safe_iff_blocked :
    ∃ k, Run Kernel.step (fun k _ => k.UnderOneLock fun _ => 1) (boot fun _ => 0)
        signalsBlocked k ∧
      k.cond 0 = [3, 2] ∧ k.cur.pc.signals = some 0 ∧
        (k.SignalSafe (fun _ => 1) ↔ k.WaitersBlocked) := by
  have hrun : ((checked signalsBlocked).map fun k => (k.cond 0, k.cur.pc.signals)) =
      some ([3, 2], some 0) := by decide +kernel
  obtain ⟨k, hk, hvalues⟩ := Option.map_eq_some_iff.mp hrun
  have hreaches := run_of_checked hk
  exact ⟨k, hreaches, congrArg Prod.fst hvalues, congrArg Prod.snd hvalues,
    cond_signal_safe_iff hreaches⟩

end CondSignalWitness

end Kernel

end PintosLabs
