/-
The waiters of the conditions: `cond_wait` queues a thread before it blocks,
and only who takes it out of the queue lets it go on.
-/
import PintosLabs.CondSteps

namespace PintosLabs

namespace SharedStep

variable {c : ThreadId} {op : Option Op} {v v' : Shared} {l : LockId} {s : SemaId}

/-- In `lock_release`, before `sema_up`. -/
theorem of_removeLock (h : SharedStep c op v v') (hpc : v.pc c = .removeLock l) :
    v'.sema = v.sema ∧ v'.inside = v.inside ∧
      (v'.pc c = .removeLock l ∨ v'.pc c = .releaseUp l) := by
  cases h with
  | stay => exact ⟨rfl, rfl, Or.inl hpc⟩
  | removed before =>
      rw [hpc] at before
      cases before
      exact ⟨rfl, rfl, Or.inr (Shared.goto_self _ _ _)⟩
  | move before after =>
      rw [hpc] at before
      cases before
  | block before zero queued =>
      rw [hpc] at before
      cases before
  | pass before positive =>
      rw [hpc] at before
      cases before
  | up before woken =>
      rw [hpc] at before
      cases before
  | _ before => cases hpc.symm.trans before

theorem of_releaseUp (h : SharedStep c op v v') (hpc : v.pc c = .releaseUp l) :
    (∀ u, v'.sema (.waiter u) = v.sema (.waiter u)) ∧ v'.inside = v.inside ∧
      (v'.pc c = .releaseUp l ∨ v'.pc c = .next) := by
  cases h with
  | stay => exact ⟨fun _ => rfl, rfl, Or.inl hpc⟩
  | up before woken =>
      rw [hpc] at before
      cases before
      exact ⟨fun u => Shared.setSema_of_ne _ (fun h => by cases h) _, rfl,
        Or.inr (Shared.goto_self _ _ _)⟩
  | move before after =>
      rw [hpc] at before
      cases before
  | block before zero queued =>
      rw [hpc] at before
      cases before
  | pass before positive =>
      rw [hpc] at before
      cases before
  | _ before => cases hpc.symm.trans before

/-- In the loop of `sema_down`, with a semaphore of value 0. -/
theorem of_down (h : SharedStep c op v v') (hpc : v.pc c = .down s)
    (hzero : (v.sema s).value = 0) :
    (v'.sema s).value = 0 ∧ v'.inside = v.inside ∧ v'.pc c = .down s := by
  cases h with
  | stay => exact ⟨hzero, rfl, hpc⟩
  | block before zero queued =>
      rw [hpc] at before
      cases before
      refine ⟨?_, rfl, Shared.goto_self _ _ _⟩
      rw [Shared.setSema_self]
      exact hzero
  | pass before positive =>
      rw [hpc] at before
      cases before
      exact absurd hzero positive
  | move before after =>
      rw [hpc] at before
      cases before
  | up before woken =>
      rw [hpc] at before
      cases before
  | _ before => cases hpc.symm.trans before

/-- The semaphore of a waiter, in a step of another thread: it goes up where that thread
signals the waiter. -/
theorem waiter_sema (h : SharedStep c op v v') (hown : v.Own) {u : ThreadId} (hu : u ≠ c) :
    v'.sema (.waiter u) = v.sema (.waiter u) ∨ v.pc c = .condUp u ∧ v'.pc c = .next ∧
      (v'.sema (.waiter u)).value = ((v.sema (.waiter u)).value + 1) % 2 ^ 32 ∧
        (v'.sema (.waiter u)).ups = (v.sema (.waiter u)).ups + 1 := by
  have hother : ∀ {s : SemaId} {v₁ : Shared} {sema : Semaphore}, v₁.sema = v.sema →
      s ≠ .waiter u → (v₁.setSema s sema).sema (.waiter u) = v.sema (.waiter u) :=
    fun hsema hs => (Shared.setSema_of_ne _ hs.symm _).trans (congrFun hsema _)
  have hdowns : ∀ {s : SemaId}, (v.pc c).Downs c s → s ≠ .waiter u := by
    rintro s hs rfl
    generalize hpc : v.pc c = pc at hs
    cases hs with
    | waiter => exact hu rfl
    | again s => exact hu (hown c u hpc).symm
  cases h with
  | block before zero queued => exact Or.inl (hother rfl (hdowns before))
  | pass before positive => exact Or.inl (hother rfl (hdowns before))
  | tryDown before positive => exact Or.inl (hother rfl fun h => by cases h)
  | waiterInit before => exact Or.inl (hother rfl fun h => hu (SemaId.waiter.inj h).symm)
  | @up s waiters before woken =>
      by_cases hs : s = .waiter u
      · subst hs
        refine Or.inr ⟨?_, Shared.goto_self _ _ _, ?_, ?_⟩
        · generalize hpc : v.pc c = pc at before
          cases before
          rfl
        · rw [Shared.setSema_self]
        · rw [Shared.setSema_self]
      · exact Or.inl (hother rfl hs)
  | _ => exact Or.inl rfl

end SharedStep

/-- A thread in `cond_wait` with lock `l`, up to where its semaphore goes up. -/
inductive Thread.InWait (thread : Thread) (t : ThreadId) (l : LockId) : Prop
  | entering {rest : List Op} (pc : thread.pc = .next)
      (ops : thread.ops = .lockRelease l :: .waiterDown :: rest) (inside : thread.inside = [l])
  | releasing {rest : List Op} (pc : thread.pc = .removeLock l ∨ thread.pc = .releaseUp l)
      (ops : thread.ops = .waiterDown :: rest) (inside : thread.inside = [])
  | released {rest : List Op} (pc : thread.pc = .next) (ops : thread.ops = .waiterDown :: rest)
      (inside : thread.inside = [])
  | sleeping (pc : thread.pc = .down (.waiter t)) (inside : thread.inside = [])

theorem Thread.InWait.congr {thread thread' : Thread} {t : ThreadId} {l : LockId}
    (h : thread.InWait t l) (hpc : thread'.pc = thread.pc) (hops : thread'.ops = thread.ops)
    (hinside : thread'.inside = thread.inside) : thread'.InWait t l := by
  cases h with
  | entering pc ops inside =>
      exact .entering (hpc.trans pc) (hops.trans ops) (hinside.trans inside)
  | releasing pc ops inside =>
      exact .releasing (pc.imp hpc.trans hpc.trans) (hops.trans ops) (hinside.trans inside)
  | released pc ops inside =>
      exact .released (hpc.trans pc) (hops.trans ops) (hinside.trans inside)
  | sleeping pc inside => exact .sleeping (hpc.trans pc) (hinside.trans inside)

/-- What is to let a thread in `cond_wait` go on: the queue it is in, or the thread that
has taken it out. -/
inductive Place where
  | queue (c : CondId)
  | hand (t : ThreadId)

namespace Kernel

def At (k : Kernel) (u : ThreadId) : Place → Prop
  | .queue c => u ∈ k.cond c
  | .hand t => (k.threads t).pc = .condUp u

/-- The running thread waits on a condition, or signals one, with the lock of the
condition, and waits with no other lock. -/
def UnderOneLock (lockOf : CondId → LockId) (k : Kernel) : Prop :=
  k.cur.pc = .next → ∀ c l rest,
    (k.cur.ops = .condWait c l :: rest → l = lockOf c ∧ k.cur.inside = [l]) ∧
      (k.cur.ops = .condSignal c l :: rest →
        l = lockOf c ∧ (k.lock l).holder = some k.current)

/-- A thread that is queued, or taken out of the queue, is in `cond_wait`, and in no other
place. -/
structure Waiting (lockOf : CondId → LockId) (k : Kernel) (u : ThreadId) (p : Place) :
    Prop where
  unique : ∀ q, k.At u q → q = p
  inWait : ∃ l, (k.threads u).InWait u l ∧ ∀ c, p = .queue c → l = lockOf c
  zero : (k.sema (.waiter u)).value = 0

structure Waiters (lockOf : CondId → LockId) (k : Kernel) : Prop where
  nodup : ∀ c, (k.cond c).Nodup
  waiting : ∀ u p, k.At u p → k.Waiting lockOf u p

section Step

variable {lockOf : CondId → LockId} {k k' : Kernel} {l : LockId} {c : CondId}
  {t u : ThreadId}

theorem ops_current {ops : List Op} (h : k'.ops = Function.update k.ops k.current ops) :
    (k'.threads k.current).ops = ops :=
  (congrFun h k.current).trans (Function.update_self _ _ _)

/-- A step of a thread in `cond_wait` whose semaphore has not gone up. -/
theorem CondStep.inWait (h : CondStep k k')
    (hshared : SharedStep k.current k.calling k.shared k'.shared)
    (hwait : k.cur.InWait k.current l) (hzero : (k.sema (.waiter k.current)).value = 0) :
    (k'.threads k.current).InWait k.current l ∧
      (k'.sema (.waiter k.current)).value = 0 := by
  have hplace : k.cur.pc.signals = none := by
    cases hwait with
    | releasing pc ops inside => rcases pc with pc | pc <;> rw [pc] <;> rfl
    | _ pc => rw [pc]; rfl
  have hops : ∀ {op : Op} {rest : List Op}, k.cur.pc = .next → k.cur.ops = op :: rest →
      op = .lockRelease l ∧ (∃ rest', rest = .waiterDown :: rest') ∧ k.cur.inside = [l] ∨
        op = .waiterDown ∧ k.cur.inside = [] := by
    intro op rest hpc hcalls
    cases hwait with
    | entering pc ops inside =>
        rw [hcalls, List.cons.injEq] at ops
        exact Or.inl ⟨ops.1, ⟨_, ops.2⟩, inside⟩
    | releasing pc ops inside => rcases pc with pc | pc <;> cases hpc.symm.trans pc
    | released pc ops inside =>
        rw [hcalls, List.cons.injEq] at ops
        exact Or.inr ⟨ops.1, inside⟩
    | sleeping pc inside => cases hpc.symm.trans pc
  have hnot : ∀ {op : Op} {rest : List Op} {P : Prop}, k.cur.pc = .next →
      k.cur.ops = op :: rest → op ≠ .lockRelease l → op ≠ .waiterDown → P := by
    intro op rest P hpc hcalls hrelease hdown
    rcases hops hpc hcalls with ⟨hop, -⟩ | ⟨hop, -⟩
    · exact absurd hop hrelease
    · exact absurd hop hdown
  cases h with
  | stay shared ops cond =>
      refine ⟨hwait.congr ?_ (congrFun ops _) ?_, ?_⟩
      · exact congrFun (congrArg Shared.pc shared) _
      · exact congrFun (congrArg Shared.inside shared) _
      · rw [← shared_sema, shared]
        exact hzero
  | call isCall before nothing shared ops cond =>
      cases hwait with
      | releasing pc ops inside => rcases pc with pc | pc <;> cases before.symm.trans pc
      | sleeping pc inside => cases before.symm.trans pc
      | _ pc ops => cases nothing.symm.trans ops
  | goOn before other after up ops cond =>
      have hopsEq : (k'.threads k.current).ops = k.cur.ops := congrFun ops _
      cases hwait with
      | entering pc ops inside => exact absurd pc before
      | released pc ops inside => exact absurd pc before
      | releasing pc ops inside =>
          rcases pc with pc | pc
          · obtain ⟨hsema, hinside, hpc⟩ := hshared.of_removeLock pc
            refine ⟨.releasing hpc (hopsEq.trans ops) ?_, ?_⟩
            · exact (congrFun hinside _).trans inside
            · exact (congrArg Semaphore.value (congrFun hsema _)).trans hzero
          · obtain ⟨hsema, hinside, hpc⟩ := hshared.of_releaseUp pc
            refine ⟨?_, (congrArg Semaphore.value (hsema _)).trans hzero⟩
            have hinside' := (congrFun hinside k.current).trans inside
            rcases hpc with hpc | hpc
            · exact .releasing (Or.inr hpc) (hopsEq.trans ops) hinside'
            · exact .released hpc (hopsEq.trans ops) hinside'
      | sleeping pc inside =>
          obtain ⟨hvalue, hinside, hpc⟩ := hshared.of_down pc hzero
          exact ⟨.sleeping hpc ((congrFun hinside _).trans inside), hvalue⟩
  | begins plain new before calls waiters after ops cond =>
      refine hnot before calls ?_ ?_ <;> rintro rfl <;> cases plain
  | releases before calls shared ops cond =>
      rcases hops before calls with ⟨hop, ⟨rest', hrest⟩, hinside⟩ | ⟨hop, -⟩
      · cases hop
        refine ⟨.releasing (Or.inl ?_) ((ops_current ops).trans hrest) ?_, ?_⟩
        · exact (congrFun (congrArg Shared.pc shared) _).trans (Shared.goto_self _ _ _)
        · refine (congrFun (congrArg Shared.inside shared) _).trans ?_
          refine (Function.update_self _ _ _).trans ?_
          rw [hinside]
          simp
        · exact (congrArg (fun v => (v.sema (.waiter k.current)).value) shared).trans hzero
      · cases hop
  | waits before calls holder shared ops cond =>
      exact hnot before calls (fun h => by cases h) fun h => by cases h
  | @downs rest pc sema before calls place shared ops cond =>
      rcases hops before calls with ⟨hop, -⟩ | ⟨-, hinside⟩
      · cases hop
      · rcases place with ⟨rfl, -, hvalue⟩ | ⟨-, hne⟩
        · refine ⟨.sleeping ?_ ?_, ?_⟩
          · exact (congrFun (congrArg Shared.pc shared) _).trans (Shared.goto_self _ _ _)
          · exact (congrFun (congrArg Shared.inside shared) _).trans hinside
          · refine (congrArg (fun v => (v.sema (.waiter k.current)).value) shared).trans ?_
            rw [Shared.setSema_self]
            exact hvalue
        · exact absurd hzero hne
  | signals before calls holder queued shared ops cond =>
      exact hnot before calls (fun h => by cases h) fun h => by cases h
  | compares place before answer shared ops cond =>
      rcases place with ⟨next, rfl, rfl⟩ | ⟨next, rfl, rfl⟩ <;>
        rw [before] at hplace <;> cases hplace
  | passed before shared ops cond =>
      rw [before] at hplace
      cases hplace
  | checked before shared ops cond =>
      rw [before] at hplace
      cases hplace
  | pops before queue shared ops cond =>
      rw [before] at hplace
      cases hplace

theorem CondStep.ops_of_ne (h : CondStep k k') (hu : u ≠ k.current) :
    (k'.threads u).ops = (k.threads u).ops := by
  have hsame : k'.ops = k.ops ∨ ∃ ops, k'.ops = Function.update k.ops k.current ops := by
    cases h with
    | stay _ ops | goOn _ _ _ _ ops | compares _ _ _ _ ops | passed _ _ ops | checked _ _ ops
    | pops _ _ _ ops => exact Or.inl ops
    | call _ _ _ _ ops | begins _ _ _ _ _ _ ops | releases _ _ _ ops | waits _ _ _ _ ops
    | downs _ _ _ _ ops | signals _ _ _ _ _ ops => exact Or.inr ⟨_, ops⟩
  rcases hsame with hops | ⟨ops, hops⟩
  · exact congrFun hops u
  · exact (congrFun hops u).trans (Function.update_of_ne hu _ _)

/-- Where no thread is queued or taken out, whatever is in a place has been there. -/
theorem at_of (hshared : SharedStep k.current k.calling k.shared k'.shared)
    (hup : ∀ u, (k'.threads k.current).pc = .condUp u → k.cur.pc = .condUp u)
    (hcond : ∀ c, (k'.cond c).Perm (k.cond c)) (u : ThreadId) (p : Place)
    (hu : k'.At u p) : k.At u p := by
  cases p with
  | queue c => exact (hcond c).mem_iff.mp hu
  | hand t =>
      by_cases ht : t = k.current
      · subst ht
        exact hup u hu
      · exact (hshared.pc_of_ne ht).symm.trans hu

/-- Only the start of `cond_wait` and the pop in `cond_signal` change who is where. -/
theorem CondStep.at_cases (h : CondStep k k')
    (hshared : SharedStep k.current k.calling k.shared k'.shared)
    (hperm : ∀ c ws runs, k.cur.pc = .condSort c (.done (ws, runs)) → ws.Perm (k.cond c)) :
    ((∀ u p, k'.At u p → k.At u p) ∧ ∀ c, (k'.cond c).Perm (k.cond c)) ∨
      (∃ c l rest, k.cur.pc = .next ∧ k.cur.ops = .condWait c l :: rest ∧
        k'.shared = k.shared.setSema (.waiter k.current) (semaInit 0) ∧
        k'.ops = Function.update k.ops k.current
          (.lockRelease l :: .waiterDown :: .lockAcquire l :: rest) ∧
        k'.cond = Function.update k.cond c (k.cond c ++ [k.current])) ∨
      ∃ c t rest, k.cur.pc = .condPop c ∧ k.cond c = t :: rest ∧
        k'.shared = k.shared.goto k.current (.condUp t) ∧ k'.ops = k.ops ∧
        k'.cond = Function.update k.cond c rest := by
  have hsame : (∀ u, (k'.threads k.current).pc = .condUp u → k.cur.pc = .condUp u) →
      k'.cond = k.cond →
      (∀ u p, k'.At u p → k.At u p) ∧ ∀ c, (k'.cond c).Perm (k.cond c) := by
    intro hup hcond
    have hperm' : ∀ c, (k'.cond c).Perm (k.cond c) := fun c => by rw [hcond]
    exact ⟨at_of hshared hup hperm', hperm'⟩
  have hgoto : ∀ {v : Shared} {pc : Pc}, k'.shared = v → v.pc k.current = pc →
      (∀ u, pc ≠ .condUp u) →
      ∀ u, (k'.threads k.current).pc = .condUp u → k.cur.pc = .condUp u :=
    fun hv hpc hne u hu => absurd
      (hpc.symm.trans ((congrFun (congrArg Shared.pc hv) _).symm.trans hu)) (hne u)
  cases h with
  | stay shared ops cond =>
      refine Or.inl (hsame (fun u hu => ?_) cond)
      exact (congrFun (congrArg Shared.pc shared) _).symm.trans hu
  | call isCall before nothing shared ops cond =>
      exact Or.inl (hsame (hgoto shared before fun _ h => by cases h) cond)
  | goOn before other after up ops cond => exact Or.inl (hsame up cond)
  | begins plain new before calls waiters after ops cond =>
      refine Or.inl (hsame (fun u hu => ?_) cond)
      rw [hu] at after
      cases after
  | releases before calls shared ops cond =>
      exact Or.inl (hsame
        (hgoto shared (Shared.goto_self _ _ _) fun _ h => by cases h) cond)
  | waits before calls holder shared ops cond =>
      exact Or.inr (Or.inl ⟨_, _, _, before, calls, shared, ops, cond⟩)
  | downs before calls place shared ops cond =>
      refine Or.inl (hsame (hgoto shared (Shared.goto_self _ _ _) fun u h => ?_) cond)
      rcases place with ⟨rfl, -⟩ | ⟨rfl, -⟩ <;> cases h
  | signals before calls holder queued shared ops cond =>
      exact Or.inl (hsame
        (hgoto shared (Shared.goto_self _ _ _) fun _ h => by cases h) cond)
  | compares place before answer shared ops cond =>
      refine Or.inl (hsame (hgoto shared (Shared.goto_self _ _ _) fun u h => ?_) cond)
      rcases place with ⟨next, -, rfl⟩ | ⟨next, -, rfl⟩ <;> cases h
  | @passed c waiters runs before shared ops cond =>
      have hup := hgoto shared (Shared.goto_self _ _ _) fun u h => by split at h <;> cases h
      have hperm' : ∀ d, (k'.cond d).Perm (k.cond d) := by
        intro d
        rw [cond]
        by_cases hd : d = c
        · subst hd
          rw [Function.update_self]
          exact hperm d _ _ before
        · rw [Function.update_of_ne hd]
      exact Or.inl ⟨at_of hshared hup hperm', hperm'⟩
  | checked before shared ops cond =>
      exact Or.inl (hsame
        (hgoto shared (Shared.goto_self _ _ _) fun _ h => by cases h) cond)
  | pops before queue shared ops cond =>
      exact Or.inr (Or.inr ⟨_, _, _, before, queue, shared, ops, cond⟩)

/-- A step of another thread, which does not signal the waiter. -/
theorem Waiting.frame {p q : Place} (h : k.Waiting lockOf u q) (hu : u ≠ k.current)
    (hstep : CondStep k k')
    (hshared : SharedStep k.current k.calling k.shared k'.shared)
    (hsema : k'.sema (.waiter u) = k.sema (.waiter u))
    (hunique : ∀ q, k'.At u q → q = p) (hplace : ∀ c, p = .queue c → q = .queue c) :
    k'.Waiting lockOf u p := by
  obtain ⟨l, hwait, hl⟩ := h.inWait
  refine ⟨hunique, ⟨l, ?_, fun c hc => hl c (hplace c hc)⟩, ?_⟩
  · exact hwait.congr (hshared.pc_of_ne hu) (hstep.ops_of_ne hu) (hshared.inside_of_ne hu)
  · rw [hsema]
    exact h.zero

theorem Waiting.pc_cases {p : Place} (h : k.Waiting lockOf u p) :
    (k.threads u).pc = .next ∧ (∃ l rest, (k.threads u).ops = .lockRelease l :: rest ∨
        (k.threads u).ops = .waiterDown :: rest) ∨
      (k.threads u).pc ≠ .next ∧ ∀ c, (k.threads u).pc ≠ .condPop c := by
  obtain ⟨l, hwait, -⟩ := h.inWait
  cases hwait with
  | entering pc ops inside => exact Or.inl ⟨pc, l, _, Or.inl ops⟩
  | released pc ops inside => exact Or.inl ⟨pc, l, _, Or.inr ops⟩
  | releasing pc ops inside =>
      rcases pc with pc | pc <;> rw [pc]
      · refine Or.inr ⟨fun h => ?_, fun _ h => ?_⟩ <;> cases h
      · refine Or.inr ⟨fun h => ?_, fun _ h => ?_⟩ <;> cases h
  | sleeping pc inside =>
      rw [pc]
      refine Or.inr ⟨fun h => ?_, fun _ h => ?_⟩ <;> cases h

/-- A thread that begins `cond_wait` is in no place before. -/
theorem Waiters.nowhere (h : Waiters lockOf k) {rest : List Op} (hpc : k.cur.pc = .next)
    (hops : k.cur.ops = .condWait c l :: rest) (p : Place) : ¬ k.At k.current p := by
  intro hp
  rcases (h.waiting _ p hp).pc_cases with ⟨-, m, rest', hops' | hops'⟩ | ⟨hne, -⟩
  · cases hops.symm.trans hops'
  · cases hops.symm.trans hops'
  · exact hne hpc

/-- A step that queues no thread and takes out none. -/
theorem Waiters.same (h : Waiters lockOf k) (hown : k.shared.Own)
    (hstep : CondStep k k')
    (hshared : SharedStep k.current k.calling k.shared k'.shared)
    (hat : ∀ u p, k'.At u p → k.At u p) (hcond : ∀ c, (k'.cond c).Perm (k.cond c)) :
    Waiters lockOf k' := by
  refine ⟨fun c => (hcond c).nodup_iff.mpr (h.nodup c), fun u p hp => ?_⟩
  have hwaiting := h.waiting u p (hat u p hp)
  have hunique : ∀ q, k'.At u q → q = p := fun q hq => hwaiting.unique q (hat u q hq)
  by_cases hu : u = k.current
  · subst hu
    obtain ⟨l, hwait, hl⟩ := hwaiting.inWait
    obtain ⟨hwait', hzero'⟩ := hstep.inWait hshared hwait hwaiting.zero
    exact ⟨hunique, ⟨l, hwait', hl⟩, hzero'⟩
  · rcases hshared.waiter_sema hown hu with hsema | ⟨hup, hnext, -⟩
    · exact hwaiting.frame hu hstep hshared hsema hunique fun c hc => hc
    · -- the place of the waiter is the thread that signals it, and no longer
      have hp' : p = .hand k.current := (hwaiting.unique (.hand k.current) hup).symm
      rw [hp'] at hp
      exact absurd (hnext.symm.trans hp) fun h => by cases h

/-- The start of `cond_wait`. -/
theorem Waiters.waits (h : Waiters lockOf k) (hok : k.UnderOneLock lockOf)
    (hstep : CondStep k k')
    (hshared : SharedStep k.current k.calling k.shared k'.shared) {rest : List Op}
    (hpc : k.cur.pc = .next) (hcalls : k.cur.ops = .condWait c l :: rest)
    (hshared' : k'.shared = k.shared.setSema (.waiter k.current) (semaInit 0))
    (hops : k'.ops = Function.update k.ops k.current
      (.lockRelease l :: .waiterDown :: .lockAcquire l :: rest))
    (hcond : k'.cond = Function.update k.cond c (k.cond c ++ [k.current])) :
    Waiters lockOf k' := by
  have hnowhere := h.nowhere hpc hcalls
  have hpc' : (k'.threads k.current).pc = .next :=
    (congrFun (congrArg Shared.pc hshared') _).trans hpc
  obtain ⟨hl, hinside⟩ := (hok hpc c l rest).1 hcalls
  have hqueue : ∀ d, ∀ u ∈ k'.cond d, u ∈ k.cond d ∨ d = c ∧ u = k.current := by
    intro d u hu
    rw [hcond] at hu
    by_cases hd : d = c
    · subst hd
      rw [Function.update_self] at hu
      rcases List.mem_append.mp hu with hu | hu
      · exact Or.inl hu
      · exact Or.inr ⟨rfl, List.mem_singleton.mp hu⟩
    · rw [Function.update_of_ne hd] at hu
      exact Or.inl hu
  have hat : ∀ u p, k'.At u p → k.At u p ∨ u = k.current ∧ p = .queue c := by
    intro u p hp
    cases p with
    | queue d =>
        rcases hqueue d u hp with hu | ⟨rfl, hu⟩
        · exact Or.inl hu
        · exact Or.inr ⟨hu, rfl⟩
    | hand t =>
        exact Or.inl ((congrFun (congrArg Shared.pc hshared') t).symm.trans hp)
  refine ⟨fun d => ?_, fun u p hp => ?_⟩
  · rw [hcond]
    by_cases hd : d = c
    · subst hd
      rw [Function.update_self]
      exact List.nodup_append.mpr ⟨h.nodup d, List.nodup_singleton _,
        fun a ha b hb hab => hnowhere (.queue d) (by
          rw [List.mem_singleton.mp hb] at hab
          exact hab ▸ ha)⟩
    · rw [Function.update_of_ne hd]
      exact h.nodup d
  · by_cases hu : u = k.current
    · subst hu
      have hplace : ∀ q, k'.At k.current q → q = .queue c := fun q hq =>
        (hat _ q hq).elim (fun hq => absurd hq (hnowhere q)) And.right
      have hp' := hplace p hp
      refine ⟨fun q hq => (hplace q hq).trans hp'.symm, ⟨l, .entering hpc' (ops_current hops) ?_,
        fun d hd => ?_⟩, ?_⟩
      · exact (congrFun (congrArg Shared.inside hshared') _).trans hinside
      · rw [← Place.queue.inj (hp'.symm.trans hd)]
        exact hl
      · refine (congrArg (fun v => (v.sema (.waiter k.current)).value) hshared').trans ?_
        rw [Shared.setSema_self]
        rfl
    · have hat' : ∀ q, k'.At u q → k.At u q := fun q hq =>
        (hat u q hq).elim id fun hq => absurd hq.1 hu
      have hwaiting := h.waiting u p (hat' p hp)
      refine hwaiting.frame hu hstep hshared ?_
        (fun q hq => hwaiting.unique q (hat' q hq)) fun _ => id
      refine (congrFun (congrArg Shared.sema hshared') _).trans ?_
      exact Shared.setSema_of_ne _ (fun h => hu (SemaId.waiter.inj h)) _

/-- The pop in `cond_signal`. -/
theorem Waiters.pops (h : Waiters lockOf k) (hstep : CondStep k k')
    (hshared : SharedStep k.current k.calling k.shared k'.shared) {rest : List ThreadId}
    (hpc : k.cur.pc = .condPop c) (hqueue : k.cond c = t :: rest)
    (hshared' : k'.shared = k.shared.goto k.current (.condUp t))
    (hcond : k'.cond = Function.update k.cond c rest) :
    Waiters lockOf k' := by
  have hmem : t ∈ k.cond c := hqueue ▸ List.mem_cons_self
  have hnodup := h.nodup c
  rw [hqueue, List.nodup_cons] at hnodup
  have hpc' : (k'.threads k.current).pc = .condUp t :=
    (congrFun (congrArg Shared.pc hshared') _).trans (Shared.goto_self _ _ _)
  have hsema : k'.sema = k.sema := congrArg Shared.sema hshared'
  have hcond' : ∀ d, ∀ u ∈ k'.cond d, u ∈ k.cond d ∧ (d = c → u ≠ t) := by
    intro d u hu
    rw [hcond] at hu
    by_cases hd : d = c
    · subst hd
      rw [Function.update_self] at hu
      rw [hqueue]
      refine ⟨List.mem_cons_of_mem _ hu, fun _ heq => ?_⟩
      exact hnodup.1 (heq ▸ hu)
    · rw [Function.update_of_ne hd] at hu
      exact ⟨hu, fun h => absurd h hd⟩
  have hat : ∀ u p, k'.At u p → u ≠ t ∧ k.At u p ∨ u = t ∧ p = .hand k.current := by
    intro u p hp
    by_cases hu : u = t
    · subst hu
      refine Or.inr ⟨rfl, ?_⟩
      have hqueued := (h.waiting u (.queue c) hmem).unique
      cases p with
      | queue d =>
          obtain ⟨hd, hne⟩ := hcond' d u hp
          exact absurd rfl (hne (Place.queue.inj (hqueued (.queue d) hd)))
      | hand v =>
          by_cases hv : v = k.current
          · rw [hv]
          · have hv' : k.At u (.hand v) := (hshared.pc_of_ne hv).symm.trans hp
            cases hqueued (.hand v) hv'
    · refine Or.inl ⟨hu, ?_⟩
      cases p with
      | queue d => exact (hcond' d u hp).1
      | hand v =>
          by_cases hv : v = k.current
          · rw [hv] at hp
            exact absurd (Pc.condUp.inj (hpc'.symm.trans hp)).symm hu
          · exact (hshared.pc_of_ne hv).symm.trans hp
  have hcurrent : ∀ u p, k.At u p → u ≠ k.current := by
    rintro u p hp rfl
    rcases (h.waiting _ p hp).pc_cases with ⟨hnext, -⟩ | ⟨-, hne⟩
    · cases hpc.symm.trans hnext
    · exact hne c hpc
  refine ⟨fun d => ?_, fun u p hp => ?_⟩
  · rw [hcond]
    by_cases hd : d = c
    · subst hd
      rw [Function.update_self]
      exact hnodup.2
    · rw [Function.update_of_ne hd]
      exact h.nodup d
  · rcases hat u p hp with ⟨hu, hp'⟩ | ⟨rfl, rfl⟩
    · have hwaiting := h.waiting u p hp'
      refine hwaiting.frame (hcurrent u p hp') hstep hshared (congrFun hsema _)
        (fun q hq => ?_) fun _ => id
      rcases hat u q hq with ⟨-, hq'⟩ | ⟨hq', -⟩
      · exact hwaiting.unique q hq'
      · exact absurd hq' hu
    · refine (h.waiting u (.queue c) hmem).frame (hcurrent u (.queue c) hmem) hstep hshared
        (congrFun hsema _) (fun q hq => ?_) fun d hd => ?_
      · rcases hat u q hq with ⟨hu, -⟩ | ⟨-, hq'⟩
        · exact absurd rfl hu
        · exact hq'
      · cases hd

theorem Waiters.step (h : Waiters lockOf k) (hown : k.shared.Own)
    (hok : k.UnderOneLock lockOf) (hstep : CondStep k k')
    (hshared : SharedStep k.current k.calling k.shared k'.shared)
    (hperm : ∀ c ws runs, k.cur.pc = .condSort c (.done (ws, runs)) → ws.Perm (k.cond c)) :
    Waiters lockOf k' := by
  rcases hstep.at_cases hshared hperm with ⟨hat, hcond⟩ |
    ⟨c, l, rest, hpc, hcalls, hshared', hops, hcond⟩ |
      ⟨c, t, rest, hpc, hqueue, hshared', -, hcond⟩
  · exact h.same hown hstep hshared hat hcond
  · exact h.waits hok hstep hshared hpc hcalls hshared' hops hcond
  · exact h.pops hstep hshared hpc hqueue hshared' hcond

end Step

end Kernel

end PintosLabs
