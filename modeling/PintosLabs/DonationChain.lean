/-
The donation loop of `lock_acquire` walks from a lock to its holder and on to
the lock that the holder waits for.  A lock on its way may be without a holder:
it has been released and the thread that is to get it has not run yet.
-/
import PintosLabs.KernelRuns

namespace PintosLabs

/-- The lock that a thread in the donation loop looks at. -/
def Pc.visits : Pc → Option LockId
  | setWaiting l => some l
  | donateTest _ lk => lk
  | donateMax _ lk | donatePri _ lk | donateNext _ lk => some lk
  | _ => none

/-- The lock that a thread is in `lock_acquire` for, up to where it forgets it. -/
def Pc.awaits : Pc → Option LockId
  | setWaiting l | donateTest l _ | donateMax l _ | donatePri l _ | donateNext l _
  | acquireDown l | down (.lock l) | take l => some l
  | _ => none

namespace Shared

/-- Thread `t` is in `lock_acquire`, has found lock `l` held or looks at it in the
donation loop, and has not got to `sema_down`. -/
def Meets (v : Shared) (t : ThreadId) (l : LockId) : Prop :=
  (v.pc t).visits = some l ∨ (v.pc t).donatingFor = some l ∨
    v.pc t = .acquireDown l ∧ v.waitingLock t = some l

/-- A thread is between the test of the semaphore of lock `l` and its record as
the holder. -/
def Wanted (v : Shared) (l : LockId) : Prop :=
  ∃ t, v.pc t = .down (.lock l) ∨ v.pc t = .take l

/-- A thread has recorded only the lock that it is in `lock_acquire` for. -/
def Recorded (v : Shared) : Prop :=
  ∀ t l, v.waitingLock t = some l → (v.pc t).awaits = some l

/-- The donation chain: where the threads are that have recorded a lock, and the
holders of the locks in the loop. -/
structure Chain (v : Shared) : Prop where
  waiting : ∀ t l, v.waitingLock t = some l → (v.pc t).awaits = some l
  held : ∀ t l, (v.pc t).donatingFor = some l ∨
    v.pc t = .acquireDown l ∧ v.waitingLock t = some l → v.holder l ≠ none
  visited : ∀ t l, (v.pc t).visits = some l → v.holder l ≠ none ∨
    (∃ m, v.pc t = .donateTest m (some l)) ∧ v.Wanted l

end Shared

variable {c : ThreadId} {op : Option Op} {v v' : Shared}

namespace SharedStep

theorem holder (h : SharedStep c op v v') (l : LockId) :
    v'.holder l = v.holder l ∨ v'.holder l = some c ∨
      op = some (.lockRelease l) ∧ v'.pc c = .removeLock l := by
  cases h with
  | @take m before =>
      by_cases hl : l = m
      · subst hl
        exact Or.inr (Or.inl (Function.update_self _ _ _))
      · exact Or.inl (Function.update_of_ne hl _ _)
  | @setHolder m before =>
      by_cases hl : l = m
      · subst hl
        exact Or.inr (Or.inl (Function.update_self _ _ _))
      · exact Or.inl (Function.update_of_ne hl _ _)
  | @release m before call holder =>
      by_cases hl : l = m
      · subst hl
        exact Or.inr (Or.inr ⟨call, v.goto_self c _⟩)
      · exact Or.inl (Function.update_of_ne hl _ _)
  | _ => exact Or.inl rfl

/-- A lock keeps a holder unless it is released. -/
theorem holder_ne_none (h : SharedStep c op v v') {l : LockId}
    (hop : op = some (.lockRelease l) → v'.pc c ≠ .removeLock l)
    (hholder : v.holder l ≠ none) : v'.holder l ≠ none := by
  rcases h.holder l with hsame | hmine | ⟨hrelease, hpc⟩
  · rwa [hsame]
  · rw [hmine]
    exact nofun
  · exact absurd hpc (hop hrelease)

/-- A thread that wants a lock goes on wanting it until it is the holder. -/
theorem wanted_cur (h : SharedStep c op v v') {l : LockId}
    (hv : v.pc c = .down (.lock l) ∨ v.pc c = .take l) :
    v'.holder l ≠ none ∨ v'.Wanted l := by
  have hquiet : ¬ (v.pc c).isQuiet := by
    rcases hv with hpc | hpc <;> rw [hpc] <;> exact nofun
  have hups : ∀ s, ¬ (v.pc c).Ups s := by
    rcases hv with hpc | hpc <;> rw [hpc] <;> exact nofun
  have hdowns : ∀ s, (v.pc c).Downs c s → s = .lock l := by
    intro s hs
    rcases hv with hpc | hpc <;> rw [hpc] at hs <;> cases hs
    rfl
  cases h with
  | stay => exact Or.inr ⟨c, hv⟩
  | move before after => exact absurd before hquiet
  | block before zero queued =>
      have hs := hdowns _ before
      subst hs
      exact Or.inr ⟨c, Or.inl (v.goto_self c _)⟩
  | pass before positive =>
      have hs := hdowns _ before
      subst hs
      exact Or.inr ⟨c, Or.inr (v.goto_self c _)⟩
  | tryDown before positive => exact Or.inr ⟨c, hv⟩
  | up before woken => exact absurd before (hups _)
  | @take m before =>
      rcases hv with hpc | hpc
      · exact absurd (hpc.symm.trans before) nofun
      · have hm := Pc.take.inj (hpc.symm.trans before)
        subst hm
        refine Or.inl ?_
        simp only [Function.update_self]
        exact nofun
  | waiterInit before => exact Or.inr ⟨c, hv⟩
  | _ before => rcases hv with hpc | hpc <;> exact absurd (hpc.symm.trans before) nofun

theorem wanted (h : SharedStep c op v v') {l : LockId} (hv : v.Wanted l) :
    v'.holder l ≠ none ∨ v'.Wanted l := by
  obtain ⟨t, ht⟩ := hv
  by_cases htc : t = c
  · exact h.wanted_cur (htc ▸ ht)
  · exact Or.inr ⟨t, by rwa [h.pc_of_ne htc]⟩

end SharedStep

theorem Pc.awaits_of_isQuiet {pc : Pc} (h : pc.isQuiet) : pc.awaits = none := by
  cases pc <;> first | rfl | cases h

theorem Pc.donatingFor_of_isQuiet {pc : Pc} (h : pc.isQuiet) :
    pc.donatingFor = none := by
  cases pc <;> first | rfl | cases h

theorem Pc.visits_of_isQuiet {pc : Pc} (h : pc.isQuiet) : pc.visits = none := by
  cases pc <;> first | rfl | cases h

theorem Pc.awaits_of_ups {pc : Pc} {s : SemaId} (h : pc.Ups s) : pc.awaits = none := by
  cases h <;> rfl

/-- A thread on its way through `sema_down` awaits what it did. -/
theorem Pc.Downs.awaits {pc : Pc} {s : SemaId} {l : LockId} (h : pc.Downs c s)
    (hpc : pc.awaits = some l) : s = .lock l := by
  cases h with
  | sema n => cases hpc
  | waiter => cases hpc
  | acquire m => exact congrArg SemaId.lock (Option.some.inj hpc)
  | again s =>
      cases s with
      | lock m => exact congrArg SemaId.lock (Option.some.inj hpc)
      | _ => cases hpc

theorem Pc.awaits_cases {pc : Pc} {l : LockId} (h : pc.awaits = some l) :
    pc.donatingFor = some l ∨ pc = .acquireDown l ∨ pc = .down (.lock l) ∨
      pc = .take l := by
  cases pc with
  | acquireDown m => exact Or.inr (Or.inl (congrArg Pc.acquireDown (Option.some.inj h)))
  | down s =>
      cases s with
      | lock m =>
          have hm := Option.some.inj h
          exact Or.inr (Or.inr (Or.inl (hm ▸ rfl)))
      | _ => cases h
  | take m => exact Or.inr (Or.inr (Or.inr (congrArg Pc.take (Option.some.inj h))))
  | _ => exact Or.inl h

/-- The lock that a thread has recorded has a holder or is on its way to one. -/
theorem Shared.Chain.recorded (hv : v.Chain) {t : ThreadId} {l : LockId}
    (hl : v.waitingLock t = some l) : v.holder l ≠ none ∨ v.Wanted l := by
  rcases Pc.awaits_cases (hv.waiting t l hl) with hfor | hpc | hpc | hpc
  · exact Or.inl (hv.held t l (Or.inl hfor))
  · exact Or.inl (hv.held t l (Or.inr ⟨hpc, hl⟩))
  · exact Or.inr ⟨t, Or.inl hpc⟩
  · exact Or.inr ⟨t, Or.inr hpc⟩

namespace SharedStep

/-- A thread records only the lock that it is in `lock_acquire` for. -/
theorem waiting_cur (h : SharedStep c op v v') (hv : v.Recorded) {l : LockId}
    (hl : v'.waitingLock c = some l) : (v'.pc c).awaits = some l := by
  have hgoto : ∀ {pc : Pc}, v.waitingLock c = some l →
      ((v.pc c).awaits = some l → pc.awaits = some l) →
        ((v.goto c pc).pc c).awaits = some l := by
    intro pc hl himp
    rw [Shared.goto_self]
    exact himp (hv c l hl)
  cases h with
  | stay => exact hv c l hl
  | move before after =>
      refine hgoto hl fun hawaits => ?_
      exact absurd ((Pc.awaits_of_isQuiet before).symm.trans hawaits) nofun
  | @waits m before =>
      simp only [Function.update_self] at hl
      exact (congrArg Pc.awaits (v.goto_self c (.donateTest m (some m)))).trans hl
  | block before zero queued =>
      refine hgoto hl fun hawaits => ?_
      rw [before.awaits hawaits]
      rfl
  | pass before positive =>
      refine hgoto hl fun hawaits => ?_
      rw [before.awaits hawaits]
      rfl
  | tryDown before positive => exact hv c l hl
  | up before woken =>
      refine hgoto hl fun hawaits => ?_
      exact absurd ((Pc.awaits_of_ups before).symm.trans hawaits) nofun
  | take before =>
      simp only [Function.update_self] at hl
      cases hl
  | waiterInit before => exact hv c l hl
  | _ before =>
      refine hgoto hl fun hawaits => ?_
      rw [before] at hawaits
      first | exact hawaits | cases hawaits

theorem recorded (h : SharedStep c op v v') (hv : v.Recorded) : v'.Recorded := by
  intro t l hl
  by_cases ht : t = c
  · subst ht
    exact h.waiting_cur hv hl
  · rw [h.waitingLock_of_ne ht] at hl
    rw [h.pc_of_ne ht]
    exact hv t l hl

/-- The lock that the thread is in `lock_acquire` for has a holder. -/
theorem held_cur (h : SharedStep c op v v') (hv : v.Chain) {l : LockId}
    (hl : (v'.pc c).donatingFor = some l ∨
      v'.pc c = .acquireDown l ∧ v'.waitingLock c = some l) : v.holder l ≠ none := by
  have hgoes : ∀ {pc : Pc}, v.pc c = pc → pc.donatingFor = some l → v.holder l ≠ none :=
    fun hpc hfor => hv.held c l (Or.inl (hpc ▸ hfor))
  cases h with
  | stay => exact hv.held c l hl
  | move before after =>
      simp only [Shared.goto, Function.update_self] at hl
      rcases hl with hl | ⟨hl, -⟩
      · rcases after with hquiet | ⟨t, rfl⟩
        · exact absurd ((Pc.donatingFor_of_isQuiet hquiet).symm.trans hl) (fun h => by cases h)
        · cases hl
      · subst hl
        rcases after with hquiet | ⟨t, hup⟩
        · cases hquiet
        · cases hup
  | @held m before other held =>
      simp only [Shared.goto, Function.update_self] at hl
      rcases hl with hl | ⟨hl, -⟩
      · exact Option.some.inj hl ▸ held
      · cases hl
  | @free m before free =>
      simp only [Shared.goto, Function.update_self] at hl
      rcases hl with hl | ⟨-, hl⟩
      · cases hl
      · have hawaits := hv.waiting c l hl
        rw [before] at hawaits
        cases hawaits
  | waits before =>
      simp only [Shared.goto, Function.update_self] at hl
      rcases hl with hl | ⟨hl, -⟩
      · exact hgoes before hl
      · cases hl
  | stops before =>
      simp only [Shared.goto, Function.update_self] at hl
      rcases hl with hl | ⟨hl, -⟩
      · cases hl
      · exact hgoes before (congrArg some (Pc.acquireDown.inj hl))
  | @pass s before positive =>
      simp only [Shared.goto, Shared.setSema, Function.update_self] at hl
      cases s <;> rcases hl with hl | ⟨hl, -⟩ <;> cases hl
  | tryDown before positive => exact hv.held c l hl
  | waiterInit before => exact hv.held c l hl
  | _ before =>
      simp only [Shared.goto, Shared.setSema, Function.update_self] at hl
      rcases hl with hl | ⟨hl, -⟩
      · first | exact hgoes before hl | cases hl
      · cases hl

/-- The lock that the thread looks at in the donation loop, if the test of the
loop lets only locks with a holder through. -/
theorem visited_cur (h : SharedStep c op v v') (hv : v.Chain) {l : LockId}
    (htest : ∀ m, v.pc c = .donateTest m (some l) → v'.pc c = .donateMax m l →
      v.holder l ≠ none)
    (hl : (v'.pc c).visits = some l) : v.holder l ≠ none ∨
      (∃ m, v'.pc c = .donateTest m (some l)) ∧ v.Wanted l := by
  cases h with
  | stay => exact hv.visited c l hl
  | move before after =>
      simp only [Shared.goto, Function.update_self] at hl
      rcases after with hquiet | ⟨t, rfl⟩
      · exact absurd ((Pc.visits_of_isQuiet hquiet).symm.trans hl) (fun h => by cases h)
      · cases hl
  | @held m before other held =>
      simp only [Shared.goto, Function.update_self] at hl
      exact Or.inl (Option.some.inj hl ▸ held)
  | waits before =>
      simp only [Shared.goto, Function.update_self] at hl
      exact Or.inl (hv.held c l (Or.inl (before ▸ hl)))
  | @passes m lk before =>
      simp only [Shared.goto, Function.update_self] at hl
      have hlk := Option.some.inj hl
      subst hlk
      exact Or.inl (htest m before (v.goto_self c _))
  | @raises m lk before =>
      simp only [Shared.goto, Function.update_self] at hl
      refine Or.inl ((hv.visited c l (before ▸ hl)).resolve_right fun htests => ?_)
      obtain ⟨⟨m', hpc⟩, -⟩ := htests
      exact absurd (before.symm.trans hpc) (fun h => by cases h)
  | @donates m lk before =>
      simp only [Shared.goto, Function.update_self] at hl
      refine Or.inl ((hv.visited c l (before ▸ hl)).resolve_right fun htests => ?_)
      obtain ⟨⟨m', hpc⟩, -⟩ := htests
      exact absurd (before.symm.trans hpc) (fun h => by cases h)
  | @follows m lk t before holder =>
      simp only [Shared.goto, Function.update_self] at hl
      refine (hv.recorded hl).imp_right fun hwanted => ⟨⟨m, ?_⟩, hwanted⟩
      rw [Shared.goto_self]
      exact congrArg (Pc.donateTest m) hl
  | @pass s before positive =>
      simp only [Shared.goto, Shared.setSema, Function.update_self] at hl
      cases s <;> cases hl
  | tryDown before positive => exact hv.visited c l hl
  | waiterInit before => exact hv.visited c l hl
  | _ before =>
      simp only [Shared.goto, Shared.setSema, Function.update_self] at hl
      cases hl

theorem chain (h : SharedStep c op v v') (hv : v.Chain)
    (hrelease : ∀ l, op = some (.lockRelease l) → ∀ t, t ≠ c → ¬ v.Meets t l)
    (htest : ∀ m l, v.pc c = .donateTest m (some l) → v'.pc c = .donateMax m l →
      v.holder l ≠ none) : v'.Chain := by
  refine ⟨h.recorded hv.waiting, fun t l hl => ?_, fun t l hl => ?_⟩
  · by_cases ht : t = c
    · subst ht
      refine h.holder_ne_none (fun _ hpc => ?_) (h.held_cur hv hl)
      rw [hpc] at hl
      rcases hl with hl | ⟨hl, -⟩ <;> cases hl
    · rw [h.pc_of_ne ht, h.waitingLock_of_ne ht] at hl
      refine h.holder_ne_none (fun hop _ => ?_) (hv.held t l hl)
      exact hrelease l hop t ht (Or.inr hl)
  · by_cases ht : t = c
    · subst ht
      rcases h.visited_cur hv (fun m => htest m l) hl with hholder | ⟨hpc, hwanted⟩
      · refine Or.inl (h.holder_ne_none (fun _ hpc => ?_) hholder)
        rw [hpc] at hl
        cases hl
      · exact (h.wanted hwanted).imp_right fun hwanted => ⟨hpc, hwanted⟩
    · rw [h.pc_of_ne ht] at hl ⊢
      rcases hv.visited t l hl with hholder | ⟨hpc, hwanted⟩
      · exact Or.inl (h.holder_ne_none (fun hop _ => hrelease l hop t ht (Or.inl hl))
          hholder)
      · exact (h.wanted hwanted).imp_right fun hwanted => ⟨hpc, hwanted⟩

end SharedStep

namespace Kernel

variable {k k' : Kernel} {act : KernelAct}

/-- Lock `l` has been released, and the thread that is to get it is past the
semaphore of the lock or has been woken for it. -/
def HandedOver (k : Kernel) (l : LockId) : Prop :=
  (∃ t, (k.threads t).pc.claimed = some l) ∨
    0 < (k.sema (.lock l)).value ∧
      ∃ t, (k.threads t).pc = .down (.lock l) ∧ (k.threads t).status ≠ .blocked

/-- The steps on which the donation loop relies: no lock is released while
another thread has met it in `lock_acquire`, and the priority of a thread in the
loop is no greater than that recorded in a lock that is being handed over. -/
def DonationSafe (k : Kernel) (act : KernelAct) : Prop :=
  act = .run → k.cur.restore = false →
    (∀ l, k.calling = some (.lockRelease l) →
      ∀ t, t ≠ k.current → ¬ k.shared.Meets t l) ∧
    ∀ l lk, k.cur.pc = .donateTest l (some lk) → k.HandedOver lk →
      k.cur.priority ≤ (k.lock lk).maxPri

/-- A lock without a holder that a thread wants is being handed over. -/
theorem Sound.handedOver (h : k.Sound) {l : LockId} (hholder : (k.lock l).holder = none)
    (hwanted : k.shared.Wanted l) : k.HandedOver l := by
  obtain ⟨t, hdown | htake⟩ := hwanted
  · rcases (h.owned l).claim with ⟨hvalue, -⟩ | ⟨-, u, hu⟩
    · have hpositive : 0 < (k.sema (.lock l)).value := by
        change (k.sema (.lock l)).value = 1 at hvalue
        rw [hvalue]
        exact Nat.zero_lt_one
      refine Or.inr ⟨hpositive, ?_⟩
      by_cases hblocked : (k.threads t).status = .blocked
      · -- the thread waits, so that another one has been woken
        have hmem := (h.lists.waiters_iff (.lock l) t).mpr ⟨hblocked, hdown⟩
        obtain ⟨woken, -, hle, hwoken⟩ := h.covered (.lock l) (List.ne_nil_of_mem hmem)
        obtain ⟨u, hu⟩ := List.exists_mem_of_length_pos (Nat.lt_of_lt_of_le hpositive hle)
        refine ⟨u, (hwoken u hu).1, fun hblocked => (hwoken u hu).2 ?_⟩
        exact (h.lists.waiters_iff _ u).mpr ⟨hblocked, (hwoken u hu).1⟩
      · exact ⟨t, hdown, hblocked⟩
    · rcases (hu u).mpr rfl with hclaimed | hinside
      · exact Or.inl ⟨u, hclaimed⟩
      · have hmine : (k.lock l).holder = some u := ((h.owned l).holder_iff u).mpr hinside
        exact absurd (hholder.symm.trans hmine) nofun
  · exact Or.inl ⟨t, (congrArg Pc.claimed htake).trans rfl⟩

theorem advance_donateTest_of_le {l lk : LockId}
    (hle : k.cur.priority ≤ (k.lock lk).maxPri) :
    k.advance (.donateTest l (some lk)) = some (k.goto (.acquireDown l)) :=
  if_neg (not_lt.mpr hle)

/-- The test of the loop lets only locks with a holder through. -/
theorem Sound.donateTest (h : k.Sound) (hchain : k.shared.Chain) {l lk : LockId}
    (hpc : k.cur.pc = .donateTest l (some lk)) (hrestore : k.cur.restore = false)
    (hallowed : k.DonationSafe .run) (hk' : k.step .run = some k')
    (hmax : (k'.threads k.current).pc = .donateMax l lk) : (k.lock lk).holder ≠ none := by
  intro hholder
  rcases hchain.visited k.current lk ((congrArg Pc.visits hpc).trans rfl) with
    hheld | ⟨-, hwanted⟩
  · exact hheld hholder
  · have hle := (hallowed rfl hrestore).2 l lk hpc (h.handedOver hholder hwanted)
    rw [step_run hrestore, hpc, advance_donateTest_of_le hle] at hk'
    rw [← Option.some.inj hk', goto, modify_self] at hmax
    cases hmax

theorem chain_boot (values : Nat → Nat) : (boot values).shared.Chain := by
  have hpc : ∀ t, ((boot values).shared.pc t).visits = none ∧
      ((boot values).shared.pc t).donatingFor = none ∧
      ∀ l, (boot values).shared.pc t ≠ .acquireDown l := by
    intro t
    change (((boot values).threads t).pc).visits = none ∧
      (((boot values).threads t).pc).donatingFor = none ∧ ∀ l, ((boot values).threads t).pc ≠ _
    rcases (boot_place values t).1 with ht | ht <;> rw [ht] <;> exact ⟨rfl, rfl, fun l => nofun⟩
  refine ⟨fun t l hl => ?_, fun t l hl => ?_, fun t l hl => ?_⟩
  · exact absurd ((boot_place values t).2.2.symm.trans hl) nofun
  · rcases hl with hl | ⟨hl, -⟩
    · exact absurd ((hpc t).2.1.symm.trans hl) nofun
    · exact absurd hl ((hpc t).2.2 l)
  · exact absurd ((hpc t).1.symm.trans hl) nofun

theorem Sound.chain_step (h : k.Sound) (hchain : k.shared.Chain)
    (hallowed : k.DonationSafe act) (hk' : k.step act = some k') : k'.shared.Chain := by
  rcases step_shared (h.lists.unused _ (Nat.le_refl _)) h.lists.current_lt hk' with
    hsame | ⟨rfl, hrestore, hstep⟩
  · rwa [hsame]
  · exact hstep.chain hchain (fun l hop => (hallowed rfl hrestore).1 l hop)
      fun m l hpc hmax => h.donateTest hchain hpc hrestore hallowed hk' hmax

/-- In a run of such steps every lock in the donation loop has a holder when
`thread_donate_pri (lk->holder)` and `lk->holder->waiting_lock` are evaluated. -/
theorem donation_chain_owned {values : Nat → Nat} {acts : List KernelAct}
    (hrun : Run step DonationSafe (boot values) acts k) {t : ThreadId} {l lk : LockId}
    (ht : (k.threads t).pc = .donatePri l lk ∨ (k.threads t).pc = .donateNext l lk) :
    (k.lock lk).holder ≠ none := by
  have hinv : k.Sound ∧ k.shared.Chain :=
    hrun.invariant (fun k => k.Sound ∧ k.shared.Chain)
      (fun h hallowed hk' => ⟨h.1.step hk', h.1.chain_step h.2 hallowed hk'⟩)
      ⟨sound_boot values, chain_boot values⟩
  have hvisits : (k.shared.pc t).visits = some lk := by
    rcases ht with ht | ht <;> exact (congrArg Pc.visits ht).trans rfl
  refine (hinv.2.visited t lk hvisits).resolve_right fun htests => ?_
  obtain ⟨⟨m, hpc⟩, -⟩ := htests
  rcases ht with ht | ht <;> exact absurd (ht.symm.trans hpc) nofun

namespace DonationChainWitness

/-- The lock that the thread acquires and the one whose holder it donates to. -/
def donatesTo (k : Kernel) (t : ThreadId) : Option (LockId × LockId) :=
  match (k.threads t).pc with
  | .donatePri l lk => some (l, lk)
  | _ => none

theorem pc_of_donatesTo {t : ThreadId} {l lk : LockId}
    (h : donatesTo k t = some (l, lk)) : (k.threads t).pc = .donatePri l lk := by
  rw [donatesTo] at h
  split at h
  case h_1 hpc =>
    rw [hpc]
    cases h
    rfl
  · cases h

/-- The first thread has raised its priority before it releases lock 1.  The
thread that waits for lock 1 is woken but does not run, and the first thread goes
on to acquire lock 2, which the other one holds. -/
def meetsReleased : List KernelAct :=
  .call (.lockAcquire 1) :: List.replicate 3 KernelAct.run ++
  .call (.threadCreate 32) :: List.replicate 12 KernelAct.run ++
  .call (.lockAcquire 2) :: List.replicate 3 KernelAct.run ++
  .call (.lockAcquire 1) :: List.replicate 9 KernelAct.run ++
  .call (.threadSetPriority 50) :: List.replicate 2 KernelAct.run ++
  .call (.lockRelease 1) :: List.replicate 4 KernelAct.run ++
  .call (.lockAcquire 2) :: List.replicate 8 KernelAct.run

theorem donates_to_no_holder :
    ¬ ∀ (values : Nat → Nat) (acts : List KernelAct) (k : Kernel),
      Reaches values acts k → ∀ t l lk,
        (k.threads t).pc = .donatePri l lk ∨ (k.threads t).pc = .donateNext l lk →
          (k.lock lk).holder ≠ none := by
  intro howned
  have hrun : ((meetsReleased.foldlM step (boot fun _ => 0)).map fun k =>
      (donatesTo k 0, (k.lock 1).holder)) = some (some (2, 1), none) := by
    decide +kernel
  obtain ⟨k, hk, hvalues⟩ := Option.map_eq_some_iff.mp hrun
  exact howned _ _ k (Run.of_foldlM hk) 0 2 1
    (Or.inl (pc_of_donatesTo (congrArg Prod.fst hvalues))) (congrArg Prod.snd hvalues)

/-- A test of the threads that are there. -/
def isSafe (k : Kernel) : Bool :=
  match k.calling, k.cur.pc with
  | some (.lockRelease l), _ => (List.range k.count).all fun t => t == k.current ||
      (k.threads t).pc.visits != some l && (k.threads t).pc.donatingFor != some l &&
        (k.threads t).waitingLock != some l
  | _, .donateTest _ (some lk) => (k.sema (.lock lk)).value == 0 &&
      (List.range k.count).all fun t => (k.threads t).pc.claimed != some lk
  | _, _ => true

theorem pc_of_ge (h : k.Sound) {t : ThreadId} (ht : ¬ t < k.count) :
    (k.threads t).pc = .next := (h.lists.unused t (not_lt.mp ht)).pc

theorem donationSafe_of_isSafe (h : k.Sound) (hsafe : isSafe k = true) :
    k.DonationSafe act := by
  intro _ _
  constructor
  · intro l hcall t ht hmeets
    simp only [isSafe, hcall, List.all_eq_true, List.mem_range] at hsafe
    by_cases hlt : t < k.count
    · have htest := hsafe t hlt
      simp only [Bool.or_eq_true, beq_iff_eq, ht, false_or, Bool.and_eq_true,
        bne_iff_ne] at htest
      rcases hmeets with hvisits | hfor | ⟨-, hwaiting⟩
      · exact htest.1.1 hvisits
      · exact htest.1.2 hfor
      · exact htest.2 hwaiting
    · have hpc : k.shared.pc t = .next := pc_of_ge h hlt
      rcases hmeets with hvisits | hfor | ⟨hacquire, -⟩
      · rw [hpc] at hvisits
        cases hvisits
      · rw [hpc] at hfor
        cases hfor
      · rw [hpc] at hacquire
        cases hacquire
  · intro l lk hpc hover
    have hcall : k.calling = none := by simp only [calling, hpc]
    simp only [isSafe, hcall, hpc, Bool.and_eq_true, beq_iff_eq, List.all_eq_true,
      List.mem_range, bne_iff_ne] at hsafe
    rcases hover with ⟨t, ht⟩ | ⟨hpositive, -⟩
    · by_cases hlt : t < k.count
      · exact absurd ht (hsafe.2 t hlt)
      · rw [pc_of_ge h hlt] at ht
        cases ht
    · exact absurd hsafe.1 (Nat.ne_of_gt hpositive)

/-- Another thread acquires a lock that the first one holds. -/
def donates : List KernelAct :=
  .call (.lockAcquire 1) :: List.replicate 3 KernelAct.run ++
  .call (.threadCreate 32) :: List.replicate 12 KernelAct.run ++
  .call (.lockAcquire 1) :: List.replicate 4 KernelAct.run

theorem donation_chain_owned_held :
    ∃ k, Run step DonationSafe (boot fun _ => 0) donates k ∧
      (k.threads 2).pc = .donatePri 1 1 ∧ (k.lock 1).holder ≠ none := by
  have hrun : ((donates.foldlM (fun k act =>
      if isSafe k then k.step act else none) (boot fun _ => 0)).map
        fun k => donatesTo k 2) = some (some (1, 1)) := by decide +kernel
  obtain ⟨k, hk, hdonates⟩ := Option.map_eq_some_iff.mp hrun
  have hsafe : Run step DonationSafe (boot fun _ => 0) donates k :=
    Run.of_check (fun k _ => isSafe k) Sound (fun h hk' => h.step hk')
      (fun h hsafe => donationSafe_of_isSafe h hsafe) (sound_boot _) hk
  have hpc := pc_of_donatesTo hdonates
  exact ⟨k, hsafe, hpc, donation_chain_owned hsafe (Or.inl hpc)⟩

end DonationChainWitness

end Kernel

end PintosLabs
