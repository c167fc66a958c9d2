/-
What holds of the semaphores and the locks of the kernel after every step of a
thread: a semaphore counts its ups and downs, its value is covered by threads
that have been woken, and a lock is with one thread at a time.
-/
import PintosLabs.KernelShared

namespace PintosLabs

variable {c : ThreadId} {op : Option Op} {v v' : Shared}

namespace SharedStep

/-- A thread moves only itself. -/
theorem pc_of_ne (h : SharedStep c op v v') {t : ThreadId} (ht : t ≠ c) :
    v'.pc t = v.pc t := by
  cases h <;> first | rfl | exact Function.update_of_ne ht _ _

theorem inside_of_ne (h : SharedStep c op v v') {t : ThreadId} (ht : t ≠ c) :
    v'.inside t = v.inside t := by
  cases h <;> first | rfl | exact Function.update_of_ne ht _ _

theorem waitingLock_of_ne (h : SharedStep c op v v') {t : ThreadId} (ht : t ≠ c) :
    v'.waitingLock t = v.waitingLock t := by
  cases h <;> first | rfl | exact Function.update_of_ne ht _ _

/-- A thread gets into the loop of `sema_down` by a call of it. -/
theorem downs (h : SharedStep c op v v') {s : SemaId} (hdown : v'.pc c = .down s) :
    (v.pc c).Downs c s := by
  cases h with
  | stay => exact hdown ▸ .again s
  | move before after =>
      simp only [Shared.goto, Function.update_self] at hdown
      subst hdown
      rcases after with hquiet | ⟨t, hup⟩
      · exact absurd hquiet (fun h => by cases h)
      · cases hup
  | block before zero queued =>
      simp only [Shared.goto, Shared.setSema, Function.update_self] at hdown
      exact Pc.down.inj hdown ▸ before
  | @pass s' before positive =>
      simp only [Shared.goto, Shared.setSema, Function.update_self] at hdown
      cases s' <;> cases hdown
  | tryDown before positive => exact hdown ▸ .again s
  | waiterInit before => exact hdown ▸ .again s
  | _ =>
      simp only [Shared.goto, Shared.setSema, Function.update_self] at hdown
      cases hdown

end SharedStep

/-- In `cond_wait` a thread waits on its own semaphore. -/
def Shared.Own (v : Shared) : Prop := ∀ t u, v.pc t = .down (.waiter u) → t = u

theorem SharedStep.own (h : SharedStep c op v v') (hv : v.Own) : v'.Own := by
  intro t u hdown
  by_cases ht : t = c
  · subst ht
    cases hpc : v.pc t with
    | down s =>
        have hdowns := h.downs hdown
        rw [hpc] at hdowns
        cases hdowns
        exact hv t u hpc
    | next =>
        have hdowns := h.downs hdown
        rw [hpc] at hdowns
        cases hdowns
        rfl
    | _ =>
        have hdowns := h.downs hdown
        rw [hpc] at hdowns
        cases hdowns
  · exact hv t u (h.pc_of_ne ht ▸ hdown)

/-- The value of a semaphore, as a machine word, and how often it went up and
down. -/
structure Semaphore.Counted (s : Semaphore) : Prop where
  downs_le : s.downs ≤ s.initial + s.ups
  value_eq : s.value = (s.initial + s.ups - s.downs) % 2 ^ 32

theorem counted_semaInit (value : Nat) : (semaInit value).Counted where
  downs_le := Nat.zero_le _
  value_eq := (Nat.mod_mod value (2 ^ 32)).symm

namespace Semaphore.Counted

variable {s : Semaphore}

theorem setWaiters (h : s.Counted) (waiters : List ThreadId) :
    Counted { s with waiters := waiters } := ⟨h.1, h.2⟩

theorem down (h : s.Counted) (hpositive : s.value ≠ 0) :
    Counted { s with value := s.value - 1, downs := s.downs + 1 } := by
  obtain ⟨hle, hvalue⟩ := h
  constructor
  · change s.downs + 1 ≤ s.initial + s.ups
    omega
  · change s.value - 1 = (s.initial + s.ups - (s.downs + 1)) % 2 ^ 32
    omega

theorem up (h : s.Counted) (waiters : List ThreadId) :
    Counted { s with
      value := (s.value + 1) % 2 ^ 32
      waiters := waiters
      ups := s.ups + 1 } := by
  obtain ⟨hle, hvalue⟩ := h
  constructor
  · change s.downs ≤ s.initial + (s.ups + 1)
    omega
  · change (s.value + 1) % 2 ^ 32 = (s.initial + (s.ups + 1) - s.downs) % 2 ^ 32
    omega

end Semaphore.Counted

theorem setSema_all {P : Semaphore → Prop} (hv : ∀ s, P (v.sema s)) {s : SemaId}
    {sema : Semaphore} (hsema : P sema) (s' : SemaId) : P ((v.setSema s sema).sema s') := by
  by_cases hs : s' = s
  · subst hs
    rwa [Shared.setSema_self]
  · rw [Shared.setSema_of_ne v hs]
    exact hv s'

theorem SharedStep.counted (h : SharedStep c op v v') (hv : ∀ s, (v.sema s).Counted) :
    ∀ s, (v'.sema s).Counted := by
  cases h with
  | block before zero queued => exact setSema_all hv ((hv _).setWaiters _)
  | pass before positive => exact setSema_all hv ((hv _).down positive)
  | tryDown before positive => exact setSema_all hv ((hv _).down positive)
  | up before woken => exact setSema_all hv ((hv _).up _)
  | waiterInit before => exact setSema_all hv (counted_semaInit 0)
  | _ => exact hv

/-- The lists of the semaphores, while thread `c` runs. -/
structure Shared.Queued (v : Shared) (c : ThreadId) : Prop where
  pc : ∀ s, ∀ t ∈ (v.sema s).waiters, v.pc t = .down s
  nodup : ∀ s, (v.sema s).waiters.Nodup
  notMem : ∀ s, c ∉ (v.sema s).waiters

/-- As long as threads wait on a semaphore, at least as many others as its value
have been woken and have not got to its test again. -/
def Shared.Covered (v : Shared) (s : SemaId) : Prop :=
  (v.sema s).waiters ≠ [] → ∃ woken : List ThreadId, woken.Nodup ∧
    (v.sema s).value ≤ woken.length ∧
      ∀ t ∈ woken, v.pc t = .down s ∧ t ∉ (v.sema s).waiters

namespace Shared.Covered

variable {s : SemaId}

theorem goto (h : v.Covered s) (hpc : v.pc c ≠ .down s) (pc : Pc) :
    (v.goto c pc).Covered s := by
  intro hwaiters
  obtain ⟨woken, hnodup, hle, hwoken⟩ := h hwaiters
  refine ⟨woken, hnodup, hle, fun t ht => ?_⟩
  have hne : t ≠ c := by
    rintro rfl
    exact hpc (hwoken t ht).1
  rw [goto_of_ne v hne]
  exact hwoken t ht

theorem setSema_of_ne (h : v.Covered s) {s' : SemaId} (hs : s ≠ s') (sema : Semaphore) :
    (v.setSema s' sema).Covered s := by
  intro hwaiters
  rw [Shared.setSema_of_ne v hs] at hwaiters ⊢
  exact h hwaiters

/-- One of the threads that were woken, or a newcomer, takes the value down. -/
theorem pass (h : v.Covered s) {pc : Pc} {sema : Semaphore}
    (hvalue : sema.value = (v.sema s).value - 1)
    (hwaiters : sema.waiters = (v.sema s).waiters) :
    ((v.goto c pc).setSema s sema).Covered s := by
  intro hne
  rw [setSema_self, hwaiters] at hne
  obtain ⟨woken, hnodup, hle, hwoken⟩ := h hne
  refine ⟨woken.erase c, hnodup.erase c, ?_, fun t ht => ?_⟩
  · rw [setSema_self, hvalue]
    have hlength : woken.length - 1 ≤ (woken.erase c).length := by
      rw [List.length_erase]
      split
      · exact Nat.le_refl _
      · exact Nat.sub_le _ _
    exact Nat.le_trans (Nat.sub_le_sub_right hle 1) hlength
  · have ht' := hnodup.mem_erase_iff.mp ht
    rw [setSema_self, hwaiters]
    exact ⟨(goto_of_ne v ht'.1 pc).trans (hwoken t ht'.2).1, (hwoken t ht'.2).2⟩

/-- The thread that is woken is one more. -/
theorem up (h : v.Covered s) (hqueued : v.Queued c) (hpc : v.pc c ≠ .down s) {pc : Pc}
    {sema : Semaphore} {t : ThreadId} (hvalue : sema.value ≤ (v.sema s).value + 1)
    (hwaiters : (t :: sema.waiters).Perm (v.sema s).waiters) :
    ((v.goto c pc).setSema s sema).Covered s := by
  intro _
  have ht : t ∈ (v.sema s).waiters := hwaiters.mem_iff.mp List.mem_cons_self
  have hnot : t ∉ sema.waiters :=
    (List.nodup_cons.mp (hwaiters.nodup_iff.mpr (hqueued.nodup s))).1
  have hother : ∀ u, v.pc u = .down s → (v.goto c pc).pc u = .down s := by
    intro u hu
    have hne : u ≠ c := by
      rintro rfl
      exact hpc hu
    rwa [goto_of_ne v hne]
  obtain ⟨woken, hnodup, hle, hwoken⟩ := h (List.ne_nil_of_mem ht)
  refine ⟨t :: woken, List.nodup_cons.mpr ⟨fun hmem => (hwoken t hmem).2 ht, hnodup⟩,
    ?_, fun u hu => ?_⟩
  · rw [setSema_self]
    exact Nat.le_trans hvalue (Nat.succ_le_succ hle)
  · rw [setSema_self]
    rcases List.mem_cons.mp hu with rfl | hu
    · exact ⟨hother u (hqueued.pc s u ht), hnot⟩
    · refine ⟨hother u (hwoken u hu).1, fun hmem => (hwoken u hu).2 ?_⟩
      exact hwaiters.mem_iff.mp (List.mem_cons_of_mem t hmem)

theorem of_empty (hempty : (v.sema s).waiters = []) : v.Covered s :=
  fun hne => absurd hempty hne

theorem of_zero (hvalue : (v.sema s).value = 0) : v.Covered s :=
  fun _ => ⟨[], List.nodup_nil, hvalue ▸ Nat.zero_le _, fun _ ht => nomatch ht⟩

end Shared.Covered

theorem Pc.ne_down_of_ups {pc : Pc} {s s' : SemaId} (h : pc.Ups s) : pc ≠ .down s' := by
  cases h <;> exact nofun

theorem Pc.ne_down_of_isQuiet {pc : Pc} {s : SemaId} (h : pc.isQuiet) :
    pc ≠ .down s := by
  rintro rfl
  cases h

theorem Pc.Downs.eq_of_down {s s' : SemaId} (h : (Pc.down s').Downs c s) : s' = s := by
  cases h
  rfl

theorem SharedStep.covered (h : SharedStep c op v v') (hqueued : v.Queued c)
    (hv : ∀ s, v.Covered s) : ∀ s, v'.Covered s := by
  intro s
  cases h with
  | stay => exact hv s
  | move before after => exact (hv s).goto (Pc.ne_down_of_isQuiet before) _
  | @block s' waiters before zero queued =>
      by_cases hs : s = s'
      · subst hs
        exact Shared.Covered.of_zero (by rwa [Shared.setSema_self])
      · refine Shared.Covered.setSema_of_ne ((hv s).goto (fun hpc => hs ?_) _) hs _
        exact (hpc ▸ before).eq_of_down
  | @pass s' before positive =>
      by_cases hs : s = s'
      · subst hs
        exact (hv s).pass rfl rfl
      · refine Shared.Covered.setSema_of_ne ((hv s).goto (fun hpc => hs ?_) _) hs _
        exact (hpc ▸ before).eq_of_down
  | @tryDown n before positive =>
      by_cases hs : s = .sema n
      · subst hs
        rw [← v.goto_pc_self c]
        exact (hv _).pass rfl rfl
      · exact (hv s).setSema_of_ne hs _
  | @up s' waiters before woken =>
      have hpc := fun s => @Pc.ne_down_of_ups _ _ s before
      by_cases hs : s = s'
      · subst hs
        rcases woken with ⟨-, rfl⟩ | ⟨t, hperm⟩
        · exact Shared.Covered.of_empty (by rw [Shared.setSema_self])
        · exact (hv s).up hqueued (hpc s) (Nat.mod_le _ _) hperm
      · exact ((hv s).goto (hpc s) _).setSema_of_ne hs _
  | waiterInit before =>
      by_cases hs : s = .waiter c
      · subst hs
        exact Shared.Covered.of_empty (by rw [Shared.setSema_self]; rfl)
      · exact (hv s).setSema_of_ne hs _
  | _ before => exact (hv s).goto (before ▸ nofun) _

/-- A thread has lock `l`, or is to get or give it between the semaphore of the
lock and its own record. -/
def Pc.claimed : Pc → Option LockId
  | take l | setHolder l | removeLock l | releaseUp l => some l
  | _ => none

def Shared.Claims (v : Shared) (t : ThreadId) (l : LockId) : Prop :=
  (v.pc t).claimed = some l ∨ l ∈ v.inside t

/-- A lock is with no thread or with one. -/
structure Shared.Owned (v : Shared) (l : LockId) : Prop where
  claim : (v.sema (.lock l)).value = 1 ∧ (∀ t, ¬ v.Claims t l) ∨
    (v.sema (.lock l)).value = 0 ∧ ∃ t, ∀ u, v.Claims u l ↔ u = t
  holder_iff : ∀ t, v.holder l = some t ↔ l ∈ v.inside t
  releasing : ∀ t, v.pc t = .removeLock l ∨ v.pc t = .releaseUp l → l ∉ v.inside t

namespace Shared.Owned

variable {l : LockId}

theorem unique (h : v.Owned l) {t u : ThreadId} (ht : v.Claims t l) (hu : v.Claims u l) :
    t = u := by
  rcases h.claim with ⟨-, hnone⟩ | ⟨-, w, hw⟩
  · exact absurd ht (hnone t)
  · rw [(hw t).mp ht, (hw u).mp hu]

/-- The lock is where it was. -/
theorem congr (h : v.Owned l) (hvalue : (v'.sema (.lock l)).value =
      (v.sema (.lock l)).value)
    (hclaimed : ∀ t, (v'.pc t).claimed = some l ↔ (v.pc t).claimed = some l)
    (hreleasing : ∀ t, v'.pc t = .removeLock l ∨ v'.pc t = .releaseUp l →
      v.pc t = .removeLock l ∨ v.pc t = .releaseUp l)
    (hinside : ∀ t, l ∈ v'.inside t ↔ l ∈ v.inside t)
    (hholder : v'.holder l = v.holder l) : v'.Owned l := by
  have hclaims : ∀ t, v'.Claims t l ↔ v.Claims t l := fun t =>
    or_congr (hclaimed t) (hinside t)
  refine ⟨?_, fun t => ?_, fun t ht => ?_⟩
  · simp only [hvalue, hclaims]
    exact h.claim
  · rw [hholder, hinside]
    exact h.holder_iff t
  · rw [hinside]
    exact h.releasing t (hreleasing t ht)

/-- The thread moves between places that have nothing to do with the lock. -/
theorem goto (h : v.Owned l) {pc : Pc} (hbefore : (v.pc c).claimed ≠ some l)
    (hafter : pc.claimed ≠ some l) : (v.goto c pc).Owned l := by
  refine h.congr rfl (fun t => ?_) (fun t ht => ?_) (fun t => Iff.rfl) rfl
  · by_cases htc : t = c
    · subst htc
      rw [goto_self]
      exact iff_of_false hafter hbefore
    · rw [goto_of_ne v htc]
  · by_cases htc : t = c
    · subst htc
      rw [goto_self] at ht
      rcases ht with rfl | rfl <;> exact absurd rfl hafter
    · rwa [goto_of_ne v htc] at ht

theorem setSema (h : v.Owned l) {s : SemaId} {sema : Semaphore}
    (hvalue : s = .lock l → sema.value = (v.sema s).value) :
    (v.setSema s sema).Owned l := by
  refine h.congr ?_ (fun t => Iff.rfl) (fun t => id) (fun t => Iff.rfl) rfl
  by_cases hs : s = .lock l
  · subst hs
    rw [setSema_self, hvalue rfl]
  · rw [setSema_of_ne v (Ne.symm hs)]

/-- The thread that was to get lock `m` records itself. -/
theorem gain {m : LockId} (h : v.Owned l) (hm : v.Owned m)
    (hclaim : (v.pc c).claimed = some m) (hsema : v'.sema = v.sema)
    (hpc : v'.pc = Function.update v.pc c .next)
    (hinside : v'.inside = Function.update v.inside c (m :: v.inside c))
    (hholder : v'.holder = Function.update v.holder m (some c)) : v'.Owned l := by
  have hself : v'.pc c = .next := by rw [hpc, Function.update_self]
  have hother : ∀ {t}, t ≠ c → v'.pc t = v.pc t ∧ v'.inside t = v.inside t := by
    intro t ht
    rw [hpc, hinside, Function.update_of_ne ht, Function.update_of_ne ht]
    exact ⟨rfl, rfl⟩
  have hmine : v'.inside c = m :: v.inside c := by rw [hinside, Function.update_self]
  by_cases hl : l = m
  · subst hl
    have hclaims : ∀ t, v'.Claims t l ↔ v.Claims t l := by
      intro t
      by_cases ht : t = c
      · subst ht
        exact iff_of_true (Or.inr (hmine ▸ List.mem_cons_self)) (Or.inl hclaim)
      · rw [Claims, Claims, (hother ht).1, (hother ht).2]
    refine ⟨?_, fun t => ?_, fun t ht => ?_⟩
    · simp only [hclaims, hsema]
      exact h.claim
    · rw [hholder, Function.update_self]
      by_cases ht : t = c
      · subst ht
        exact iff_of_true rfl (hmine ▸ List.mem_cons_self)
      · refine iff_of_false (fun heq => ht (Option.some.inj heq).symm) fun hmem => ht ?_
        rw [(hother ht).2] at hmem
        exact h.unique (Or.inr hmem) (Or.inl hclaim)
    · have htc : t ≠ c := by
        rintro rfl
        rw [hself] at ht
        rcases ht with ht | ht <;> cases ht
      rw [(hother htc).1] at ht
      rw [(hother htc).2]
      exact h.releasing t ht
  · refine h.congr (by rw [hsema]) (fun t => ?_) (fun t ht => ?_) (fun t => ?_) ?_
    · by_cases ht : t = c
      · subst ht
        rw [hself, hclaim]
        exact iff_of_false nofun fun heq => hl (Option.some.inj heq).symm
      · rw [(hother ht).1]
    · by_cases htc : t = c
      · subst htc
        rw [hself] at ht
        rcases ht with ht | ht <;> cases ht
      · rwa [(hother htc).1] at ht
    · by_cases ht : t = c
      · subst ht
        rw [hmine, List.mem_cons, or_iff_right hl]
      · rw [(hother ht).2]
    · rw [hholder, Function.update_of_ne hl]

/-- The holder of lock `m` starts to release it. -/
theorem release {m : LockId} (h : v.Owned l) (hpc : v.pc c = .next)
    (hholder : v.holder m = some c) :
    Shared.Owned { v.goto c (.removeLock m) with
      inside := Function.update v.inside c ((v.inside c).filter fun l => l ≠ m)
      holder := Function.update v.holder m none } l := by
  obtain ⟨v', hv'⟩ : ∃ v', v' = { v.goto c (.removeLock m) with
    inside := Function.update v.inside c ((v.inside c).filter fun l => l ≠ m)
    holder := Function.update v.holder m none } := ⟨_, rfl⟩
  have hself : v'.pc c = .removeLock m := by
    rw [hv']
    exact v.goto_self c _
  have hother : ∀ {t}, t ≠ c → v'.pc t = v.pc t ∧ v'.inside t = v.inside t := by
    intro t ht
    rw [hv']
    exact ⟨v.goto_of_ne ht _, Function.update_of_ne ht _ _⟩
  have hmine : l ∈ v'.inside c ↔ l ∈ v.inside c ∧ l ≠ m := by
    rw [hv']
    simp only [Function.update_self, List.mem_filter, decide_eq_true_eq]
  rw [← hv']
  by_cases hl : l = m
  · subst hl
    have hcl : v.Claims c l := Or.inr ((h.holder_iff c).mp hholder)
    have hclaims : ∀ t, v'.Claims t l ↔ v.Claims t l := by
      intro t
      by_cases ht : t = c
      · subst ht
        exact iff_of_true (Or.inl (hself ▸ rfl)) hcl
      · rw [Claims, Claims, (hother ht).1, (hother ht).2]
    have hnot : ∀ t, l ∉ v'.inside t := by
      intro t hmem
      by_cases ht : t = c
      · subst ht
        exact (hmine.mp hmem).2 rfl
      · rw [(hother ht).2] at hmem
        exact ht (h.unique (Or.inr hmem) hcl)
    refine ⟨?_, fun t => ?_, fun t _ => hnot t⟩
    · simp only [hclaims]
      rw [hv']
      exact h.claim
    · refine iff_of_false ?_ (hnot t)
      rw [hv']
      simp only [Function.update_self]
      exact nofun
  · refine h.congr (by rw [hv']; rfl) (fun t => ?_) (fun t ht => ?_) (fun t => ?_) ?_
    · by_cases ht : t = c
      · subst ht
        rw [hself, hpc]
        exact iff_of_false (fun heq => hl (Option.some.inj heq).symm) nofun
      · rw [(hother ht).1]
    · by_cases htc : t = c
      · subst htc
        rw [hself] at ht
        rcases ht with ht | ht
        · exact absurd (Pc.removeLock.inj ht).symm hl
        · cases ht
      · rwa [(hother htc).1] at ht
    · by_cases ht : t = c
      · subst ht
        rw [hmine, and_iff_left hl]
      · rw [(hother ht).2]
    · rw [hv']
      exact Function.update_of_ne hl _ _

/-- A thread gets through the semaphore of the lock. -/
theorem enter (h : v.Owned l) {pc : Pc} {sema : Semaphore}
    (hpositive : (v.sema (.lock l)).value ≠ 0)
    (hvalue : sema.value = (v.sema (.lock l)).value - 1)
    (hpc : pc.claimed = some l) :
    ((v.goto c pc).setSema (.lock l) sema).Owned l := by
  rcases h.claim with ⟨hone, hnone⟩ | ⟨hzero, -⟩
  · refine ⟨Or.inr ⟨?_, c, fun t => ?_⟩, h.holder_iff, fun t ht => ?_⟩
    · rw [setSema_self, hvalue, hone]
    · by_cases ht : t = c
      · subst ht
        exact iff_of_true (Or.inl ((congrArg Pc.claimed (v.goto_self t pc)).trans hpc)) rfl
      · refine iff_of_false (fun hclaims => hnone t (hclaims.imp_left fun hcl => ?_)) ht
        exact (congrArg Pc.claimed (v.goto_of_ne ht pc)).symm.trans hcl
    · exact fun hmem => hnone t (Or.inr hmem)
  · exact absurd hzero hpositive

/-- A thread has put the semaphore of the lock up. -/
theorem leave (h : v.Owned l) {sema : Semaphore} (hpc : v.pc c = .releaseUp l)
    (hvalue : sema.value = ((v.sema (.lock l)).value + 1) % 2 ^ 32) :
    ((v.goto c .next).setSema (.lock l) sema).Owned l := by
  have hcl : v.Claims c l := Or.inl (hpc ▸ rfl)
  rcases h.claim with ⟨-, hnone⟩ | ⟨hzero, -⟩
  · exact absurd hcl (hnone c)
  · refine ⟨Or.inl ⟨?_, fun t hclaims => ?_⟩, h.holder_iff, fun t ht => ?_⟩
    · rw [setSema_self]
      exact hvalue.trans (by simp [hzero])
    · by_cases ht : t = c
      · subst ht
        rcases hclaims with hclaimed | hmem
        · have hnext := congrArg Pc.claimed (v.goto_self t .next)
          exact absurd (hnext.symm.trans hclaimed) nofun
        · exact h.releasing t (Or.inr hpc) hmem
      · refine ht (h.unique (hclaims.imp_left fun hclaimed => ?_) hcl)
        exact (congrArg Pc.claimed (v.goto_of_ne ht .next)).symm.trans hclaimed
    · by_cases htc : t = c
      · subst htc
        exact h.releasing t (Or.inr hpc)
      · have hsame := v.goto_of_ne htc .next
        exact h.releasing t (ht.imp hsame.symm.trans hsame.symm.trans)

/-- The lock is no longer among those of the thread. -/
theorem removed (h : v.Owned l) {m : LockId} (hpc : v.pc c = .removeLock m) :
    (v.goto c (.releaseUp m)).Owned l := by
  refine h.congr rfl (fun t => ?_) (fun t ht => ?_) (fun t => Iff.rfl) rfl
  · by_cases ht : t = c
    · subst ht
      rw [goto_self, hpc]
      rfl
    · rw [goto_of_ne v ht]
  · by_cases htc : t = c
    · subst htc
      rw [goto_self] at ht
      rcases ht with ht | ht
      · cases ht
      · exact Or.inl (Pc.releaseUp.inj ht ▸ hpc)
    · rwa [goto_of_ne v htc] at ht

end Shared.Owned

theorem Pc.claimed_of_isQuiet {pc : Pc} (h : pc.isQuiet) : pc.claimed = none := by
  cases pc <;> first | rfl | cases h

theorem Pc.Downs.claimed {pc : Pc} {s : SemaId} (h : pc.Downs c s) :
    pc.claimed = none := by
  cases h <;> rfl

theorem SharedStep.owned (h : SharedStep c op v v') (hv : ∀ l, v.Owned l) :
    ∀ l, v'.Owned l := by
  intro l
  have hnone : ∀ {pc : Pc}, pc.claimed = none → pc.claimed ≠ some l := fun hpc =>
    hpc ▸ nofun
  cases h with
  | stay => exact hv l
  | move before after =>
      refine (hv l).goto (hnone (Pc.claimed_of_isQuiet before)) ?_
      rcases after with hquiet | ⟨t, rfl⟩
      · exact hnone (Pc.claimed_of_isQuiet hquiet)
      · exact nofun
  | held before => exact (hv l).goto (hnone (by rw [before]; rfl)) nofun
  | free before => exact (hv l).goto (hnone (by rw [before]; rfl)) nofun
  | @waits m before =>
      have hgoto := @Shared.Owned.goto c v l (hv l) (.donateTest m (some m))
        (hnone (by rw [before]; rfl)) nofun
      exact hgoto.congr rfl (fun t => Iff.rfl) (fun t => id) (fun t => Iff.rfl) rfl
  | passes before => exact (hv l).goto (hnone (by rw [before]; rfl)) nofun
  | stops before => exact (hv l).goto (hnone (by rw [before]; rfl)) nofun
  | raises before => exact (hv l).goto (hnone (by rw [before]; rfl)) nofun
  | donates before => exact (hv l).goto (hnone (by rw [before]; rfl)) nofun
  | follows before holder => exact (hv l).goto (hnone (by rw [before]; rfl)) nofun
  | block before zero queued =>
      refine ((hv l).goto (hnone before.claimed) ?_).setSema fun _ => rfl
      exact nofun
  | @pass s before positive =>
      by_cases hs : s = .lock l
      · subst hs
        exact (hv l).enter positive rfl rfl
      · refine ((hv l).goto (hnone before.claimed) ?_).setSema fun heq => absurd heq hs
        cases s with
        | lock m => exact fun heq => hs (congrArg SemaId.lock (Option.some.inj heq))
        | _ => exact nofun
  | tryDown before positive => exact (hv l).setSema nofun
  | @up s waiters before woken =>
      by_cases hs : s = .lock l
      · subst hs
        refine (hv l).leave ?_ rfl
        cases hpc : v.pc c <;> rw [hpc] at before <;> cases before
        rfl
      · refine ((hv l).goto ?_ ?_).setSema fun heq => absurd heq hs
        · cases hpc : v.pc c <;> rw [hpc] at before <;> cases before
          · exact nofun
          · exact fun heq => hs (congrArg SemaId.lock (Option.some.inj heq))
          · exact nofun
        · exact nofun
  | take before => exact (hv l).gain (hv _) (before ▸ rfl) rfl rfl rfl rfl
  | setHolder before => exact (hv l).gain (hv _) (before ▸ rfl) rfl rfl rfl rfl
  | release before call holder => exact (hv l).release before holder
  | removed before => exact (hv l).removed before
  | waiterInit before => exact (hv l).setSema nofun

end PintosLabs
