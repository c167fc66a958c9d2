/-
What every step of the threads and of the interrupts preserves, and which
interrupt handlers come to an end without switching threads.
-/
import PintosLabs.InterruptThreads

namespace PintosLabs

namespace Interrupts

/-! Positions in a queue. -/

theorem nextPos_lt (pos : Nat) : nextPos pos < intqBufsize :=
  Nat.mod_lt _ (by decide)

theorem nextPos_ne (pos : Nat) : nextPos pos ≠ pos := by
  unfold nextPos intqBufsize
  omega

theorem nextPos_inj {pos pos' : Nat} (hpos : pos < intqBufsize)
    (hpos' : pos' < intqBufsize) (h : nextPos pos = nextPos pos') : pos = pos' := by
  unfold nextPos intqBufsize at *
  omega

namespace System

variable (s : System)

/-- A thread is in a list of waiters, or in a queue. -/
def Hooked (t : Nat) : Prop :=
  (∃ id, t ∈ (s.sema id).waiters) ∨ ∃ q w, (s.queue q).waiter w = some t

/-- The invariant of every step.  A sleep may be named in it. -/
structure Inv (sleeper : Option (Nat × Int)) : Prop where
  placed : Placed s.kernel s.pc s.Hooked sleeper
  running : s.kernel.switching = false →
    s.kernel.statusOf s.kernel.current = some .running
  down : ∀ id, ∀ t ∈ (s.sema id).waiters, s.pc t = .down id
  waits : ∀ q w t, (s.queue q).waiter w = some t → s.pc t = .wait q w
  nodup : ∀ id, (s.sema id).waiters.Nodup
  inside : ∀ q, (s.queue q).head < intqBufsize ∧ (s.queue q).tail < intqBufsize

/-- No thread has come into a list, and none has moved. -/
structure Loosens (s s' : System) : Prop where
  pc_eq : s'.pc = s.pc
  waiters : ∀ id, ∀ t ∈ (s'.sema id).waiters, t ∈ (s.sema id).waiters
  nodup : ∀ id, (s.sema id).waiters.Nodup → (s'.sema id).waiters.Nodup
  waiter : ∀ q w t, (s'.queue q).waiter w = some t → (s.queue q).waiter w = some t
  inside : ∀ q, (s.queue q).head < intqBufsize ∧ (s.queue q).tail < intqBufsize →
    (s'.queue q).head < intqBufsize ∧ (s'.queue q).tail < intqBufsize

variable {s} {s' s'' : System} {sleeper : Option (Nat × Int)} {t : Nat}
  {k : Mlfqs.Kernel} {id : SemaId} {q : Queue} {w : Waiter}

theorem Loosens.refl (s : System) : s.Loosens s :=
  ⟨rfl, fun _ _ ht => ht, fun _ h => h, fun _ _ _ h => h, fun _ h => h⟩

theorem Loosens.hooked (h : s.Loosens s') (ht : s'.Hooked t) : s.Hooked t := by
  rcases ht with ⟨id, ht⟩ | ⟨q, w, ht⟩
  · exact Or.inl ⟨id, h.waiters id t ht⟩
  · exact Or.inr ⟨q, w, h.waiter q w t ht⟩

theorem sema_setSema_self (s : System) (id : SemaId) (f : Semaphore → Semaphore) :
    (s.setSema id f).sema id = f (s.sema id) := Function.update_self _ _ _

theorem sema_setSema_of_ne {id' : SemaId} (hid : id' ≠ id) (f : Semaphore → Semaphore) :
    (s.setSema id f).sema id' = s.sema id' := Function.update_of_ne hid _ _

theorem queue_setQueue_self (s : System) (q : Queue) (f : Intq → Intq) :
    (s.setQueue q f).queue q = f (s.queue q) := Function.update_self _ _ _

theorem queue_setQueue_of_ne {q' : Queue} (hq : q' ≠ q) (f : Intq → Intq) :
    (s.setQueue q f).queue q' = s.queue q' := Function.update_of_ne hq _ _

theorem waiter_setWaiter_self (s : System) (q : Queue) (w : Waiter) (t : Option Nat) :
    ((s.setWaiter q w t).queue q).waiter w = t := by
  rw [setWaiter, queue_setQueue_self]
  exact Function.update_self _ _ _

/-- The other members of the queues stay as they are. -/
theorem waiter_setWaiter_of_ne {q' : Queue} {w' : Waiter} (hne : ¬ (q' = q ∧ w' = w))
    (t : Option Nat) :
    ((s.setWaiter q w t).queue q').waiter w' = (s.queue q').waiter w' := by
  unfold setWaiter
  by_cases hq : q' = q
  · subst hq
    rw [queue_setQueue_self]
    exact Function.update_of_ne (fun hw => hne ⟨rfl, hw⟩) _ _
  · rw [queue_setQueue_of_ne hq]

theorem ends_setWaiter (s : System) (q : Queue) (w : Waiter) (t : Option Nat)
    (q' : Queue) : ((s.setWaiter q w t).queue q').head = (s.queue q').head ∧
      ((s.setWaiter q w t).queue q').tail = (s.queue q').tail := by
  unfold setWaiter
  by_cases hq : q' = q
  · subst hq
    rw [queue_setQueue_self]
    exact ⟨rfl, rfl⟩
  · rw [queue_setQueue_of_ne hq]
    exact ⟨rfl, rfl⟩

theorem loosens_setSema {f : Semaphore → Semaphore}
    (hmem : ∀ t ∈ (f (s.sema id)).waiters, t ∈ (s.sema id).waiters)
    (hnodup : (s.sema id).waiters.Nodup → (f (s.sema id)).waiters.Nodup) :
    s.Loosens (s.setSema id f) := by
  have hself := s.sema_setSema_self id f
  have hother : ∀ id', id' ≠ id → (s.setSema id f).sema id' = s.sema id' :=
    fun id' hid => sema_setSema_of_ne hid f
  refine ⟨rfl, fun id' t ht => ?_, fun id' h => ?_, fun _ _ _ h => h, fun _ h => h⟩
  · by_cases hid : id' = id
    · subst hid
      exact hmem t (hself ▸ ht)
    · exact hother id' hid ▸ ht
  · by_cases hid : id' = id
    · subst hid
      rw [hself]
      exact hnodup h
    · rw [hother id' hid]
      exact h

theorem loosens_setQueue {f : Intq → Intq}
    (hwaiter : ∀ w t, (f (s.queue q)).waiter w = some t → (s.queue q).waiter w = some t)
    (hinside : (s.queue q).head < intqBufsize ∧ (s.queue q).tail < intqBufsize →
      (f (s.queue q)).head < intqBufsize ∧ (f (s.queue q)).tail < intqBufsize) :
    s.Loosens (s.setQueue q f) := by
  have hself := s.queue_setQueue_self q f
  have hother : ∀ q', q' ≠ q → (s.setQueue q f).queue q' = s.queue q' :=
    fun q' hq => queue_setQueue_of_ne hq f
  refine ⟨rfl, fun _ _ ht => ht, fun _ h => h, fun q' w t ht => ?_, fun q' h => ?_⟩
  · by_cases hq : q' = q
    · subst hq
      exact hwaiter w t (hself ▸ ht)
    · exact hother q' hq ▸ ht
  · by_cases hq : q' = q
    · subst hq
      rw [hself]
      exact hinside h
    · rw [hother q' hq]
      exact h

theorem Inv.pc_of_hooked (h : s.Inv sleeper) (ht : s.Hooked t) :
    (∃ id, s.pc t = .down id) ∨ ∃ q w, s.pc t = .wait q w := h.placed.awaits t ht

/-- A thread that is between two calls, or new, is in no list and does not
sleep. -/
theorem Inv.not_hooked (h : s.Inv sleeper) (hdown : ∀ id, s.pc t ≠ .down id)
    (hwait : ∀ q w, s.pc t ≠ .wait q w) : ¬ s.Hooked t := by
  intro ht
  rcases h.pc_of_hooked ht with ⟨id, hpc⟩ | ⟨q, w, hpc⟩
  · exact hdown id hpc
  · exact hwait q w hpc

/-- Nothing changes but the lists, in which fewer threads are. -/
theorem Inv.loosen (h : s.Inv sleeper) (hloosens : s.Loosens s')
    (hkernel : s'.kernel = s.kernel) : s'.Inv sleeper where
  placed := by
    rw [hkernel, hloosens.pc_eq]
    exact h.placed.mono fun t ht => hloosens.hooked ht
  running := by
    rw [hkernel]
    exact h.running
  down id t ht := by
    rw [hloosens.pc_eq]
    exact h.down id t (hloosens.waiters id t ht)
  waits q w t ht := by
    rw [hloosens.pc_eq]
    exact h.waits q w t (hloosens.waiter q w t ht)
  nodup id := hloosens.nodup id (h.nodup id)
  inside q := hloosens.inside q (h.inside q)

/-- The threads change, but stay where they are. -/
theorem Inv.setKernel (h : s.Inv sleeper) {sleeper' : Option (Nat × Int)}
    (hplaced : Placed k s.pc s.Hooked sleeper')
    (hrunning : k.switching = false → k.statusOf k.current = some .running) :
    (s.setKernel k).Inv sleeper' :=
  ⟨hplaced, hrunning, h.down, h.waits, h.nodup, h.inside⟩

theorem Inv.within_running (h : s.Inv sleeper) (hwithin : Within s.kernel k)
    (hawake : k.switching = false) : k.statusOf k.current = some .running := by
  have hrunning := h.running (hwithin.switching_eq ▸ hawake)
  rw [hwithin.current_eq, hwithin.status_eq _ (by rw [hrunning]; intro hne; cases hne),
    hrunning]

theorem Inv.calm (h : s.Inv sleeper) (hcalm : s.kernel.Calm k) :
    (s.setKernel k).Inv sleeper :=
  h.setKernel (h.placed.calm hcalm) fun hawake =>
    h.within_running (Within.of_calm hcalm) hawake

/-- A waiting thread is taken from its list and becomes ready. -/
theorem Inv.wake (h : s.Inv sleeper) (hloosens : s.Loosens s')
    (hwakes : s.kernel.Wakes k t) (ht : s.Hooked t) (hloose : ¬ s'.Hooked t) :
    (s'.setKernel k).Inv sleeper := by
  have hasleep := h.placed.not_asleep ht
  have hplaced := (h.placed.mono fun t ht => hloosens.hooked ht).wakes hwakes hloose
    (h.placed.wakeOf_eq_zero hasleep) fun w hw => hasleep (h.placed.sleeps t w hw).2.2
  have hpc : (s'.setKernel k).pc = s.pc := hloosens.pc_eq
  refine ⟨?_, fun hawake => h.within_running (Within.of_wakes hwakes) hawake,
    fun id u hu => ?_, fun q w u hu => ?_, fun id => hloosens.nodup id (h.nodup id),
    fun q => hloosens.inside q (h.inside q)⟩
  · rw [hpc]
    exact hplaced
  · rw [hpc]
    exact h.down id u (hloosens.waiters id u hu)
  · rw [hpc]
    exact h.waits q w u (hloosens.waiter q w u hu)

/-- The running thread blocks, at another place, and perhaps in a list. -/
theorem Inv.block (h : s.Inv sleeper) (hawake : s.kernel.switching = false) {p : Pc}
    (hkernel : s'.kernel = s.kernel)
    (hpc : s'.pc = Function.update s.pc s.kernel.current p)
    (hdown : ∀ id, ∀ t ∈ (s'.sema id).waiters,
      t ∈ (s.sema id).waiters ∨ t = s.kernel.current ∧ p = .down id)
    (hwaits : ∀ q w t, (s'.queue q).waiter w = some t →
      (s.queue q).waiter w = some t ∨ t = s.kernel.current ∧ p = .wait q w)
    (hnodup : ∀ id, (s'.sema id).waiters.Nodup)
    (hinside : ∀ q, (s'.queue q).head < intqBufsize ∧ (s'.queue q).tail < intqBufsize)
    (hidle : s.kernel.idleThread = some s.kernel.current →
      p = .idle ∨ ∃ id, p = .idleUp id) :
    (s'.setKernel s'.kernel.threadBlock).Inv sleeper := by
  have hrunning := h.running hawake
  have hnot := h.placed.current_not_hooked hrunning
  refine ⟨?_, fun hswitching => (by cases hswitching), fun id t ht => ?_,
    fun q w t ht => ?_, hnodup, hinside⟩
  · change Placed s'.kernel.threadBlock s'.pc s'.Hooked sleeper
    rw [hkernel, hpc]
    refine h.placed.threadBlock hrunning (fun t ht => ?_) hidle
    rcases ht with ⟨id, ht⟩ | ⟨q, w, ht⟩
    · exact (hdown id t ht).imp (fun ht => Or.inl ⟨id, ht⟩) fun ht =>
        ⟨ht.1, Or.inl ⟨id, ht.2⟩⟩
    · exact (hwaits q w t ht).imp (fun ht => Or.inr ⟨q, w, ht⟩) fun ht =>
        ⟨ht.1, Or.inr ⟨q, w, ht.2⟩⟩
  · change s'.pc t = _
    rw [hpc]
    rcases hdown id t ht with ht | ⟨rfl, hp⟩
    · have hne : t ≠ s.kernel.current := by
        rintro rfl
        exact hnot (Or.inl ⟨id, ht⟩)
      rw [Function.update_of_ne hne]
      exact h.down id t ht
    · rw [Function.update_self]
      exact hp
  · change s'.pc t = _
    rw [hpc]
    rcases hwaits q w t ht with ht | ⟨rfl, hp⟩
    · have hne : t ≠ s.kernel.current := by
        rintro rfl
        exact hnot (Or.inr ⟨q, w, ht⟩)
      rw [Function.update_of_ne hne]
      exact h.waits q w t ht
    · rw [Function.update_self]
      exact hp

theorem Inv.setPc (h : s.Inv sleeper) (hloose : ¬ s.Hooked t)
    (hzero : s.kernel.wakeOf t = 0) (hsleeper : ∀ w, sleeper ≠ some (t, w)) {p : Pc}
    (hidle : s.kernel.idleThread = some t → p = .idle ∨ ∃ id, p = .idleUp id) :
    (s.setPc t p).Inv sleeper := by
  refine ⟨h.placed.setPc hloose hzero hsleeper hidle, h.running, fun id u hu => ?_,
    fun q w u hu => ?_, h.nodup, h.inside⟩
  · have hne : u ≠ t := by
      rintro rfl
      exact hloose (Or.inl ⟨id, hu⟩)
    exact (Function.update_of_ne hne _ _).trans (h.down id u hu)
  · have hne : u ≠ t := by
      rintro rfl
      exact hloose (Or.inr ⟨q, w, hu⟩)
    exact (Function.update_of_ne hne _ _).trans (h.waits q w u hu)

theorem Inv.setCurrentPc (h : s.Inv sleeper) (hawake : s.kernel.switching = false) {p : Pc}
    (hidle : s.kernel.idleThread = some s.kernel.current →
      p = .idle ∨ ∃ id, p = .idleUp id) : (s.setPc s.kernel.current p).Inv sleeper :=
  have hrunning := h.running hawake
  h.setPc (h.placed.current_not_hooked hrunning) (h.placed.wakeOf_current hrunning)
    (h.placed.sleeper_ne_current hrunning) hidle

/-! The calls that a handler may make, and the handlers. -/

/-- The same thread runs, and it is still in the interrupt. -/
structure Handled (s s' : System) : Prop where
  within : Within s.kernel s'.kernel
  external_eq : s'.inExternalIntr = s.inExternalIntr

theorem Handled.refl (s : System) : s.Handled s := ⟨Within.refl _, rfl⟩

theorem Handled.trans (h : s.Handled s') (h' : s'.Handled s'') : s.Handled s'' :=
  ⟨h.within.trans h'.within, h'.external_eq.trans h.external_eq⟩

theorem Handled.of_kernel (hkernel : s'.kernel = s.kernel)
    (hexternal : s'.inExternalIntr = s.inExternalIntr) : s.Handled s' :=
  ⟨hkernel ▸ Within.refl _, hexternal⟩

/-- `sema_up` finds a thread that it can unblock, if one waits. -/
theorem Inv.exists_semaWake (h : s.Inv sleeper) (id : SemaId) :
    ∃ s', s.semaWake id = some s' ∧ s'.Inv sleeper ∧ s.Handled s' := by
  unfold semaWake
  cases hlist : (s.sema id).waiters with
  | nil => exact ⟨s, rfl, h, Handled.refl s⟩
  | cons u us =>
      obtain ⟨sorted, hsorted, hperm, -⟩ :=
        listSort_spec s.kernel.effectivePriority (u :: us)
      cases sorted with
      | nil => exact absurd hperm.length_eq (by simp)
      | cons t rest =>
          rw [← hlist] at hperm
          have ht : t ∈ (s.sema id).waiters := hperm.mem_iff.mp List.mem_cons_self
          have hhooked : s.Hooked t := Or.inl ⟨id, ht⟩
          obtain ⟨k, hk⟩ := Mlfqs.Kernel.exists_threadUnblock (h.placed.blocked t hhooked)
          have hwakes := Mlfqs.Kernel.threadUnblock_wakes hk
          have hrest : (t :: rest).Nodup := hperm.nodup_iff.mpr (h.nodup id)
          have hloosens : s.Loosens
              (s.setSema id fun sema => { sema with waiters := rest }) :=
            loosens_setSema (f := fun sema => { sema with waiters := rest })
              (fun v hv => hperm.mem_iff.mp (List.mem_cons_of_mem t hv))
              fun _ => (List.nodup_cons.mp hrest).2
          refine ⟨(s.setSema id fun sema => { sema with waiters := rest }).setKernel k,
            ?_, h.wake hloosens hwakes hhooked ?_, ⟨Within.of_wakes hwakes, rfl⟩⟩
          · simp only [hsorted, Option.bind_eq_bind, Option.bind_some]
            exact congrArg (Option.map _) hk
          · rintro (⟨id', ht'⟩ | ⟨q, w, ht'⟩)
            · have hid : id' = id := by
                have hpc := h.down id' t (hloosens.waiters id' t ht')
                exact Pc.down.inj (hpc.symm.trans (h.down id t ht))
              subst hid
              have hself := s.sema_setSema_self id' fun sema =>
                { sema with waiters := rest }
              exact (List.nodup_cons.mp hrest).1
                ((congrArg (t ∈ ·.waiters) hself).mp ht')
            · cases (h.waits q w t ht').symm.trans (h.down id t ht)

theorem Inv.semaTryDown (h : s.Inv sleeper) (id : SemaId) :
    (s.semaTryDown id).Inv sleeper ∧ s.Handled (s.semaTryDown id) := by
  unfold System.semaTryDown
  split
  · exact ⟨h.loosen (loosens_setSema (fun _ ht => ht) fun h => h) rfl,
      Handled.of_kernel rfl rfl⟩
  · exact ⟨h, Handled.refl s⟩

/-- `signal` finds the waiting thread blocked, if there is one. -/
theorem Inv.exists_signal (h : s.Inv sleeper) (hholds : (s.queue q).holds w = true) :
    ∃ s', s.signal q w = some s' ∧ s'.Inv sleeper ∧ s.Handled s' ∧
      ∀ q', (s'.queue q').head = (s.queue q').head ∧
        (s'.queue q').tail = (s.queue q').tail := by
  unfold signal
  rw [if_pos hholds]
  cases ht : (s.queue q).waiter w with
  | none => exact ⟨s, rfl, h, Handled.refl s, fun _ => ⟨rfl, rfl⟩⟩
  | some t =>
      have hhooked : s.Hooked t := Or.inr ⟨q, w, ht⟩
      obtain ⟨k, hk⟩ := Mlfqs.Kernel.exists_threadUnblock (h.placed.blocked t hhooked)
      have hwakes := Mlfqs.Kernel.threadUnblock_wakes hk
      have hloosens : s.Loosens (s.setWaiter q w none) := by
        refine ⟨rfl, fun _ _ hu => hu, fun _ h => h, fun q' w' u hu => ?_, fun q' hin => ?_⟩
        · by_cases hsame : q' = q ∧ w' = w
          · obtain ⟨rfl, rfl⟩ := hsame
            cases (s.waiter_setWaiter_self q' w' none).symm.trans hu
          · rw [waiter_setWaiter_of_ne hsame] at hu
            exact hu
        · rw [(s.ends_setWaiter q w none q').1, (s.ends_setWaiter q w none q').2]
          exact hin
      refine ⟨(s.setWaiter q w none).setKernel k, ?_, h.wake hloosens hwakes hhooked ?_,
        ⟨Within.of_wakes hwakes, rfl⟩, s.ends_setWaiter q w none⟩
      · simp only [threadUnblock, hk, Option.map_some, Option.bind_eq_bind,
          Option.bind_some]
        rfl
      · rintro (⟨id, ht'⟩ | ⟨q', w', ht'⟩)
        · cases (h.down id t ht').symm.trans (h.waits q w t ht)
        · obtain ⟨rfl, rfl⟩ := Pc.wait.inj
            ((h.waits q' w' t (hloosens.waiter q' w' t ht')).symm.trans
              (h.waits q w t ht))
          cases (s.waiter_setWaiter_self q' w' none).symm.trans ht'

/-- A byte can be taken from a queue that is not empty, and leaves room. -/
theorem Inv.exists_intqGetc (h : s.Inv sleeper) (hempty : (s.queue q).empty = false) :
    ∃ s', s.intqGetc q = some s' ∧ s'.Inv sleeper ∧ s.Handled s' ∧
      (s'.queue q).full = false := by
  obtain ⟨s₁, hs₁⟩ : ∃ s₁, s₁ =
      s.setQueue q fun intq => { intq with tail := nextPos intq.tail } := ⟨_, rfl⟩
  have hself : s₁.queue q = { s.queue q with tail := nextPos (s.queue q).tail } := by
    rw [hs₁]
    exact s.queue_setQueue_self q _
  have hfull : (s₁.queue q).full = false := by
    rw [hself]
    refine decide_eq_false fun heq => of_decide_eq_false hempty ?_
    exact nextPos_inj (h.inside q).1 (h.inside q).2 heq
  have hinv : s₁.Inv sleeper := by
    rw [hs₁]
    exact h.loosen (loosens_setQueue (fun _ _ hu => hu) fun hin =>
      ⟨hin.1, nextPos_lt _⟩) rfl
  have hholds : (s₁.queue q).holds .notFull = true := by
    rw [Intq.holds, hfull]
    rfl
  obtain ⟨s', hs', hinv', hhandled, hsame⟩ := hinv.exists_signal hholds
  refine ⟨s', ?_, hinv', ?_, ?_⟩
  · unfold intqGetc
    rw [hempty, if_neg Bool.false_ne_true, ← hs₁]
    exact hs'
  · exact (Handled.of_kernel (by rw [hs₁]; rfl) (by rw [hs₁]; rfl)).trans hhandled
  · rw [Intq.full, (hsame q).1, (hsame q).2]
    exact hfull

theorem Inv.exists_intqPutc (h : s.Inv sleeper) (hfull : (s.queue q).full = false) :
    ∃ s', s.intqPutc q = some s' ∧ s'.Inv sleeper ∧ s.Handled s' := by
  obtain ⟨s₁, hs₁⟩ : ∃ s₁, s₁ =
      s.setQueue q fun intq => { intq with head := nextPos intq.head } := ⟨_, rfl⟩
  have hself : s₁.queue q = { s.queue q with head := nextPos (s.queue q).head } := by
    rw [hs₁]
    exact s.queue_setQueue_self q _
  have hholds : (s₁.queue q).holds .notEmpty = true := by
    rw [hself]
    exact congrArg not hfull
  have hinv : s₁.Inv sleeper := by
    rw [hs₁]
    exact h.loosen (loosens_setQueue (fun _ _ hu => hu) fun hin =>
      ⟨nextPos_lt _, hin.2⟩) rfl
  obtain ⟨s', hs', hinv', hhandled, -⟩ := hinv.exists_signal hholds
  refine ⟨s', ?_, hinv', ?_⟩
  · unfold intqPutc
    rw [hfull, if_neg Bool.false_ne_true, ← hs₁]
    exact hs'
  · exact (Handled.of_kernel (by rw [hs₁]; rfl) (by rw [hs₁]; rfl)).trans hhandled

theorem Intq.empty_of_full {intq : Intq} (hfull : intq.full = true) :
    intq.empty = false := by
  refine decide_eq_false fun heq => ?_
  exact nextPos_ne intq.head ((of_decide_eq_true hfull).trans heq.symm)

theorem Inv.exists_serialPutc (h : s.Inv sleeper) :
    ∃ s', s.serialPutc = some s' ∧ s'.Inv sleeper ∧ s.Handled s' := by
  unfold serialPutc
  split
  · cases hfull : (s.queue .txq).full with
    | false =>
        obtain ⟨s', hs', hinv, hhandled⟩ := h.exists_intqPutc hfull
        exact ⟨s', hs', hinv, hhandled⟩
    | true =>
        obtain ⟨s₁, hs₁, hinv₁, hhandled₁, hfull₁⟩ :=
          h.exists_intqGetc (Intq.empty_of_full hfull)
        obtain ⟨s', hs', hinv, hhandled⟩ := hinv₁.exists_intqPutc hfull₁
        refine ⟨s', ?_, hinv, hhandled₁.trans hhandled⟩
        rw [if_pos rfl, hs₁]
        exact hs'
  · exact ⟨s, rfl, h, Handled.refl s⟩

theorem Inv.exists_printf (h : s.Inv sleeper) (n : Nat) :
    ∃ s', s.printf n = some s' ∧ s'.Inv sleeper ∧ s.Handled s' := by
  induction n generalizing s with
  | zero => exact ⟨s, rfl, h, Handled.refl s⟩
  | succ n ih =>
      obtain ⟨s₁, hs₁, hinv₁, hhandled₁⟩ := h.exists_serialPutc
      obtain ⟨s', hs', hinv, hhandled⟩ := ih hinv₁
      refine ⟨s', ?_, hinv, hhandled₁.trans hhandled⟩
      rw [printf, hs₁]
      exact hs'

theorem Inv.exists_receive (h : s.Inv sleeper) (n : Nat) :
    ∃ s', s.receive n = some s' ∧ s'.Inv sleeper ∧ s.Handled s' := by
  induction n generalizing s with
  | zero => exact ⟨s, rfl, h, Handled.refl s⟩
  | succ n ih =>
      cases hfull : (s.queue .buffer).full with
      | true => exact ⟨s, by rw [receive, hfull]; rfl, h, Handled.refl s⟩
      | false =>
          obtain ⟨s₁, hs₁, hinv₁, hhandled₁⟩ := h.exists_intqPutc hfull
          obtain ⟨s', hs', hinv, hhandled⟩ := ih hinv₁
          refine ⟨s', ?_, hinv, hhandled₁.trans hhandled⟩
          rw [receive, hfull, if_neg Bool.false_ne_true, hs₁]
          exact hs'

theorem Inv.exists_transmit (h : s.Inv sleeper) (n : Nat) :
    ∃ s', s.transmit n = some s' ∧ s'.Inv sleeper ∧ s.Handled s' := by
  induction n generalizing s with
  | zero => exact ⟨s, rfl, h, Handled.refl s⟩
  | succ n ih =>
      cases hempty : (s.queue .txq).empty with
      | true => exact ⟨s, by rw [transmit, hempty]; rfl, h, Handled.refl s⟩
      | false =>
          obtain ⟨s₁, hs₁, hinv₁, hhandled₁, -⟩ := h.exists_intqGetc hempty
          obtain ⟨s', hs', hinv, hhandled⟩ := ih hinv₁
          refine ⟨s', ?_, hinv, hhandled₁.trans hhandled⟩
          rw [transmit, hempty, if_neg Bool.false_ne_true, hs₁]
          exact hs'

/-- The kernel's part of `timer_interrupt`, up to `thread_tick`. -/
theorem Inv.exists_timerKernel (h : s.Inv sleeper) :
    ∃ k : Mlfqs.Kernel, s.timerInterrupt = some { s with
        kernel := { k with threadTicks := k.threadTicks + 1 }
        yieldOnReturn := s.yieldOnReturn ||
          decide (k.threadTicks + 1 ≥ Mlfqs.timeSlice) } ∧
      Placed k s.pc s.Hooked (sleeper.bind tickDown) ∧ Within s.kernel k ∧
      ∀ t, sleeper = some (t, 1) → k.statusOf t = some .ready := by
  obtain ⟨k₁, hk₁, hplaced, hwithin, -, hready⟩ := h.placed.exists_tick
  unfold timerInterrupt
  split
  · obtain ⟨k₂, hk₂, hcalm₂⟩ := k₁.updateRecentCpuByOne.exists_eachSecond
    obtain ⟨k₃, hk₃⟩ : ∃ k₃, k₃ =
        if k₂.ticks % 4 = 0 then k₂.updatePriority k₂.current else k₂ := ⟨_, rfl⟩
    have hcalm₃ : k₂.Calm k₃ := by
      rw [hk₃]
      split
      · exact k₂.calm_updatePriority k₂.current
      · exact Mlfqs.Kernel.Calm.refl k₂
    have hcalm := (k₁.calm_updateRecentCpuByOne.trans hcalm₂).trans hcalm₃
    have hwakes : s.kernel.timerWakes = some k₁.updateRecentCpuByOne := by
      unfold Mlfqs.Kernel.timerWakes
      simp only [hk₁, Option.map_some]
    refine ⟨k₃, ?_, hplaced.calm hcalm, hwithin.trans (Within.of_calm hcalm),
      fun t ht => (hcalm.status_eq t).trans (hready t ht)⟩
    simp only [hwakes, Option.bind_eq_bind, Option.bind_some, hk₂, hk₃]
  · refine ⟨k₁, ?_, hplaced, hwithin, hready⟩
    simp only [hk₁, Option.bind_eq_bind, Option.bind_some]

theorem Inv.exists_timerInterrupt (h : s.Inv sleeper) :
    ∃ s', s.timerInterrupt = some s' ∧ s'.Inv (sleeper.bind tickDown) ∧ s.Handled s' ∧
      ∀ t, sleeper = some (t, 1) → s'.kernel.statusOf t = some .ready := by
  obtain ⟨k, hs', hplaced, hwithin, hready⟩ := h.exists_timerKernel
  have hcalm : k.Calm { k with threadTicks := k.threadTicks + 1 } :=
    Mlfqs.Kernel.Calm.of_same rfl (List.Perm.refl _) rfl rfl rfl
  have hwithin' := hwithin.trans (Within.of_calm hcalm)
  have hinv := h.setKernel (hplaced.calm hcalm) fun hawake =>
    h.within_running hwithin' hawake
  exact ⟨_, hs', ⟨hinv.placed, hinv.running, hinv.down, hinv.waits, hinv.nodup,
    hinv.inside⟩, ⟨hwithin', rfl⟩, hready⟩

/-- What is left of a sleep after an interrupt. -/
def sleepAfter : Interrupt → Option (Nat × Int) → Option (Nat × Int)
  | .timer, sleeper => sleeper.bind tickDown
  | _, sleeper => sleeper

/-- An interrupt of a channel for which a command has once been issued. -/
def Expected (s : System) (i : Interrupt) : Prop :=
  ∃ c, i = .ide c ∧ s.expectingInterrupt c = true

/-- Every other handler comes to an end, in the thread in which it began. -/
theorem Inv.exists_handler (h : s.Inv sleeper) {i : Interrupt} (hi : ¬ s.Expected i) :
    ∃ s', s.handler i = some s' ∧ s'.Inv (sleepAfter i sleeper) ∧ s.Handled s' ∧
      ∀ t, i = .timer → sleeper = some (t, 1) →
        s'.kernel.statusOf t = some .ready := by
  cases i with
  | timer =>
      obtain ⟨s', hs', hinv, hhandled, hready⟩ := h.exists_timerInterrupt
      exact ⟨s', hs', hinv, hhandled, fun t _ => hready t⟩
  | keyboard key =>
      unfold handler
      by_cases hkey : key = true ∧ (!(s.queue .buffer).full) = true
      · obtain ⟨s', hs', hinv, hhandled⟩ := h.exists_intqPutc
          (Bool.not_eq_true' _ ▸ hkey.2)
        exact ⟨s', (if_pos hkey).trans hs', hinv, hhandled, fun t ht => by cases ht⟩
      · exact ⟨s, if_neg hkey, h, Handled.refl s, fun t ht => by cases ht⟩
  | serial received transmitted =>
      obtain ⟨s₁, hs₁, hinv₁, hhandled₁⟩ := h.exists_receive received
      obtain ⟨s', hs', hinv, hhandled⟩ := hinv₁.exists_transmit transmitted
      refine ⟨s', ?_, hinv, hhandled₁.trans hhandled, fun t ht => by cases ht⟩
      rw [handler, hs₁]
      exact hs'
  | ide c =>
      have hquiet : s.expectingInterrupt c = false :=
        Bool.eq_false_iff.mpr fun hexpecting => hi ⟨c, rfl, hexpecting⟩
      obtain ⟨s', hs', hinv, hhandled⟩ :=
        h.exists_printf (channelName c ++ ": unexpected interrupt\n").length
      refine ⟨s', ?_, hinv, hhandled, fun t ht => by cases ht⟩
      rw [handler, interruptHandler, hquiet, if_neg Bool.false_ne_true]
      exact hs'
  | unexpected printed =>
      obtain ⟨s', hs', hinv, hhandled⟩ := h.exists_printf printed
      exact ⟨s', hs', hinv, hhandled, fun t ht => by cases ht⟩

/-- In an interrupt `sema_up` fails: its last call is `thread_yield`. -/
theorem Inv.semaUp_external (h : s.Inv sleeper) (hexternal : s.inExternalIntr = true)
    (id : SemaId) : s.semaUp id = none := by
  obtain ⟨s₁, hs₁, -, hhandled⟩ := h.exists_semaWake id
  have hinside : s₁.inExternalIntr = true := hhandled.external_eq.trans hexternal
  unfold semaUp
  simp only [hs₁, Option.bind_eq_bind, Option.bind_some]
  exact if_pos hinside

theorem Inv.enter (h : s.Inv sleeper) : s.enter.Inv sleeper :=
  ⟨h.placed, h.running, h.down, h.waits, h.nodup, h.inside⟩

theorem Inv.handler_expected (h : s.Inv sleeper) {i : Interrupt} (hi : s.Expected i) :
    s.enter.handler i = none := by
  obtain ⟨c, rfl, hexpecting⟩ := hi
  have hfails := h.enter.semaUp_external rfl (.completionWait c)
  rw [handler, interruptHandler]
  exact (if_pos hexpecting).trans hfails

/-! Every step keeps the invariant. -/

theorem Inv.threadYield (h : s.Inv sleeper) (hawake : s.kernel.switching = false)
    (hs : s.threadYield = some s') :
    s'.Inv sleeper ∧ s'.inExternalIntr = s.inExternalIntr := by
  unfold System.threadYield at hs
  split at hs
  · cases hs
  · rw [← Option.some.inj hs]
    exact ⟨h.setKernel (h.placed.threadYield (h.running hawake))
      fun hswitching => (by cases hswitching), rfl⟩

theorem Inv.interrupt (h : s.Inv sleeper) (hawake : s.kernel.switching = false)
    {i : Interrupt} (hs : s.intrHandler i = some s') :
    s'.Inv (sleepAfter i sleeper) ∧ s'.inExternalIntr = false ∧
      ∀ t, i = .timer → sleeper = some (t, 1) →
        s'.kernel.statusOf t = some .ready := by
  have hi : ¬ s.Expected i := by
    intro hi
    unfold intrHandler at hs
    rw [h.handler_expected hi] at hs
    cases hs
  obtain ⟨s₁, hs₁, hinv, hhandled, hready⟩ := h.enter.exists_handler (i := i) hi
  unfold intrHandler at hs
  simp only [hs₁, Option.bind_eq_bind, Option.bind_some] at hs
  have hinv₁ : ({ s₁ with inExternalIntr := false } : System).Inv
      (sleepAfter i sleeper) :=
    ⟨hinv.placed, hinv.running, hinv.down, hinv.waits, hinv.nodup, hinv.inside⟩
  split at hs
  · have hawake₁ : s₁.kernel.switching = false :=
      hhandled.within.switching_eq.trans hawake
    obtain ⟨hinv', hexternal⟩ := hinv₁.threadYield hawake₁ hs
    refine ⟨hinv', hexternal, fun t ht hsleeper => ?_⟩
    have hstatus := hready t ht hsleeper
    have hne : t ≠ s₁.kernel.current := by
      rintro rfl
      cases hstatus.symm.trans (hinv₁.running hawake₁)
    unfold System.threadYield at hs
    rw [if_neg Bool.false_ne_true] at hs
    rw [← Option.some.inj hs]
    exact (s₁.kernel.statusOf_threadYield hne).trans hstatus
  · rw [← Option.some.inj hs]
    exact ⟨hinv₁, rfl, hready⟩

theorem eq_of_threadBlock (hs : s.threadBlock = some s') :
    s' = s.setKernel s.kernel.threadBlock := by
  unfold System.threadBlock at hs
  split at hs
  · cases hs
  · exact (Option.some.inj hs).symm

theorem Inv.semaDown (h : s.Inv sleeper) (hawake : s.kernel.switching = false)
    (hidle : s.kernel.idleThread ≠ some s.kernel.current) (hs : s.semaDown id = some s') :
    s'.Inv sleeper ∧ s'.inExternalIntr = s.inExternalIntr := by
  have hrunning := h.running hawake
  unfold System.semaDown at hs
  split at hs
  · cases hs
  · split at hs
    · obtain ⟨waiters, hwaiters⟩ : ∃ waiters, waiters =
          (s.sema id).waiters.orderedInsert
            (fun t u => byKey s.kernel.effectivePriority t u) s.kernel.current :=
        ⟨_, rfl⟩
      have hperm : waiters.Perm (s.kernel.current :: (s.sema id).waiters) :=
        hwaiters ▸ List.perm_orderedInsert _ _ _
      have hnot : s.kernel.current ∉ (s.sema id).waiters := fun hmem =>
        h.placed.current_not_hooked hrunning (Or.inl ⟨id, hmem⟩)
      simp only [← hwaiters] at hs
      rw [eq_of_threadBlock hs]
      obtain ⟨s₁, hs₁⟩ : ∃ s₁, s₁ = (s.setSema id fun sema =>
          { sema with waiters := waiters }).setPc s.kernel.current (.down id) :=
        ⟨_, rfl⟩
      have hself : (s₁.sema id).waiters = waiters := by
        rw [hs₁]
        exact congrArg Semaphore.waiters (s.sema_setSema_self id fun sema =>
          { sema with waiters := waiters })
      have hother : ∀ id', id' ≠ id → s₁.sema id' = s.sema id' := by
        intro id' hid
        rw [hs₁]
        exact sema_setSema_of_ne (s := s) hid fun sema => { sema with waiters := waiters }
      rw [← hs₁]
      refine ⟨h.block hawake (by rw [hs₁]; rfl) (p := .down id) (by rw [hs₁]; rfl)
        (fun id' t ht => ?_) (fun q w t ht => Or.inl (by rw [hs₁] at ht; exact ht))
        (fun id' => ?_) (by rw [hs₁]; exact h.inside) fun hcurrent =>
          absurd hcurrent hidle, by rw [hs₁]; rfl⟩
      · by_cases hid : id' = id
        · subst hid
          rw [hself] at ht
          rcases List.mem_cons.mp (hperm.mem_iff.mp ht) with rfl | ht
          · exact Or.inr ⟨rfl, rfl⟩
          · exact Or.inl ht
        · rw [hother id' hid] at ht
          exact Or.inl ht
      · by_cases hid : id' = id
        · subst hid
          rw [hself]
          exact hperm.nodup_iff.mpr (List.nodup_cons.mpr ⟨hnot, h.nodup id'⟩)
        · rw [hother id' hid]
          exact h.nodup id'
    · rw [← Option.some.inj hs]
      have hloosens : s.Loosens
          (s.setSema id fun sema => { sema with value := sema.value - 1 }) :=
        loosens_setSema (fun _ ht => ht) fun h => h
      exact ⟨(h.loosen hloosens rfl).setCurrentPc hawake fun hcurrent =>
        absurd hcurrent hidle, rfl⟩

theorem Inv.semaUp (h : s.Inv sleeper) (hawake : s.kernel.switching = false)
    (hs : s.semaUp id = some s') :
    s'.Inv sleeper ∧ s'.inExternalIntr = s.inExternalIntr := by
  obtain ⟨s₁, hs₁, hinv, hhandled⟩ := h.exists_semaWake id
  unfold System.semaUp at hs
  simp only [hs₁, Option.bind_eq_bind, Option.bind_some] at hs
  have hloosens : s₁.Loosens
      (s₁.setSema id fun sema => { sema with value := (sema.value + 1) % 2 ^ 32 }) :=
    loosens_setSema (fun _ ht => ht) fun h => h
  obtain ⟨hinv', hexternal⟩ := (hinv.loosen hloosens rfl).threadYield
    (hhandled.within.switching_eq.trans hawake) hs
  exact ⟨hinv', hexternal.trans hhandled.external_eq⟩

theorem Inv.wait (h : s.Inv sleeper) (hawake : s.kernel.switching = false)
    (hidle : s.kernel.idleThread ≠ some s.kernel.current) (hs : s.wait q w = some s') :
    s'.Inv sleeper ∧ s'.inExternalIntr = s.inExternalIntr := by
  unfold System.wait at hs
  split at hs
  · cases hs
  · rw [eq_of_threadBlock hs]
    have hkernel : ((s.setWaiter q w (some s.kernel.current)).setPc s.kernel.current
        (.wait q w)).kernel = s.kernel := rfl
    refine ⟨h.block hawake hkernel (p := .wait q w) rfl (fun id t ht => Or.inl ht) (fun q' w' t ht => ?_) h.nodup
      (fun q' => ?_) fun hcurrent => absurd hcurrent hidle, rfl⟩
    · by_cases hsame : q' = q ∧ w' = w
      · obtain ⟨rfl, rfl⟩ := hsame
        have hself := s.waiter_setWaiter_self q' w' (some s.kernel.current)
        exact Or.inr ⟨(Option.some.inj (hself.symm.trans ht)).symm, rfl⟩
      · exact Or.inl ((waiter_setWaiter_of_ne hsame _).symm.trans ht)
    · obtain ⟨hhead, htail⟩ := s.ends_setWaiter q w (some s.kernel.current) q'
      exact ⟨hhead.trans_lt (h.inside q').1, htail.trans_lt (h.inside q').2⟩

theorem Inv.threadExit (h : s.Inv sleeper) (hawake : s.kernel.switching = false)
    (hidle : s.kernel.idleThread ≠ some s.kernel.current) (hs : s.threadExit = some s') :
    s'.Inv sleeper ∧ s'.inExternalIntr = s.inExternalIntr := by
  unfold System.threadExit at hs
  split at hs
  · cases hs
  · rw [← Option.some.inj hs]
    exact ⟨h.setKernel (h.placed.threadExit (h.running hawake) hidle)
      fun hswitching => (by cases hswitching), rfl⟩

theorem Inv.threadSetPriority (h : s.Inv sleeper) (hawake : s.kernel.switching = false)
    {newPriority beyond : Int} (hs : s.threadSetPriority newPriority beyond = some s') :
    s'.Inv sleeper ∧ s'.inExternalIntr = s.inExternalIntr := by
  unfold System.threadSetPriority at hs
  split at hs
  · rw [← Option.some.inj hs]
    exact ⟨h, rfl⟩
  · have hcalm : s.kernel.Calm (s.kernel.modify s.kernel.current fun t =>
        { t with effectivePriority := newPriority }) :=
      Mlfqs.Kernel.calm_modify (fun _ => rfl) (fun _ => rfl) fun _ => rfl
    simp only at hs
    split at hs
    · exact (h.calm hcalm).threadYield hawake hs
    · rw [← Option.some.inj hs]
      exact ⟨h.calm hcalm, rfl⟩

theorem Inv.threadSetNice (h : s.Inv sleeper) (hawake : s.kernel.switching = false)
    {nice : Int} (hs : s.threadSetNice nice = some s') :
    s'.Inv sleeper ∧ s'.inExternalIntr = s.inExternalIntr := by
  unfold System.threadSetNice at hs
  split at hs
  · have hnice : s.kernel.Calm
        (s.kernel.modify s.kernel.current fun t => { t with nice := nice }) :=
      Mlfqs.Kernel.calm_modify (fun _ => rfl) (fun _ => rfl) fun _ => rfl
    have hcalm := hnice.trans (Mlfqs.Kernel.calm_updatePriority _ s.kernel.current)
    exact (h.calm hcalm).threadYield (hcalm.switching_eq.trans hawake) hs
  · cases hs

/-- The sleep that begins may be the one that is named. -/
theorem Inv.sleep (h : s.Inv sleeper) (hawake : s.kernel.switching = false)
    (hidle : s.kernel.idleThread ≠ some s.kernel.current) {ticks : Int}
    (hpos : 0 < ticks) (hs : s.timerSleep ticks = some s')
    {sleeper' : Option (Nat × Int)}
    (hother : ∀ u w, sleeper' = some (u, w) → u ≠ s.kernel.current →
      sleeper = some (u, w))
    (hself : ∀ w, sleeper' = some (s.kernel.current, w) → w = Mlfqs.fixed ticks) :
    s'.Inv sleeper' ∧ s'.inExternalIntr = s.inExternalIntr := by
  have hrunning := h.running hawake
  have hnot := h.placed.current_not_hooked hrunning
  unfold System.timerSleep at hs
  rw [if_neg (not_le.mpr hpos)] at hs
  rw [eq_of_threadBlock hs]
  refine ⟨⟨h.placed.sleep hrunning hidle hother hself,
    fun hswitching => (by cases hswitching), fun id t ht => ?_, fun q w t ht => ?_,
    h.nodup, h.inside⟩, rfl⟩
  · have hne : t ≠ s.kernel.current := by
      rintro rfl
      exact hnot (Or.inl ⟨id, ht⟩)
    exact (Function.update_of_ne hne _ _).trans (h.down id t ht)
  · have hne : t ≠ s.kernel.current := by
      rintro rfl
      exact hnot (Or.inr ⟨q, w, ht⟩)
    exact (Function.update_of_ne hne _ _).trans (h.waits q w t ht)

theorem Inv.timerSleep (h : s.Inv sleeper) (hawake : s.kernel.switching = false)
    (hidle : s.kernel.idleThread ≠ some s.kernel.current) {ticks : Int}
    (hs : s.timerSleep ticks = some s') :
    s'.Inv sleeper ∧ s'.inExternalIntr = s.inExternalIntr := by
  rcases lt_or_ge 0 ticks with hpos | hle
  · refine h.sleep hawake hidle hpos hs (fun u w hu _ => hu) fun w hw => ?_
    exact absurd hw (h.placed.sleeper_ne_current (h.running hawake) w)
  · unfold System.timerSleep at hs
    rw [if_pos hle] at hs
    rw [← Option.some.inj hs]
    exact ⟨h, rfl⟩

/-- The thread that `thread_create` makes. -/
theorem Inv.initThread (h : s.Inv sleeper) (hawake : s.kernel.switching = false)
    (hnew : s.kernel.thread t = none) (priority : Int) :
    ((s.setKernel { s.kernel with
      allList := s.kernel.allList ++ [Mlfqs.initThread t priority] }).setPc t
        .new).Inv sleeper := by
  have hnone : s.kernel.statusOf t = none := by
    rw [Mlfqs.Kernel.statusOf, hnew]
    rfl
  have hloose : ¬ s.Hooked t := fun ht => by
    cases (h.placed.blocked t ht).symm.trans hnone
  refine ⟨h.placed.initThread hnew priority, fun _ => ?_, fun id u hu => ?_,
    fun q w u hu => ?_, h.nodup, h.inside⟩
  · have hrunning := h.running hawake
    obtain ⟨x, hx, hstatus⟩ := Option.map_eq_some_iff.mp hrunning
    have hthread : Mlfqs.Kernel.thread { s.kernel with
        allList := s.kernel.allList ++ [Mlfqs.initThread t priority] }
          s.kernel.current = some x := by
      rw [Mlfqs.Kernel.thread] at hx
      rw [Mlfqs.Kernel.thread, List.find?_append, hx]
      rfl
    exact (congrArg (Option.map Mlfqs.Thread.status) hthread).trans (congrArg some hstatus)
  · have hne : u ≠ t := by
      rintro rfl
      exact hloose (Or.inl ⟨id, hu⟩)
    exact (Function.update_of_ne hne _ _).trans (h.down id u hu)
  · have hne : u ≠ t := by
      rintro rfl
      exact hloose (Or.inr ⟨q, w, hu⟩)
    exact (Function.update_of_ne hne _ _).trans (h.waits q w u hu)

/-- `thread_create` unblocks the thread that it has made. -/
theorem Inv.startThread (h : s.Inv sleeper) (hnew : s.pc t = .new)
    (hs : s.threadUnblock t = some s') :
    (s'.setPc t .next).Inv sleeper ∧ s'.inExternalIntr = s.inExternalIntr := by
  obtain ⟨k, hk, rfl⟩ := Option.map_eq_some_iff.mp hs
  have hwakes := Mlfqs.Kernel.threadUnblock_wakes hk
  have hloose : ¬ s.Hooked t := h.not_hooked (fun id hpc => by cases hnew.symm.trans hpc)
    fun q w hpc => by cases hnew.symm.trans hpc
  have hasleep : s.pc t ≠ .asleep := fun hpc => by cases hnew.symm.trans hpc
  have hzero := h.placed.wakeOf_eq_zero hasleep
  have hsleeper : ∀ w, sleeper ≠ some (t, w) := fun w hw =>
    hasleep (h.placed.sleeps t w hw).2.2
  have hinv : (s.setKernel k).Inv sleeper :=
    h.setKernel (h.placed.wakes hwakes hloose hzero hsleeper) fun hawake =>
      h.within_running (Within.of_wakes hwakes) hawake
  refine ⟨hinv.setPc hloose ((hwakes.wake_eq t).trans hzero) hsleeper fun hi => ?_, rfl⟩
  rcases h.placed.idle t (hwakes.idle_eq ▸ hi) with hpc | ⟨id, hpc⟩ <;>
    cases hnew.symm.trans hpc

/-- `idle` starts in a thread that is not yet the idle thread. -/
theorem Inv.startIdle (h : s.Inv sleeper) (hawake : s.kernel.switching = false)
    (hnone : s.kernel.idleThread = none) (id : SemaId) :
    ((s.setKernel { s.kernel with idleThread := some s.kernel.current }).setPc
      s.kernel.current (.idleUp id)).Inv sleeper := by
  have hinv := h.setCurrentPc hawake (p := .idleUp id) fun hcurrent =>
    (by cases hnone.symm.trans hcurrent)
  have hplaced := hinv.placed.setIdle (h.running hawake)
    (Or.inr ⟨id, Function.update_self _ _ _⟩)
  exact ⟨hplaced, h.running, hinv.down, hinv.waits, hinv.nodup, hinv.inside⟩

theorem Inv.call (h : s.Inv sleeper) (hawake : s.kernel.switching = false)
    (hnext : s.pc s.kernel.current = .next) {c : Call} (hs : s.call c = some s') :
    s'.Inv sleeper ∧ s'.inExternalIntr = s.inExternalIntr := by
  have hidle : s.kernel.idleThread ≠ some s.kernel.current := by
    intro hi
    rcases h.placed.idle _ hi with hpc | ⟨id, hpc⟩ <;> cases hnext.symm.trans hpc
  cases c with
  | yield => exact h.threadYield hawake hs
  | exit => exact h.threadExit hawake hidle hs
  | setPriority newPriority beyond => exact h.threadSetPriority hawake hs
  | setNice nice => exact h.threadSetNice hawake hs
  | timerSleep ticks => exact h.timerSleep hawake hidle hs
  | semaDown id => exact h.semaDown hawake hidle hs
  | semaTryDown id =>
      rw [← Option.some.inj hs]
      exact ⟨(h.semaTryDown id).1, (h.semaTryDown id).2.external_eq⟩
  | semaUp id => exact h.semaUp hawake hs
  | initThread t priority =>
      simp only [System.call] at hs
      split at hs
      case isTrue hnew =>
        rw [← Option.some.inj hs]
        exact ⟨h.initThread hawake hnew.1 priority, rfl⟩
      case isFalse => cases hs
  | inheritNice t =>
      obtain ⟨u, -, rfl⟩ := Option.map_eq_some_iff.mp hs
      have hcalm : s.kernel.Calm
          (s.kernel.modify t fun v => { v with nice := u.nice }) :=
        Mlfqs.Kernel.calm_modify (fun _ => rfl) (fun _ => rfl) fun _ => rfl
      exact ⟨h.calm hcalm, rfl⟩
  | startThread t =>
      simp only [System.call] at hs
      split at hs
      case isTrue hnew =>
        obtain ⟨s₁, hs₁, rfl⟩ := Option.map_eq_some_iff.mp hs
        exact h.startThread hnew hs₁
      case isFalse => cases hs
  | wait q w => exact h.wait hawake hidle hs
  | getc q =>
      have hempty : (s.queue q).empty = false := by
        by_contra hempty
        simp only [System.call, intqGetc, Bool.not_eq_false _ ▸ hempty, if_true] at hs
        cases hs
      obtain ⟨s₁, hs₁, hinv, hhandled, -⟩ := h.exists_intqGetc hempty
      obtain rfl := Option.some.inj (hs₁.symm.trans hs)
      exact ⟨hinv, hhandled.external_eq⟩
  | putc q =>
      have hfull : (s.queue q).full = false := by
        by_contra hfull
        simp only [System.call, intqPutc, Bool.not_eq_false _ ▸ hfull, if_true] at hs
        cases hs
      obtain ⟨s₁, hs₁, hinv, hhandled⟩ := h.exists_intqPutc hfull
      obtain rfl := Option.some.inj (hs₁.symm.trans hs)
      exact ⟨hinv, hhandled.external_eq⟩
  | serialInitQueue =>
      rw [← Option.some.inj hs]
      exact ⟨⟨h.placed, h.running, h.down, h.waits, h.nodup, h.inside⟩, rfl⟩
  | issuePioCommand c =>
      rw [← Option.some.inj hs]
      exact ⟨⟨h.placed, h.running, h.down, h.waits, h.nodup, h.inside⟩, rfl⟩
  | idle started =>
      simp only [System.call] at hs
      split at hs
      case isTrue hnone =>
        rw [← Option.some.inj hs]
        exact ⟨h.startIdle hawake hnone started, rfl⟩
      case isFalse => cases hs
  | started =>
      rw [← Option.some.inj hs]
      have hcalm : s.kernel.Calm { s.kernel with loadAverage := Mlfqs.fpConst 0 } :=
        Mlfqs.Kernel.Calm.of_same rfl (List.Perm.refl _) rfl rfl rfl
      exact ⟨h.calm hcalm, rfl⟩

theorem Inv.goOn (h : s.Inv sleeper) (hawake : s.kernel.switching = false) {pc : Pc}
    (hpc : s.pc s.kernel.current = pc) (hs : s.goOn pc = some s') :
    s'.Inv sleeper ∧ s'.inExternalIntr = s.inExternalIntr := by
  have hidle : s.kernel.idleThread = some s.kernel.current →
      pc = .idle ∨ ∃ id, pc = .idleUp id := hpc ▸ h.placed.idle _
  cases pc with
  | new => cases hs
  | next => cases hs
  | down id =>
      refine h.semaDown hawake (fun hi => ?_) hs
      rcases hidle hi with hpc | ⟨id, hpc⟩ <;> cases hpc
  | wait q w =>
      rw [← Option.some.inj hs]
      refine ⟨h.setCurrentPc hawake fun hi => ?_, rfl⟩
      rcases hidle hi with hpc | ⟨id, hpc⟩ <;> cases hpc
  | asleep =>
      rw [← Option.some.inj hs]
      refine ⟨h.setCurrentPc hawake fun hi => ?_, rfl⟩
      rcases hidle hi with hpc | ⟨id, hpc⟩ <;> cases hpc
  | idleUp id => exact (h.setCurrentPc hawake fun _ => Or.inl rfl).semaUp hawake hs
  | idle =>
      rw [eq_of_threadBlock hs]
      have hsame : s.pc = Function.update s.pc s.kernel.current .idle := by
        rw [← hpc, Function.update_eq_self]
      exact ⟨h.block hawake rfl hsame (fun _ _ ht => Or.inl ht) (fun _ _ _ ht => Or.inl ht)
        h.nodup h.inside fun _ => Or.inl rfl, rfl⟩

/-- What is left of the named sleep after a step. -/
def sleepStep : Act → Option (Nat × Int) → Option (Nat × Int)
  | .interrupt i, sleeper => sleepAfter i sleeper
  | _, sleeper => sleeper

theorem Inv.step {a : Act} (h : s.Inv sleeper) (hexternal : s.inExternalIntr = false)
    (hs : step s a = some s') :
    s'.Inv (sleepStep a sleeper) ∧ s'.inExternalIntr = false := by
  unfold Interrupts.step at hs
  cases a with
  | schedule =>
      simp only at hs
      split at hs
      · obtain ⟨k, hk, rfl⟩ := Option.map_eq_some_iff.mp hs
        obtain ⟨hplaced, hrunning, -⟩ := h.placed.schedule hk
        exact ⟨h.setKernel hplaced fun _ => hrunning, hexternal⟩
      · cases hs
  | interrupt i =>
      simp only at hs
      split at hs
      case isTrue => cases hs
      case isFalse hawake =>
        obtain ⟨hinv, hexternal', -⟩ := h.interrupt (Bool.eq_false_iff.mpr hawake) hs
        exact ⟨hinv, hexternal'⟩
  | call c =>
      simp only at hs
      split at hs
      case isTrue hcond =>
        obtain ⟨hinv, hexternal'⟩ := h.call (Bool.eq_false_iff.mpr hcond.1) hcond.2 hs
        exact ⟨hinv, hexternal'.trans hexternal⟩
      case isFalse => cases hs
  | goOn =>
      simp only at hs
      split at hs
      case isTrue => cases hs
      case isFalse hawake =>
        obtain ⟨hinv, hexternal'⟩ := h.goOn (Bool.eq_false_iff.mpr hawake) rfl hs
        exact ⟨hinv, hexternal'.trans hexternal⟩

theorem boot_inv (threadMlfqs : Bool) (values : Nat → Nat) :
    (boot threadMlfqs values).Inv none := by
  have hlist : ∀ id, ((boot threadMlfqs values).sema id).waiters = [] := by
    intro id
    cases id <;> rfl
  have hloose : ∀ t, ¬ (boot threadMlfqs values).Hooked t := by
    rintro t (⟨id, ht⟩ | ⟨q, w, ht⟩)
    · rw [hlist id] at ht
      cases ht
    · cases ht
  have hwake : ∀ t, Mlfqs.boot.wakeOf t = 0 := by
    intro t
    unfold Mlfqs.Kernel.wakeOf Mlfqs.Kernel.thread Mlfqs.boot
    rw [List.find?_singleton]
    split <;> rfl
  refine ⟨⟨fun t ht => (by cases ht), List.nodup_nil, List.nodup_singleton _,
    fun t ht => absurd ht (hloose t), fun t ht => absurd ht (hloose t),
    fun t ht => absurd (hwake t) ht, fun i hi => (by cases hi),
    fun i hi => (by cases hi), fun t w ht => (by cases ht)⟩, fun _ => rfl,
    fun id t ht => absurd (Or.inl ⟨id, ht⟩) (hloose t),
    fun q w t ht => absurd (Or.inr ⟨q, w, ht⟩) (hloose t),
    fun id => ?_, fun _ => ⟨Nat.zero_lt_succ _, Nat.zero_lt_succ _⟩⟩
  rw [hlist id]
  exact List.nodup_nil

/-- The invariant of every reachable state. -/
theorem inv_of_run {threadMlfqs : Bool} {values : Nat → Nat} {acts : List Act}
    (hrun : Run Interrupts.step (fun _ _ => True) (boot threadMlfqs values) acts s) :
    s.Inv none ∧ s.inExternalIntr = false := by
  refine hrun.invariant (fun s => s.Inv none ∧ s.inExternalIntr = false)
    (fun {s s' a} h _ hs => ?_) ⟨boot_inv threadMlfqs values, rfl⟩
  have hstep := h.1.step h.2 hs
  have hnone : sleepStep a none = none := by
    cases a with
    | interrupt i => cases i <;> rfl
    | _ => rfl
  exact hnone ▸ hstep

end System

/-- A handler comes to an end in the interrupt, with the thread still running
that was interrupted, unless it is the handler of a channel for which a command
has once been issued: that one ends in `sema_up`. -/
theorem handler_returns {threadMlfqs : Bool} {values : Nat → Nat} {acts : List Act}
    {s : System}
    (hrun : Run step (fun _ _ => True) (boot threadMlfqs values) acts s)
    (hawake : s.kernel.switching = false) (i : Interrupt) :
    (∃ s', s.enter.handler i = some s' ∧ s'.inExternalIntr = true ∧
      s'.kernel.current = s.kernel.current ∧ s'.kernel.switching = false) ↔
        ¬ ∃ c, i = .ide c ∧ s.expectingInterrupt c = true := by
  obtain ⟨hinv, -⟩ := System.inv_of_run hrun
  constructor
  · rintro ⟨s', hs', -⟩ hi
    cases hs'.symm.trans (hinv.handler_expected hi)
  · intro hi
    obtain ⟨s', hs', -, hhandled, -⟩ := hinv.enter.exists_handler (i := i) hi
    exact ⟨s', hs', hhandled.external_eq, hhandled.within.current_eq,
      hhandled.within.switching_eq.trans hawake⟩

namespace InterruptWitness

def primary : Fin 2 := ⟨0, Nat.two_pos⟩

/-- The idle thread starts, and the main thread waits for the disk. -/
def waitForDisk : List Act :=
  [.call (.initThread 1 0), .call (.startThread 1), .call (.semaDown (.sema 0)),
    .schedule, .call (.idle (.sema 0)), .goOn, .schedule, .goOn,
    .call (.issuePioCommand primary), .call (.semaDown (.completionWait primary)),
    .schedule]

/-- A disk request cannot be completed: `sema_up` yields in the interrupt. -/
theorem handler_fails : ∃ acts s,
    Run step (fun _ _ => True) (boot false fun _ => 0) acts s ∧
      s.kernel.switching = false ∧ (s.sema (.completionWait 0)).waiters = [0] ∧
        s.kernel.statusOf 0 = some .blocked ∧ s.enter.handler (.ide 0) = none := by
  have hrun : (waitForDisk.foldlM step (boot false fun _ => 0)).map (fun s =>
      (s.kernel.switching, (s.sema (.completionWait 0)).waiters, s.kernel.statusOf 0,
        (s.enter.handler (.ide 0)).isNone)) =
      some (false, [0], some Mlfqs.ThreadStatus.blocked, true) := by
    decide +kernel
  obtain ⟨s, hs, heq⟩ := Option.map_eq_some_iff.mp hrun
  obtain ⟨hawake, hrest⟩ := Prod.mk.inj heq
  obtain ⟨hwaiters, hrest⟩ := Prod.mk.inj hrest
  obtain ⟨hstatus, hnone⟩ := Prod.mk.inj hrest
  exact ⟨_, s, Run.of_foldlM hs, hawake, hwaiters, hstatus,
    Option.isNone_iff_eq_none.mp hnone⟩

theorem handler_returns_timer : ∃ acts s,
    Run step (fun _ _ => True) (boot false fun _ => 0) acts s ∧
      s.expectingInterrupt 0 = true ∧
      (∃ s', s.enter.handler .timer = some s' ∧ s'.inExternalIntr = true ∧
        s'.kernel.current = s.kernel.current ∧ s'.kernel.switching = false) := by
  have hrun : (waitForDisk.foldlM step (boot false fun _ => 0)).map (fun s =>
      (s.kernel.switching, s.expectingInterrupt 0)) = some (false, true) := by
    decide +kernel
  obtain ⟨s, hs, heq⟩ := Option.map_eq_some_iff.mp hrun
  obtain ⟨hawake, hexpecting⟩ := Prod.mk.inj heq
  have hreach := Run.of_foldlM hs
  refine ⟨_, s, hreach, hexpecting, (handler_returns hreach hawake .timer).mpr ?_⟩
  rintro ⟨c, hc, -⟩
  cases hc

end InterruptWitness

end Interrupts

end PintosLabs
