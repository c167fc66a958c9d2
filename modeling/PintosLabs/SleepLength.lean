/-
How long a sleep lasts: `timer_sleep` stores its argument in an `int`, which
the timer interrupt counts down while it is positive.
-/
import PintosLabs.InterruptSafety

namespace PintosLabs

namespace Interrupts

def Act.isTick : Act → Bool
  | .interrupt .timer => true
  | _ => false

/-- How many timer interrupts there are. -/
def timerTicks (acts : List Act) : Nat := acts.countP Act.isTick

/-- In every part of a run that has fewer than `n` ticks the thread is blocked,
and the `n`-th tick makes it ready. -/
structure SleepsExactly (s : System) (t : Nat) (n : Int) (acts : List Act) : Prop where
  stays : ∀ {before later s'}, acts = before ++ later →
    Run step (fun _ _ => True) s before s' → timerTicks before < n →
      s'.kernel.statusOf t = some .blocked
  wakes : ∀ {before later s'}, acts = before ++ .interrupt .timer :: later →
    Run step (fun _ _ => True) s (before ++ [.interrupt .timer]) s' →
      timerTicks before + 1 = n → s'.kernel.statusOf t = some .ready

/-- What is left of a sleep after so many ticks. -/
def sleepLeft (sleeper : Option (Nat × Int)) : Nat → Option (Nat × Int)
  | 0 => sleeper
  | m + 1 => (sleepLeft sleeper m).bind tickDown

theorem sleepLeft_of_lt {t : Nat} {w : Int} {m : Nat} (hm : m < w) :
    sleepLeft (some (t, w)) m = some (t, w - m) := by
  induction m with
  | zero => rw [sleepLeft, Nat.cast_zero, sub_zero]
  | succ m ih =>
      have hpos : 0 < w - m := by omega
      have hone : w - m ≠ 1 := by omega
      rw [sleepLeft, ih (by omega), Option.bind_some, tickDown, if_pos hpos, if_neg hone]
      refine congrArg (fun v => some (t, v)) ?_
      omega

/-- A number that is not positive is not counted down. -/
theorem sleepLeft_of_nonpos {t : Nat} {w : Int} (hw : w ≤ 0) (m : Nat) :
    sleepLeft (some (t, w)) m = some (t, w) := by
  induction m with
  | zero => rfl
  | succ m ih => rw [sleepLeft, ih, Option.bind_some, tickDown, if_neg (not_lt.mpr hw)]

namespace System

variable {s s' : System} {sleeper : Option (Nat × Int)} {t : Nat}

theorem sleepStep_eq (a : Act) (sleeper : Option (Nat × Int)) :
    sleepStep a sleeper = if a.isTick then sleeper.bind tickDown else sleeper := by
  cases a with
  | interrupt i => cases i <;> rfl
  | _ => rfl

theorem Inv.run (h : s.Inv sleeper) (hexternal : s.inExternalIntr = false)
    {acts : List Act} (hrun : Run Interrupts.step (fun _ _ => True) s acts s') :
    s'.Inv (sleepLeft sleeper (timerTicks acts)) ∧ s'.inExternalIntr = false := by
  induction hrun with
  | nil => exact ⟨h, hexternal⟩
  | @snoc t t' acts act run _ taken ih =>
      obtain ⟨hinv, hexternal'⟩ := ih.1.step ih.2 taken
      refine ⟨?_, hexternal'⟩
      rw [sleepStep_eq] at hinv
      rw [timerTicks, List.countP_append, List.countP_singleton]
      by_cases hact : act.isTick = true
      · rw [if_pos hact] at hinv ⊢
        exact hinv
      · rw [if_neg hact] at hinv ⊢
        exact hinv

theorem Inv.blocked (h : s.Inv sleeper) {w : Int} (hsleeper : sleeper = some (t, w)) :
    s.kernel.statusOf t = some .blocked := (h.placed.sleeps t w hsleeper).1

/-- The tick at which one tick is left wakes the thread. -/
theorem Inv.wakes (h : s.Inv sleeper) (hsleeper : sleeper = some (t, 1))
    (hs : Interrupts.step s (.interrupt .timer) = some s') :
    s'.kernel.statusOf t = some .ready := by
  unfold Interrupts.step at hs
  simp only at hs
  split at hs
  case isTrue => cases hs
  case isFalse hawake =>
    exact (h.interrupt (Bool.eq_false_iff.mpr hawake) hs).2.2 t rfl hsleeper

/-- A thread sleeps for the ticks that are left. -/
theorem Inv.sleepsExactly {w : Int} (h : s.Inv (some (t, w)))
    (hexternal : s.inExternalIntr = false) (acts : List Act) :
    SleepsExactly s t w acts where
  stays _ hrun hfew := (h.run hexternal hrun).1.blocked (sleepLeft_of_lt hfew)
  wakes _ hrun hlast := by
    obtain ⟨s₁, hbefore, -, htick⟩ := hrun.last
    have hinv := (h.run hexternal hbefore).1
    rw [sleepLeft_of_lt (by omega)] at hinv
    exact hinv.wakes (congrArg (fun v => some (t, v)) (by omega)) htick

end System

/-- The run up to the tick with a given number. -/
theorem exists_nth_tick {acts : List Act} {m : Nat} (hm : m < timerTicks acts) :
    ∃ before later, acts = before ++ .interrupt .timer :: later ∧
      timerTicks before = m := by
  induction acts generalizing m with
  | nil => cases hm
  | cons a rest ih =>
      rw [timerTicks, List.countP_cons] at hm
      cases a with
      | interrupt i =>
          cases i with
          | timer =>
              cases m with
              | zero => exact ⟨[], rest, rfl, rfl⟩
              | succ m =>
                  obtain ⟨before, later, rfl, hbefore⟩ := ih (Nat.lt_of_succ_lt_succ hm)
                  refine ⟨.interrupt .timer :: before, later, rfl, ?_⟩
                  rw [timerTicks, List.countP_cons, ← timerTicks, hbefore]
                  rfl
          | _ =>
              obtain ⟨before, later, rfl, hbefore⟩ := ih hm
              exact ⟨_ :: before, later, rfl, hbefore⟩
      | _ =>
          obtain ⟨before, later, rfl, hbefore⟩ := ih hm
          exact ⟨_ :: before, later, rfl, hbefore⟩

/-- A sleep with another number of ticks, which the run goes past, is not
exact. -/
theorem System.Inv.not_sleepsExactly {s s' : System} {t : Nat} {w n : Int}
    (h : s.Inv (some (t, w))) (hexternal : s.inExternalIntr = false) (hw : w < n)
    (hn : 0 < n) {acts : List Act} (hrun : Run Interrupts.step (fun _ _ => True) s acts s')
    (hlong : n ≤ timerTicks acts) : ¬ SleepsExactly s t n acts := by
  intro hexactly
  -- It wakes too early, or never.
  rcases lt_or_ge 0 w with hpos | hle
  · obtain ⟨before, later, hacts, hbefore⟩ :=
      exists_nth_tick (m := w.toNat - 1) (show _ < timerTicks acts by omega)
    have hsplit : acts = (before ++ [.interrupt .timer]) ++ later := by
      rw [hacts, List.append_assoc]
      rfl
    obtain ⟨s₁, hfirst, -⟩ := hrun.split hsplit
    have hready := (h.sleepsExactly hexternal acts).wakes hacts hfirst (by omega)
    have hcount : timerTicks (before ++ [Act.interrupt .timer]) = w.toNat := by
      rw [timerTicks, List.countP_append, ← timerTicks, hbefore]
      exact Nat.sub_add_cancel (by omega)
    cases hready.symm.trans (hexactly.stays hsplit hfirst (by omega))
  · obtain ⟨before, later, hacts, hbefore⟩ :=
      exists_nth_tick (m := n.toNat - 1) (show _ < timerTicks acts by omega)
    have hsplit : acts = (before ++ [.interrupt .timer]) ++ later := by
      rw [hacts, List.append_assoc]
      rfl
    obtain ⟨s₁, hfirst, -⟩ := hrun.split hsplit
    have hblocked := (h.run hexternal hfirst).1.blocked (sleepLeft_of_nonpos hle _)
    cases hblocked.symm.trans (hexactly.wakes hacts hfirst (by omega))

theorem fixed_of_lt {n : Int} (hpos : 0 < n) (hn : n < 2 ^ 31) : Mlfqs.fixed n = n :=
  Int.bmod_eq_of_le_mul_two (by omega) (by omega)

theorem fixed_lt (n : Int) : Mlfqs.fixed n < 2 ^ 31 :=
  Int.bmod_lt (by decide)

/-- The state behind a call of `timer_sleep`. -/
theorem System.Inv.of_timerSleep {s s₁ : System} {n : Int} (h : s.Inv none)
    (hpos : 0 < n) (hs : Interrupts.step s (.call (.timerSleep n)) = some s₁) :
    s₁.Inv (some (s.kernel.current, Mlfqs.fixed n)) ∧
      s₁.inExternalIntr = s.inExternalIntr := by
  unfold Interrupts.step at hs
  simp only at hs
  split at hs
  case isFalse => cases hs
  case isTrue hcond =>
    have hidle : s.kernel.idleThread ≠ some s.kernel.current := by
      intro hi
      rcases h.placed.idle _ hi with hpc | ⟨id, hpc⟩ <;> cases hcond.2.symm.trans hpc
    refine h.sleep (Bool.eq_false_iff.mpr hcond.1) hidle hpos hs (fun u w hu hne => ?_)
      fun w hw => (Prod.mk.inj (Option.some.inj hw)).2.symm
    exact absurd (Prod.mk.inj (Option.some.inj hu)).1.symm hne

/-- A thread sleeps as long as it has asked for if the number of ticks is one
that an `int` can hold, and otherwise in no run that is long enough. -/
theorem sleep_survives {threadMlfqs : Bool} {values : Nat → Nat} {acts : List Act}
    {s s₁ : System}
    (hrun : Run step (fun _ _ => True) (boot threadMlfqs values) acts s) {n : Int}
    (hpos : 0 < n) (_ : n < 2 ^ 63)
    (hs : step s (.call (.timerSleep n)) = some s₁) {later : List Act} {s₂ : System}
    (hlater : Run step (fun _ _ => True) s₁ later s₂) :
    (n < 2 ^ 31 → SleepsExactly s₁ s.kernel.current n later) ∧
      (n ≤ timerTicks later →
        (SleepsExactly s₁ s.kernel.current n later ↔ n < 2 ^ 31)) := by
  obtain ⟨hinv, hexternal⟩ := System.inv_of_run hrun
  obtain ⟨hinv₁, hexternal₁⟩ := hinv.of_timerSleep hpos hs
  have hexternal' := hexternal₁.trans hexternal
  have hexact : n < 2 ^ 31 → SleepsExactly s₁ s.kernel.current n later := by
    intro hlt
    rw [fixed_of_lt hpos hlt] at hinv₁
    exact hinv₁.sleepsExactly hexternal' later
  refine ⟨hexact, fun hlong => ⟨fun hexactly => ?_, hexact⟩⟩
  by_contra hge
  have hlt : Mlfqs.fixed n < n := (fixed_lt n).trans_le (not_lt.mp hge)
  exact hinv₁.not_sleepsExactly hexternal' hlt hpos hlater hlong hexactly

namespace SleepWitness

/-- The idle thread starts, and the main thread goes on. -/
def started : List Act :=
  [.call (.initThread 1 0), .call (.startThread 1), .call (.semaDown (.sema 0)),
    .schedule, .call (.idle (.sema 0)), .goOn, .schedule, .goOn]

/-- A sleep of more than `2 ^ 32` ticks is over after one. -/
theorem sleep_cut_short : ∃ acts s s₁ s₂,
    Run step (fun _ _ => True) (boot false fun _ => 0) acts s ∧
      step s (.call (.timerSleep (2 ^ 32 + 1))) = some s₁ ∧
      Run step (fun _ _ => True) s₁ [.schedule, .interrupt .timer] s₂ ∧
        s₂.kernel.statusOf s.kernel.current = some .ready ∧
          ¬ SleepsExactly s₁ s.kernel.current (2 ^ 32 + 1)
            [.schedule, .interrupt .timer] := by
  obtain ⟨s, hs, s₁, hs₁, s₂, hs₂, hready⟩ :
      ∃ s, started.foldlM step (boot false fun _ => 0) = some s ∧
        ∃ s₁, step s (.call (.timerSleep (2 ^ 32 + 1))) = some s₁ ∧
          ∃ s₂, [Act.schedule, .interrupt .timer].foldlM step s₁ = some s₂ ∧
            s₂.kernel.statusOf s.kernel.current = some .ready :=
    ⟨_, rfl, _, rfl, _, rfl, rfl⟩
  refine ⟨_, s, s₁, s₂, Run.of_foldlM hs, hs₁, Run.of_foldlM hs₂, hready,
    fun hexactly => ?_⟩
  have hwhole : [Act.schedule, .interrupt .timer] = [.schedule, .interrupt .timer] ++ [] :=
    rfl
  have hblocked := hexactly.stays hwhole (Run.of_foldlM hs₂) (by decide)
  cases hblocked.symm.trans hready

theorem sleep_survives_one : ∃ acts s s₁ s₂,
    Run step (fun _ _ => True) (boot false fun _ => 0) acts s ∧
      step s (.call (.timerSleep 1)) = some s₁ ∧
      Run step (fun _ _ => True) s₁ [.schedule, .interrupt .timer] s₂ ∧
        SleepsExactly s₁ s.kernel.current 1 [.schedule, .interrupt .timer] := by
  obtain ⟨s, hs, s₁, hs₁, s₂, hs₂⟩ :
      ∃ s, started.foldlM step (boot false fun _ => 0) = some s ∧
        ∃ s₁, step s (.call (.timerSleep 1)) = some s₁ ∧
          ∃ s₂, [Act.schedule, .interrupt .timer].foldlM step s₁ = some s₂ :=
    ⟨_, rfl, _, rfl, _, rfl⟩
  have hlater := Run.of_foldlM hs₂
  exact ⟨_, s, s₁, s₂, Run.of_foldlM hs, hs₁, hlater,
    ((sleep_survives (Run.of_foldlM hs) (by decide) (by decide) hs₁ hlater).2
      (by decide)).mpr (by decide)⟩

end SleepWitness

end Interrupts

end PintosLabs
