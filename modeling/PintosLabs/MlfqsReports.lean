/-
What `thread_get_load_avg` and `thread_get_recent_cpu` report: a hundred times
a fixed-point number, rounded to the nearest integer where that works.
-/
import PintosLabs.MlfqsArithmetic

namespace PintosLabs

namespace Mlfqs

/-- `FP_ROUND`; the shift of a negative number rounds down. -/
def fpRound (a : Int) : Int :=
  if a ≥ 0 then fixed (a + 2 ^ 15) / 2 ^ 16 else fixed (a - 2 ^ 15) / 2 ^ 16

namespace Kernel

def threadGetLoadAvg (k : Kernel) : Int := fpRound (fpMultMix k.loadAverage 100)

def threadGetRecentCpu (k : Kernel) : Int :=
  ((k.thread k.current).map fun u => fpRound (fpMultMix u.recentCpu 100)).getD 0

end Kernel

namespace Exact

def fpRound (a : Int) : Option Int :=
  if a ≥ 0 then (int32 (a + 2 ^ 15)).map (· / 2 ^ 16)
  else (int32 (a - 2 ^ 15)).map (· / 2 ^ 16)

end Exact

/-- The integer nearest to `x / 2 ^ 16`, and of two the one further from
zero. -/
structure Nearest (x r : Int) : Prop where
  close : 2 * (2 ^ 16 * r - x).natAbs ≤ 2 ^ 16
  away : 2 * (2 ^ 16 * r - x).natAbs = 2 ^ 16 → x.natAbs ≤ (2 ^ 16 * r).natAbs

/-- A hundred times a fixed-point number is computed without overflow, and
rounded to the nearest integer. -/
structure Reported (v r : Int) : Prop where
  fits : ((Exact.fpMultMix v 100).bind Exact.fpRound).isSome
  nearest : Nearest (100 * v) r

variable {v a r : Int}

theorem nearest_of_nonneg (ha : 0 ≤ a) : Nearest a ((a + 2 ^ 15) / 2 ^ 16) where
  close := by omega
  away := by omega

/-- Rounded down after half a unit has been taken away, a negative number is the
nearest one only if it lay between two. -/
theorem nearest_of_neg (ha : a < 0) :
    Nearest a ((a - 2 ^ 15) / 2 ^ 16) ↔ (a - 2 ^ 15) % 2 ^ 16 = 0 := by
  constructor
  · rintro ⟨hclose, -⟩
    omega
  · intro hmod
    exact ⟨by omega, by omega⟩

theorem isSome_int32 (x : Int) : (Exact.int32 x).isSome = true ↔ Fits x := by
  unfold Exact.int32
  split
  case isTrue hfits => exact ⟨fun _ => hfits, fun _ => rfl⟩
  case isFalse hfits =>
    exact ⟨fun hnone => (by cases hnone), fun h => absurd h hfits⟩

/-- Nothing overflows if the number is not too large. -/
theorem fits_iff (v : Int) : ((Exact.fpMultMix v 100).bind Exact.fpRound).isSome = true ↔
    100 * v.natAbs + 2 ^ 15 ≤ 2 ^ 31 := by
  by_cases hfits : Fits (v * 100)
  · rw [Exact.fpMultMix, Exact.int32, if_pos hfits, Option.bind_some, Exact.fpRound]
    unfold Fits at hfits
    split
    · rw [Option.isSome_map, isSome_int32, Fits]
      omega
    · rw [Option.isSome_map, isSome_int32, Fits]
      omega
  · rw [Exact.fpMultMix, Exact.int32, if_neg hfits]
    unfold Fits at hfits
    refine ⟨fun hnone => (by cases hnone), fun hsmall => ?_⟩
    omega

theorem fpRound_of_small (h : 100 * v.natAbs + 2 ^ 15 ≤ 2 ^ 31) :
    fpRound (fpMultMix v 100) =
      if 0 ≤ v then (100 * v + 2 ^ 15) / 2 ^ 16 else (100 * v - 2 ^ 15) / 2 ^ 16 := by
  have hmult : fpMultMix v 100 = 100 * v := by
    rw [fpMultMix, Int.mul_comm]
    exact fixed_of_fits (by unfold Fits; omega)
  rw [hmult, fpRound]
  by_cases hv : 0 ≤ v
  · have hpos : 100 * v ≥ 0 := by omega
    rw [if_pos hv, if_pos hpos, fixed_of_fits (by unfold Fits; omega)]
  · have hneg : ¬ 100 * v ≥ 0 := by omega
    rw [if_neg hv, if_neg hneg, fixed_of_fits (by unfold Fits; omega)]

/-- What is reported is right for the numbers that are not negative, and for the
negative ones of which the multiple lies between two integers, up to the size at
which an `int` overflows. -/
theorem reported_iff (v : Int) : Reported v (fpRound (fpMultMix v 100)) ↔
    100 * v.natAbs + 2 ^ 15 ≤ 2 ^ 31 ∧ (0 ≤ v ∨ v % 2 ^ 14 = 2 ^ 13) := by
  have hnearest : 100 * v.natAbs + 2 ^ 15 ≤ 2 ^ 31 →
      (Nearest (100 * v) (fpRound (fpMultMix v 100)) ↔ 0 ≤ v ∨ v % 2 ^ 14 = 2 ^ 13) := by
    intro hsmall
    rw [fpRound_of_small hsmall]
    by_cases hv : 0 ≤ v
    · rw [if_pos hv]
      exact ⟨fun _ => Or.inl hv, fun _ => nearest_of_nonneg (by omega)⟩
    · rw [if_neg hv, nearest_of_neg (by omega)]
      omega
  constructor
  · rintro ⟨hfits, hnear⟩
    have hsmall := (fits_iff v).mp hfits
    exact ⟨hsmall, (hnearest hsmall).mp hnear⟩
  · rintro ⟨hsmall, hv⟩
    exact ⟨(fits_iff v).mpr hsmall, (hnearest hsmall).mpr hv⟩

/-- What the two functions report, in any state.  The load is always right as
long as at most a hundred threads want the processor. -/
theorem reports_nearest {k : Kernel} {x : Thread} (hx : k.thread k.current = some x) :
    (Reported x.recentCpu k.threadGetRecentCpu ↔
      100 * x.recentCpu.natAbs + 2 ^ 15 ≤ 2 ^ 31 ∧
        (0 ≤ x.recentCpu ∨ x.recentCpu % 2 ^ 14 = 2 ^ 13)) ∧
    (Reported k.loadAverage k.threadGetLoadAvg ↔
      100 * k.loadAverage.natAbs + 2 ^ 15 ≤ 2 ^ 31 ∧
        (0 ≤ k.loadAverage ∨ k.loadAverage % 2 ^ 14 = 2 ^ 13)) ∧
    ∀ actions, Run step WithinBounds boot actions k →
      Reported k.loadAverage k.threadGetLoadAvg := by
  refine ⟨?_, reported_iff _, fun actions hrun => ?_⟩
  · rw [Kernel.threadGetRecentCpu, hx]
    exact reported_iff _
  · have hbounded : k.Bounded := hrun.invariant Kernel.Bounded
      (fun h hok hstep => step_bounded h hok hstep) bounded_boot
    obtain ⟨hnonneg, hle⟩ := hbounded.load
    exact (reported_iff _).mpr ⟨by omega, Or.inl hnonneg⟩

namespace MlfqsReportsWitness

/-- The main thread has a negative nice value at the end of the first
second. -/
def favoured : List Action :=
  MlfqsWitness.almostSecond ++ [Action.assignNice (-20), .updatePriority, .yield,
    .schedule, .timerInterrupt]

/-- Its `recent_cpu` is negative then, and what is reported is one too low. -/
theorem reports_lower : ∃ k x, Run step (fun _ _ => True) boot favoured k ∧
    k.thread k.current = some x ∧ k.threadGetRecentCpu = -1679 ∧
      Nearest (100 * x.recentCpu) (-1678) ∧
        ¬ Reported x.recentCpu k.threadGetRecentCpu := by
  have hrun : (favoured.foldlM step boot).map (fun k =>
      ((k.thread k.current).map Thread.recentCpu, k.threadGetRecentCpu)) =
      some (some (-1099420), -1679) := by
    decide +kernel
  obtain ⟨k, hk, heq⟩ := Option.map_eq_some_iff.mp hrun
  obtain ⟨hthread, hreport⟩ := Prod.mk.inj heq
  obtain ⟨x, hx, hrecent⟩ := Option.map_eq_some_iff.mp hthread
  refine ⟨k, x, Run.of_foldlM hk, hx, hreport, ?_, ?_⟩
  · rw [hrecent]
    exact ⟨by decide, by decide⟩
  · rw [hrecent, hreport]
    rintro ⟨-, hclose, -⟩
    revert hclose
    decide

theorem reports_nearest_second : ∃ k x, Run step (fun _ _ => True) boot favoured k ∧
    k.thread k.current = some x ∧ ¬ Reported x.recentCpu k.threadGetRecentCpu ∧
      Reported k.loadAverage k.threadGetLoadAvg := by
  have hrun : (favoured.foldlM step boot).map (fun k =>
      ((k.thread k.current).map Thread.recentCpu, k.loadAverage)) =
      some (some (-1099420), 1092) := by
    decide +kernel
  obtain ⟨k, hk, heq⟩ := Option.map_eq_some_iff.mp hrun
  obtain ⟨hthread, hload⟩ := Prod.mk.inj heq
  obtain ⟨x, hx, hrecent⟩ := Option.map_eq_some_iff.mp hthread
  obtain ⟨hcpu, havg, -⟩ := reports_nearest hx
  rw [hrecent] at hcpu
  rw [hload] at havg
  refine ⟨k, x, Run.of_foldlM hk, hx, fun hreported => ?_, hload ▸ havg.mpr (by decide)⟩
  rw [hrecent] at hreported
  exact absurd (hcpu.mp hreported) (by decide)

end MlfqsReportsWitness

end Mlfqs

end PintosLabs
