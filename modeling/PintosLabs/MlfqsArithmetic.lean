/-
The arithmetic of the multi-level feedback queue scheduler, without wrapping.
As long as a hundred threads at most want the processor and every nice value
is one from -20 to 20, nothing that it computes leaves the 32 bits.
-/
import PintosLabs.Mlfqs
import Mathlib.Data.Rat.Floor
import Mathlib.Tactic.Linarith

namespace PintosLabs

namespace Mlfqs

/-- The numbers of an `int`. -/
def Fits (x : Int) : Prop := -2 ^ 31 ≤ x ∧ x < 2 ^ 31

instance (x : Int) : Decidable (Fits x) := inferInstanceAs (Decidable (_ ∧ _))

/-- How many threads are running or ready, the idle thread left out. -/
def Kernel.readyListSize (k : Kernel) : Int := k.readyList.length +
  if k.idleThread = some k.current then 0 else 1

/-! The scheduler with exact numbers: there is no result where one is no `int`. -/

namespace Exact

def int32 (x : Int) : Option Int := if Fits x then some x else none

def fpConst (a : Int) : Option Int := int32 (a * 2 ^ 16)
def fpAdd (a b : Int) : Option Int := int32 (a + b)
def fpAddMix (a b : Int) : Option Int := (fpConst b).bind (fpAdd a)
def fpSub (a b : Int) : Option Int := int32 (a - b)
def fpSubMix (a b : Int) : Option Int := (fpConst b).bind (fpSub a)
def fpMultMix (a b : Int) : Option Int := int32 (a * b)
def fpDivMix (a b : Int) : Option Int := int32 (a.tdiv b)
def fpMult (a b : Int) : Option Int := int32 (a * b / 2 ^ 16)
def fpDiv (a b : Int) : Option Int := int32 ((a * 2 ^ 16).tdiv b)

def modify (k : Kernel) (t : Nat) (f : Thread → Option Thread) : Option Kernel :=
  (k.allList.mapM fun u => if u.tid = t then f u else some u).map fun allList =>
    { k with allList := allList }

def modifyAll (k : Kernel) (f : Thread → Option Thread) : Option Kernel :=
  (k.allList.mapM fun u => if k.idleThread = some u.tid then some u else f u).map
    fun allList => { k with allList := allList }

def recentCpuByOne (u : Thread) : Option Thread :=
  (fpAddMix u.recentCpu 1).map fun recentCpu => { u with recentCpu := recentCpu }

def updateRecentCpuByOne (k : Kernel) : Option Kernel :=
  if k.idleThread = some k.current then some k
  else modify k k.current recentCpuByOne

def updateLoadAverage (k : Kernel) : Option Kernel := do
  let old ← fpMultMix k.loadAverage 59
  let new ← fpConst k.readyListSize
  let sum ← fpAdd old new
  let loadAverage ← fpDivMix sum 60
  some { k with loadAverage := loadAverage }

def recentCpu (loadAverage : Int) (u : Thread) : Option Thread := do
  let load ← fpMultMix loadAverage 2
  let above ← fpAddMix load 1
  let decay ← fpDiv load above
  let rest ← fpMult decay u.recentCpu
  let recentCpu ← fpAddMix rest u.nice
  some { u with recentCpu := recentCpu }

def updateRecentCpuAll (k : Kernel) : Option Kernel := do
  let k ← modifyAll k (recentCpu k.loadAverage)
  let sorted ← listSort (byKey k.effectivePriority) k.readyList
  some { k with readyList := sorted }

/-- The priority as the number it stands for, cut to the range there is. -/
def priority (u : Thread) : Int :=
  min priMax (max priMin
    ⌊(priMax : ℚ) - ((u.recentCpu.tdiv 4 : Int) : ℚ) / 2 ^ 16 - 2 * (u.nice : ℚ)⌋)

/-- `update_priority`, whose intermediate results are to fit. -/
def calculatePriority (u : Thread) : Option Thread := do
  let top ← fpConst priMax
  let share ← fpDivMix u.recentCpu 4
  let rest ← fpSub top share
  let nices ← int32 (2 * u.nice)
  let _ ← fpSubMix rest nices
  some { u with effectivePriority := priority u }

def updatePriorityAll (k : Kernel) : Option Kernel := modifyAll k calculatePriority

def updatePriority (k : Kernel) (t : Nat) : Option Kernel :=
  if k.idleThread = some t then some k else modify k t calculatePriority

def timerWakes (k : Kernel) : Option Kernel := do
  let k := { k with ticks := k.ticks + 1 }
  let k ← (k.allList.map Thread.tid).foldlM Kernel.checkBlockThread k
  updateRecentCpuByOne k

def eachSecond (k : Kernel) : Option Kernel :=
  if k.ticks % timerFreq = 0 then do
    let k ← updateLoadAverage k
    let k ← updateRecentCpuAll k
    updatePriorityAll k
  else some k

def timerInterrupt (k : Kernel) : Option Kernel := do
  let k ← timerWakes k
  let k ← eachSecond k
  let k ← if k.ticks % 4 = 0 then updatePriority k k.current else some k
  some k.threadTick

/-- The actions that compute, with exact numbers. -/
def step (k : Kernel) (a : Action) : Option Kernel :=
  if k.switching then Mlfqs.step k a
  else
    match a with
    | .timerInterrupt => timerInterrupt k
    | .updatePriority => updatePriority k k.current
    | a => Mlfqs.step k a

end Exact

/-! Where the numbers fit, the exact ones are those of the source. -/

theorem fixed_of_fits {x : Int} (h : Fits x) : fixed x = x :=
  Int.bmod_eq_of_le_mul_two (by rw [Fits] at h; omega) (by rw [Fits] at h; omega)

namespace Exact

variable {a b x : Int} {u : Thread}

theorem fpConst_of_fits (h : Fits (a * 2 ^ 16)) : fpConst a = some (a * 2 ^ 16) ∧
    Mlfqs.fpConst a = a * 2 ^ 16 := ⟨if_pos h, fixed_of_fits h⟩

theorem fpAdd_of_fits (h : Fits (a + b)) : fpAdd a b = some (a + b) ∧
    Mlfqs.fpAdd a b = a + b := ⟨if_pos h, fixed_of_fits h⟩

theorem fpAddMix_of_fits (hb : Fits (b * 2 ^ 16)) (h : Fits (a + b * 2 ^ 16)) :
    fpAddMix a b = some (a + b * 2 ^ 16) ∧ Mlfqs.fpAddMix a b = a + b * 2 ^ 16 := by
  obtain ⟨hconst, hconst'⟩ := fpConst_of_fits hb
  obtain ⟨hadd, hadd'⟩ := fpAdd_of_fits h
  rw [fpAddMix, Mlfqs.fpAddMix, hconst, Option.bind_some, hconst']
  exact ⟨hadd, hadd'⟩

theorem fpSub_of_fits (h : Fits (a - b)) : fpSub a b = some (a - b) ∧
    Mlfqs.fpSub a b = a - b := ⟨if_pos h, fixed_of_fits h⟩

theorem fpSubMix_of_fits (hb : Fits (b * 2 ^ 16)) (h : Fits (a - b * 2 ^ 16)) :
    fpSubMix a b = some (a - b * 2 ^ 16) ∧ Mlfqs.fpSubMix a b = a - b * 2 ^ 16 := by
  obtain ⟨hconst, hconst'⟩ := fpConst_of_fits hb
  obtain ⟨hsub, hsub'⟩ := fpSub_of_fits h
  rw [fpSubMix, Mlfqs.fpSubMix, hconst, Option.bind_some, hconst']
  exact ⟨hsub, hsub'⟩

theorem fpMultMix_of_fits (h : Fits (a * b)) : fpMultMix a b = some (a * b) ∧
    Mlfqs.fpMultMix a b = a * b := ⟨if_pos h, fixed_of_fits h⟩

theorem fpDivMix_of_fits (h : Fits (a.tdiv b)) : fpDivMix a b = some (a.tdiv b) ∧
    Mlfqs.fpDivMix a b = a.tdiv b := ⟨if_pos h, fixed_of_fits h⟩

theorem fpMult_of_fits (h : Fits (a * b / 2 ^ 16)) :
    fpMult a b = some (a * b / 2 ^ 16) ∧ Mlfqs.fpMult a b = a * b / 2 ^ 16 :=
  ⟨if_pos h, fixed_of_fits h⟩

theorem fpDiv_of_fits (h : Fits ((a * 2 ^ 16).tdiv b)) :
    fpDiv a b = some ((a * 2 ^ 16).tdiv b) ∧
      Mlfqs.fpDiv a b = (a * 2 ^ 16).tdiv b := ⟨if_pos h, fixed_of_fits h⟩

/-! The bounds: of the load, of what a second adds to it, and of `recent_cpu`,
which a second takes to 200/201 of itself at most. -/

/-- A load of 0 to 100. -/
def LoadFits (loadAverage : Int) : Prop := 0 ≤ loadAverage ∧ loadAverage ≤ 100 * 2 ^ 16

def NiceFits (nice : Int) : Prop := -20 ≤ nice ∧ nice ≤ 20

/-- A `recent_cpu` this many ticks after the end of a second. -/
def RecentFits (ticks recentCpu : Int) : Prop :=
  -(201 * (20 * 2 ^ 16 + 1)) ≤ recentCpu ∧ recentCpu ≤ (24020 + ticks) * 2 ^ 16

theorem loadAverage_of_fits {loadAverage size : Int} (hload : LoadFits loadAverage)
    (hsize : 0 ≤ size) (hsize' : size ≤ 100) :
    Fits (loadAverage * 59) ∧ Fits (size * 2 ^ 16) ∧
      Fits (loadAverage * 59 + size * 2 ^ 16) ∧
      LoadFits ((loadAverage * 59 + size * 2 ^ 16).tdiv 60) := by
  obtain ⟨hpos, hle⟩ := hload
  have hdiv : (loadAverage * 59 + size * 2 ^ 16).tdiv 60 =
      (loadAverage * 59 + size * 2 ^ 16) / 60 := Int.tdiv_eq_ediv_of_nonneg (by omega)
  rw [hdiv]
  unfold Fits LoadFits
  omega

/-- The decay of a second. -/
theorem decay_le {loadAverage : Int} (hload : LoadFits loadAverage) :
    0 ≤ (loadAverage * 2 * 2 ^ 16).tdiv (loadAverage * 2 + 1 * 2 ^ 16) ∧
      201 * (loadAverage * 2 * 2 ^ 16).tdiv (loadAverage * 2 + 1 * 2 ^ 16) ≤
        200 * 2 ^ 16 := by
  obtain ⟨hpos, hle⟩ := hload
  rw [Int.tdiv_eq_ediv_of_nonneg (by omega)]
  obtain ⟨decay, hdecay⟩ : ∃ decay,
    decay = loadAverage * 2 * 2 ^ 16 / (loadAverage * 2 + 1 * 2 ^ 16) := ⟨_, rfl⟩
  have hmul : decay * (loadAverage * 2 + 1 * 2 ^ 16) ≤ loadAverage * 2 * 2 ^ 16 :=
    hdecay ▸ Int.ediv_mul_le _ (by omega)
  rw [← hdecay]
  refine ⟨hdecay ▸ Int.ediv_nonneg (by omega) (by omega), ?_⟩
  by_contra hnot
  nlinarith

/-- What the decay leaves of `recent_cpu`. -/
theorem decay_mul {decay recentCpu : Int} (hpos : 0 ≤ decay)
    (hle : 201 * decay ≤ 200 * 2 ^ 16) (hrecent : RecentFits 100 recentCpu) :
    -(200 * (20 * 2 ^ 16 + 1)) ≤ decay * recentCpu / 2 ^ 16 ∧
      decay * recentCpu / 2 ^ 16 ≤ 24000 * 2 ^ 16 := by
  obtain ⟨hlow, hhigh⟩ := hrecent
  constructor
  · rw [Int.le_ediv_iff_mul_le (by decide)]
    nlinarith
  · have hlt : decay * recentCpu ≤ 24000 * 2 ^ 16 * 2 ^ 16 := by nlinarith
    omega

/-- The `recent_cpu` that the source computes at the end of a second. -/
def decayed (loadAverage : Int) (u : Thread) : Thread :=
  { u with
    recentCpu := Mlfqs.fpAddMix (Mlfqs.fpMult
      (Mlfqs.fpDiv (Mlfqs.fpMultMix loadAverage 2)
        (Mlfqs.fpAddMix (Mlfqs.fpMultMix loadAverage 2) 1)) u.recentCpu) u.nice }

theorem recentCpu_of_fits {loadAverage : Int} (hload : LoadFits loadAverage)
    (hnice : NiceFits u.nice) (hrecent : RecentFits 100 u.recentCpu) :
    recentCpu loadAverage u = some (decayed loadAverage u) ∧
      RecentFits 0 (decayed loadAverage u).recentCpu := by
  obtain ⟨hpos, hle⟩ := decay_le hload
  obtain ⟨decay, hdecay⟩ : ∃ decay, decay =
    (loadAverage * 2 * 2 ^ 16).tdiv (loadAverage * 2 + 1 * 2 ^ 16) := ⟨_, rfl⟩
  rw [← hdecay] at hpos hle
  obtain ⟨hlow, hhigh⟩ := decay_mul hpos hle hrecent
  obtain ⟨hload₀, hload₁⟩ := hload
  obtain ⟨hnice₀, hnice₁⟩ := hnice
  obtain ⟨hmult, hmult'⟩ := @fpMultMix_of_fits loadAverage 2 (by rw [Fits]; omega)
  obtain ⟨habove, habove'⟩ := @fpAddMix_of_fits (loadAverage * 2) 1 (by decide)
    (by rw [Fits]; omega)
  obtain ⟨hdiv, hdiv'⟩ := @fpDiv_of_fits (loadAverage * 2) (loadAverage * 2 + 1 * 2 ^ 16)
    (by rw [← hdecay, Fits]; omega)
  rw [← hdecay] at hdiv hdiv'
  obtain ⟨hrest, hrest'⟩ := @fpMult_of_fits decay u.recentCpu (by rw [Fits]; omega)
  obtain ⟨hsum, hsum'⟩ := @fpAddMix_of_fits (decay * u.recentCpu / 2 ^ 16) u.nice
    (by rw [Fits]; omega) (by rw [Fits]; omega)
  have hnew : (decayed loadAverage u).recentCpu =
      decay * u.recentCpu / 2 ^ 16 + u.nice * 2 ^ 16 := by
    simp only [decayed, hmult', habove', hdiv', hrest', hsum']
  constructor
  · simp only [recentCpu, hmult, habove, hdiv, hrest, hsum, Option.bind_eq_bind,
      Option.bind_some]
    rw [← hnew]
    rfl
  · rw [hnew, RecentFits]
    omega

theorem floor_priority (recentCpu nice : Int) :
    ⌊(priMax : ℚ) - ((recentCpu.tdiv 4 : Int) : ℚ) / 2 ^ 16 - 2 * (nice : ℚ)⌋ =
      (priMax * 2 ^ 16 - recentCpu.tdiv 4 - 2 * nice * 2 ^ 16) / 2 ^ 16 := by
  have heq : (priMax : ℚ) - ((recentCpu.tdiv 4 : Int) : ℚ) / 2 ^ 16 - 2 * (nice : ℚ) =
      ((priMax * 2 ^ 16 - recentCpu.tdiv 4 - 2 * nice * 2 ^ 16 : Int) : ℚ) /
        ((2 ^ 16 : Nat) : ℚ) := by
    push_cast
    ring
  rw [heq, Rat.floor_intCast_div_natCast]
  rfl

/-- The priority of the source is the one that the formula says. -/
theorem calculatePriority_of_fits (hnice : NiceFits u.nice)
    (hrecent : RecentFits 100 u.recentCpu) :
    calculatePriority u =
      some { u with effectivePriority := Kernel.calculatePriority u } := by
  obtain ⟨hlow, hhigh⟩ := hrecent
  obtain ⟨hnice₀, hnice₁⟩ := hnice
  have hshare : -(201 * (20 * 2 ^ 16 + 1)) ≤ u.recentCpu.tdiv 4 ∧
      u.recentCpu.tdiv 4 ≤ (24020 + 100) * 2 ^ 16 := by
    rcases Int.le_total 0 u.recentCpu with hpos | hneg
    · rw [Int.tdiv_eq_ediv_of_nonneg hpos]
      omega
    · rw [← Int.neg_neg u.recentCpu, Int.neg_tdiv,
        Int.tdiv_eq_ediv_of_nonneg (by omega)]
      omega
  obtain ⟨htop, htop'⟩ := @fpConst_of_fits priMax (by decide)
  obtain ⟨hdiv, hdiv'⟩ := @fpDivMix_of_fits u.recentCpu 4 (by rw [Fits]; omega)
  obtain ⟨hrest, hrest'⟩ := @fpSub_of_fits (priMax * 2 ^ 16) (u.recentCpu.tdiv 4)
    (by rw [Fits, priMax]; omega)
  have hnices : int32 (2 * u.nice) = some (2 * u.nice) := if_pos (by rw [Fits]; omega)
  obtain ⟨hsub, hsub'⟩ := @fpSubMix_of_fits (priMax * 2 ^ 16 - u.recentCpu.tdiv 4)
    (2 * u.nice) (by rw [Fits]; omega) (by rw [Fits, priMax]; omega)
  have hpriority : Kernel.calculatePriority u = priority u := by
    rw [priority, floor_priority]
    simp only [Kernel.calculatePriority, htop', hdiv', hrest', hsub', fpIntPart]
    split_ifs <;> omega
  simp only [calculatePriority, htop, hdiv, hrest, hnices, hsub, hpriority,
    Option.bind_eq_bind, Option.bind_some]

theorem RecentFits.mono {ticks ticks' recentCpu : Int} (h : RecentFits ticks recentCpu)
    (hle : ticks ≤ ticks') : RecentFits ticks' recentCpu := by
  unfold RecentFits at *
  omega

end Exact

/-! The threads of a kernel. -/

open Exact

variable {k k' : Kernel}

/-- The threads that count have a `recent_cpu` in its bounds. -/
def Kernel.RecentsFit (k : Kernel) (ticks : Int) : Prop :=
  ∀ u ∈ k.allList, k.idleThread ≠ some u.tid → RecentFits ticks u.recentCpu

def Kernel.NicesFit (k : Kernel) : Prop := ∀ u ∈ k.allList, NiceFits u.nice

/-- What holds in every state. -/
structure Kernel.Bounded (k : Kernel) : Prop where
  load : LoadFits k.loadAverage
  recents : k.RecentsFit (k.ticks % timerFreq)

/-- The numbers stay as they are. -/
structure Kernel.Keeps (k k' : Kernel) : Prop where
  load : k'.loadAverage = k.loadAverage
  ticks : k'.ticks = k.ticks
  idle : k'.idleThread = k.idleThread
  threads : ∀ u' ∈ k'.allList, ∃ u ∈ k.allList, u'.tid = u.tid ∧ u'.nice = u.nice ∧
    u'.recentCpu = u.recentCpu

namespace Kernel.Keeps

variable {k'' : Kernel}

theorem refl (k : Kernel) : k.Keeps k := ⟨rfl, rfl, rfl, fun u hu => ⟨u, hu, rfl, rfl, rfl⟩⟩

theorem trans (h : k.Keeps k') (h' : k'.Keeps k'') : k.Keeps k'' where
  load := h'.load.trans h.load
  ticks := h'.ticks.trans h.ticks
  idle := h'.idle.trans h.idle
  threads u'' hu'' := by
    obtain ⟨u', hu', htid', hnice', hrecent'⟩ := h'.threads u'' hu''
    obtain ⟨u, hu, htid, hnice, hrecent⟩ := h.threads u' hu'
    exact ⟨u, hu, htid'.trans htid, hnice'.trans hnice, hrecent'.trans hrecent⟩

theorem recentsFit (h : k.Keeps k') {ticks : Int} (hrecents : k.RecentsFit ticks) :
    k'.RecentsFit ticks := by
  intro u' hu' hidle
  obtain ⟨u, hu, htid, -, hrecent⟩ := h.threads u' hu'
  rw [hrecent]
  exact hrecents u hu (htid ▸ h.idle ▸ hidle)

theorem nicesFit (h : k.Keeps k') (hnices : k.NicesFit) : k'.NicesFit := by
  intro u' hu'
  obtain ⟨u, hu, -, hnice, -⟩ := h.threads u' hu'
  rw [hnice]
  exact hnices u hu

theorem bounded (h : k.Keeps k') (hbounded : k.Bounded) : k'.Bounded where
  load := h.load ▸ hbounded.load
  recents := by
    rw [h.ticks]
    exact h.recentsFit hbounded.recents

theorem modify (k : Kernel) (t : Nat) {f : Thread → Thread} (htid : ∀ u, (f u).tid = u.tid)
    (hnice : ∀ u, (f u).nice = u.nice) (hrecent : ∀ u, (f u).recentCpu = u.recentCpu) :
    k.Keeps (k.modify t f) where
  load := rfl
  ticks := rfl
  idle := rfl
  threads u' hu' := by
    obtain ⟨u, hu, rfl⟩ := List.mem_map.mp hu'
    refine ⟨u, hu, ?_⟩
    split_ifs
    · exact ⟨htid u, hnice u, hrecent u⟩
    · exact ⟨rfl, rfl, rfl⟩

/-- The lists and the switches of the kernel are no numbers. -/
theorem congr (h : k.Keeps k') (hlist : k''.allList = k'.allList)
    (hload : k''.loadAverage = k'.loadAverage) (hticks : k''.ticks = k'.ticks)
    (hidle : k''.idleThread = k'.idleThread) : k.Keeps k'' where
  load := hload.trans h.load
  ticks := hticks.trans h.ticks
  idle := hidle.trans h.idle
  threads := hlist ▸ h.threads

theorem threadUnblock {t : Nat} (h : k.threadUnblock t = some k') : k.Keeps k' := by
  unfold Kernel.threadUnblock at h
  split at h
  · split_ifs at h
    rw [← Option.some.inj h]
    exact (modify k t (f := fun u => { u with status := .ready }) (fun _ => rfl)
      (fun _ => rfl) fun _ => rfl).congr rfl rfl rfl rfl
  · cases h

theorem checkBlockThread {t : Nat} (h : k.checkBlockThread t = some k') : k.Keeps k' := by
  unfold Kernel.checkBlockThread at h
  have hmodify := modify k t (f := fun u => { u with wakeUpTicks := u.wakeUpTicks - 1 })
    (fun _ => rfl) (fun _ => rfl) fun _ => rfl
  split at h
  · simp only at h
    split_ifs at h
    · exact hmodify.trans (threadUnblock h)
    · exact Option.some.inj h ▸ hmodify
    · exact Option.some.inj h ▸ refl k
  · exact Option.some.inj h ▸ refl k

theorem foreach {tids : List Nat}
    (h : tids.foldlM Kernel.checkBlockThread k = some k') : k.Keeps k' := by
  induction tids generalizing k with
  | nil => exact Option.some.inj h ▸ refl k
  | cons t rest ih =>
      rw [List.foldlM_cons] at h
      obtain ⟨k₁, hcheck, hrest⟩ := Option.bind_eq_some_iff.mp h
      exact (checkBlockThread hcheck).trans (ih hrest)

theorem threadYield (k : Kernel) : k.Keeps k.threadYield := by
  unfold Kernel.threadYield
  have hinsert : k.Keeps (if k.idleThread = some k.current then k
      else k.insertReady k.current) := by
    split_ifs
    · exact refl k
    · exact (refl k).congr rfl rfl rfl rfl
  exact (hinsert.trans (modify _ _ (f := fun u => { u with status := .ready })
    (fun _ => rfl) (fun _ => rfl) fun _ => rfl)).congr rfl rfl rfl rfl

theorem threadBlock (k : Kernel) : k.Keeps k.threadBlock :=
  (modify k k.current (f := fun u => { u with status := .blocked }) (fun _ => rfl)
    (fun _ => rfl) fun _ => rfl).congr rfl rfl rfl rfl

theorem threadTick (k : Kernel) : k.Keeps k.threadTick := by
  have hticks : k.Keeps { k with threadTicks := k.threadTicks + 1 } :=
    (refl k).congr rfl rfl rfl rfl
  unfold Kernel.threadTick
  simp only
  split_ifs
  · exact hticks.trans (threadYield _)
  · exact hticks

theorem schedule (h : k.schedule = some k') : k.Keeps k' := by
  obtain ⟨⟨next, k₁⟩, hnext, h⟩ := Option.bind_eq_some_iff.mp h
  have hkeeps : k.Keeps k₁ := by
    unfold Kernel.nextThreadToRun at hnext
    split at hnext
    · obtain ⟨t, -, heq⟩ := Option.map_eq_some_iff.mp hnext
      obtain ⟨-, rfl⟩ := Prod.mk.inj heq
      exact refl k
    · obtain ⟨-, rfl⟩ := Prod.mk.inj (Option.some.inj hnext)
      exact (refl k).congr rfl rfl rfl rfl
  simp only at h
  split_ifs at h
  rw [← Option.some.inj h]
  exact (hkeeps.trans (modify k₁ next (f := fun u => { u with status := .running })
    (fun _ => rfl) (fun _ => rfl) fun _ => rfl)).congr rfl rfl rfl rfl

end Kernel.Keeps

/-! The timer interrupt, with exact numbers and with those of the source. -/

theorem mapM_eq_map {f : Thread → Option Thread} {g : Thread → Thread}
    {threads : List Thread} (h : ∀ u ∈ threads, f u = some (g u)) :
    threads.mapM f = some (threads.map g) := by
  induction threads with
  | nil => rfl
  | cons u rest ih =>
      rw [List.mapM_cons, h u List.mem_cons_self,
        ih fun v hv => h v (List.mem_cons_of_mem u hv)]
      rfl

theorem exact_modify {t : Nat} {f : Thread → Option Thread} {g : Thread → Thread}
    (h : ∀ u ∈ k.allList, u.tid = t → f u = some (g u)) :
    Exact.modify k t f = some (k.modify t g) := by
  rw [Exact.modify, mapM_eq_map (g := fun u => if u.tid = t then g u else u)]
  · rfl
  · intro u hu
    split_ifs with htid
    · exact h u hu htid
    · rfl

theorem exact_modifyAll {f : Thread → Option Thread} {g : Thread → Thread}
    (h : ∀ u ∈ k.allList, k.idleThread ≠ some u.tid → f u = some (g u)) :
    Exact.modifyAll k f = some (k.modifyAll g) := by
  rw [Exact.modifyAll,
    mapM_eq_map (g := fun u => if k.idleThread = some u.tid then u else g u)]
  · rfl
  · intro u hu
    split_ifs with hidle
    · rfl
    · exact h u hu hidle

/-- A tick counts for the thread that runs. -/
theorem exact_updateRecentCpuByOne {ticks : Int} (hticks : ticks < 100)
    (hrecents : k.RecentsFit ticks) :
    Exact.updateRecentCpuByOne k = some k.updateRecentCpuByOne ∧
      k.updateRecentCpuByOne.RecentsFit (ticks + 1) := by
  unfold Exact.updateRecentCpuByOne Kernel.updateRecentCpuByOne
  split_ifs with hidle
  · exact ⟨rfl, fun u hu hne => (hrecents u hu hne).mono (by omega)⟩
  · have hadd : ∀ u ∈ k.allList, u.tid = k.current →
        Exact.fpAddMix u.recentCpu 1 = some (u.recentCpu + 1 * 2 ^ 16) ∧
          Mlfqs.fpAddMix u.recentCpu 1 = u.recentCpu + 1 * 2 ^ 16 := by
      intro u hu htid
      have hrecent := hrecents u hu (htid ▸ hidle)
      refine fpAddMix_of_fits (by decide) ?_
      unfold RecentFits at hrecent
      unfold Fits
      omega
    refine ⟨exact_modify fun u hu htid => ?_, fun u' hu' hne => ?_⟩
    · obtain ⟨hexact, hsource⟩ := hadd u hu htid
      rw [Exact.recentCpuByOne, hexact, Option.map_some, hsource]
    · obtain ⟨u, hu, rfl⟩ := List.mem_map.mp hu'
      split_ifs at hne ⊢ with htid
      · have hrecent := hrecents u hu hne
        change RecentFits _ (Mlfqs.fpAddMix u.recentCpu 1)
        rw [(hadd u hu htid).2]
        unfold RecentFits at hrecent ⊢
        omega
      · exact (hrecents u hu hne).mono (by omega)

theorem exact_updateLoadAverage (hload : LoadFits k.loadAverage)
    (hsize : k.readyListSize ≤ 100) :
    Exact.updateLoadAverage k = some k.updateLoadAverage ∧
      LoadFits k.updateLoadAverage.loadAverage := by
  have hpos : 0 ≤ k.readyListSize := by
    unfold Kernel.readyListSize
    split_ifs <;> omega
  obtain ⟨hold, hnew, hsum, hdiv⟩ := loadAverage_of_fits hload hpos hsize
  obtain ⟨hmult, hmult'⟩ := fpMultMix_of_fits hold
  obtain ⟨hconst, hconst'⟩ := fpConst_of_fits hnew
  obtain ⟨hadd, hadd'⟩ := fpAdd_of_fits hsum
  obtain ⟨hload', hload''⟩ := @fpDivMix_of_fits
    (k.loadAverage * 59 + k.readyListSize * 2 ^ 16) 60 (by
      unfold LoadFits at hdiv
      unfold Fits
      omega)
  have hsource : k.updateLoadAverage.loadAverage =
      (k.loadAverage * 59 + k.readyListSize * 2 ^ 16).tdiv 60 := by
    change Mlfqs.fpDivMix (Mlfqs.fpAdd (Mlfqs.fpMultMix k.loadAverage 59)
      (Mlfqs.fpConst k.readyListSize)) 60 = _
    rw [hmult', hconst', hadd', hload'']
  constructor
  · simp only [Exact.updateLoadAverage, hmult, hconst, hadd, hload', Option.bind_eq_bind,
      Option.bind_some]
    rw [← hsource]
    rfl
  · rw [hsource]
    exact hdiv

theorem exact_updateRecentCpuAll (hload : LoadFits k.loadAverage)
    (hrecents : k.RecentsFit 100) (hnices : k.NicesFit) :
    Exact.updateRecentCpuAll k = k.updateRecentCpuAll ∧
      ∀ k', k.updateRecentCpuAll = some k' → k'.RecentsFit 0 ∧ k'.NicesFit ∧
        k'.loadAverage = k.loadAverage ∧ k'.ticks = k.ticks := by
  have hall : ∀ u ∈ k.allList, k.idleThread ≠ some u.tid →
      Exact.recentCpu k.loadAverage u = some (decayed k.loadAverage u) ∧
        RecentFits 0 (decayed k.loadAverage u).recentCpu := fun u hu hidle =>
    recentCpu_of_fits hload (hnices u hu) (hrecents u hu hidle)
  constructor
  · rw [Exact.updateRecentCpuAll,
      exact_modifyAll (g := decayed k.loadAverage) fun u hu hidle => (hall u hu hidle).1]
    rfl
  · intro k' hk'
    obtain ⟨sorted, -, hk'⟩ := Option.bind_eq_some_iff.mp hk'
    rw [← Option.some.inj hk']
    refine ⟨fun u' hu' hne => ?_, fun u' hu' => ?_, rfl, rfl⟩
    · obtain ⟨u, hu, rfl⟩ := List.mem_map.mp hu'
      change k.idleThread ≠ _ at hne
      split_ifs at hne ⊢ with hidle
      · exact absurd hidle hne
      · exact (hall u hu hidle).2
    · obtain ⟨u, hu, rfl⟩ := List.mem_map.mp hu'
      split_ifs
      · exact hnices u hu
      · exact hnices u hu

theorem exact_updatePriorityAll (hrecents : k.RecentsFit 100) (hnices : k.NicesFit) :
    Exact.updatePriorityAll k = some k.updatePriorityAll :=
  exact_modifyAll fun u hu hidle => calculatePriority_of_fits (hnices u hu)
    (hrecents u hu hidle)

theorem keeps_updatePriorityAll (k : Kernel) : k.Keeps k.updatePriorityAll where
  load := rfl
  ticks := rfl
  idle := rfl
  threads u' hu' := by
    obtain ⟨u, hu, rfl⟩ := List.mem_map.mp hu'
    refine ⟨u, hu, ?_⟩
    split_ifs <;> exact ⟨rfl, rfl, rfl⟩

theorem exact_updatePriority (hrecents : k.RecentsFit 100) (hnices : k.NicesFit) (t : Nat) :
    Exact.updatePriority k t = some (k.updatePriority t) := by
  unfold Exact.updatePriority Kernel.updatePriority
  split_ifs with hidle
  · rfl
  · exact exact_modify fun u hu htid => calculatePriority_of_fits (hnices u hu)
      (hrecents u hu (htid ▸ hidle))

theorem keeps_updatePriority (k : Kernel) (t : Nat) : k.Keeps (k.updatePriority t) := by
  unfold Kernel.updatePriority
  split_ifs
  · exact Kernel.Keeps.refl k
  · exact Kernel.Keeps.modify k t
      (f := fun u => { u with effectivePriority := Kernel.calculatePriority u })
      (fun _ => rfl) (fun _ => rfl) fun _ => rfl

/-- Before the part of each second a `recent_cpu` is a tick further. -/
theorem exact_timerWakes (hbounded : k.Bounded) (hnices : k.NicesFit) :
    Exact.timerWakes k = k.timerWakes ∧ ∀ k', k.timerWakes = some k' →
      k'.RecentsFit (k.ticks % timerFreq + 1) ∧ k'.NicesFit ∧
        k'.loadAverage = k.loadAverage ∧ k'.ticks = k.ticks + 1 := by
  have hlt : k.ticks % timerFreq < 100 := Int.emod_lt_of_pos _ (by decide)
  have hall : ∀ {k₁}, (k.allList.map Thread.tid).foldlM Kernel.checkBlockThread
      { k with ticks := k.ticks + 1 } = some k₁ →
        k₁.RecentsFit (k.ticks % timerFreq) ∧ k₁.NicesFit ∧
          k₁.loadAverage = k.loadAverage ∧ k₁.ticks = k.ticks + 1 := by
    intro k₁ hforeach
    have hkeeps := Kernel.Keeps.foreach hforeach
    exact ⟨hkeeps.recentsFit hbounded.recents, hkeeps.nicesFit hnices, hkeeps.load,
      hkeeps.ticks⟩
  constructor
  · rw [Exact.timerWakes, Kernel.timerWakes]
    simp only
    cases hforeach : (k.allList.map Thread.tid).foldlM Kernel.checkBlockThread
        { k with ticks := k.ticks + 1 } with
    | none => rfl
    | some k₁ => exact (exact_updateRecentCpuByOne hlt (hall hforeach).1).1
  · intro k' hk'
    obtain ⟨k₁, hforeach, rfl⟩ := Option.map_eq_some_iff.mp hk'
    obtain ⟨hrecents, hnices₁, hload, hticks⟩ := hall hforeach
    refine ⟨(exact_updateRecentCpuByOne hlt hrecents).2, ?_, ?_, ?_⟩
    · unfold Kernel.updateRecentCpuByOne
      split_ifs
      · exact hnices₁
      · intro u' hu'
        obtain ⟨u, hu, rfl⟩ := List.mem_map.mp hu'
        split_ifs
        · exact hnices₁ u hu
        · exact hnices₁ u hu
    · unfold Kernel.updateRecentCpuByOne
      split_ifs <;> exact hload
    · unfold Kernel.updateRecentCpuByOne
      split_ifs <;> exact hticks

/-- At the end of a second at most a hundred threads are running or ready. -/
def Kernel.Light (k : Kernel) : Prop := k.ticks % timerFreq = 0 → k.readyListSize ≤ 100

instance (k : Kernel) : Decidable k.Light := inferInstanceAs (Decidable (_ → _))

theorem exact_eachSecond (hload : LoadFits k.loadAverage) {ticks : Int}
    (hticks : k.ticks = ticks + 1) (hrecents : k.RecentsFit (ticks % timerFreq + 1))
    (hnices : k.NicesFit) (hlight : k.Light) :
    Exact.eachSecond k = k.eachSecond ∧ ∀ k', k.eachSecond = some k' →
      k'.Bounded ∧ k'.NicesFit := by
  have hlt : ticks % timerFreq < 100 := Int.emod_lt_of_pos _ (by decide)
  unfold Exact.eachSecond Kernel.eachSecond
  split_ifs with hsecond
  · have hfull : k.RecentsFit 100 := fun u hu hidle =>
      (hrecents u hu hidle).mono (by omega)
    obtain ⟨hexact₁, hload₁⟩ := exact_updateLoadAverage hload (hlight hsecond)
    obtain ⟨hexact₂, hafter⟩ := @exact_updateRecentCpuAll k.updateLoadAverage hload₁
      hfull hnices
    constructor
    · rw [Kernel.timerSecond, hexact₁]
      simp only [Option.bind_eq_bind, Option.bind_some, hexact₂]
      cases hall : k.updateLoadAverage.updateRecentCpuAll with
      | none => rfl
      | some k₁ =>
          obtain ⟨hrecents₁, hnices₁, -⟩ := hafter k₁ hall
          exact exact_updatePriorityAll
            (fun u hu hidle => (hrecents₁ u hu hidle).mono (by decide)) hnices₁
    · intro k' hk'
      obtain ⟨k₁, hall, rfl⟩ := Option.map_eq_some_iff.mp hk'
      obtain ⟨hrecents₁, hnices₁, hload₂, hticks₁⟩ := hafter k₁ hall
      have hkeeps := keeps_updatePriorityAll k₁
      refine ⟨hkeeps.bounded ⟨hload₂ ▸ hload₁, ?_⟩, hkeeps.nicesFit hnices₁⟩
      have hzero : k₁.ticks % timerFreq = 0 := hticks₁ ▸ hsecond
      rw [hzero]
      exact hrecents₁
  · refine ⟨rfl, fun k' hk' => ?_⟩
    rw [← Option.some.inj hk']
    refine ⟨⟨hload, ?_⟩, hnices⟩
    have hnext : k.ticks % timerFreq = ticks % timerFreq + 1 := by
      rw [hticks, timerFreq] at hsecond ⊢
      omega
    rw [hnext]
    exact hrecents

theorem exact_timerInterrupt (hbounded : k.Bounded) (hnices : k.NicesFit)
    (hlight : ∀ k₁, k.timerWakes = some k₁ → k₁.Light) :
    Exact.timerInterrupt k = k.timerInterrupt ∧
      ∀ k', k.timerInterrupt = some k' → k'.Bounded := by
  obtain ⟨hexact₁, hwakes⟩ := exact_timerWakes hbounded hnices
  rw [Exact.timerInterrupt, Kernel.timerInterrupt, hexact₁]
  cases h₁ : k.timerWakes with
  | none => exact ⟨rfl, nofun⟩
  | some k₁ =>
      obtain ⟨hrecents₁, hnices₁, hload₁, hticks₁⟩ := hwakes k₁ h₁
      obtain ⟨hexact₂, hsecond⟩ := exact_eachSecond (hload₁ ▸ hbounded.load) hticks₁
        hrecents₁ hnices₁ (hlight k₁ h₁)
      simp only [Option.bind_eq_bind, Option.bind_some, hexact₂]
      cases h₂ : k₁.eachSecond with
      | none => exact ⟨rfl, nofun⟩
      | some k₂ =>
          obtain ⟨hbounded₂, hnices₂⟩ := hsecond k₂ h₂
          have hrecents₂ : k₂.RecentsFit 100 := fun u hu hidle =>
            (hbounded₂.recents u hu hidle).mono
              (Int.le_of_lt (Int.emod_lt_of_pos _ (by decide)))
          have hkeeps : k₂.Keeps (if k₂.ticks % 4 = 0 then k₂.updatePriority k₂.current
              else k₂) := by
            split_ifs
            · exact keeps_updatePriority k₂ _
            · exact Kernel.Keeps.refl k₂
          refine ⟨?_, fun k' hk' => ?_⟩
          · simp only [Option.bind_some]
            split_ifs
            · rw [exact_updatePriority hrecents₂ hnices₂]
              rfl
            · rfl
          · rw [← Option.some.inj hk']
            exact (hkeeps.trans (Kernel.Keeps.threadTick _)).bounded hbounded₂

/-! The runs. -/

theorem Kernel.Bounded.modify (h : k.Bounded) (t : Nat) {f : Thread → Thread}
    (htid : ∀ u, (f u).tid = u.tid) (hrecent : ∀ u, (f u).recentCpu = u.recentCpu) :
    (k.modify t f).Bounded where
  load := h.load
  recents u' hu' hidle := by
    obtain ⟨u, hu, rfl⟩ := List.mem_map.mp hu'
    change k.idleThread ≠ _ at hidle
    change RecentFits (k.ticks % timerFreq) _
    split_ifs at hidle ⊢
    · rw [htid] at hidle
      rw [hrecent]
      exact h.recents u hu hidle
    · exact h.recents u hu hidle

theorem recentFits_zero {ticks : Int} (hticks : 0 ≤ ticks) : RecentFits ticks 0 := by
  unfold RecentFits
  omega

/-- The condition on a step: every nice value is from -20 to 20, and at the end of a
second at most a hundred threads are running or ready, the idle one not
counted. -/
def WithinBounds (k : Kernel) (a : Action) : Prop :=
  k.NicesFit ∧ (a = .timerInterrupt → ∀ k₁ ∈ k.timerWakes, k₁.Light)

theorem step_bounded {a : Action} (h : k.Bounded) (hok : WithinBounds k a)
    (hstep : step k a = some k') : k'.Bounded := by
  have hticks : 0 ≤ k.ticks % timerFreq := Int.emod_nonneg _ (by decide)
  unfold step at hstep
  by_cases hswitching : k.switching
  · rw [if_pos hswitching] at hstep
    cases a with
    | schedule => exact (Kernel.Keeps.schedule hstep).bounded h
    | _ => cases hstep
  · rw [if_neg hswitching] at hstep
    cases a with
    | timerInterrupt => exact (exact_timerInterrupt h hok.1 (hok.2 rfl)).2 k' hstep
    | initThread t priority =>
        simp only at hstep
        split_ifs at hstep
        rw [← Option.some.inj hstep]
        refine ⟨h.load, fun u hu hidle => ?_⟩
        rcases List.mem_append.mp hu with hu | hu
        · exact h.recents u hu hidle
        · rw [List.mem_singleton.mp hu]
          exact recentFits_zero hticks
    | inheritNice t =>
        obtain ⟨u, -, rfl⟩ := Option.map_eq_some_iff.mp hstep
        exact h.modify t (f := fun v => { v with nice := u.nice }) (fun _ => rfl)
          fun _ => rfl
    | unblock t =>
        simp only at hstep
        split_ifs at hstep
        exact (Kernel.Keeps.threadUnblock hstep).bounded h
    | yield => exact Option.some.inj hstep ▸ (Kernel.Keeps.threadYield k).bounded h
    | assignNice nice =>
        rw [← Option.some.inj hstep]
        exact h.modify _ (f := fun u => { u with nice := nice }) (fun _ => rfl)
          fun _ => rfl
    | updatePriority =>
        rw [← Option.some.inj hstep]
        exact (keeps_updatePriority k _).bounded h
    | block => exact Option.some.inj hstep ▸ (Kernel.Keeps.threadBlock k).bounded h
    | sleep ticks =>
        simp only at hstep
        split_ifs at hstep
        rw [← Option.some.inj hstep]
        have hmodify := Kernel.Keeps.modify k k.current
          (f := fun u => { u with wakeUpTicks := fixed ticks }) (fun _ => rfl)
          (fun _ => rfl) fun _ => rfl
        exact (hmodify.trans (Kernel.Keeps.threadBlock _)).bounded h
    | idle =>
        simp only at hstep
        split_ifs at hstep with hnone
        rw [← Option.some.inj hstep]
        exact ⟨h.load, fun u hu _ => h.recents u hu (hnone ▸ nofun)⟩
    | started =>
        rw [← Option.some.inj hstep]
        have hzero : LoadFits (Mlfqs.fpConst 0) := ⟨by decide, by decide⟩
        exact ⟨hzero, h.recents⟩
    | schedule => cases hstep

theorem exact_step {a : Action} (h : k.Bounded) (hok : WithinBounds k a) :
    Exact.step k a = step k a := by
  unfold Exact.step
  split_ifs with hswitching
  · rfl
  · have hstep : step k a = _ := if_neg hswitching
    cases a with
    | timerInterrupt =>
        rw [hstep]
        exact (exact_timerInterrupt h hok.1 (hok.2 rfl)).1
    | updatePriority =>
        rw [hstep]
        refine exact_updatePriority (fun u hu hidle => (h.recents u hu hidle).mono ?_)
          hok.1 _
        exact Int.le_of_lt (Int.emod_lt_of_pos _ (by decide))
    | _ => rfl

theorem bounded_boot : boot.Bounded where
  load := ⟨by decide, by decide⟩
  recents u hu _ := by
    rw [List.mem_singleton.mp hu]
    exact recentFits_zero (by decide)

/-- As long as at most a hundred threads want the processor and the nice values are
from -20 to 20, the load is from 0 to 100 and the next step computes what exact
numbers give. -/
theorem arithmetic_exact {actions : List Action} {a : Action}
    (hrun : Run step WithinBounds boot actions k) (hok : WithinBounds k a) :
    (0 ≤ k.loadAverage ∧ k.loadAverage ≤ 100 * 2 ^ 16) ∧
      Exact.step k a = step k a ∧
      ∀ u, priMin ≤ Exact.priority u ∧ Exact.priority u ≤ priMax := by
  have h : k.Bounded :=
    hrun.invariant Kernel.Bounded (fun h hok hstep => step_bounded h hok hstep) bounded_boot
  refine ⟨h.load, exact_step h hok, fun u => ⟨?_, min_le_left _ _⟩⟩
  exact le_min (by decide) (le_max_left _ _)

namespace MlfqsArithmeticWitness

/-- The condition, checked. -/
def withinBounds (k : Kernel) (a : Action) : Bool :=
  k.allList.all (fun u => decide (-20 ≤ u.nice) && decide (u.nice ≤ 20)) &&
    match a, k.timerWakes with
    | .timerInterrupt, some k₁ => decide k₁.Light
    | _, _ => true

theorem withinBounds_spec {a : Action} (h : withinBounds k a = true) :
    WithinBounds k a := by
  obtain ⟨hnices, hlight⟩ := Bool.and_eq_true_iff.mp h
  refine ⟨fun u hu => ?_, fun ha k₁ hk₁ => ?_⟩
  · have hnice := List.all_eq_true.mp hnices u hu
    rw [Bool.and_eq_true, decide_eq_true_iff, decide_eq_true_iff] at hnice
    exact hnice
  · subst ha
    rw [show k.timerWakes = some k₁ from hk₁] at hlight
    exact of_decide_eq_true hlight

/-- The main thread alone at the end of a second, after the idle thread has
started. -/
theorem arithmetic_exact_second : ∃ actions k,
    Run step WithinBounds boot actions k ∧ k.ticks = 99 ∧
      Exact.step k .timerInterrupt = step k .timerInterrupt := by
  have hrun : (MlfqsWitness.almostSecond.foldlM
        (fun k a => if withinBounds k a then step k a else none) boot).map
          (fun k => (k.ticks, withinBounds k .timerInterrupt)) = some (99, true) := by
    decide +kernel
  obtain ⟨k, hk, heq⟩ := Option.map_eq_some_iff.mp hrun
  obtain ⟨hticks, hlight⟩ := Prod.mk.inj heq
  have hrun' : Run step WithinBounds boot _ k :=
    Run.of_check withinBounds (fun _ => True) (fun _ _ => trivial)
      (fun _ hcheck => withinBounds_spec hcheck) trivial hk
  exact ⟨_, k, hrun', hticks, (arithmetic_exact hrun' (withinBounds_spec hlight)).2.1⟩

end MlfqsArithmeticWitness

end Mlfqs

end PintosLabs
