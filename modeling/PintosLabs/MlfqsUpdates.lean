/-
What updating only the thread that runs leaves out.  A thread keeps the
priority with which it left the processor, or was created, until the second
ends or it runs at a fourth tick.
-/
import PintosLabs.Mlfqs

namespace PintosLabs

namespace Mlfqs

variable {k k' k'' : Kernel} {t u : Nat}

/-- The thread has another priority than `update_priority` would give it. -/
def Kernel.Stale (k : Kernel) (t : Nat) : Prop :=
  ∃ x ∈ k.allList, x.tid = t ∧ x.effectivePriority ≠ Kernel.calculatePriority x

instance (k : Kernel) (t : Nat) : Decidable (k.Stale t) :=
  inferInstanceAs (Decidable (∃ x ∈ k.allList, _))

/-- Every thread but the idle one has the priority of the formula. -/
def Kernel.Settled (k : Kernel) : Prop :=
  ∀ x ∈ k.allList, k.idleThread ≠ some x.tid →
    x.effectivePriority = Kernel.calculatePriority x

theorem Kernel.settled_iff : k.Settled ↔ ∀ t, k.idleThread ≠ some t → ¬ k.Stale t := by
  constructor
  · rintro h t hidle ⟨x, hx, rfl, hne⟩
    exact hne (h x hx hidle)
  · intro h x hx hidle
    by_contra hne
    exact h x.tid hidle ⟨x, hx, rfl, hne⟩

/-- Where all are settled, updating all of them changes nothing. -/
theorem Kernel.settled_iff_updatePriorityAll : k.Settled ↔ k.updatePriorityAll = k := by
  constructor
  · intro h
    have hlist : k.updatePriorityAll.allList = k.allList := by
      refine (List.map_congr_left fun x hx => ?_).trans (List.map_id _)
      split_ifs with hidle
      · rfl
      · change { x with effectivePriority := Kernel.calculatePriority x } = x
        rw [← h x hx hidle]
    exact congrArg (fun threads => { k with allList := threads }) hlist
  · intro h x hx hidle
    have hlist : k.allList.map (fun x => if k.idleThread = some x.tid then x
        else { x with effectivePriority := Kernel.calculatePriority x }) =
          k.allList.map id := (congrArg Kernel.allList h).trans (List.map_id _).symm
    have hx' := List.map_inj_left.mp hlist x hx
    rw [if_neg hidle] at hx'
    exact (congrArg Thread.effectivePriority hx').symm

/-! What is stale is noted when a thread leaves the processor, and when one is
created. -/

/-- The kernel, and the threads that left the processor or were created with
another priority than that of the formula and have not been updated by the end
of a second. -/
structure Observed where
  kernel : Kernel
  stale : List Nat

def Observed.boot : Observed := ⟨Mlfqs.boot, []⟩

/-- Whether `t` is stale, as of now. -/
def note (k : Kernel) (t : Nat) (stale : List Nat) : List Nat :=
  let others := stale.filter (· ≠ t)
  if k.Stale t then t :: others else others

/-- The end of a second updates all.  The thread whose time is over leaves. -/
def noteTick (k : Kernel) (stale : List Nat) : List Nat :=
  let stale := if k.ticks % timerFreq = 0 then [] else stale
  if k.switching then note k k.current stale else stale

/-- `k` is the kernel after the action. -/
def noteAction (k : Kernel) (a : Action) (stale : List Nat) : List Nat :=
  match a with
  | .timerInterrupt => noteTick k stale
  | .initThread t _ | .inheritNice t => note k t stale
  | .yield | .block | .sleep _ => note k k.current stale
  | _ => stale

def Observed.step (s : Observed) (a : Action) : Option Observed :=
  (Mlfqs.step s.kernel a).map fun k => ⟨k, noteAction k a s.stale⟩

/-- The threads that are off the processor and stale after these actions. -/
def staleAfter (actions : List Action) : List Nat :=
  ((actions.foldlM Observed.step Observed.boot).map Observed.stale).getD []

theorem mem_note {stale : List Nat} : u ∈ note k t stale ↔
    if u = t then k.Stale t else u ∈ stale := by
  unfold note
  simp only
  split_ifs with hstale heq heq
  · simp [heq, hstale]
  · simp [heq]
  · simp [heq, hstale]
  · simp [heq]

/-! What a thread's priority is computed from. -/

def Thread.numbers (x : Thread) : Nat × Int × Int × Int :=
  (x.tid, x.effectivePriority, x.nice, x.recentCpu)

def Kernel.numbers (k : Kernel) (t : Nat) : List (Nat × Int × Int × Int) :=
  (k.allList.filter (·.tid = t)).map Thread.numbers

theorem filter_modify (k : Kernel) (t : Nat) {f : Thread → Thread}
    (hf : ∀ x, (f x).tid = x.tid) : (k.modify t f).allList.filter (·.tid = u) =
      (k.allList.filter (·.tid = u)).map fun x => if x.tid = t then f x else x := by
  unfold Kernel.modify
  rw [List.filter_map]
  refine congrArg _ (List.filter_congr fun x _ => ?_)
  rw [Function.comp_apply]
  split_ifs
  · exact decide_eq_decide.mpr (by rw [hf])
  · rfl

theorem numbers_modify (k : Kernel) (t : Nat) {f : Thread → Thread}
    (hf : ∀ x, (f x).tid = x.tid) (hu : u ≠ t) :
    (k.modify t f).numbers u = k.numbers u := by
  rw [Kernel.numbers, filter_modify k t hf, List.map_map, Kernel.numbers]
  refine List.map_congr_left fun x hx => ?_
  have htid : x.tid = u := of_decide_eq_true (List.mem_filter.mp hx).2
  rw [Function.comp_apply, if_neg (htid ▸ hu)]

theorem numbers_append (k : Kernel) (x : Thread) (hu : u ≠ x.tid) :
    Kernel.numbers { k with allList := k.allList ++ [x] } u = k.numbers u := by
  rw [Kernel.numbers, List.filter_append, List.filter_singleton,
    decide_eq_false (Ne.symm hu), Bool.cond_false, List.append_nil, Kernel.numbers]

theorem stale_numbers {x y : Thread} (h : x.numbers = y.numbers) :
    x.tid = y.tid ∧ x.effectivePriority = y.effectivePriority ∧
      Kernel.calculatePriority x = Kernel.calculatePriority y := by
  unfold Thread.numbers at h
  simp only [Prod.mk.injEq] at h
  obtain ⟨htid, hpriority, hnice, hrecent⟩ := h
  refine ⟨htid, hpriority, ?_⟩
  unfold Kernel.calculatePriority
  rw [hnice, hrecent]

theorem Kernel.Stale.congr (hstale : k.Stale t) (h : k'.numbers t = k.numbers t) :
    k'.Stale t := by
  obtain ⟨x, hx, rfl, hne⟩ := hstale
  have hmem : x.numbers ∈ k.numbers x.tid :=
    List.mem_map_of_mem (List.mem_filter.mpr ⟨hx, decide_eq_true rfl⟩)
  rw [← h] at hmem
  obtain ⟨y, hy, heq⟩ := List.mem_map.mp hmem
  obtain ⟨htid, hpriority, hformula⟩ := stale_numbers heq
  exact ⟨y, (List.mem_filter.mp hy).1, htid, by rwa [hpriority, hformula]⟩

theorem stale_congr (h : k'.numbers t = k.numbers t) : k'.Stale t ↔ k.Stale t :=
  ⟨fun hstale => hstale.congr h.symm, fun hstale => hstale.congr h⟩

/-- The numbers of the threads other than the running one are as before. -/
structure Kernel.Others (k k' : Kernel) : Prop where
  numbers : ∀ u ≠ k.current, k'.numbers u = k.numbers u
  idle : k'.idleThread = k.idleThread
  current : k'.current = k.current

/-- All numbers are as before. -/
structure Kernel.Same (k k' : Kernel) : Prop where
  numbers : ∀ u, k'.numbers u = k.numbers u
  idle : k'.idleThread = k.idleThread
  current : k'.current = k.current
  ticks : k'.ticks = k.ticks

namespace Kernel.Same

theorem refl (k : Kernel) : k.Same k := ⟨fun _ => rfl, rfl, rfl, rfl⟩

theorem trans (h : k.Same k') (h' : k'.Same k'') : k.Same k'' :=
  ⟨fun u => (h'.numbers u).trans (h.numbers u), h'.idle.trans h.idle,
    h'.current.trans h.current, h'.ticks.trans h.ticks⟩

theorem congr (h : k.Same k') (hlist : k''.allList = k'.allList)
    (hidle : k''.idleThread = k'.idleThread) (hcurrent : k''.current = k'.current)
    (hticks : k''.ticks = k'.ticks) : k.Same k'' where
  numbers u := by
    rw [← h.numbers u, Kernel.numbers, hlist, Kernel.numbers]
  idle := hidle.trans h.idle
  current := hcurrent.trans h.current
  ticks := hticks.trans h.ticks

theorem modify (k : Kernel) (t : Nat) {f : Thread → Thread}
    (hf : ∀ x, (f x).numbers = x.numbers) : k.Same (k.modify t f) where
  numbers u := by
    have htid : ∀ x, (f x).tid = x.tid := fun x => congrArg Prod.fst (hf x)
    rw [Kernel.numbers, filter_modify k t htid, List.map_map, Kernel.numbers]
    refine List.map_congr_left fun x _ => ?_
    rw [Function.comp_apply]
    split_ifs
    · exact hf x
    · rfl
  idle := rfl
  current := rfl
  ticks := rfl

theorem threadUnblock (h : k.threadUnblock t = some k') : k.Same k' := by
  unfold Kernel.threadUnblock at h
  split at h
  · split_ifs at h
    rw [← Option.some.inj h]
    exact (modify k t (f := fun x => { x with status := .ready }) fun _ => rfl).congr
      rfl rfl rfl rfl
  · cases h

theorem checkBlockThread (h : k.checkBlockThread t = some k') : k.Same k' := by
  unfold Kernel.checkBlockThread at h
  have hmodify := modify k t (f := fun x => { x with wakeUpTicks := x.wakeUpTicks - 1 })
    fun _ => rfl
  split at h
  · simp only at h
    split_ifs at h
    · exact hmodify.trans (threadUnblock h)
    · exact Option.some.inj h ▸ hmodify
    · exact Option.some.inj h ▸ refl k
  · exact Option.some.inj h ▸ refl k

theorem foreach {tids : List Nat}
    (h : tids.foldlM Kernel.checkBlockThread k = some k') : k.Same k' := by
  induction tids generalizing k with
  | nil => exact Option.some.inj h ▸ refl k
  | cons t rest ih =>
      rw [List.foldlM_cons] at h
      obtain ⟨k₁, hcheck, hrest⟩ := Option.bind_eq_some_iff.mp h
      exact (checkBlockThread hcheck).trans (ih hrest)

theorem threadYield (k : Kernel) : k.Same k.threadYield := by
  unfold Kernel.threadYield
  have hinsert : k.Same (if k.idleThread = some k.current then k
      else k.insertReady k.current) := by
    split_ifs
    · exact refl k
    · exact (refl k).congr rfl rfl rfl rfl
  exact (hinsert.trans (modify _ _ (f := fun x => { x with status := .ready })
    fun _ => rfl)).congr rfl rfl rfl rfl

theorem threadBlock (k : Kernel) : k.Same k.threadBlock :=
  (modify k k.current (f := fun x => { x with status := .blocked })
    fun _ => rfl).congr rfl rfl rfl rfl

theorem threadTick (k : Kernel) : k.Same k.threadTick := by
  have hticks : k.Same { k with threadTicks := k.threadTicks + 1 } :=
    (refl k).congr rfl rfl rfl rfl
  unfold Kernel.threadTick
  simp only
  split_ifs
  · exact hticks.trans (threadYield _)
  · exact hticks

end Kernel.Same

theorem schedule_numbers (h : k.schedule = some k') :
    (∀ u, k'.numbers u = k.numbers u) ∧ k'.idleThread = k.idleThread := by
  obtain ⟨⟨next, k₁⟩, hnext, h⟩ := Option.bind_eq_some_iff.mp h
  have hsame : k.Same k₁ := by
    unfold Kernel.nextThreadToRun at hnext
    split at hnext
    · obtain ⟨t, -, heq⟩ := Option.map_eq_some_iff.mp hnext
      obtain ⟨-, rfl⟩ := Prod.mk.inj heq
      exact Kernel.Same.refl k
    · obtain ⟨-, rfl⟩ := Prod.mk.inj (Option.some.inj hnext)
      exact (Kernel.Same.refl k).congr rfl rfl rfl rfl
  simp only at h
  split_ifs at h
  rw [← Option.some.inj h]
  have hmodify := hsame.trans (Kernel.Same.modify k₁ next
    (f := fun x => { x with status := .running }) fun _ => rfl)
  exact ⟨hmodify.numbers, hmodify.idle⟩

namespace Kernel.Others

theorem congr (h : k.Others k') (h' : k'.Same k'') : k.Others k'' :=
  ⟨fun u hu => (h'.numbers u).trans (h.numbers u hu), h'.idle.trans h.idle,
    h'.current.trans h.current⟩

theorem trans (h : k.Others k') (h' : k'.Others k'') : k.Others k'' :=
  ⟨fun u hu => (h'.numbers u (h.current ▸ hu)).trans (h.numbers u hu),
    h'.idle.trans h.idle, h'.current.trans h.current⟩

theorem modify (k : Kernel) {f : Thread → Thread} (hf : ∀ x, (f x).tid = x.tid) :
    k.Others (k.modify k.current f) where
  numbers _ hu := numbers_modify k _ hf hu
  idle := rfl
  current := rfl

theorem refl (k : Kernel) : k.Others k := ⟨fun _ _ => rfl, rfl, rfl⟩

theorem updateRecentCpuByOne (k : Kernel) : k.Others k.updateRecentCpuByOne := by
  unfold Kernel.updateRecentCpuByOne
  split_ifs
  · exact refl k
  · exact modify k fun _ => rfl

theorem updatePriority (k : Kernel) : k.Others (k.updatePriority k.current) := by
  unfold Kernel.updatePriority
  split_ifs
  · exact refl k
  · exact modify k fun _ => rfl

theorem timerWakes (h : k.timerWakes = some k') : k.Others k' := by
  obtain ⟨k₁, hforeach, rfl⟩ := Option.map_eq_some_iff.mp h
  have htick : k.Others { k with ticks := k.ticks + 1 } := ⟨fun _ _ => rfl, rfl, rfl⟩
  exact (htick.congr (Kernel.Same.foreach hforeach)).trans (updateRecentCpuByOne k₁)

end Kernel.Others

/-! The timer interrupt. -/

theorem settled_updatePriorityAll (k : Kernel) : k.updatePriorityAll.Settled := by
  intro x hx hidle
  obtain ⟨y, hy, rfl⟩ := List.mem_map.mp hx
  change k.idleThread ≠ _ at hidle
  split_ifs at hidle ⊢ with hne
  · exact absurd hne hidle
  · rfl

theorem not_stale_updatePriority (hidle : k.idleThread ≠ some t) :
    ¬ (k.updatePriority t).Stale t := by
  unfold Kernel.updatePriority
  rw [if_neg hidle]
  rintro ⟨x, hx, htid, hne⟩
  obtain ⟨y, hy, rfl⟩ := List.mem_map.mp hx
  split_ifs at htid hne with heq
  · exact hne rfl
  · exact heq htid

/-- After the part of each second the threads off the processor are stale if they were
and the second has not ended. -/
theorem eachSecond_stale (h : k.eachSecond = some k') :
    k'.idleThread = k.idleThread ∧ k'.current = k.current ∧ k'.ticks = k.ticks ∧
      ∀ t, k.idleThread ≠ some t →
        (k'.Stale t ↔ k'.ticks % timerFreq ≠ 0 ∧ k.Stale t) := by
  unfold Kernel.eachSecond at h
  split_ifs at h with hsecond
  · obtain ⟨k₁, hk₁, rfl⟩ := Option.map_eq_some_iff.mp h
    obtain ⟨sorted, -, hk₁⟩ := Option.bind_eq_some_iff.mp hk₁
    rw [← Option.some.inj hk₁]
    refine ⟨rfl, rfl, rfl, fun t hidle => iff_of_false ?_ fun hne => hne.1 hsecond⟩
    exact Kernel.settled_iff.mp (settled_updatePriorityAll _) t hidle
  · rw [← Option.some.inj h]
    exact ⟨rfl, rfl, rfl, fun t _ => ⟨fun hstale => ⟨hsecond, hstale⟩, fun hboth => hboth.2⟩⟩

theorem timerInterrupt_stale (h : k.timerInterrupt = some k') :
    k'.idleThread = k.idleThread ∧ k'.current = k.current ∧
      (∀ t ≠ k.current, k.idleThread ≠ some t →
        (k'.Stale t ↔ k'.ticks % timerFreq ≠ 0 ∧ k.Stale t)) ∧
      (k'.ticks % 4 = 0 → k.idleThread ≠ some k.current → ¬ k'.Stale k.current) := by
  obtain ⟨k₁, hwakes, h⟩ := Option.bind_eq_some_iff.mp h
  obtain ⟨k₂, hsecond, h⟩ := Option.bind_eq_some_iff.mp h
  obtain ⟨k₃, hk₃⟩ : ∃ k₃, k₃ =
    if k₂.ticks % 4 = 0 then k₂.updatePriority k₂.current else k₂ := ⟨_, rfl⟩
  have hwakes := Kernel.Others.timerWakes hwakes
  obtain ⟨hidle₂, hcurrent₂, hticks₂, hstale₂⟩ := eachSecond_stale hsecond
  have hothers : k₂.Others k₃ := by
    rw [hk₃]
    split_ifs
    · exact Kernel.Others.updatePriority k₂
    · exact Kernel.Others.refl k₂
  have hticks₃ : k₃.ticks = k₂.ticks := by
    rw [hk₃]
    unfold Kernel.updatePriority
    split_ifs <;> rfl
  have htick : k₃.Same k' := by
    rw [← Option.some.inj h, ← hk₃]
    exact Kernel.Same.threadTick k₃
  have hidle : k₂.idleThread = k.idleThread := hidle₂.trans hwakes.idle
  have hcurrent : k₂.current = k.current := hcurrent₂.trans hwakes.current
  refine ⟨htick.idle.trans (hothers.idle.trans hidle),
    htick.current.trans (hothers.current.trans hcurrent), fun t hne hnot => ?_,
    fun hfourth hnot => ?_⟩
  · rw [stale_congr (htick.numbers t), stale_congr (hothers.numbers t (hcurrent ▸ hne)),
      hstale₂ t (hwakes.idle ▸ hnot), stale_congr (hwakes.numbers t hne), htick.ticks,
      hticks₃]
  · rw [stale_congr (htick.numbers _), hk₃, if_pos (by rwa [← hticks₃, ← htick.ticks]),
      ← hcurrent]
    exact not_stale_updatePriority (hidle ▸ hcurrent ▸ hnot)

/-! The runs. -/

/-- The threads off the processor are stale if they were when they left it. -/
def Observed.Inv (s : Observed) : Prop :=
  ∀ t, s.kernel.idleThread ≠ some t →
    (t ≠ s.kernel.current ∨ s.kernel.switching = true) →
      (t ∈ s.stale ↔ s.kernel.Stale t)

variable {stale : List Nat}

/-- An action of the running thread that does not make it leave. -/
theorem Observed.Inv.others (h : Observed.Inv ⟨k, stale⟩) (hothers : k.Others k')
    (hswitching : k'.switching = false) : Observed.Inv ⟨k', stale⟩ := by
  intro t hidle hoff
  change k'.idleThread ≠ some t at hidle
  have hne : t ≠ k.current := by
    rcases hoff with hne | hoff
    · exact hothers.current ▸ hne
    · exact absurd (hswitching.symm.trans hoff) Bool.false_ne_true
  exact (h t (hothers.idle ▸ hidle) (Or.inl hne)).trans
    (stale_congr (hothers.numbers t hne)).symm

/-- The running thread leaves. -/
theorem Observed.Inv.leaves (h : Observed.Inv ⟨k, stale⟩) (hsame : k.Same k') :
    Observed.Inv ⟨k', note k' k'.current stale⟩ := by
  intro t hidle _
  change k'.idleThread ≠ some t at hidle
  rw [mem_note]
  split_ifs with heq
  · rw [heq]
  · exact (h t (hsame.idle ▸ hidle) (Or.inl (hsame.current ▸ heq))).trans
      (stale_congr (hsame.numbers t)).symm

/-- A thread is created, or takes the nice value of its creator. -/
theorem Observed.Inv.noted (h : Observed.Inv ⟨k, stale⟩)
    (hnumbers : ∀ u ≠ t, k'.numbers u = k.numbers u) (hidle : k'.idleThread = k.idleThread)
    (hcurrent : k'.current = k.current) (hswitching : k'.switching = k.switching) :
    Observed.Inv ⟨k', note k' t stale⟩ := by
  intro u hidle' hoff
  rw [mem_note]
  split_ifs with heq
  · rw [heq]
  · exact (h u (hidle ▸ hidle') (hcurrent ▸ hswitching ▸ hoff)).trans
      (stale_congr (hnumbers u heq)).symm

theorem Observed.Inv.timerInterrupt (h : Observed.Inv ⟨k, stale⟩)
    (hstep : k.timerInterrupt = some k') : Observed.Inv ⟨k', noteTick k' stale⟩ := by
  obtain ⟨hidle, hcurrent, hstale, -⟩ := timerInterrupt_stale hstep
  have hothers : ∀ t ≠ k.current, k.idleThread ≠ some t →
      (t ∈ (if k'.ticks % timerFreq = 0 then [] else stale) ↔ k'.Stale t) := by
    intro t hne hnot
    rw [hstale t hne hnot]
    split_ifs with hsecond
    · exact iff_of_false List.not_mem_nil fun hboth => hboth.1 hsecond
    · rw [h t hnot (Or.inl hne)]
      exact ⟨fun hold => ⟨hsecond, hold⟩, fun hboth => hboth.2⟩
  intro t hidle' hoff
  change k'.idleThread ≠ some t at hidle'
  rw [hidle] at hidle'
  change t ∈ noteTick k' stale ↔ _
  unfold noteTick
  simp only
  by_cases hswitching : k'.switching = true
  · rw [if_pos hswitching, mem_note]
    by_cases heq : t = k'.current
    · rw [if_pos heq, heq]
    · rw [if_neg heq]
      exact hothers t (hcurrent ▸ heq) hidle'
  · rw [if_neg hswitching]
    have hne : t ≠ k'.current := Or.resolve_right hoff hswitching
    exact hothers t (hcurrent ▸ hne) hidle'

theorem Observed.Inv.step {a : Action} (h : Observed.Inv ⟨k, stale⟩)
    (hstep : Mlfqs.step k a = some k') : Observed.Inv ⟨k', noteAction k' a stale⟩ := by
  unfold Mlfqs.step at hstep
  by_cases hswitching : k.switching = true
  · rw [if_pos hswitching] at hstep
    cases a with
    | schedule =>
        obtain ⟨hnumbers, hidle⟩ := schedule_numbers hstep
        intro t hidle' _
        exact (h t (hidle ▸ hidle') (Or.inr hswitching)).trans
          (stale_congr (hnumbers t)).symm
    | _ => cases hstep
  · rw [if_neg hswitching] at hstep
    have hoff : k.switching = false := Bool.not_eq_true _ ▸ hswitching
    cases a with
    | timerInterrupt => exact h.timerInterrupt hstep
    | initThread t priority =>
        simp only at hstep
        split_ifs at hstep
        rw [← Option.some.inj hstep]
        exact h.noted (fun u hu => numbers_append k _ hu) rfl rfl rfl
    | inheritNice t =>
        obtain ⟨x, -, rfl⟩ := Option.map_eq_some_iff.mp hstep
        exact h.noted (fun u hu => numbers_modify k t (fun _ => rfl) hu) rfl rfl rfl
    | unblock t =>
        simp only at hstep
        split_ifs at hstep
        exact h.others ((Kernel.Others.refl k).congr (Kernel.Same.threadUnblock hstep)) (by
          unfold Kernel.threadUnblock at hstep
          split at hstep
          · split_ifs at hstep
            exact Option.some.inj hstep ▸ hoff
          · cases hstep)
    | yield => exact Option.some.inj hstep ▸ h.leaves (Kernel.Same.threadYield k)
    | assignNice nice =>
        rw [← Option.some.inj hstep]
        exact h.others (Kernel.Others.modify k fun _ => rfl) hoff
    | updatePriority =>
        rw [← Option.some.inj hstep]
        refine h.others (Kernel.Others.updatePriority k) ?_
        unfold Kernel.updatePriority
        split_ifs <;> exact hoff
    | block => exact Option.some.inj hstep ▸ h.leaves (Kernel.Same.threadBlock k)
    | sleep ticks =>
        simp only at hstep
        split_ifs at hstep
        rw [← Option.some.inj hstep]
        have hmodify := Kernel.Same.modify k k.current
          (f := fun x => { x with wakeUpTicks := fixed ticks }) fun _ => rfl
        exact h.leaves (hmodify.trans (Kernel.Same.threadBlock _))
    | idle =>
        simp only at hstep
        split_ifs at hstep with hnone
        rw [← Option.some.inj hstep]
        exact fun t _ hleft => h t (hnone ▸ nofun) hleft
    | started =>
        rw [← Option.some.inj hstep]
        exact h
    | schedule => cases hstep

theorem Observed.boot_inv : Observed.boot.Inv := by
  intro t _ hoff
  refine iff_of_false List.not_mem_nil ?_
  rintro ⟨x, hx, rfl, -⟩
  rw [List.mem_singleton.mp hx] at hoff
  exact hoff.elim (fun hne => hne rfl) Bool.false_ne_true

/-- Every run of the scheduler is observed. -/
theorem observed_run {ok : Kernel → Action → Prop} {actions : List Action}
    (hrun : Run step ok boot actions k) :
    actions.foldlM Observed.step Observed.boot = some ⟨k, staleAfter actions⟩ ∧
      Observed.Inv ⟨k, staleAfter actions⟩ := by
  have h : ∃ s : Observed, actions.foldlM Observed.step Observed.boot = some s ∧
      s.kernel = k ∧ s.Inv := by
    induction hrun with
    | nil => exact ⟨Observed.boot, rfl, rfl, Observed.boot_inv⟩
    | snoc run allowed taken ih =>
        obtain ⟨s, hfold, rfl, hinv⟩ := ih
        refine ⟨⟨_, _⟩, ?_, rfl, hinv.step taken⟩
        rw [List.foldlM_append, hfold]
        change (Observed.step s _).bind some = _
        rw [Observed.step, taken]
        rfl
  obtain ⟨⟨k₁, stale⟩, hfold, rfl, hinv⟩ := h
  have hstale : staleAfter actions = stale := by
    rw [staleAfter, hfold]
    rfl
  rw [hstale]
  exact ⟨hfold, hinv⟩

/-- At a fourth tick all threads have the priority of the formula if and only if a
second ends, or no other thread than the running and the idle one is off the
processor since it left it, or was created, with another priority. -/
theorem fourth_tick_settles {actions : List Action}
    (hrun : Run step (fun _ _ => True) boot actions k)
    (hstep : step k .timerInterrupt = some k') (hfourth : k'.ticks % 4 = 0) :
    k'.Settled ↔ k'.ticks % timerFreq = 0 ∨
      ∀ t ∈ staleAfter actions, t = k.current ∨ k.idleThread = some t := by
  obtain ⟨-, hinv⟩ := observed_run hrun
  have hinterrupt : k.timerInterrupt = some k' := by
    unfold step at hstep
    by_cases hswitching : k.switching = true
    · rw [if_pos hswitching] at hstep
      cases hstep
    · rw [if_neg hswitching] at hstep
      exact hstep
  obtain ⟨hidle, hcurrent, hothers, hrunning⟩ := timerInterrupt_stale hinterrupt
  rw [Kernel.settled_iff, hidle]
  constructor
  · intro h
    by_contra hnot
    obtain ⟨hsecond, hstale⟩ := not_or.mp hnot
    push Not at hstale
    obtain ⟨t, ht, hne, hnidle⟩ := hstale
    exact h t hnidle ((hothers t hne hnidle).mpr
      ⟨hsecond, (hinv t hnidle (Or.inl hne)).mp ht⟩)
  · intro h t hnidle hstale
    by_cases hne : t = k.current
    · exact hrunning hfourth (hne ▸ hnidle) (hne ▸ hstale)
    · obtain ⟨hsecond, hold⟩ := (hothers t hne hnidle).mp hstale
      have hmem := (hinv t hnidle (Or.inl hne)).mpr hold
      exact ((h.resolve_left hsecond) t hmem).elim hne hnidle

namespace MlfqsUpdatesWitness

/-- The idle thread starts, and the main thread runs alone up to the first fourth
tick. -/
def firstTicks : List Action :=
  [Action.initThread 1 0, .inheritNice 1, .unblock 1, .block, .schedule, .idle,
    .unblock 0, .yield, .schedule, .started] ++
  List.replicate 4 Action.timerInterrupt ++ [Action.schedule]

/-- The main thread sleeps right after its update. -/
def asleep : List Action :=
  firstTicks ++ [Action.sleep 10, .schedule, .timerInterrupt, .timerInterrupt,
    .timerInterrupt]

/-- At the next fourth tick its priority is the one of the formula. -/
theorem fourth_tick_settles_asleep : ∃ k k',
    Run step (fun _ _ => True) boot asleep k ∧ step k .timerInterrupt = some k' ∧
      k'.ticks = 8 ∧ k.current = 1 ∧ k'.Settled := by
  have hrun : (asleep.foldlM step boot).bind (fun k => (step k .timerInterrupt).map
      fun k' => (k'.ticks, k.current)) = some (8, 1) := by
    decide +kernel
  have hstale : staleAfter asleep = [1] := by decide +kernel
  obtain ⟨k, hk, hmap⟩ := Option.bind_eq_some_iff.mp hrun
  obtain ⟨k', hstep, heq⟩ := Option.map_eq_some_iff.mp hmap
  obtain ⟨hticks, hcurrent⟩ := Prod.mk.inj heq
  refine ⟨k, k', Run.of_foldlM hk, hstep, hticks, hcurrent,
    (fourth_tick_settles (Run.of_foldlM hk) hstep (by rw [hticks]; decide)).mpr
      (Or.inr fun t ht => Or.inl ?_)⟩
  rw [hstale] at ht
  exact (List.mem_singleton.mp ht).trans hcurrent.symm

/-- The main thread sleeps two ticks after its update. -/
def asleepLater : List Action :=
  firstTicks ++ [Action.timerInterrupt, .timerInterrupt, .sleep 10, .schedule,
    .timerInterrupt]

/-- At the next fourth tick its priority is 62 where the formula says 61. -/
theorem not_settled_asleepLater : ∃ k k',
    Run step (fun _ _ => True) boot asleepLater k ∧ step k .timerInterrupt = some k' ∧
      k'.ticks % 4 = 0 ∧ ∃ x ∈ k'.allList, k'.idleThread ≠ some x.tid ∧
        x.effectivePriority = 62 ∧ Kernel.calculatePriority x = 61 := by
  have hrun : (asleepLater.foldlM step boot).bind (fun k => (step k .timerInterrupt).map
      fun k' => (decide (k'.ticks % 4 = 0), k'.allList.any fun x =>
        decide (k'.idleThread ≠ some x.tid ∧ x.effectivePriority = 62 ∧
          Kernel.calculatePriority x = 61))) = some (true, true) := by
    decide +kernel
  obtain ⟨k, hk, hmap⟩ := Option.bind_eq_some_iff.mp hrun
  obtain ⟨k', hstep, heq⟩ := Option.map_eq_some_iff.mp hmap
  obtain ⟨hticks, hany⟩ := Prod.mk.inj heq
  obtain ⟨x, hx, hpriority⟩ := List.any_eq_true.mp hany
  exact ⟨k, k', Run.of_foldlM hk, hstep, of_decide_eq_true hticks, x, hx,
    of_decide_eq_true hpriority⟩

end MlfqsUpdatesWitness

end Mlfqs

end PintosLabs
