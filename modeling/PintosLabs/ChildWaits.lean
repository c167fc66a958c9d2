/-
How often a child can be waited for.  A call of `process_wait` that finds the
child's record marked as exited returns its status at once, and leaves the
record as it was.
-/
import PintosLabs.ChildProcesses

namespace PintosLabs

namespace ChildProcesses

/-- What the calls of `process_wait` for a child have returned since
`process_execute` returned it, the latest first. -/
def waitResults (tid : Int) : List Event → List Int
  | [] => []
  | .executed t :: log => if t = tid then [] else waitResults tid log
  | .waited t result :: log =>
      if t = tid then result :: waitResults tid log else waitResults tid log
  | .failed :: log => waitResults tid log
  | .exited _ _ :: log => waitResults tid log
  | .killed _ :: log => waitResults tid log

/-- A child that has been waited for is not waited for again as long as its
record is there, unless the recorded status is -1. -/
def WaitsOnce (s : Family) (a : Action) : Prop :=
  ∀ tid c, a = .wait tid → s.record tid = some c →
    waitResults tid s.log = [] ∨ c.exitStatus = -1

/-- What holds of the records and the place of the parent as long as every
child is waited for only once. -/
structure Family.Once (s : Family) : Prop where
  results : ∀ t, ∀ r ∈ (waitResults t s.log).dropLast, r = -1
  exited : ∀ t c, s.record t = some c → waitResults t s.log ≠ [] →
    c.exited = true
  asked : ∀ t c, s.pc = .test t ∨ s.pc = .report t → s.record t = some c →
    waitResults t s.log = [] ∨ c.exitStatus = -1
  first : ∀ t, s.pc = .mark t ∨ s.pc = .down t ∨ s.pc = .finish t →
    waitResults t s.log = []
  reported : ∀ t c, s.pc = .report t → s.record t = some c → c.exited = true
  waited : ∀ t c, s.record t = some c → c.waited = true →
    s.pc = .down t ∨ s.pc = .finish t
  status : ∀ t c, s.record t = some c →
    c.exitStatus = 0 ∨ s.child t = some .leaves ∨ s.child t = some .dead

theorem boot_once : boot.Once where
  results := by simp [boot, waitResults]
  exited := by simp [boot, Family.record]
  asked := by simp [boot]
  first := by simp [boot]
  reported := by simp [boot]
  waited := by simp [boot, Family.record]
  status := by simp [boot, Family.record]

section Once

variable {s s' : Family} {tid : Int} {a : Action} {c : ChildProcess}

theorem waitResults_returns {t result : Int} :
    waitResults t (s.returns (.waited tid result)).log =
      if tid = t then result :: waitResults t s.log
      else waitResults t s.log := rfl

/-- A result that is -1, or the first one. -/
theorem Family.Once.results_returns (hs : s.Once) {result : Int}
    (h : waitResults tid s.log = [] ∨ result = -1) (t : Int) :
    ∀ r ∈ (waitResults t (s.returns (.waited tid result)).log).dropLast,
      r = -1 := by
  rw [waitResults_returns]
  split_ifs with ht
  · subst ht
    rcases h with h | rfl
    · simp [h]
    · intro r hr
      cases hw : waitResults tid s.log with
      | nil => simp [hw] at hr
      | cons x rest =>
          rw [hw, List.dropLast_cons_of_ne_nil (by simp)] at hr
          rcases List.mem_cons.mp hr with rfl | hr
          · rfl
          · exact hs.results tid r (hw ▸ hr)
  · exact hs.results t

/-- Steps that change neither the calls made nor the place of the parent, nor
whether a record is waited for. -/
theorem Family.Once.of_child (hs : s.Once) (hpc : s'.pc = s.pc)
    (hlog : ∀ t, waitResults t s'.log = waitResults t s.log)
    (hrecord : ∀ t c, s'.record t = some c →
      ∃ c', s.record t = some c' ∧ (c'.exited = true → c.exited = true) ∧
        c.waited = c'.waited ∧ (c'.exitStatus = -1 → c.exitStatus = -1))
    (hstatus : ∀ t c, s'.record t = some c → c.exitStatus = 0 ∨
      s'.child t = some .leaves ∨ s'.child t = some .dead) : s'.Once where
  results t := by rw [hlog]; exact hs.results t
  exited t c hc hne := by
    obtain ⟨c', hc', hexited, -⟩ := hrecord t c hc
    rw [hlog] at hne
    exact hexited (hs.exited t c' hc' hne)
  asked t c ht hc := by
    obtain ⟨c', hc', -, -, hminus⟩ := hrecord t c hc
    rw [hpc] at ht
    rw [hlog]
    exact (hs.asked t c' ht hc').imp id hminus
  first t ht := by
    rw [hpc] at ht
    rw [hlog]
    exact hs.first t ht
  reported t c ht hc := by
    obtain ⟨c', hc', hexited, -⟩ := hrecord t c hc
    rw [hpc] at ht
    exact hexited (hs.reported t c' ht hc')
  waited t c hc hw := by
    obtain ⟨c', hc', -, hwaited, -⟩ := hrecord t c hc
    rw [hpc]
    exact hs.waited t c' hc' (hwaited ▸ hw)
  status := hstatus

/-- A step of a child that writes to its record. -/
theorem record_modify_child {f : ChildProcess → ChildProcess} {pc : ChildPc}
    (htid : ∀ c, (f c).tid = c.tid)
    (hf : ∀ c, s.record tid = some c → (c.exited = true → (f c).exited = true) ∧
      (f c).waited = c.waited ∧ (c.exitStatus = -1 → (f c).exitStatus = -1))
    (t : Int) (c : ChildProcess)
    (hc : ((s.modify tid f).setChild tid pc).record t = some c) :
    ∃ c', s.record t = some c' ∧ (c'.exited = true → c.exited = true) ∧
      c.waited = c'.waited ∧ (c'.exitStatus = -1 → c.exitStatus = -1) := by
  rw [record_setChild, record_modify htid] at hc
  split_ifs at hc with ht
  · subst ht
    obtain ⟨c', hc', rfl⟩ := Option.map_eq_some_iff.mp hc
    exact ⟨c', hc', hf c' hc'⟩
  · exact ⟨c, hc, id, rfl, id⟩

/-- A child that has not left yet has no status but 0 in its record. -/
theorem Family.Once.status_setChild (hs : s.Once) {before after : ChildPc}
    (hchild : s.child tid = some before)
    (hbefore : before ≠ .leaves ∧ before ≠ .dead) (t : Int) (c : ChildProcess)
    (hrecord : s.record t = some c) : c.exitStatus = 0 ∨
      (s.setChild tid after).child t = some .leaves ∨
      (s.setChild tid after).child t = some .dead := by
  by_cases ht : t = tid
  · subst ht
    rcases hs.status t c hrecord with h | h | h
    · exact .inl h
    · exact absurd (Option.some.inj (hchild.symm.trans h)) hbefore.1
    · exact absurd (Option.some.inj (hchild.symm.trans h)) hbefore.2
  · simpa only [Family.setChild, Function.update_of_ne ht] using
      hs.status t c hrecord

theorem status_setChild_left {pc : ChildPc} (hs : s.Once)
    (hpc : pc = .leaves ∨ pc = .dead) {f : ChildProcess → ChildProcess}
    (htid : ∀ c, (f c).tid = c.tid) (t : Int) (c : ChildProcess)
    (hc : ((s.modify tid f).setChild tid pc).record t = some c) :
    c.exitStatus = 0 ∨
      ((s.modify tid f).setChild tid pc).child t = some .leaves ∨
      ((s.modify tid f).setChild tid pc).child t = some .dead := by
  rw [record_setChild, record_modify htid] at hc
  split_ifs at hc with ht
  · subst ht
    rcases hpc with rfl | rfl
    · exact .inr (.inl (by simp [Family.setChild]))
    · exact .inr (.inr (by simp [Family.setChild]))
  · simp only [Family.setChild, Function.update_of_ne ht]
    exact hs.status t c hc

/-- The steps of the parent that leave the records and the calls as they are,
and those that write to the record it waits for. -/
theorem Family.Once.of_parent (hs : s.Once) {pc : ParentPc}
    {f : ChildProcess → ChildProcess} {log : List Event} {execSema : Nat}
    (hlog : ∀ t, waitResults t log = waitResults t s.log)
    (htid : ∀ c, (f c).tid = c.tid)
    (hf : ∀ c, (f c).exited = c.exited ∧ (f c).exitStatus = c.exitStatus)
    (hasked : ∀ t, pc = .test t ∨ pc = .report t → ∀ c, s.record t = some c →
      waitResults t s.log = [] ∨ c.exitStatus = -1)
    (hfirst : ∀ t, pc = .mark t ∨ pc = .down t ∨ pc = .finish t →
      waitResults t s.log = [])
    (hreported : ∀ t c, pc = .report t → s.record t = some c → c.exited = true)
    (hwaited : ∀ t c, s.record t = some c →
      (if t = tid then f c else c).waited = true →
      pc = .down t ∨ pc = .finish t) :
    Family.Once { s.modify tid f with
      pc := pc, log := log, execSema := execSema } := by
  have hrecord : ∀ t c, (s.modify tid f).record t = some c →
      ∃ c', s.record t = some c' ∧ c = (if t = tid then f c' else c') ∧
        c.exited = c'.exited ∧ c.exitStatus = c'.exitStatus := by
    intro t c hc
    rw [record_modify htid] at hc
    split_ifs at hc with ht
    · obtain ⟨c', hc', rfl⟩ := Option.map_eq_some_iff.mp hc
      exact ⟨c', hc', by simp [ht], hf c'⟩
    · exact ⟨c, hc, by simp [ht], rfl, rfl⟩
  refine ⟨fun t => ?_, fun t c hc hne => ?_, fun t c ht hc => ?_,
    fun t ht => ?_, fun t c ht hc => ?_, fun t c hc hw => ?_, fun t c hc => ?_⟩
  · simpa only [hlog] using hs.results t
  · obtain ⟨c', hc', -, hexited, -⟩ := hrecord t c hc
    simp only [hlog] at hne
    exact hexited ▸ hs.exited t c' hc' hne
  · obtain ⟨c', hc', -, -, hstatus⟩ := hrecord t c hc
    simpa only [hlog, hstatus] using hasked t ht c' hc'
  · simpa only [hlog] using hfirst t ht
  · obtain ⟨c', hc', -, hexited, -⟩ := hrecord t c hc
    exact hexited ▸ hreported t c' ht hc'
  · obtain ⟨c', hc', rfl, -⟩ := hrecord t c hc
    exact hwaited t c' hc' hw
  · obtain ⟨c', hc', -, -, hstatus⟩ := hrecord t c hc
    exact hstatus ▸ hs.status t c' hc'

theorem step_once (hd : s.Distinct) (hs : s.Once) (hok : WaitsOnce s a)
    (h : step s a = some s') : s'.Once := by
  have hself : ∀ t c, s.record t = some c →
      ∃ c', s.record t = some c' ∧ (c'.exited = true → c.exited = true) ∧
        c.waited = c'.waited ∧ (c'.exitStatus = -1 → c.exitStatus = -1) :=
    fun t c hc => ⟨c, hc, id, rfl, id⟩
  have hidle : (∀ t, s.pc ≠ .down t ∧ s.pc ≠ .finish t) →
      ∀ t c, s.record t = some c → ¬ c.waited = true := fun hpc t c hc hw =>
    (hs.waited t c hc hw).elim (hpc t).1 (hpc t).2
  cases step_moves h with
  | @execute tid hpc htid =>
      refine ⟨hs.results, hs.exited, by simp, by simp, by simp,
        fun t c hc hw => absurd hw (hidle (by simp [hpc]) t c hc),
        fun t c hrecord => ?_⟩
      have ht : t ≠ tid := by
        have := (hd.record_bounds hrecord).2
        omega
      simpa only [Function.update_of_ne ht] using hs.status t c hrecord
  | loaded hpc hsema =>
      refine ⟨hs.results, hs.exited, by simp, by simp, by simp,
        fun t c hc hw => absurd hw (hidle (by simp [hpc]) t c hc), hs.status⟩
  | @executed tid hpc hstatus =>
      have hnew := (hd.unrecorded tid (.inr hpc)).1
      have hrecord : ∀ t c, Family.record { s.returns (.executed tid) with
          children := s.children ++ [⟨tid, false, false, 0, 0⟩] } t = some c →
          t = tid ∧ c.exitStatus = 0 ∧ c.waited = false ∨
            t ≠ tid ∧ s.record t = some c := by
        intro t c hc
        rw [Family.returns, record_append hnew] at hc
        split_ifs at hc with ht
        · obtain rfl := Option.some.inj hc
          exact .inl ⟨ht, rfl, rfl⟩
        · exact .inr ⟨ht, hc⟩
      refine ⟨fun t => ?_, fun t c hc hne => ?_, by simp [Family.returns],
        by simp [Family.returns], by simp [Family.returns],
        fun t c hc hw => ?_, fun t c hc => ?_⟩
      · by_cases ht : tid = t
        · simp [Family.returns, waitResults, ht]
        · simpa [Family.returns, waitResults, ht] using hs.results t
      · rcases hrecord t c hc with ⟨rfl, -⟩ | ⟨ht, hc⟩
        · simp [Family.returns, waitResults] at hne
        · refine hs.exited t c hc ?_
          simpa [Family.returns, waitResults, ht.symm] using hne
      · rcases hrecord t c hc with ⟨-, -, hfalse⟩ | ⟨-, hc⟩
        · simp [hw] at hfalse
        · exact absurd hw (hidle (by simp [hpc]) t c hc)
      · rcases hrecord t c hc with ⟨-, hc, -⟩ | ⟨-, hc⟩
        · exact .inl hc
        · exact hs.status t c hc
  | failed hpc =>
      refine ⟨hs.results, hs.exited, by simp [Family.returns],
        by simp [Family.returns], by simp [Family.returns],
        fun t c hc hw => absurd hw (hidle (by simp [hpc]) t c hc), hs.status⟩
  | @refused tid hpc hrecord =>
      have hgone : s.record tid = none := by
        cases hc : s.record tid with
        | none => rfl
        | some c =>
            have hbounds := hd.record_bounds hc
            rcases hrecord c hc with h | h
            · omega
            · exact absurd h (hidle (by simp [hpc]) tid c hc)
      refine ⟨hs.results_returns (.inr rfl), fun t c hc hne => ?_,
        by simp [Family.returns], by simp [Family.returns],
        by simp [Family.returns],
        fun t c hc hw => absurd hw (hidle (by simp [hpc]) t c hc), hs.status⟩
      · rw [record_returns] at hc
        have ht : tid ≠ t := fun heq => by simp [← heq, hgone] at hc
        rw [waitResults_returns, if_neg ht] at hne
        exact hs.exited t c hc hne
  | @wait tid c hpc hrecord hwaited =>
      refine ⟨hs.results, hs.exited, fun t c' ht hc => ?_, by simp, by simp,
        fun t c hc hw => absurd hw (hidle (by simp [hpc]) t c hc), hs.status⟩
      · obtain rfl : tid = t := by simpa using ht
        exact hok tid c' rfl hc
  | @exited tid c hpc hrecord hexited =>
      refine ⟨hs.results, hs.exited, fun t c' ht hc => ?_, by simp,
        fun t c' ht hc => ?_,
        fun t c hc hw => absurd hw (hidle (by simp [hpc]) t c hc), hs.status⟩
      · obtain rfl : tid = t := by simpa using ht
        exact hs.asked tid c' (.inl hpc) hc
      · obtain rfl : tid = t := by simpa using ht
        exact Option.some.inj (hrecord.symm.trans hc) ▸ hexited
  | @running tid c hpc hrecord hexited =>
      refine ⟨hs.results, hs.exited, by simp, fun t ht => ?_, by simp,
        fun t c hc hw => absurd hw (hidle (by simp [hpc]) t c hc), hs.status⟩
      · obtain rfl : tid = t := by simpa using ht
        by_contra hne
        rw [hs.exited tid c hrecord hne] at hexited
        cases hexited
  | @report tid c hpc hrecord =>
      refine ⟨hs.results_returns (hs.asked tid c (.inr hpc) hrecord),
        fun t c' hc hne => ?_, by simp [Family.returns],
        by simp [Family.returns], by simp [Family.returns],
        fun t c hc hw => absurd hw (hidle (by simp [hpc]) t c hc), hs.status⟩
      · by_cases ht : tid = t
        · subst ht
          exact hs.reported tid c' hpc hc
        · rw [waitResults_returns, if_neg ht] at hne
          exact hs.exited t c' hc hne
  | @mark tid hpc =>
      refine hs.of_parent (fun _ => rfl) (fun _ => rfl) (fun _ => ⟨rfl, rfl⟩)
        (by simp) (fun t ht => ?_) (by simp) fun t c hc hw => ?_
      · obtain rfl : tid = t := by simpa using ht
        exact hs.first tid (.inl hpc)
      · split_ifs at hw with ht
        · exact .inl (by rw [ht])
        · exact absurd hw (hidle (by simp [hpc]) t c hc)
  | @down tid c hpc hrecord hsema =>
      refine hs.of_parent (fun _ => rfl) (fun _ => rfl) (fun _ => ⟨rfl, rfl⟩)
        (by simp) (fun t ht => ?_) (by simp) fun t c hc hw => ?_
      · obtain rfl : tid = t := by simpa using ht
        exact hs.first tid (.inr (.inl hpc))
      · have ht : tid = t := by
          have hwaited : c.waited = true := by split_ifs at hw <;> exact hw
          simpa [hpc] using hs.waited t c hc hwaited
        exact .inr (by rw [ht])
  | @finish tid c hpc hrecord =>
      have hold : ∀ t c, (s.remove tid).record t = some c →
          t ≠ tid ∧ s.record t = some c := by
        intro t c hc
        rw [record_remove hd.nodup] at hc
        split_ifs at hc with ht
        exact ⟨ht, hc⟩
      refine ⟨hs.results_returns (.inl (hs.first tid (.inr (.inr hpc)))),
        fun t c hc hne => ?_, by simp [Family.returns], by simp [Family.returns],
        by simp [Family.returns], fun t c hc hw => ?_, fun t c hc => ?_⟩
      · obtain ⟨ht, hc⟩ := hold t c hc
        rw [waitResults_returns, if_neg ht.symm] at hne
        exact hs.exited t c hc hne
      · obtain ⟨ht, hc⟩ := hold t c hc
        exact absurd (hs.waited t c hc hw) (by simp [hpc, ht.symm])
      · exact hs.status t c (hold t c hc).2
  | load hchild =>
      exact hs.of_child rfl (fun _ => rfl) hself
        (hs.status_setChild hchild (by simp))
  | reports hchild =>
      exact hs.of_child rfl (fun _ => rfl) hself
        (hs.status_setChild hchild (by simp))
  | ups hchild =>
      exact hs.of_child rfl (fun _ => rfl) hself
        (hs.status_setChild hchild (by simp))
  | exit hchild =>
      exact hs.of_child rfl (fun _ => rfl) hself
        (hs.status_setChild hchild (by simp))
  | kill hchild =>
      exact hs.of_child rfl (fun _ => rfl) hself
        (hs.status_setChild hchild (by simp))
  | @exits tid status hchild =>
      refine hs.of_child rfl (fun _ => rfl) (record_modify_child (fun _ => rfl)
        fun c hc => ⟨fun _ => rfl, rfl, id⟩) fun t c hc => ?_
      rw [record_setChild, record_modify (f := fun c => { c with exited := true })
        fun _ => rfl] at hc
      split_ifs at hc with ht
      · obtain ⟨c', hc', rfl⟩ := Option.map_eq_some_iff.mp hc
        exact hs.status_setChild hchild (by simp) t c' hc'
      · exact hs.status_setChild hchild (by simp) t c hc
  | @marked tid status hchild =>
      refine hs.of_child rfl (fun _ => rfl) (record_modify_child (fun _ => rfl)
        fun c hc => ⟨id, rfl, fun hminus => ?_⟩)
        (status_setChild_left hs (.inl rfl) fun _ => rfl)
      rcases hs.status tid c hc with h | h | h
      · omega
      · simp [hchild] at h
      · simp [hchild] at h
  | leaves hchild =>
      refine hs.of_child rfl (fun _ => rfl)
        (record_modify_child (fun c => by split_ifs <;> rfl) fun c hc => ?_)
        (status_setChild_left hs (.inr rfl) fun c => by split_ifs <;> rfl)
      by_cases hw : c.waited <;> simp [hw]

/-- In a run that does not wait again for a child whose record is still there,
all calls for a child but the first return -1. -/
theorem child_waited_for_once {actions : List Action}
    (hrun : Run step WaitsOnce boot actions s) (tid : Int) :
    ∀ r ∈ (waitResults tid s.log).dropLast, r = -1 := by
  have hinv : s.Distinct ∧ s.Once :=
    hrun.invariant (fun s => s.Distinct ∧ s.Once)
      (fun hs hok hstep =>
        ⟨step_distinct hs.1 hstep, step_once hs.1 hs.2 hok hstep⟩)
      ⟨boot_distinct, boot_once⟩
  exact hinv.2.results tid

end Once

namespace ChildWaitsWitness

/-- The child's way into user code. -/
def starts : List Action :=
  [.execute 1, .load 1 true, .runChild 1, .runChild 1, .run, .run]

/-- The child's end. -/
def exits : List Action := [.exit 1 7, .runChild 1, .runChild 1, .runChild 1]

/-- A call of `process_wait`, up to its semaphore or its return. -/
def waits : List Action := [.wait 1, .run, .run]

/-- A child that has exited before it is waited for gives its status twice. -/
theorem waited_for_twice : ∃ actions s,
    Run step (fun _ _ => True) boot actions s ∧
      ¬ ∀ r ∈ (waitResults 1 s.log).dropLast, r = -1 := by
  obtain ⟨s, hs, hresults⟩ : ∃ s,
      (starts ++ exits ++ waits ++ waits).foldlM step boot = some s ∧ waitResults 1 s.log = [7, 7] :=
    ⟨_, rfl, rfl⟩
  exact ⟨_, s, Run.of_foldlM hs, by simp [hresults]⟩

/-- The calls that are checked on the way. -/
def waitsOnce (s : Family) : Action → Bool
  | .wait tid =>
      match s.record tid with
      | none => true
      | some c => waitResults tid s.log = [] || c.exitStatus = -1
  | _ => true

theorem child_waited_for_once_twice : ∃ actions s,
    Run step WaitsOnce boot actions s ∧ waitResults 1 s.log = [-1, 7] ∧
      ∀ r ∈ (waitResults 1 s.log).dropLast, r = -1 := by
  obtain ⟨s, hs, hresults⟩ : ∃ s,
      (starts ++ waits ++ exits ++ [Action.run, .run, .wait 1]).foldlM
        (fun s a => if waitsOnce s a then step s a else none) boot = some s ∧
      waitResults 1 s.log = [-1, 7] :=
    ⟨_, rfl, rfl⟩
  have hrun : Run step WaitsOnce boot _ s :=
    Run.of_check waitsOnce (fun _ => True) (fun _ _ => trivial)
      (fun {s a} _ hcheck tid c ha hc => by
        subst ha
        simpa [waitsOnce, hc] using hcheck) trivial hs
  exact ⟨_, s, hrun, hresults, child_waited_for_once hrun 1⟩

end ChildWaitsWitness

end ChildProcesses

end PintosLabs
