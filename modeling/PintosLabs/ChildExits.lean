/-
What a parent learns of the end of its children.  The child's record is made
only after the child runs in user code, and `exit` and `thread_exit` write to
it without looking at what the parent is doing; the parent learns the status as
long as the steps of the two come in an order in which neither passes the other
by.
-/
import PintosLabs.ChildWaits

namespace PintosLabs

namespace ChildProcesses

/-- The status that a child has passed to `exit`. -/
def exitCall (tid : Int) : List Event → Option Int
  | [] => none
  | .exited t status :: log =>
      if t = tid then some status else exitCall tid log
  | .executed _ :: log => exitCall tid log
  | .waited _ _ :: log => exitCall tid log
  | .failed :: log => exitCall tid log
  | .killed _ :: log => exitCall tid log

/-- No child is killed; no child calls `exit` before `process_execute` has
returned it; the last part of a child's `thread_exit` does not come between the
parent's test of `exited` and its assignment to `waited`; and the parent does
not read the status between a child's assignments to `exited` and to
`exit_status`, unless the status is the one that is there. -/
structure InOrder (s : Family) (a : Action) : Prop where
  kill : ∀ tid, a ≠ .kill tid
  exit : ∀ tid status, a = .exit tid status →
    s.pc ≠ .execute tid ∧ s.pc ≠ .loaded tid
  leaves : ∀ tid, a = .runChild tid → s.child tid = some .leaves →
    s.pc ≠ .mark tid
  report : ∀ tid c status, a = .run → s.pc = .report tid →
    s.record tid = some c → s.child tid = some (.marked status) →
    c.exitStatus = status

/-- The child has not reached user code. -/
def ChildPc.Loading : ChildPc → Prop
  | .start | .reports _ | .ups _ => True
  | _ => False

/-- The handshake of `process_execute` with `start_process`. -/
structure Family.Handshake (s : Family) : Prop where
  loading : ∀ t pc, s.child t = some pc → pc.Loading →
    s.pc = .execute t ∧ s.execSema = 0
  idle : (∀ t, s.pc ≠ .execute t) → s.execSema = 0
  once : s.execSema ≤ 1
  success : ∀ t, s.pc = .execute t ∨ s.pc = .loaded t → s.childStatus ≠ -1 →
    s.child t = some .start ∨ (∃ b, s.child t = some (.reports b)) ∨
      s.child t = some (.ups true) ∨ s.child t = some .user

theorem boot_handshake : boot.Handshake where
  loading := by simp [boot]
  idle := by simp [boot]
  once := by simp [boot]
  success := by simp [boot]

section Handshake

variable {s s' : Family} {tid : Int} {a : Action} {c : ChildProcess}

/-- Steps of the parent that have nothing to do with the handshake. -/
theorem Family.Handshake.of_parent (hs : s.Handshake)
    (hchild : s'.child = s.child) (hsema : s'.execSema = s.execSema)
    (hpc : ∀ t, s.pc ≠ .execute t)
    (hpc' : ∀ t, s'.pc ≠ .execute t ∧ s'.pc ≠ .loaded t) :
    s'.Handshake where
  loading t pc ht hloading := by
    rw [hchild] at ht
    exact absurd (hs.loading t pc ht hloading).1 (hpc t)
  idle _ := by rw [hsema]; exact hs.idle hpc
  once := by rw [hsema]; exact hs.once
  success t ht := ht.elim (fun h => absurd h (hpc' t).1)
    fun h => absurd h (hpc' t).2

/-- Steps of a child behind the handshake. -/
theorem Family.Handshake.of_child (hs : s.Handshake) {pc : ChildPc}
    (hpc : s'.pc = s.pc) (hsema : s'.execSema = s.execSema)
    (hstatus : s'.childStatus = s.childStatus)
    (hchild : s'.child = Function.update s.child tid (some pc))
    (hafter : ¬ pc.Loading)
    (hpassed : s.childStatus ≠ -1 → s.pc ≠ .execute tid ∧ s.pc ≠ .loaded tid) :
    s'.Handshake where
  loading t before ht hloading := by
    rw [hchild, Function.update_apply] at ht
    rw [hpc, hsema]
    split_ifs at ht with heq
    · exact absurd (Option.some.inj ht ▸ hloading) hafter
    · exact hs.loading t before ht hloading
  idle h := by rw [hpc] at h; rw [hsema]; exact hs.idle h
  once := by rw [hsema]; exact hs.once
  success t ht hne := by
    rw [hpc] at ht
    rw [hstatus] at hne
    have htid : t ≠ tid := by
      rintro rfl
      exact ht.elim (hpassed hne).1 (hpassed hne).2
    rw [hchild, Function.update_of_ne htid]
    exact hs.success t ht hne

theorem step_handshake (hs : s.Handshake) (hok : InOrder s a)
    (h : step s a = some s') : s'.Handshake := by
  cases step_moves h with
  | @execute tid hpc htid =>
      refine ⟨fun t pc ht hloading => ?_, fun _ => hs.idle (by simp [hpc]),
        hs.once, fun t ht _ => ?_⟩
      · have hzero := hs.idle (by simp [hpc])
        simp only [Function.update_apply] at ht
        split_ifs at ht with heq
        · exact ⟨by rw [heq], hzero⟩
        · exact absurd (hs.loading t pc ht hloading).1 (by simp [hpc])
      · obtain rfl : tid = t := by simpa using ht
        exact .inl (by simp)
  | @loaded tid hpc hsema =>
      have honce := hs.once
      refine ⟨fun t pc ht hloading => ?_, fun _ => ?_, ?_, fun t ht hne => ?_⟩
      · exact absurd (hs.loading t pc ht hloading).2 hsema
      · simp only
        omega
      · simp only
        omega
      · obtain rfl : tid = t := by simpa using ht
        exact hs.success tid (.inl hpc) hne
  | executed hpc hstatus =>
      exact hs.of_parent rfl rfl (by simp [hpc]) (by simp [Family.returns])
  | failed hpc =>
      exact hs.of_parent rfl rfl (by simp [hpc]) (by simp [Family.returns])
  | refused hpc hrecord =>
      exact hs.of_parent rfl rfl (by simp [hpc]) (by simp [Family.returns])
  | wait hpc hrecord hwaited =>
      exact hs.of_parent rfl rfl (by simp [hpc]) (by simp)
  | exited hpc hrecord hexited =>
      exact hs.of_parent rfl rfl (by simp [hpc]) (by simp)
  | running hpc hrecord hexited =>
      exact hs.of_parent rfl rfl (by simp [hpc]) (by simp)
  | report hpc hrecord =>
      exact hs.of_parent rfl rfl (by simp [hpc]) (by simp [Family.returns])
  | mark hpc => exact hs.of_parent rfl rfl (by simp [hpc]) (by simp)
  | down hpc hrecord hsema =>
      exact hs.of_parent rfl rfl (by simp [hpc]) (by simp)
  | finish hpc hrecord =>
      exact hs.of_parent rfl rfl (by simp [hpc]) (by simp [Family.returns])
  | @load tid success hchild =>
      have hpc := hs.loading tid .start hchild trivial
      refine ⟨fun t pc ht hloading => ?_, hs.idle, hs.once, fun t ht hne => ?_⟩
      · simp only [Family.setChild, Function.update_apply] at ht
        split_ifs at ht with heq
        · exact heq ▸ hpc
        · exact hs.loading t pc ht hloading
      · obtain rfl : tid = t := by simpa [Family.setChild, hpc.1] using ht
        exact .inr (.inl ⟨success, by simp [Family.setChild]⟩)
  | @reports tid success hchild =>
      have hpc := hs.loading tid _ hchild trivial
      refine ⟨fun t pc ht hloading => ?_, hs.idle, hs.once, fun t ht hne => ?_⟩
      · simp only [Family.setChild, Function.update_apply] at ht
        split_ifs at ht with heq
        · exact heq ▸ hpc
        · exact hs.loading t pc ht hloading
      · obtain rfl : tid = t := by simpa [Family.setChild, hpc.1] using ht
        cases success with
        | true => exact .inr (.inr (.inl (by simp [Family.setChild])))
        | false => simp at hne
  | @ups tid success hchild =>
      obtain ⟨hpc, hzero⟩ := hs.loading tid _ hchild trivial
      refine ⟨fun t pc ht hloading => ?_, fun hidle => absurd hpc (hidle tid), ?_,
        fun t ht hne => ?_⟩
      · simp only [Family.setChild, Function.update_apply] at ht
        split_ifs at ht with heq hsuccess
        · obtain rfl := Option.some.inj ht
          exact absurd hloading (by simp [ChildPc.Loading])
        · obtain rfl := Option.some.inj ht
          exact absurd hloading (by simp [ChildPc.Loading])
        · have hother := (hs.loading t pc ht hloading).1
          rw [hpc] at hother
          exact absurd (ParentPc.execute.inj hother).symm heq
      · simp [hzero]
      · obtain rfl : tid = t := by simpa [Family.setChild, hpc] using ht
        rcases hs.success tid (.inl hpc) hne with h | ⟨b, h⟩ | h | h
        · simp [hchild] at h
        · simp [hchild] at h
        · obtain rfl : success = true := by simpa [hchild] using h
          exact .inr (.inr (.inr (by simp [Family.setChild])))
        · simp [hchild] at h
  | @exit tid status hchild =>
      refine hs.of_child rfl rfl rfl rfl ?_ fun _ => hok.exit tid status rfl
      split_ifs <;> simp [ChildPc.Loading]
  | kill hchild => exact absurd rfl (hok.kill _)
  | @exits tid status hchild =>
      refine hs.of_child rfl rfl rfl rfl (by simp [ChildPc.Loading])
        fun hne => ?_
      have hsuccess := hs.success tid
      simp [hchild] at hsuccess
      tauto
  | @marked tid status hchild =>
      refine hs.of_child rfl rfl rfl rfl (by simp [ChildPc.Loading])
        fun hne => ?_
      have hsuccess := hs.success tid
      simp [hchild] at hsuccess
      tauto
  | @leaves tid hchild =>
      refine hs.of_child rfl rfl rfl rfl (by simp [ChildPc.Loading])
        fun hne => ?_
      have hsuccess := hs.success tid
      simp [hchild] at hsuccess
      tauto

end Handshake

/-- What the record of a child says when the child is there. -/
def Recorded (log : List Event) (c : ChildProcess) : ChildPc → Prop
  | .user => c.exited = false
  | .exits status => c.exited = false ∧ exitCall c.tid log = some status
  | .marked status => c.exited = true ∧ exitCall c.tid log = some status
  | .leaves | .dead =>
      c.exited = true ∧ exitCall c.tid log = some c.exitStatus
  | _ => False

/-- Who is where, and what the records say about it. -/
structure Family.Orderly (s : Family) : Prop where
  recorded : ∀ t c, s.record t = some c →
    ∃ pc, s.child t = some pc ∧ Recorded s.log c pc
  waited : ∀ t c, s.record t = some c →
    (c.waited = true ↔ s.pc = .down t ∨ s.pc = .finish t)
  raised : ∀ t c, s.record t = some c → c.sema ≠ 0 → s.child t = some .dead
  woken : ∀ t c, s.pc = .down t → s.record t = some c →
    s.child t = some .dead → c.sema ≠ 0
  marks : ∀ t, s.pc = .mark t → s.child t ≠ some .dead
  finished : ∀ t, s.pc = .finish t → s.child t = some .dead
  reported : ∀ t c, s.pc = .report t → s.record t = some c → c.exited = true

theorem boot_orderly : boot.Orderly where
  recorded := by simp [boot, Family.record]
  waited := by simp [boot, Family.record]
  raised := by simp [boot, Family.record]
  woken := by simp [boot]
  marks := by simp [boot]
  finished := by simp [boot]
  reported := by simp [boot]

section Orderly

variable {s s' : Family} {tid : Int} {a : Action} {c : ChildProcess}

/-- Between two calls, and at the places of a call before the parent waits. -/
structure Family.Steps (s s' : Family) : Prop where
  record : ∀ t, s'.record t = s.record t
  child : ∀ t, (∃ c, s.record t = some c) → s'.child t = s.child t
  log : ∀ t, exitCall t s'.log = exitCall t s.log
  before : ∀ t, s.pc ≠ .down t ∧ s.pc ≠ .finish t
  behind : ∀ t, s'.pc ≠ .down t ∧ s'.pc ≠ .finish t

theorem Recorded.congr {log log' : List Event} {pc : ChildPc}
    (hlog : exitCall c.tid log' = exitCall c.tid log)
    (h : Recorded log c pc) : Recorded log' c pc := by
  cases pc <;> simp only [Recorded, hlog] at h ⊢ <;> exact h

/-- Steps of the parent that only change its place. -/
theorem Family.Orderly.of_parent (hs : s.Orderly) (hsteps : s.Steps s')
    (hmarks : ∀ t, s'.pc = .mark t → s'.child t ≠ some .dead)
    (hreported : ∀ t c, s'.pc = .report t → s.record t = some c →
      c.exited = true) : s'.Orderly where
  recorded t c hc := by
    rw [hsteps.record] at hc
    obtain ⟨pc, hpc, hrecorded⟩ := hs.recorded t c hc
    exact ⟨pc, (hsteps.child t ⟨c, hc⟩).trans hpc,
      hrecorded.congr (hsteps.log c.tid)⟩
  waited t c hc := by
    rw [hsteps.record] at hc
    simp [hs.waited t c hc, hsteps.before t, hsteps.behind t]
  raised t c hc hsema := by
    rw [hsteps.record] at hc
    rw [hsteps.child t ⟨c, hc⟩]
    exact hs.raised t c hc hsema
  woken t c ht := absurd ht (hsteps.behind t).1
  marks := hmarks
  finished t ht := absurd ht (hsteps.behind t).2
  reported t c ht hc := hreported t c ht (hsteps.record t ▸ hc)

/-- Steps of the child `tid`.  Its record stays or is written to, and the
records of the others stay. -/
theorem Family.Orderly.of_child (hs : s.Orderly) {before after : ChildPc}
    (hchild : s.child tid = some before) (hbefore : before ≠ .dead)
    (hpc : s'.pc = s.pc)
    (hchild' : s'.child = Function.update s.child tid (some after))
    (hlog : ∀ t, t ≠ tid → exitCall t s'.log = exitCall t s.log)
    (hrecord : ∀ t, t ≠ tid → s'.record t = s.record t)
    (hself : ∀ c, s'.record tid = some c → ∃ c', s.record tid = some c' ∧
      c.waited = c'.waited ∧ (c'.exited = true → c.exited = true) ∧
      Recorded s'.log c after ∧
      (c.sema ≠ 0 ↔ after = .dead ∧ c'.waited = true))
    (hdead : after = .dead → s.pc ≠ .mark tid) : s'.Orderly := by
  have hsame : ∀ t, t ≠ tid → s'.child t = s.child t := fun t ht => by
    rw [hchild', Function.update_of_ne ht]
  have hafter : s'.child tid = some after := by
    rw [hchild', Function.update_self]
  refine ⟨fun t c hc => ?_, fun t c hc => ?_, fun t c hc hsema => ?_,
    fun t c ht hc hd => ?_, fun t ht => ?_, fun t ht => ?_, fun t c ht hc => ?_⟩
  · by_cases h : t = tid
    · subst h
      obtain ⟨c', -, -, -, hrecorded, -⟩ := hself c hc
      exact ⟨after, hafter, hrecorded⟩
    · rw [hrecord t h] at hc
      obtain ⟨pc, ht, hrecorded⟩ := hs.recorded t c hc
      refine ⟨pc, (hsame t h).trans ht, hrecorded.congr ?_⟩
      rw [record_tid hc]
      exact hlog t h
  · rw [hpc]
    by_cases h : t = tid
    · subst h
      obtain ⟨c', hc', hwaited, -⟩ := hself c hc
      rw [hwaited]
      exact hs.waited t c' hc'
    · exact hs.waited t c (hrecord t h ▸ hc)
  · by_cases h : t = tid
    · subst h
      obtain ⟨c', -, -, -, -, hiff⟩ := hself c hc
      rw [hafter, (hiff.mp hsema).1]
    · rw [hsame t h]
      exact hs.raised t c (hrecord t h ▸ hc) hsema
  · rw [hpc] at ht
    by_cases h : t = tid
    · subst h
      obtain ⟨c', hc', -, -, -, hiff⟩ := hself c hc
      refine hiff.mpr ⟨?_, (hs.waited t c' hc').mpr (.inl ht)⟩
      exact Option.some.inj (hafter.symm.trans hd)
    · exact hs.woken t c ht (hrecord t h ▸ hc) (hsame t h ▸ hd)
  · rw [hpc] at ht
    by_cases h : t = tid
    · subst h
      rw [hafter]
      exact fun heq => hdead (Option.some.inj heq) ht
    · rw [hsame t h]
      exact hs.marks t ht
  · rw [hpc] at ht
    have h : t ≠ tid := by
      rintro rfl
      have hd := hs.finished t ht
      rw [hchild] at hd
      exact hbefore (Option.some.inj hd)
    rw [hsame t h]
    exact hs.finished t ht
  · rw [hpc] at ht
    by_cases h : t = tid
    · subst h
      obtain ⟨c', hc', -, hexited, -⟩ := hself c hc
      exact hexited (hs.reported t c' ht hc')
    · exact hs.reported t c ht (hrecord t h ▸ hc)

/-- A child that is not dead has not raised the semaphore. -/
theorem Family.Orderly.sema_eq_zero (hs : s.Orderly) {pc : ChildPc}
    (hchild : s.child tid = some pc) (hpc : pc ≠ .dead)
    (hrecord : s.record tid = some c) : c.sema = 0 := by
  by_contra hne
  have hdead := hs.raised tid c hrecord hne
  rw [hchild] at hdead
  exact hpc (Option.some.inj hdead)

/-- A child on its way into user code has no record yet. -/
theorem Family.Orderly.record_none (hs : s.Orderly) {pc : ChildPc}
    (hchild : s.child tid = some pc) (hloading : pc.Loading) :
    s.record tid = none := by
  cases hrecord : s.record tid with
  | none => rfl
  | some c =>
      obtain ⟨pc', hpc', hrecorded⟩ := hs.recorded tid c hrecord
      obtain rfl := Option.some.inj (hchild.symm.trans hpc')
      cases pc <;> simp [ChildPc.Loading, Recorded] at hloading hrecorded

/-- What a step of a child writes to its record. -/
theorem record_modify_self {f : ChildProcess → ChildProcess} {pc : ChildPc}
    (hc : ((s.modify tid f).setChild tid pc).record tid = some c)
    (htid : ∀ c, (f c).tid = c.tid) :
    ∃ c', s.record tid = some c' ∧ c = f c' := by
  rw [record_setChild, record_modify htid, if_pos rfl] at hc
  obtain ⟨c', hc', rfl⟩ := Option.map_eq_some_iff.mp hc
  exact ⟨c', hc', rfl⟩

theorem record_modify_other {f : ChildProcess → ChildProcess} {pc : ChildPc}
    (htid : ∀ c, (f c).tid = c.tid) (t : Int) (ht : t ≠ tid) :
    ((s.modify tid f).setChild tid pc).record t = s.record t := by
  rw [record_setChild, record_modify htid, if_neg ht]

/-- The parent writes to the record that it waits for. -/
theorem Family.Orderly.of_modify (hs : s.Orderly) {pc : ParentPc}
    {f : ChildProcess → ChildProcess} (htid : ∀ c, (f c).tid = c.tid)
    (hf : ∀ c, (f c).exited = c.exited ∧ (f c).exitStatus = c.exitStatus)
    (hwaited : ∀ t c, s.record t = some c →
      ((if t = tid then f c else c).waited = true ↔ pc = .down t ∨ pc = .finish t))
    (hraised : ∀ c, s.record tid = some c → (f c).sema ≠ 0 →
      s.child tid = some .dead)
    (hwoken : ∀ t, pc = .down t → s.child t ≠ some .dead)
    (hmarks : ∀ t, pc ≠ .mark t) (hreported : ∀ t, pc ≠ .report t)
    (hfinished : ∀ t, pc = .finish t → s.child t = some .dead) :
    Family.Orderly { s.modify tid f with pc := pc } := by
  have hrecord : ∀ t c, (s.modify tid f).record t = some c →
      ∃ c', s.record t = some c' ∧ c = if t = tid then f c' else c' := by
    intro t c hc
    rw [record_modify htid] at hc
    split_ifs at hc with ht
    · obtain ⟨c', hc', rfl⟩ := Option.map_eq_some_iff.mp hc
      exact ⟨c', hc', by rw [if_pos ht]⟩
    · exact ⟨c, hc, by rw [if_neg ht]⟩
  refine ⟨fun t c hc => ?_, fun t c hc => ?_, fun t c hc hsema => ?_,
    fun t c ht hc hdead => absurd hdead (hwoken t ht),
    fun t ht => absurd ht (hmarks t), hfinished,
    fun t c ht hc => absurd ht (hreported t)⟩
  · obtain ⟨c', hc', rfl⟩ := hrecord t c hc
    obtain ⟨pc', hpc', hrecorded⟩ := hs.recorded t c' hc'
    refine ⟨pc', hpc', ?_⟩
    split_ifs
    · cases pc' <;>
        simp only [Recorded, hf c', htid c'] at hrecorded ⊢ <;>
        exact hrecorded
    · exact hrecorded
  · obtain ⟨c', hc', rfl⟩ := hrecord t c hc
    exact hwaited t c' hc'
  · obtain ⟨c', hc', rfl⟩ := hrecord t c hc
    split_ifs at hsema with ht
    · subst ht
      exact hraised c' hc' hsema
    · exact hs.raised t c' hc' hsema

/-- The steps of `start_process`. -/
theorem Family.Orderly.of_loading (hs : s.Orderly) {before after : ChildPc}
    (hchild : s.child tid = some before) (hloading : before.Loading)
    (hafter : after ≠ .dead) (hpc : s'.pc = s.pc)
    (hchild' : s'.child = Function.update s.child tid (some after))
    (hlog : s'.log = s.log) (hrecord : ∀ t, s'.record t = s.record t) :
    s'.Orderly := by
  refine hs.of_child hchild ?_ hpc hchild' (fun t _ => by rw [hlog])
    (fun t _ => hrecord t) (fun c hc => ?_) fun h => absurd h hafter
  · rintro rfl
    exact hloading
  · rw [hrecord, hs.record_none hchild hloading] at hc
    cases hc

theorem step_orderly (hd : s.Distinct) (hh : s.Handshake) (hs : s.Orderly)
    (hok : InOrder s a) (h : step s a = some s') : s'.Orderly := by
  have hexited : ∀ t c, s.record t = some c → s.child t = some .dead →
      c.exited = true := fun t c hc hdead => by
    obtain ⟨pc, hpc, hrecorded⟩ := hs.recorded t c hc
    obtain rfl := Option.some.inj (hdead.symm.trans hpc)
    exact hrecorded.1
  cases step_moves h with
  | @execute tid hpc htid =>
      refine hs.of_parent ⟨fun _ => rfl, fun t ⟨c, hc⟩ => ?_, fun _ => rfl,
        by simp [hpc], by simp⟩ (by simp) (by simp)
      have ht : t ≠ tid := by
        have := (hd.record_bounds hc).2
        omega
      simp [ht]
  | loaded hpc hsema =>
      exact hs.of_parent ⟨fun _ => rfl, fun _ _ => rfl, fun _ => rfl,
        by simp [hpc], by simp⟩ (by simp) (by simp)
  | @executed tid hpc hstatus =>
      have hnew := (hd.unrecorded tid (.inr hpc)).1
      -- the child is still in user code
      have huser : s.child tid = some .user := by
        have hloading : ∀ pc, s.child tid = some pc → ¬ pc.Loading :=
          fun pc ht hloading =>
            absurd (hh.loading tid pc ht hloading).1 (by simp [hpc])
        rcases hh.success tid (.inr hpc) hstatus with h | ⟨b, h⟩ | h | h
        · exact absurd trivial (hloading _ h)
        · exact absurd trivial (hloading _ h)
        · exact absurd trivial (hloading _ h)
        · exact h
      have hrecord : ∀ t c, Family.record { s.returns (.executed tid) with
          children := s.children ++ [⟨tid, false, false, 0, 0⟩] } t = some c →
          t = tid ∧ c = ⟨tid, false, false, 0, 0⟩ ∨ s.record t = some c := by
        intro t c hc
        rw [Family.returns, record_append hnew] at hc
        split_ifs at hc with ht
        · exact .inl ⟨ht, (Option.some.inj hc).symm⟩
        · exact .inr hc
      refine ⟨fun t c hc => ?_, fun t c hc => ?_, fun t c hc hsema => ?_,
        by simp [Family.returns], by simp [Family.returns],
        by simp [Family.returns], by simp [Family.returns]⟩
      · rcases hrecord t c hc with ⟨rfl, rfl⟩ | hc
        · exact ⟨.user, huser, rfl⟩
        · exact hs.recorded t c hc
      · rcases hrecord t c hc with ⟨rfl, rfl⟩ | hc
        · simp [Family.returns]
        · simp [hs.waited t c hc, hpc, Family.returns]
      · rcases hrecord t c hc with ⟨rfl, rfl⟩ | hc
        · simp at hsema
        · exact hs.raised t c hc hsema
  | failed hpc =>
      exact hs.of_parent ⟨fun _ => rfl, fun _ _ => rfl, fun _ => rfl,
        by simp [hpc], by simp [Family.returns]⟩ (by simp [Family.returns])
        (by simp [Family.returns])
  | refused hpc hrecord =>
      exact hs.of_parent ⟨fun _ => rfl, fun _ _ => rfl, fun _ => rfl,
        by simp [hpc], by simp [Family.returns]⟩ (by simp [Family.returns])
        (by simp [Family.returns])
  | wait hpc hrecord hwaited =>
      exact hs.of_parent ⟨fun _ => rfl, fun _ _ => rfl, fun _ => rfl,
        by simp [hpc], by simp⟩ (by simp) (by simp)
  | @exited tid c hpc hrecord hexited =>
      refine hs.of_parent ⟨fun _ => rfl, fun _ _ => rfl, fun _ => rfl,
        by simp [hpc], by simp⟩ (by simp) fun t c' ht hc => ?_
      obtain rfl : tid = t := by simpa using ht
      exact Option.some.inj (hrecord.symm.trans hc) ▸ hexited
  | @running tid c hpc hrecord hrunning =>
      refine hs.of_parent ⟨fun _ => rfl, fun _ _ => rfl, fun _ => rfl,
        by simp [hpc], by simp⟩ (fun t ht hdead => ?_) (by simp)
      obtain rfl : tid = t := by simpa using ht
      rw [hexited tid c hrecord hdead] at hrunning
      cases hrunning
  | report hpc hrecord =>
      exact hs.of_parent ⟨fun _ => rfl, fun _ _ => rfl, fun _ => rfl,
        by simp [hpc], by simp [Family.returns]⟩ (by simp [Family.returns])
        (by simp [Family.returns])
  | @mark tid hpc =>
      refine hs.of_modify (fun _ => rfl) (fun _ => ⟨rfl, rfl⟩) (fun t c hc => ?_)
        (fun c hc => hs.raised tid c hc) (fun t ht => ?_) (by simp) (by simp)
        (by simp)
      · by_cases ht : t = tid
        · simp [ht]
        · simp [ht, Ne.symm ht, hs.waited t c hc, hpc]
      · obtain rfl : tid = t := by simpa using ht
        exact hs.marks tid hpc
  | @down tid c hpc hrecord hsema =>
      have hdead := hs.raised tid c hrecord hsema
      refine hs.of_modify (fun _ => rfl) (fun _ => ⟨rfl, rfl⟩)
        (fun t c hc => ?_) (fun _ _ _ => hdead) (by simp) (by simp) (by simp)
        fun t ht => ?_
      · have hwaited := hs.waited t c hc
        by_cases ht : t = tid
        · subst ht
          simpa [hpc] using hwaited
        · simpa [ht, Ne.symm ht, hpc] using hwaited
      · obtain rfl : tid = t := by simpa using ht
        exact hdead
  | @finish tid c hpc hrecord =>
      have hold : ∀ t c, (s.remove tid).record t = some c →
          t ≠ tid ∧ s.record t = some c := by
        intro t c hc
        rw [record_remove hd.nodup] at hc
        split_ifs at hc with ht
        exact ⟨ht, hc⟩
      refine ⟨fun t c hc => hs.recorded t c (hold t c hc).2, fun t c hc => ?_,
        fun t c hc => hs.raised t c (hold t c hc).2, by simp [Family.returns],
        by simp [Family.returns], by simp [Family.returns],
        by simp [Family.returns]⟩
      obtain ⟨ht, hc⟩ := hold t c hc
      simp [hs.waited t c hc, hpc, Ne.symm ht, Family.returns]
  | load hchild =>
      exact hs.of_loading hchild trivial (by simp) rfl rfl rfl fun _ => rfl
  | reports hchild =>
      exact hs.of_loading hchild trivial (by simp) rfl rfl rfl fun _ => rfl
  | ups hchild =>
      exact hs.of_loading hchild trivial (by split_ifs <;> simp) rfl rfl rfl
        fun _ => rfl
  | @exit tid status hchild =>
      refine hs.of_child hchild (by simp) rfl rfl (fun t ht => ?_)
        (fun _ _ => rfl) (fun c hc => ?_) (by split_ifs <;> simp)
      · simp [exitCall, Ne.symm ht]
      · replace hc : s.record tid = some c := hc
        obtain ⟨pc, hpc, hrecorded⟩ := hs.recorded tid c hc
        obtain rfl := Option.some.inj (hchild.symm.trans hpc)
        refine ⟨c, hc, rfl, id, ?_, ?_⟩
        · rw [if_pos (by simp [hc])]
          exact ⟨hrecorded, by simp [exitCall, record_tid hc]⟩
        · simp [hc, hs.sema_eq_zero hchild (by simp) hc]
  | kill hchild => exact absurd rfl (hok.kill _)
  | @exits tid status hchild =>
      refine hs.of_child hchild (by simp) rfl rfl (fun _ _ => rfl)
        (record_modify_other fun _ => rfl) (fun c hc => ?_) (by simp)
      obtain ⟨c', hc', rfl⟩ := record_modify_self hc fun _ => rfl
      obtain ⟨pc, hpc, hrecorded⟩ := hs.recorded tid c' hc'
      obtain rfl := Option.some.inj (hchild.symm.trans hpc)
      exact ⟨c', hc', rfl, fun _ => rfl, ⟨rfl, hrecorded.2⟩,
        by simp [hs.sema_eq_zero hchild (by simp) hc']⟩
  | @marked tid status hchild =>
      refine hs.of_child hchild (by simp) rfl rfl (fun _ _ => rfl)
        (record_modify_other fun _ => rfl) (fun c hc => ?_) (by simp)
      obtain ⟨c', hc', rfl⟩ := record_modify_self hc fun _ => rfl
      obtain ⟨pc, hpc, hrecorded⟩ := hs.recorded tid c' hc'
      obtain rfl := Option.some.inj (hchild.symm.trans hpc)
      exact ⟨c', hc', rfl, id, hrecorded,
        by simp [hs.sema_eq_zero hchild (by simp) hc']⟩
  | @leaves tid hchild =>
      refine hs.of_child hchild (by simp) rfl rfl (fun _ _ => rfl)
        (record_modify_other fun c => by split_ifs <;> rfl) (fun c hc => ?_)
        fun _ => hok.leaves tid rfl hchild
      obtain ⟨c', hc', rfl⟩ := record_modify_self hc fun c => by
        split_ifs <;> rfl
      obtain ⟨pc, hpc, hrecorded⟩ := hs.recorded tid c' hc'
      obtain rfl := Option.some.inj (hchild.symm.trans hpc)
      have hzero := hs.sema_eq_zero hchild (by simp) hc'
      cases hw : c'.waited with
      | true => exact ⟨c', hc', by simp [hw], by simp, hrecorded, by simp [hw]⟩
      | false =>
          exact ⟨c', hc', by simp [hw], by simp, hrecorded,
            by simp [hw, hzero]⟩

end Orderly

/-- The answers of `process_wait`. -/
structure Family.Answered (s : Family) : Prop where
  waiting : ∀ t, .executed t ∈ s.log → waitResults t s.log = [] →
    ∃ c, s.record t = some c
  results : ∀ t r, .executed t ∈ s.log →
    (waitResults t s.log).getLast? = some r → exitCall t s.log = some r
  called : ∀ t status, exitCall t s.log = some status →
    ∃ pc, s.child t = some pc ∧ pc ≠ .user ∧ ¬ pc.Loading

theorem boot_answered : boot.Answered where
  waiting := by simp [boot]
  results := by simp [boot]
  called := by simp [boot, exitCall]

section Answered

variable {s s' : Family} {tid : Int} {a : Action} {c : ChildProcess}

/-- Steps that answer nothing. -/
theorem Family.Answered.of_log (hs : s.Answered) (hlog : s'.log = s.log)
    (hrecord : ∀ t c, s.record t = some c → ∃ c', s'.record t = some c')
    (hchild : ∀ t pc, s.child t = some pc → pc ≠ .user → ¬ pc.Loading →
      ∃ pc', s'.child t = some pc' ∧ pc' ≠ .user ∧ ¬ pc'.Loading) :
    s'.Answered where
  waiting t ht hnil := by
    rw [hlog] at ht hnil
    obtain ⟨c, hc⟩ := hs.waiting t ht hnil
    exact hrecord t c hc
  results t r ht hr := by
    rw [hlog] at ht hr ⊢
    exact hs.results t r ht hr
  called t status ht := by
    rw [hlog] at ht
    obtain ⟨pc, hpc, huser, hloading⟩ := hs.called t status ht
    exact hchild t pc hpc huser hloading

/-- Steps of a child that answer nothing. -/
theorem Family.Answered.of_child (hs : s.Answered) {before after : ChildPc}
    (hlog : s'.log = s.log) (hchild : s.child tid = some before)
    (hchild' : s'.child = Function.update s.child tid (some after))
    (hafter : before.Loading ∨ after ≠ .user ∧ ¬ after.Loading)
    (hrecord : ∀ t c, s.record t = some c → ∃ c', s'.record t = some c') :
    s'.Answered := by
  refine hs.of_log hlog hrecord fun t pc ht huser hloading => ?_
  by_cases h : t = tid
  · subst h
    obtain rfl := Option.some.inj (hchild.symm.trans ht)
    exact ⟨after, by rw [hchild', Function.update_self],
      hafter.resolve_left hloading⟩
  · exact ⟨pc, by rw [hchild', Function.update_of_ne h, ht], huser, hloading⟩

/-- A call returns: with the status if it is the first one for the child. -/
theorem Family.Answered.returns (hs : s.Answered) {result : Int}
    (hfirst : .executed tid ∈ s.log → waitResults tid s.log = [] →
      exitCall tid s.log = some result)
    (hlog : s'.log = .waited tid result :: s.log) (hchild : s'.child = s.child)
    (hrecord : ∀ t c, t ≠ tid → s.record t = some c →
      ∃ c', s'.record t = some c') : s'.Answered := by
  refine ⟨fun t ht hnil => ?_, fun t r ht hr => ?_, fun t status ht => ?_⟩
  · rw [hlog] at ht hnil
    rw [waitResults] at hnil
    split_ifs at hnil with h
    obtain ⟨c, hc⟩ := hs.waiting t (by simpa using ht) hnil
    exact hrecord t c (Ne.symm h) hc
  · rw [hlog] at ht hr ⊢
    replace ht : Event.executed t ∈ s.log := by simpa using ht
    rw [waitResults] at hr
    split_ifs at hr with h
    · subst h
      cases hold : waitResults tid s.log with
      | nil =>
          obtain rfl : result = r := by simpa [hold] using hr
          exact hfirst ht hold
      | cons x rest =>
          rw [hold, List.getLast?_cons_cons, ← hold] at hr
          exact hs.results tid r ht hr
    · exact hs.results t r ht hr
  · rw [hlog] at ht
    rw [hchild]
    exact hs.called t status ht

theorem record_modify_isSome {f : ChildProcess → ChildProcess}
    (htid : ∀ c, (f c).tid = c.tid) (t : Int) (c : ChildProcess)
    (hc : s.record t = some c) : ∃ c', (s.modify tid f).record t = some c' := by
  rw [record_modify htid, hc]
  split_ifs
  · exact ⟨f c, rfl⟩
  · exact ⟨c, rfl⟩

theorem step_answered (hd : s.Distinct) (ho : s.Orderly) (hs : s.Answered)
    (hok : InOrder s a) (h : step s a = some s') : s'.Answered := by
  have hstays : ∀ t c, s.record t = some c → ∃ c', s.record t = some c' :=
    fun t c hc => ⟨c, hc⟩
  have hsame : ∀ t pc, s.child t = some pc → pc ≠ .user → ¬ pc.Loading →
      ∃ pc', s.child t = some pc' ∧ pc' ≠ .user ∧ ¬ pc'.Loading :=
    fun t pc ht huser hloading => ⟨pc, ht, huser, hloading⟩
  cases step_moves h with
  | @execute tid hpc htid =>
      refine hs.of_log rfl hstays fun t pc ht huser hloading => ⟨pc, ?_, huser,
        hloading⟩
      have hlt := hd.started t (by simp [ht])
      simp [show t ≠ tid by omega, ht]
  | loaded hpc hsema => exact hs.of_log rfl hstays hsame
  | @executed tid hpc hstatus =>
      have hnew := (hd.unrecorded tid (.inr hpc)).1
      refine ⟨fun t ht hnil => ?_, fun t r ht hr => ?_, hs.called⟩
      · rw [Family.returns, record_append hnew]
        split_ifs with heq
        · exact ⟨_, rfl⟩
        · refine hs.waiting t ?_ ?_
          · simpa [Family.returns, heq] using ht
          · simpa [Family.returns, waitResults, Ne.symm heq] using hnil
      · by_cases heq : t = tid
        · simp [Family.returns, waitResults, heq] at hr
        · refine hs.results t r ?_ ?_
          · simpa [Family.returns, heq] using ht
          · simpa [Family.returns, waitResults, Ne.symm heq] using hr
  | failed hpc =>
      exact ⟨fun t ht => hs.waiting t (by simpa [Family.returns] using ht),
        fun t r ht => hs.results t r (by simpa [Family.returns] using ht),
        hs.called⟩
  | @refused tid hpc hrecord =>
      refine hs.returns (fun ht hnil => ?_) rfl rfl fun t c _ => hstays t c
      obtain ⟨c, hc⟩ := hs.waiting tid ht hnil
      have hbounds := hd.record_bounds hc
      have hwaited := ho.waited tid c hc
      rcases hrecord c hc with h | h
      · omega
      · simp [h, hpc] at hwaited
  | wait hpc hrecord hwaited => exact hs.of_log rfl hstays hsame
  | exited hpc hrecord hexited => exact hs.of_log rfl hstays hsame
  | running hpc hrecord hexited => exact hs.of_log rfl hstays hsame
  | @report tid c hpc hrecord =>
      refine hs.returns (fun _ _ => ?_) rfl rfl fun t c _ => hstays t c
      obtain ⟨pc, hchild, hrecorded⟩ := ho.recorded tid c hrecord
      have hexited := ho.reported tid c hpc hrecord
      rw [← record_tid hrecord]
      cases pc with
      | marked status =>
          rw [hok.report tid c status rfl hpc hrecord hchild]
          exact hrecorded.2
      | leaves => exact hrecorded.2
      | dead => exact hrecorded.2
      | _ => simp [Recorded, hexited] at hrecorded
  | mark hpc =>
      exact hs.of_log rfl (record_modify_isSome fun _ => rfl) hsame
  | down hpc hrecord hsema =>
      exact hs.of_log rfl (record_modify_isSome fun _ => rfl) hsame
  | @finish tid c hpc hrecord =>
      refine hs.returns (fun _ _ => ?_) rfl rfl fun t c ht hc => ⟨c, ?_⟩
      · obtain ⟨pc, hchild, hrecorded⟩ := ho.recorded tid c hrecord
        obtain rfl := Option.some.inj (hchild.symm.trans (ho.finished tid hpc))
        rw [← record_tid hrecord]
        exact hrecorded.2
      · rw [record_returns, record_remove hd.nodup, if_neg ht, hc]
  | load hchild =>
      exact hs.of_child rfl hchild rfl (.inl trivial) hstays
  | reports hchild =>
      exact hs.of_child rfl hchild rfl (.inl trivial) hstays
  | ups hchild => exact hs.of_child rfl hchild rfl (.inl trivial) hstays
  | @exit tid status hchild =>
      have hnone : exitCall tid s.log = none := by
        cases hcall : exitCall tid s.log with
        | none => rfl
        | some st =>
            obtain ⟨pc, hpc, huser, -⟩ := hs.called tid st hcall
            exact absurd (Option.some.inj (hpc.symm.trans hchild)) huser
      refine ⟨fun t ht hnil => ?_, fun t r ht hr => ?_, fun t st ht => ?_⟩
      · exact hs.waiting t (by simpa using ht) hnil
      · have hresult := hs.results t r (by simpa using ht) hr
        have hne : tid ≠ t := fun heq => by simp [← heq, hnone] at hresult
        simpa [exitCall, hne] using hresult
      · by_cases heq : t = tid
        · subst heq
          refine ⟨_, Function.update_self .., ?_⟩
          split_ifs <;> simp [ChildPc.Loading]
        · simp only [exitCall, if_neg (Ne.symm heq)] at ht
          obtain ⟨pc, hpc, huser, hloading⟩ := hs.called t st ht
          exact ⟨pc, by simp [Family.setChild, heq, hpc], huser, hloading⟩
  | kill hchild => exact absurd rfl (hok.kill _)
  | exits hchild =>
      exact hs.of_child rfl hchild rfl (.inr (by simp [ChildPc.Loading]))
        (record_modify_isSome fun _ => rfl)
  | marked hchild =>
      exact hs.of_child rfl hchild rfl (.inr (by simp [ChildPc.Loading]))
        (record_modify_isSome fun _ => rfl)
  | leaves hchild =>
      exact hs.of_child rfl hchild rfl (.inr (by simp [ChildPc.Loading]))
        (record_modify_isSome fun c => by split_ifs <;> rfl)

/-- In a run whose steps come in order, the first `process_wait` for a child
returns the status that the child passed to `exit`, and the parent is never
left waiting for a child that is dead. -/
theorem child_exit_not_lost {actions : List Action}
    (hrun : Run step InOrder boot actions s) (tid : Int) :
    (∀ r, .executed tid ∈ s.log → (waitResults tid s.log).getLast? = some r →
      exitCall tid s.log = some r) ∧
    ∀ c, s.pc = .down tid → s.record tid = some c →
      s.child tid = some .dead → c.sema ≠ 0 := by
  have hinv : (s.Distinct ∧ s.Handshake) ∧ s.Orderly ∧ s.Answered :=
    hrun.invariant (fun s => (s.Distinct ∧ s.Handshake) ∧ s.Orderly ∧ s.Answered)
      (fun ⟨⟨hd, hh⟩, ho, hs⟩ hok hstep =>
        ⟨⟨step_distinct hd hstep, step_handshake hh hok hstep⟩,
          step_orderly hd hh ho hok hstep, step_answered hd ho hs hok hstep⟩)
      ⟨⟨boot_distinct, boot_handshake⟩, boot_orderly, boot_answered⟩
  obtain ⟨-, ho, hs⟩ := hinv
  exact ⟨fun r => hs.results tid r, fun c => ho.woken tid c⟩

end Answered

namespace ChildExitsWitness

open ChildWaitsWitness (starts exits waits)

/-- A child exits before `process_execute` has made its record: the parent
waits for it for ever. -/
theorem exits_before_recorded : ∃ actions s c,
    Run step (fun _ _ => True) boot actions s ∧ s.pc = .down 1 ∧
      s.record 1 = some c ∧ s.child 1 = some .dead ∧ c.sema = 0 := by
  obtain ⟨s, hs, hpc, hrecord, hchild⟩ : ∃ s,
      ([Action.execute 1, .load 1 true, .runChild 1, .runChild 1, .exit 1 7,
        .runChild 1, .run, .run] ++ waits).foldlM step boot = some s ∧
      s.pc = .down 1 ∧ s.record 1 = some ⟨1, false, true, 0, 0⟩ ∧
      s.child 1 = some .dead :=
    ⟨_, rfl, rfl, rfl, rfl⟩
  exact ⟨_, s, _, Run.of_foldlM hs, hpc, hrecord, hchild, rfl⟩

/-- The order of the steps, checked on the way. -/
def inOrder (s : Family) : Action → Bool
  | .kill _ => false
  | .exit tid _ => s.pc ≠ .execute tid && s.pc ≠ .loaded tid
  | .runChild tid => s.child tid ≠ some .leaves || s.pc ≠ .mark tid
  | .run =>
      match s.pc with
      | .report tid =>
          match s.record tid, s.child tid with
          | some c, some (.marked status) => c.exitStatus = status
          | _, _ => true
      | _ => true
  | _ => true

theorem inOrder_spec {s : Family} {a : Action} (h : inOrder s a = true) :
    InOrder s a where
  kill tid ha := by simp [ha, inOrder] at h
  exit tid status ha := by simpa [ha, inOrder] using h
  leaves tid ha hchild := by simpa [ha, inOrder, hchild] using h
  report tid c status ha hpc hrecord hchild := by
    simpa [ha, inOrder, hpc, hrecord, hchild] using h

theorem child_exit_not_lost_seven : ∃ actions s,
    Run step InOrder boot actions s ∧ exitCall 1 s.log = some 7 := by
  obtain ⟨s, hs, hexecuted, hresults⟩ : ∃ s,
      (starts ++ waits ++ exits ++ [Action.run, .run]).foldlM
        (fun s a => if inOrder s a then step s a else none) boot = some s ∧
      .executed 1 ∈ s.log ∧ waitResults 1 s.log = [7] :=
    ⟨_, rfl, .tail _ (.tail _ (.head _)), rfl⟩
  have hrun : Run step InOrder boot _ s :=
    Run.of_check inOrder (fun _ => True) (fun _ _ => trivial)
      (fun _ hcheck => inOrder_spec hcheck) trivial hs
  exact ⟨_, s, hrun,
    (child_exit_not_lost hrun 1).1 7 hexecuted (by rw [hresults]; rfl)⟩

end ChildExitsWitness

end ChildProcesses

end PintosLabs
