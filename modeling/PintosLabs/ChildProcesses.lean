/-
A process and the children it starts: `process_execute`, `process_wait`, the
child's way through `start_process`, and its end in `exit` or in a kill.  All
of this runs with interrupts on, apart from the creation of the child and the
last part of `thread_exit`, so that between two of the steps below any other
step can come.
-/
import PintosLabs.Machine
import Mathlib.Data.List.Nodup
import Mathlib.Tactic.Common

namespace PintosLabs

namespace ChildProcesses

/-- What a process knows of one of its children.  `sema` is the value of the
semaphore, on which nobody but the parent waits. -/
structure ChildProcess where
  tid : Int
  exited : Bool
  waited : Bool
  sema : Nat
  exitStatus : Int
deriving Repr, DecidableEq

/-- Where the parent is. -/
inductive ParentPc
  /-- In user code, between two calls. -/
  | user
  /-- In `process_execute`, before or in `sema_down (&cur->exec_sema)`. -/
  | execute (tid : Int)
  /-- In `process_execute`, behind the semaphore. -/
  | loaded (tid : Int)
  /-- In `process_wait`, before the test of `child->exited`. -/
  | test (tid : Int)
  /-- Before `return child->exit_status`. -/
  | report (tid : Int)
  /-- Before `child->waited = true`. -/
  | mark (tid : Int)
  /-- Before or in `sema_down (&child->sema)`. -/
  | down (tid : Int)
  /-- Behind the semaphore. -/
  | finish (tid : Int)
deriving Repr, DecidableEq

/-- Where a child is. -/
inductive ChildPc
  /-- In `load`. -/
  | start
  /-- In `start_process`, before the assignment of `p->child_status`. -/
  | reports (success : Bool)
  /-- Before `sema_up (&p->exec_sema)`. -/
  | ups (success : Bool)
  /-- In user code. -/
  | user
  /-- In `exit`, before `child->exited = true`. -/
  | exits (status : Int)
  /-- Before `child->exit_status = status`. -/
  | marked (status : Int)
  /-- In `thread_exit`, before the last part. -/
  | leaves
  | dead
deriving Repr, DecidableEq

/-- The calls that have happened; they are recorded for the statements only. -/
inductive Event
  /-- `process_execute` has returned this child. -/
  | executed (tid : Int)
  /-- `process_execute` has returned `TID_ERROR`. -/
  | failed
  | waited (tid result : Int)
  /-- A child has called `exit`. -/
  | exited (tid status : Int)
  /-- The kernel has killed a child. -/
  | killed (tid : Int)
deriving Repr, DecidableEq

structure Family where
  pc : ParentPc
  children : List ChildProcess
  execSema : Nat
  childStatus : Int
  child : Int → Option ChildPc
  nextTid : Int
  log : List Event

/-- A process that has not started any child. -/
def boot : Family where
  pc := .user
  children := []
  execSema := 0
  childStatus := 0
  child := fun _ => none
  nextTid := 1
  log := []

inductive Action
  /-- The parent calls `process_execute`, and the child gets this identifier. -/
  | execute (tid : Int)
  /-- The parent calls `process_wait`. -/
  | wait (tid : Int)
  /-- The parent goes on with its call. -/
  | run
  /-- The same, but `malloc` has no memory for the child's record. -/
  | noMemory
  /-- The child's `load` ends. -/
  | load (tid : Int) (success : Bool)
  /-- The child calls `exit`. -/
  | exit (tid status : Int)
  /-- An exception of the child is answered by `kill`. -/
  | kill (tid : Int)
  /-- The child goes on with what it is doing. -/
  | runChild (tid : Int)
deriving Repr, DecidableEq

/-- The record that a walk through the list finds. -/
def Family.record (s : Family) (tid : Int) : Option ChildProcess :=
  s.children.find? (·.tid = tid)

/-- Write to the record of a child. -/
def Family.modify (s : Family) (tid : Int) (f : ChildProcess → ChildProcess) :
    Family :=
  { s with children := s.children.map fun c => if c.tid = tid then f c else c }

/-- Take the record of a child out of the list. -/
def Family.remove (s : Family) (tid : Int) : Family :=
  { s with children := s.children.eraseP (·.tid = tid) }

def Family.setChild (s : Family) (tid : Int) (pc : ChildPc) : Family :=
  { s with child := Function.update s.child tid (some pc) }

/-- The parent's call returns. -/
def Family.returns (s : Family) (event : Event) : Family :=
  { s with pc := .user, log := event :: s.log }

/-- `process_execute`, up to the semaphore.  Thread identifiers are never used
again. -/
def Family.execute (s : Family) (tid : Int) : Option Family :=
  match s.pc with
  | .user =>
      if s.nextTid ≤ tid then
        some { s with
          pc := .execute tid
          childStatus := 0
          child := Function.update s.child tid (some .start)
          nextTid := tid + 1 }
      else none
  | _ => none

/-- `process_wait`, up to the test of `child->exited`.  No child has the
identifier 0, for which the walk would take the list header for a record. -/
def Family.wait (s : Family) (tid : Int) : Option Family :=
  match s.pc with
  | .user =>
      if tid = 0 then none
      else
        match s.record tid with
        | none => some (s.returns (.waited tid (-1)))
        | some child =>
            if tid = -1 ∨ child.waited then
              some (s.returns (.waited tid (-1)))
            else some { s with pc := .test tid }
  | _ => none

/-- The last part of `process_execute`; `memory` says whether `malloc` has a
record for the child. -/
def Family.executed (s : Family) (tid : Int) (memory : Bool) : Family :=
  if s.childStatus = -1 then s.returns .failed
  else if memory then
    { s.returns (.executed tid) with
      children := s.children ++ [⟨tid, false, false, 0, 0⟩] }
  else s.returns .failed

/-- The parent's next step inside of a call. -/
def Family.run (s : Family) : Option Family :=
  match s.pc with
  | .user => none
  | .execute tid =>
      if s.execSema = 0 then none
      else some { s with pc := .loaded tid, execSema := s.execSema - 1 }
  | .loaded tid => some (s.executed tid true)
  | .test tid =>
      (s.record tid).map fun child =>
        { s with pc := if child.exited then .report tid else .mark tid }
  | .report tid =>
      (s.record tid).map fun child => s.returns (.waited tid child.exitStatus)
  | .mark tid =>
      some { s.modify tid (fun c => { c with waited := true }) with
        pc := .down tid }
  | .down tid =>
      (s.record tid).bind fun child =>
        if child.sema = 0 then none
        else some { s.modify tid (fun c => { c with sema := c.sema - 1 }) with
          pc := .finish tid }
  | .finish tid =>
      (s.record tid).map fun child =>
        (s.remove tid).returns (.waited tid child.exitStatus)

/-- The child's next step.  Its last one runs with interrupts off; a child that
finds no record wakes nobody. -/
def Family.runChild (s : Family) (tid : Int) : Option Family :=
  match s.child tid with
  | some (.reports success) =>
      some { s.setChild tid (.ups success) with
        childStatus := if success then 1 else -1 }
  | some (.ups success) =>
      some { s.setChild tid (if success then .user else .leaves) with
        execSema := s.execSema + 1 }
  | some (.exits status) =>
      some ((s.modify tid fun c => { c with exited := true }).setChild tid
        (.marked status))
  | some (.marked status) =>
      some ((s.modify tid fun c => { c with exitStatus := status }).setChild tid
        .leaves)
  | some .leaves =>
      some ((s.modify tid fun c =>
        if c.waited then { c with sema := c.sema + 1 } else c).setChild tid
          .dead)
  | _ => none

def step (s : Family) : Action → Option Family
  | .execute tid => s.execute tid
  | .wait tid => s.wait tid
  | .run => s.run
  | .noMemory =>
      match s.pc with
      | .loaded tid => some (s.executed tid false)
      | _ => none
  | .load tid success =>
      if s.child tid = some .start then some (s.setChild tid (.reports success))
      else none
  | .exit tid status =>
      if s.child tid = some .user then
        some { s.setChild tid
            (if (s.record tid).isSome then .exits status else .leaves) with
          log := .exited tid status :: s.log }
      else none
  | .kill tid =>
      if s.child tid = some .user then
        some { s.setChild tid .leaves with log := .killed tid :: s.log }
      else none
  | .runChild tid => s.runChild tid

/-! The records of the children. -/

section Records

variable {s : Family} {tid t : Int} {f : ChildProcess → ChildProcess}
  {c : ChildProcess}

theorem record_tid (h : s.record tid = some c) : c.tid = tid := by
  simpa using List.find?_some h

theorem record_eq_none_iff :
    s.record tid = none ↔ tid ∉ s.children.map ChildProcess.tid := by
  rw [Family.record, List.find?_eq_none]
  simp

@[simp] theorem record_setChild {pc : ChildPc} :
    (s.setChild t pc).record tid = s.record tid := rfl

@[simp] theorem record_returns {event : Event} :
    (s.returns event).record tid = s.record tid := rfl

theorem record_modify (hf : ∀ c, (f c).tid = c.tid) :
    (s.modify t f).record tid =
      if tid = t then (s.record tid).map f else s.record tid := by
  unfold Family.record Family.modify
  induction s.children with
  | nil => simp
  | cons c rest ih =>
      simp only [List.map_cons, List.find?_cons]
      by_cases hc : c.tid = tid
      · by_cases ht : tid = t
        · simp [hc, ht, hf]
        · simp [hc, ht]
      · have hne : ¬ (if c.tid = t then f c else c).tid = tid := by
          split_ifs
          · rwa [hf c]
          · exact hc
        simpa [hc, hne] using ih

theorem tids_modify (hf : ∀ c, (f c).tid = c.tid) :
    (s.modify t f).children.map ChildProcess.tid =
      s.children.map ChildProcess.tid := by
  simp only [Family.modify, List.map_map]
  refine List.map_congr_left fun c _ => ?_
  by_cases h : c.tid = t <;> simp [h, hf]

theorem record_remove (hnodup : (s.children.map ChildProcess.tid).Nodup) :
    (s.remove t).record tid = if tid = t then none else s.record tid := by
  unfold Family.record Family.remove
  generalize s.children = records at hnodup
  simp only
  induction records with
  | nil => simp
  | cons c rest ih =>
      rw [List.map_cons, List.nodup_cons] at hnodup
      by_cases hc : c.tid = t
      · rw [List.eraseP_cons_of_pos (by simp [hc])]
        by_cases ht : tid = t
        · subst ht hc
          rw [if_pos rfl, List.find?_eq_none]
          intro d hd heq
          exact hnodup.1 (List.mem_map.mpr ⟨d, hd, of_decide_eq_true heq⟩)
        · rw [if_neg ht, List.find?_cons_of_neg]
          simp [hc, Ne.symm ht]
      · rw [List.eraseP_cons_of_neg (by simp [hc]), List.find?_cons,
          List.find?_cons]
        by_cases hd : c.tid = tid
        · have ht : tid ≠ t := fun heq => hc (hd.trans heq)
          simp [hd, ht]
        · simpa [hd] using ih hnodup.2

theorem tids_remove :
    ((s.remove t).children.map ChildProcess.tid).Sublist
      (s.children.map ChildProcess.tid) :=
  (List.eraseP_sublist).map _

theorem record_append (hnew : s.record c.tid = none) {pc log} :
    Family.record { s with pc := pc, children := s.children ++ [c], log := log }
      tid = if tid = c.tid then some c else s.record tid := by
  unfold Family.record at hnew ⊢
  rw [List.find?_append]
  by_cases h : tid = c.tid
  · subst h
    simp [hnew]
  · simp [h, Ne.symm h]

end Records

/-! What the steps do, one case for each. -/

/-- The steps of the parent and of its children. -/
inductive Moves (s : Family) : Action → Family → Prop
  | execute {tid} (hpc : s.pc = .user) (htid : s.nextTid ≤ tid) :
      Moves s (.execute tid) { s with
        pc := .execute tid
        childStatus := 0
        child := Function.update s.child tid (some .start)
        nextTid := tid + 1 }
  | loaded {tid} (hpc : s.pc = .execute tid) (hsema : s.execSema ≠ 0) :
      Moves s .run { s with pc := .loaded tid, execSema := s.execSema - 1 }
  | executed {tid} (hpc : s.pc = .loaded tid) (hstatus : s.childStatus ≠ -1) :
      Moves s .run { s.returns (.executed tid) with
        children := s.children ++ [⟨tid, false, false, 0, 0⟩] }
  | failed {tid a} (hpc : s.pc = .loaded tid) : Moves s a (s.returns .failed)
  | refused {tid} (hpc : s.pc = .user)
      (hrecord : ∀ c, s.record tid = some c → tid = -1 ∨ c.waited = true) :
      Moves s (.wait tid) (s.returns (.waited tid (-1)))
  | wait {tid c} (hpc : s.pc = .user) (hrecord : s.record tid = some c)
      (hwaited : c.waited = false) :
      Moves s (.wait tid) { s with pc := .test tid }
  | exited {tid c} (hpc : s.pc = .test tid) (hrecord : s.record tid = some c)
      (hexited : c.exited = true) : Moves s .run { s with pc := .report tid }
  | running {tid c} (hpc : s.pc = .test tid) (hrecord : s.record tid = some c)
      (hexited : c.exited = false) : Moves s .run { s with pc := .mark tid }
  | report {tid c} (hpc : s.pc = .report tid)
      (hrecord : s.record tid = some c) :
      Moves s .run (s.returns (.waited tid c.exitStatus))
  | mark {tid} (hpc : s.pc = .mark tid) :
      Moves s .run { s.modify tid (fun c => { c with waited := true }) with
        pc := .down tid }
  | down {tid c} (hpc : s.pc = .down tid) (hrecord : s.record tid = some c)
      (hsema : c.sema ≠ 0) :
      Moves s .run { s.modify tid (fun c => { c with sema := c.sema - 1 }) with
        pc := .finish tid }
  | finish {tid c} (hpc : s.pc = .finish tid)
      (hrecord : s.record tid = some c) :
      Moves s .run ((s.remove tid).returns (.waited tid c.exitStatus))
  | load {tid success} (hchild : s.child tid = some .start) :
      Moves s (.load tid success) (s.setChild tid (.reports success))
  | reports {tid success} (hchild : s.child tid = some (.reports success)) :
      Moves s (.runChild tid) { s.setChild tid (.ups success) with
        childStatus := if success then 1 else -1 }
  | ups {tid success} (hchild : s.child tid = some (.ups success)) :
      Moves s (.runChild tid)
        { s.setChild tid (if success then .user else .leaves) with
          execSema := s.execSema + 1 }
  | exit {tid status} (hchild : s.child tid = some .user) :
      Moves s (.exit tid status) { s.setChild tid
          (if (s.record tid).isSome then .exits status else .leaves) with
        log := .exited tid status :: s.log }
  | kill {tid} (hchild : s.child tid = some .user) :
      Moves s (.kill tid)
        { s.setChild tid .leaves with log := .killed tid :: s.log }
  | exits {tid status} (hchild : s.child tid = some (.exits status)) :
      Moves s (.runChild tid)
        ((s.modify tid fun c => { c with exited := true }).setChild tid
          (.marked status))
  | marked {tid status} (hchild : s.child tid = some (.marked status)) :
      Moves s (.runChild tid)
        ((s.modify tid fun c => { c with exitStatus := status }).setChild tid
          .leaves)
  | leaves {tid} (hchild : s.child tid = some .leaves) :
      Moves s (.runChild tid) ((s.modify tid fun c =>
        if c.waited then { c with sema := c.sema + 1 } else c).setChild tid
          .dead)

section Steps

variable {s s' : Family} {tid : Int} {a : Action}

theorem ite_some_iff {α : Type} {p : Prop} [Decidable p] {x y : α} :
    (if p then some x else none) = some y ↔ p ∧ x = y := by
  by_cases h : p <;> simp [h]

theorem executed_moves (memory : Bool) (hpc : s.pc = .loaded tid) :
    Moves s (if memory then .run else .noMemory) (s.executed tid memory) := by
  unfold Family.executed
  by_cases hstatus : s.childStatus = -1
  · rw [if_pos hstatus]
    exact .failed hpc
  · rw [if_neg hstatus]
    cases memory with
    | true => exact .executed hpc hstatus
    | false => exact .failed hpc

theorem wait_moves (h : s.wait tid = some s') : Moves s (.wait tid) s' := by
  unfold Family.wait at h
  cases hpc : s.pc with
  | user =>
      rw [hpc] at h
      simp only at h
      split_ifs at h
      cases hrecord : s.record tid with
      | none =>
          rw [hrecord] at h
          obtain rfl := Option.some.inj h
          exact .refused hpc (by simp [hrecord])
      | some c =>
          rw [hrecord] at h
          simp only at h
          split_ifs at h with hwaited
          · obtain rfl := Option.some.inj h
            exact .refused hpc (by simpa [hrecord] using hwaited)
          · obtain rfl := Option.some.inj h
            exact .wait hpc hrecord (by simpa using (not_or.mp hwaited).2)
  | _ => simp [hpc] at h

theorem run_moves (h : s.run = some s') : Moves s .run s' := by
  unfold Family.run at h
  cases hpc : s.pc with
  | user => simp [hpc] at h
  | execute tid =>
      rw [hpc] at h
      simp only at h
      split_ifs at h with hsema
      obtain rfl := Option.some.inj h
      exact .loaded hpc hsema
  | loaded tid =>
      rw [hpc] at h
      obtain rfl := Option.some.inj h
      exact executed_moves true hpc
  | test tid =>
      rw [hpc] at h
      obtain ⟨c, hrecord, rfl⟩ := Option.map_eq_some_iff.mp h
      cases hexited : c.exited with
      | true => exact .exited hpc hrecord hexited
      | false => exact .running hpc hrecord hexited
  | report tid =>
      rw [hpc] at h
      obtain ⟨c, hrecord, rfl⟩ := Option.map_eq_some_iff.mp h
      exact .report hpc hrecord
  | mark tid =>
      rw [hpc] at h
      obtain rfl := Option.some.inj h
      exact .mark hpc
  | down tid =>
      rw [hpc] at h
      obtain ⟨c, hrecord, h⟩ := Option.bind_eq_some_iff.mp h
      split_ifs at h with hsema
      obtain rfl := Option.some.inj h
      exact .down hpc hrecord hsema
  | finish tid =>
      rw [hpc] at h
      obtain ⟨c, hrecord, rfl⟩ := Option.map_eq_some_iff.mp h
      exact .finish hpc hrecord

theorem runChild_moves (h : s.runChild tid = some s') :
    Moves s (.runChild tid) s' := by
  unfold Family.runChild at h
  split at h
  case h_1 success hchild => exact Option.some.inj h ▸ .reports hchild
  case h_2 success hchild => exact Option.some.inj h ▸ .ups hchild
  case h_3 status hchild => exact Option.some.inj h ▸ .exits hchild
  case h_4 status hchild => exact Option.some.inj h ▸ .marked hchild
  case h_5 hchild => exact Option.some.inj h ▸ .leaves hchild
  case h_6 => cases h

theorem execute_moves (h : s.execute tid = some s') :
    Moves s (.execute tid) s' := by
  unfold Family.execute at h
  cases hpc : s.pc with
  | user =>
      rw [hpc] at h
      simp only at h
      split_ifs at h with htid
      exact Option.some.inj h ▸ .execute hpc htid
  | _ => simp [hpc] at h

/-- Every step is one of these. -/
theorem step_moves (h : step s a = some s') : Moves s a s' := by
  cases a with
  | execute tid => exact execute_moves h
  | wait tid => exact wait_moves h
  | run => exact run_moves h
  | noMemory =>
      rw [step] at h
      split at h
      case h_1 tid hpc =>
        exact Option.some.inj h ▸ executed_moves false hpc
      case h_2 => cases h
  | load tid success =>
      obtain ⟨hchild, h⟩ := ite_some_iff.mp h
      exact h ▸ .load hchild
  | exit tid status =>
      obtain ⟨hchild, h⟩ := ite_some_iff.mp h
      exact h ▸ .exit hchild
  | kill tid =>
      obtain ⟨hchild, h⟩ := ite_some_iff.mp h
      exact h ▸ .kill hchild
  | runChild tid => exact runChild_moves h

/-- The identifiers of the children are all different, and none of them is
given out again. -/
structure Family.Distinct (s : Family) : Prop where
  nodup : (s.children.map ChildProcess.tid).Nodup
  next : 1 ≤ s.nextTid
  bounds : ∀ t ∈ s.children.map ChildProcess.tid, 1 ≤ t ∧ t < s.nextTid
  started : ∀ t, s.child t ≠ none → t < s.nextTid
  unrecorded : ∀ t, s.pc = .execute t ∨ s.pc = .loaded t →
    s.record t = none ∧ 1 ≤ t ∧ t < s.nextTid

theorem boot_distinct : boot.Distinct where
  nodup := by simp [boot]
  next := by simp [boot]
  bounds := by simp [boot]
  started := by simp [boot]
  unrecorded := by simp [boot]

theorem Family.Distinct.record_bounds (hs : s.Distinct) {c : ChildProcess}
    (h : s.record tid = some c) : 1 ≤ tid ∧ tid < s.nextTid := by
  refine hs.bounds tid ?_
  by_contra hmem
  rw [record_eq_none_iff.mpr hmem] at h
  cases h

/-- Steps that leave the identifiers, the started children and the place of
the parent as they are. -/
theorem Family.Distinct.of_tids (hs : s.Distinct)
    (htids : s'.children.map ChildProcess.tid = s.children.map ChildProcess.tid)
    (hnext : s'.nextTid = s.nextTid)
    (hchild : ∀ t, s'.child t ≠ none → t < s.nextTid)
    (hpc : ∀ t, s'.pc = .execute t ∨ s'.pc = .loaded t →
      s.pc = .execute t ∨ s.pc = .loaded t) : s'.Distinct where
  nodup := by rw [htids]; exact hs.nodup
  next := by rw [hnext]; exact hs.next
  bounds := by rw [htids, hnext]; exact hs.bounds
  started := by rw [hnext]; exact hchild
  unrecorded t ht := by
    rw [record_eq_none_iff, htids, ← record_eq_none_iff, hnext]
    exact hs.unrecorded t (hpc t ht)

theorem Family.Distinct.setChild_started (hs : s.Distinct)
    (hchild : s.child tid ≠ none) {pc : ChildPc} (t : Int)
    (ht : (s.setChild tid pc).child t ≠ none) : t < s.nextTid := by
  by_cases h : t = tid
  · exact h ▸ hs.started tid hchild
  · simp only [Family.setChild, Function.update_of_ne h] at ht
    exact hs.started t ht

theorem step_distinct (hs : s.Distinct) (h : step s a = some s') :
    s'.Distinct := by
  cases step_moves h with
  | execute hpc htid =>
      refine ⟨hs.nodup, ?_, fun t ht => ?_, fun t ht => ?_, fun t ht => ?_⟩
      · have := hs.next
        simp only
        omega
      · have := hs.bounds t ht
        simp only
        omega
      · simp only [Function.update_apply] at ht ⊢
        split_ifs at ht with heq
        · omega
        · have := hs.started t ht
          omega
      · rename_i tid
        obtain rfl : tid = t := by simpa using ht
        have := hs.next
        refine ⟨?_, by omega, Int.lt_succ tid⟩
        change s.record tid = none
        rw [record_eq_none_iff]
        intro hmem
        have := hs.bounds tid hmem
        omega
  | executed hpc hstatus =>
      rename_i tid
      obtain ⟨hnone, hlow, hhigh⟩ := hs.unrecorded tid (.inr hpc)
      rw [record_eq_none_iff] at hnone
      refine ⟨?_, hs.next, ?_, hs.started, by simp [Family.returns]⟩
      · rw [List.map_append, List.nodup_append]
        refine ⟨hs.nodup, by simp, ?_⟩
        intro t ht u hu
        obtain rfl : u = tid := by simpa using hu
        exact fun heq => hnone (heq ▸ ht)
      · intro t ht
        rw [List.map_append, List.mem_append] at ht
        rcases ht with ht | ht
        · exact hs.bounds t ht
        · obtain rfl : t = tid := by simpa using ht
          exact ⟨hlow, hhigh⟩
  | finish hpc hrecord =>
      exact ⟨hs.nodup.sublist tids_remove, hs.next,
        fun t ht => hs.bounds t (tids_remove.subset ht), hs.started,
        by simp [Family.returns]⟩
  | loaded hpc hsema =>
      refine hs.of_tids rfl rfl hs.started fun t ht => ?_
      rename_i tid
      obtain rfl : tid = t := by simpa using ht
      exact .inl hpc
  | failed hpc => exact hs.of_tids rfl rfl hs.started (by simp [Family.returns])
  | refused hpc hrecord =>
      exact hs.of_tids rfl rfl hs.started (by simp [Family.returns])
  | wait hpc hrecord hwaited => exact hs.of_tids rfl rfl hs.started (by simp)
  | exited hpc hrecord hexited => exact hs.of_tids rfl rfl hs.started (by simp)
  | running hpc hrecord hexited => exact hs.of_tids rfl rfl hs.started (by simp)
  | report hpc hrecord =>
      exact hs.of_tids rfl rfl hs.started (by simp [Family.returns])
  | mark hpc =>
      exact hs.of_tids (tids_modify fun _ => rfl) rfl hs.started (by simp)
  | down hpc hrecord hsema =>
      exact hs.of_tids (tids_modify fun _ => rfl) rfl hs.started (by simp)
  | load hchild =>
      exact hs.of_tids rfl rfl (hs.setChild_started (by simp [hchild]))
        fun t ht => ht
  | reports hchild =>
      exact hs.of_tids rfl rfl (hs.setChild_started (by simp [hchild]))
        fun t ht => ht
  | ups hchild =>
      exact hs.of_tids rfl rfl (hs.setChild_started (by simp [hchild]))
        fun t ht => ht
  | exit hchild =>
      exact hs.of_tids rfl rfl (hs.setChild_started (by simp [hchild]))
        fun t ht => ht
  | kill hchild =>
      exact hs.of_tids rfl rfl (hs.setChild_started (by simp [hchild]))
        fun t ht => ht
  | exits hchild =>
      exact hs.of_tids (tids_modify fun _ => rfl) rfl
        (hs.setChild_started (by simp [hchild])) fun t ht => ht
  | marked hchild =>
      exact hs.of_tids (tids_modify fun _ => rfl) rfl
        (hs.setChild_started (by simp [hchild])) fun t ht => ht
  | leaves hchild =>
      exact hs.of_tids (tids_modify fun c => by split_ifs <;> rfl) rfl
        (hs.setChild_started (by simp [hchild])) fun t ht => ht

end Steps

end ChildProcesses

end PintosLabs
