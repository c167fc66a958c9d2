/-
Safe states of resource allocation.  Processes hold resources and may still
need more; a state is safe when the processes can be put in an order in which
each one's need is met by what is free once its predecessors have given back
what they held.  The multi-pass greedy scan decides safety.
-/
import Mathlib.Algebra.Order.BigOperators.Group.List
import Mathlib.Algebra.Ring.Int.Defs
import Mathlib.Algebra.Ring.Nat
import Mathlib.Data.List.Nodup
import Mathlib.Data.List.Perm.Subperm

namespace PintosLabs

universe u v

section Monoid

variable {P : Type u} {V : Type v} [AddCommMonoid V]
variable (need held : P → V)

/-- Everything the listed processes hold. -/
def heldSum (procs : List P) : V := (procs.map held).sum

@[simp] theorem heldSum_nil : heldSum held [] = 0 := rfl

@[simp] theorem heldSum_cons (p : P) (procs : List P) :
    heldSum held (p :: procs) = held p + heldSum held procs := rfl

@[simp] theorem heldSum_append (first second : List P) :
    heldSum held (first ++ second) =
      heldSum held first + heldSum held second := by
  simp [heldSum]

variable {held} in
theorem heldSum_perm {first second : List P} (hperm : first.Perm second) :
    heldSum held first = heldSum held second :=
  (hperm.map held).sum_eq

variable {held} in
theorem heldSum_congr {held' : P → V} {procs : List P}
    (heq : ∀ p ∈ procs, held p = held' p) :
    heldSum held procs = heldSum held' procs := by
  rw [heldSum, heldSum, List.map_congr_left heq]

variable {held} in
theorem heldSum_update_add [DecidableEq P] {procs : List P} {p : P} (v : V)
    (hnodup : procs.Nodup) (hmem : p ∈ procs) :
    heldSum (Function.update held p (held p + v)) procs =
      heldSum held procs + v := by
  have hperm := List.perm_cons_erase hmem
  rw [heldSum_perm hperm, heldSum_perm hperm, heldSum_cons, heldSum_cons,
    Function.update_self, add_right_comm]
  congr 2
  apply heldSum_congr
  intro q hq
  exact Function.update_of_ne (hnodup.mem_erase_iff.mp hq).1 _ _

variable [PartialOrder V]

/-- The processes can run to completion in the given order. -/
def Admits : V → List P → Prop
  | _, [] => True
  | free, p :: rest => need p ≤ free ∧ Admits (free + held p) rest

/-- Some order of the processes runs to completion. -/
def Safe (free : V) (procs : List P) : Prop :=
  ∃ order : List P, order.Perm procs ∧ Admits need held free order

variable {need held}

theorem Admits.congr {need' held' : P → V} {free : V} {order : List P}
    (hneed : ∀ p ∈ order, need p = need' p)
    (hheld : ∀ p ∈ order, held p = held' p)
    (hadmits : Admits need held free order) : Admits need' held' free order := by
  induction order generalizing free with
  | nil => trivial
  | cons p rest ih =>
      obtain ⟨hp, hrest⟩ := hadmits
      refine ⟨hneed p List.mem_cons_self ▸ hp, ?_⟩
      rw [← hheld p List.mem_cons_self]
      exact ih (fun q hq => hneed q (List.mem_cons_of_mem p hq))
        (fun q hq => hheld q (List.mem_cons_of_mem p hq)) hrest

theorem Safe.congr {need' held' : P → V} {free : V} {procs : List P}
    (hneed : ∀ p ∈ procs, need p = need' p)
    (hheld : ∀ p ∈ procs, held p = held' p)
    (hsafe : Safe need held free procs) : Safe need' held' free procs := by
  obtain ⟨order, hperm, hadmits⟩ := hsafe
  exact ⟨order, hperm, hadmits.congr
    (fun p hp => hneed p (hperm.mem_iff.mp hp))
    (fun p hp => hheld p (hperm.mem_iff.mp hp))⟩

theorem admits_append {free : V} {first second : List P} :
    Admits need held free (first ++ second) ↔
      Admits need held free first ∧
        Admits need held (free + heldSum held first) second := by
  induction first generalizing free with
  | nil => simp [Admits]
  | cons p rest ih =>
      simp only [List.cons_append, Admits, ih, heldSum_cons, add_assoc,
        and_assoc]

theorem Safe.perm {free : V} {procs procs' : List P}
    (hsafe : Safe need held free procs) (hperm : procs.Perm procs') :
    Safe need held free procs' := by
  obtain ⟨order, horder, hadmits⟩ := hsafe
  exact ⟨order, horder.trans hperm, hadmits⟩

theorem Safe.perm_iff {free : V} {procs procs' : List P}
    (hperm : procs.Perm procs') :
    Safe need held free procs ↔ Safe need held free procs' :=
  ⟨fun hsafe => hsafe.perm hperm, fun hsafe => hsafe.perm hperm.symm⟩

/-- A process whose whole need fits in all the resources there are can be
added last. -/
theorem Safe.add {free : V} {procs : List P} {p : P}
    (hsafe : Safe need held free procs)
    (hneed : need p ≤ free + heldSum held procs) :
    Safe need held free (p :: procs) := by
  obtain ⟨order, hperm, hadmits⟩ := hsafe
  refine ⟨order ++ [p], ?_, admits_append.mpr ⟨hadmits, ?_, trivial⟩⟩
  · exact List.perm_append_comm.trans (hperm.cons p)
  · rw [heldSum_perm hperm]
    exact hneed

end Monoid

section Ordered

variable {P : Type u} {V : Type v} [AddCommMonoid V] [PartialOrder V]
  [IsOrderedAddMonoid V] {need held : P → V}

theorem Admits.mono {free free' : V} {order : List P} (hle : free ≤ free')
    (hadmits : Admits need held free order) : Admits need held free' order := by
  induction order generalizing free free' with
  | nil => trivial
  | cons p rest ih =>
      obtain ⟨hp, hrest⟩ := hadmits
      exact ⟨hp.trans hle, ih (by gcongr) hrest⟩

/-- A process that ends early only helps the others. -/
theorem Admits.remove {free : V} {first second : List P} {p : P}
    (hnonneg : 0 ≤ held p)
    (hadmits : Admits need held free (first ++ p :: second)) :
    Admits need held (free + held p) (first ++ second) := by
  rw [admits_append] at hadmits ⊢
  obtain ⟨hfirst, _, hsecond⟩ := hadmits
  refine ⟨hfirst.mono (le_add_of_nonneg_right hnonneg), ?_⟩
  rwa [add_right_comm]

theorem Safe.remove [DecidableEq P] {free : V} {procs : List P} {p : P}
    (hnonneg : 0 ≤ held p) (hmem : p ∈ procs)
    (hsafe : Safe need held free procs) :
    Safe need held (free + held p) (procs.erase p) := by
  obtain ⟨order, hperm, hadmits⟩ := hsafe
  obtain ⟨first, second, rfl⟩ :=
    List.append_of_mem ((hperm.mem_iff (a := p)).mpr hmem)
  refine ⟨first ++ second, ?_, hadmits.remove hnonneg⟩
  have herase := (List.perm_middle.symm.trans hperm).erase p
  rwa [List.erase_cons_head] at herase

theorem heldSum_le_of_subset {first second : List P} (hnodup : first.Nodup)
    (hsub : ∀ p ∈ first, p ∈ second) (hnonneg : ∀ p ∈ second, 0 ≤ held p) :
    heldSum held first ≤ heldSum held second := by
  obtain ⟨mid, hmid, hsublist⟩ := hnodup.subperm hsub
  rw [← heldSum_perm hmid]
  exact (hsublist.map held).sum_le_sum (by simpa using hnonneg)

end Ordered

section Scan

variable {P : Type u} {V : Type v} [AddCommMonoid V] [PartialOrder V]
  [IsOrderedAddMonoid V] [DecidableLE V] (need held : P → V)

/-- One pass over the waiting processes: each one whose need fits finishes on
the spot and gives back what it held.  Returns what is free afterwards and the
processes still waiting. -/
def scanPass : V → List P → V × List P
  | free, [] => (free, [])
  | free, p :: rest =>
      if need p ≤ free then scanPass (free + held p) rest
      else ((scanPass free rest).1, p :: (scanPass free rest).2)

/-- At most `n` passes, stopping after the first one that finishes nobody;
the processes still waiting at the end. -/
def scan : Nat → V → List P → List P
  | 0, _, waiting => waiting
  | n + 1, free, waiting =>
      let next := scanPass need held free waiting
      if next.2.length = waiting.length then next.2 else scan n next.1 next.2

omit [IsOrderedAddMonoid V] in
theorem scanPass_spec (free : V) (waiting : List P) :
    ∃ done : List P,
      (done ++ (scanPass need held free waiting).2).Perm waiting ∧
        Admits need held free done ∧
        (scanPass need held free waiting).1 = free + heldSum held done := by
  induction waiting generalizing free with
  | nil => exact ⟨[], by simp [scanPass, Admits]⟩
  | cons p rest ih =>
      by_cases hneed : need p ≤ free
      · obtain ⟨done, hperm, hadmits, hfree⟩ := ih (free + held p)
        refine ⟨p :: done, ?_, ⟨hneed, hadmits⟩, ?_⟩
        · simpa [scanPass, hneed] using hperm
        · simp [scanPass, hneed, hfree, add_assoc]
      · obtain ⟨done, hperm, hadmits, hfree⟩ := ih free
        refine ⟨done, ?_, hadmits, by simp [scanPass, hneed, hfree]⟩
        simp only [scanPass, hneed, ↓reduceIte]
        exact List.perm_middle.trans (hperm.cons p)

omit [IsOrderedAddMonoid V] in
theorem scanPass_length_le (free : V) (waiting : List P) :
    (scanPass need held free waiting).2.length ≤ waiting.length := by
  obtain ⟨done, hperm, _⟩ := scanPass_spec need held free waiting
  have hlength := hperm.length_eq
  rw [List.length_append] at hlength
  omega

variable {need held}

omit [IsOrderedAddMonoid V] in
/-- A pass that finishes nobody met no need that fits. -/
theorem scanPass_stuck {free : V} {waiting : List P}
    (hstuck : (scanPass need held free waiting).2.length = waiting.length) :
    (scanPass need held free waiting) = (free, waiting) ∧
      ∀ p ∈ waiting, ¬ need p ≤ free := by
  induction waiting generalizing free with
  | nil => simp [scanPass]
  | cons p rest ih =>
      by_cases hneed : need p ≤ free
      · have hle := scanPass_length_le need held (free + held p) rest
        simp only [scanPass, hneed, ↓reduceIte, List.length_cons] at hstuck
        omega
      · simp only [scanPass, hneed, ↓reduceIte, List.length_cons,
          Nat.add_right_cancel_iff] at hstuck
        obtain ⟨hrest, hnone⟩ := ih hstuck
        refine ⟨by simp [scanPass, hneed, hrest], ?_⟩
        intro q hq
        rcases List.mem_cons.mp hq with rfl | hq
        · exact hneed
        · exact hnone q hq

variable (need held) in
omit [IsOrderedAddMonoid V] in
/-- What the scan has finished ran in an admissible order, and when it was
given a pass for every process, nobody left waiting could run next. -/
theorem scan_spec (n : Nat) (free : V) (waiting : List P) :
    ∃ done : List P,
      (done ++ scan need held n free waiting).Perm waiting ∧
        Admits need held free done ∧
        (waiting.length ≤ n → ∀ p ∈ scan need held n free waiting,
          ¬ need p ≤ free + heldSum held done) := by
  induction n generalizing free waiting with
  | zero =>
      refine ⟨[], by simp [scan], trivial, fun hlength => ?_⟩
      have hnil : waiting = [] :=
        List.length_eq_zero_iff.mp (Nat.eq_zero_of_le_zero hlength)
      simp [scan, hnil]
  | succ n ih =>
      obtain ⟨done, hperm, hadmits, hfree⟩ :=
        scanPass_spec need held free waiting
      have hle := scanPass_length_le need held free waiting
      by_cases hstuck :
          (scanPass need held free waiting).2.length = waiting.length
      · obtain ⟨heq, hnone⟩ := scanPass_stuck hstuck
        refine ⟨[], ?_, trivial, fun _ => ?_⟩
        · simp [scan, heq]
        · simpa [scan, heq] using hnone
      · obtain ⟨more, hmorePerm, hmoreAdmits, hend⟩ :=
          ih (scanPass need held free waiting).1
            (scanPass need held free waiting).2
        simp only [scan, hstuck, ↓reduceIte]
        refine ⟨done ++ more, ?_, ?_, fun hlength => ?_⟩
        · rw [List.append_assoc]
          exact (hmorePerm.append_left done).trans hperm
        · exact admits_append.mpr ⟨hadmits, hfree ▸ hmoreAdmits⟩
        · rw [heldSum_append, ← add_assoc, ← hfree]
          exact hend (by omega)

omit [DecidableLE V] in
/-- Nobody in an admissible order is left behind by a scan that has got stuck:
each one's predecessors are among the finished. -/
theorem Admits.mem_done {free : V} {done waiting after : List P}
    (before : List P) (hheld : ∀ p ∈ done, 0 ≤ held p)
    (hcover : ∀ p ∈ before ++ after, p ∈ done ∨ p ∈ waiting)
    (hstuck : ∀ p ∈ waiting, ¬ need p ≤ free + heldSum held done)
    (hnodup : (before ++ after).Nodup) (hbefore : ∀ p ∈ before, p ∈ done)
    (hadmits : Admits need held (free + heldSum held before) after) :
    ∀ p ∈ after, p ∈ done := by
  induction after generalizing before with
  | nil => simp
  | cons p rest ih =>
      obtain ⟨hp, hrest⟩ := hadmits
      have hle : heldSum held before ≤ heldSum held done :=
        heldSum_le_of_subset hnodup.of_append_left hbefore hheld
      have hdone : p ∈ done := by
        refine (hcover p (by simp)).resolve_right fun hwaiting => ?_
        exact hstuck p hwaiting (hp.trans (by gcongr))
      intro q hq
      rcases List.mem_cons.mp hq with rfl | hq
      · exact hdone
      · refine ih (before ++ [p]) ?_ ?_ ?_ ?_ q hq
        · simpa using hcover
        · simpa using hnodup
        · intro s hs
          rcases List.mem_append.mp hs with hs | hs
          · exact hbefore s hs
          · rw [List.mem_singleton.mp hs]
            exact hdone
        · simpa [add_assoc] using hrest

/-- The greedy scan finishes everybody exactly when the state is safe. -/
theorem scan_eq_nil_iff_safe (need held : P → V) (free : V) {procs : List P}
    (hnodup : procs.Nodup) (hheld : ∀ p ∈ procs, 0 ≤ held p) :
    scan need held procs.length free procs = [] ↔
      Safe need held free procs := by
  obtain ⟨done, hperm, hadmits, hstuck⟩ :=
    scan_spec need held procs.length free procs
  constructor
  · intro hnil
    exact ⟨done, by simpa [hnil] using hperm, hadmits⟩
  · rintro ⟨order, horder, hadmitsOrder⟩
    have hall : ∀ p ∈ order, p ∈ done := by
      refine Admits.mem_done [] ?_ ?_
        (hstuck (Nat.le_refl _)) ?_ (by simp) (by simpa using hadmitsOrder)
      · intro p hp
        exact hheld p (hperm.mem_iff.mp (List.mem_append_left _ hp))
      · intro p hp
        rw [List.nil_append] at hp
        exact List.mem_append.mp (hperm.mem_iff.mpr (horder.mem_iff.mp hp))
      · simpa using horder.nodup_iff.mpr hnodup
    rw [List.eq_nil_iff_forall_not_mem]
    intro p hp
    have hmem : p ∈ procs :=
      hperm.mem_iff.mp (List.mem_append_right _ hp)
    have hdisjoint := List.disjoint_of_nodup_append (hperm.nodup_iff.mpr hnodup)
    exact hdisjoint (hall p (horder.mem_iff.mpr hmem)) hp

end Scan

end PintosLabs
