/-
Labelled step systems: runs, reachable states, invariants and simulations.
Nothing here names a particular program; each model of the development
supplies its own state, action and step function.
-/
import Mathlib.Algebra.Ring.Int.Defs
import Mathlib.Algebra.Ring.Nat
import Mathlib.Logic.Relation

namespace PintosLabs

universe u v w x

variable {S : Type u} {A : Type v}

/-- `Run step ok s actions t` says that taking `actions` from `s` ends in `t`
and that every step taken met the condition `ok` in the state it started
from.  A step that is `none` cannot be taken. -/
inductive Run (step : S → A → Option S) (ok : S → A → Prop) :
    S → List A → S → Prop
  | nil (s : S) : Run step ok s [] s
  | snoc {s t t' : S} {actions : List A} {action : A}
      (run : Run step ok s actions t) (allowed : ok t action)
      (taken : step t action = some t') :
      Run step ok s (actions ++ [action]) t'

/-- The run rule: what holds at the start and is kept by every allowed step
holds at the end of every run. -/
theorem Run.invariant {step : S → A → Option S} {ok : S → A → Prop}
    (inv : S → Prop)
    (hstep : ∀ {s s' : S} {action : A}, inv s → ok s action →
      step s action = some s' → inv s')
    {s t : S} {actions : List A} (hrun : Run step ok s actions t)
    (hstart : inv s) : inv t := by
  induction hrun with
  | nil => exact hstart
  | snoc _ hallowed htaken ih => exact hstep ih hallowed htaken

theorem Run.mono {step : S → A → Option S} {ok ok' : S → A → Prop}
    (himp : ∀ s action, ok s action → ok' s action)
    {s t : S} {actions : List A} (hrun : Run step ok s actions t) :
    Run step ok' s actions t := by
  induction hrun with
  | nil => exact Run.nil _
  | snoc _ hallowed htaken ih => exact ih.snoc (himp _ _ hallowed) htaken

theorem Run.trans {step : S → A → Option S} {ok : S → A → Prop} {s t u : S}
    {first second : List A} (hfirst : Run step ok s first t)
    (hsecond : Run step ok t second u) : Run step ok s (first ++ second) u := by
  induction hsecond with
  | nil => rwa [List.append_nil]
  | snoc _ hallowed htaken ih =>
      rw [← List.append_assoc]
      exact ih.snoc hallowed htaken

/-- A run can be cut anywhere. -/
theorem Run.split {step : S → A → Option S} {ok : S → A → Prop} {s t : S}
    {actions : List A} (hrun : Run step ok s actions t) {first second : List A}
    (hactions : actions = first ++ second) :
    ∃ u, Run step ok s first u ∧ Run step ok u second t := by
  induction hrun generalizing second with
  | nil =>
      obtain ⟨rfl, rfl⟩ := List.nil_eq_append_iff.mp hactions
      exact ⟨s, Run.nil s, Run.nil s⟩
  | @snoc t t' actions action run allowed taken ih =>
      rcases List.eq_nil_or_concat second with rfl | ⟨rest, last, rfl⟩
      · rw [List.append_nil] at hactions
        exact ⟨t', hactions ▸ run.snoc allowed taken, Run.nil t'⟩
      · rw [List.concat_eq_append, ← List.append_assoc] at hactions
        obtain ⟨hinit, hlast⟩ := List.append_inj' hactions rfl
        obtain ⟨u, hfirst, hrest⟩ := ih hinit
        rw [List.concat_eq_append, ← List.singleton_inj.mp hlast]
        exact ⟨u, hfirst, hrest.snoc allowed taken⟩

/-- The last step of a run. -/
theorem Run.last {step : S → A → Option S} {ok : S → A → Prop} {s t : S}
    {actions : List A} {action : A} (hrun : Run step ok s (actions ++ [action]) t) :
    ∃ u, Run step ok s actions u ∧ ok u action ∧ step u action = some t := by
  generalize hactions : actions ++ [action] = whole at hrun
  cases hrun with
  | nil => exact absurd hactions (List.append_ne_nil_of_right_ne_nil _ (List.cons_ne_nil _ _))
  | @snoc u _ actions' action' run allowed taken =>
      obtain ⟨rfl, hlast⟩ := List.append_inj' hactions rfl
      obtain rfl := List.singleton_inj.mp hlast
      exact ⟨u, run, allowed, taken⟩

/-- Computed steps are a run. -/
theorem Run.of_foldlM {step : S → A → Option S} {s t : S} {actions : List A}
    (h : actions.foldlM step s = some t) :
    Run step (fun _ _ => True) s actions t := by
  induction actions generalizing s with
  | nil =>
      rw [List.foldlM_nil] at h
      exact Option.some.inj h ▸ Run.nil s
  | cons action rest ih =>
      rw [List.foldlM_cons] at h
      obtain ⟨s', htaken, hrest⟩ := Option.bind_eq_some_iff.mp h
      exact ((Run.nil s).snoc trivial htaken).trans (ih hrest)

/-- Computed steps that are checked on the way are a run of allowed steps, where
an invariant may help the check. -/
theorem Run.of_check {step : S → A → Option S} {ok : S → A → Prop}
    (check : S → A → Bool) (inv : S → Prop)
    (hstep : ∀ {s s' : S} {action : A}, inv s → step s action = some s' → inv s')
    (hcheck : ∀ {s : S} {action : A}, inv s → check s action = true → ok s action)
    {s t : S} {actions : List A} (hstart : inv s)
    (h : actions.foldlM (fun s action =>
      if check s action then step s action else none) s = some t) :
    Run step ok s actions t := by
  induction actions generalizing s with
  | nil =>
      rw [List.foldlM_nil] at h
      exact Option.some.inj h ▸ Run.nil s
  | cons action rest ih =>
      rw [List.foldlM_cons] at h
      obtain ⟨s', htaken, hrest⟩ := Option.bind_eq_some_iff.mp h
      split at htaken
      case isTrue hchecked =>
        exact ((Run.nil s).snoc (hcheck hstart hchecked) htaken).trans
          (ih (hstep hstart htaken) hrest)
      case isFalse => cases htaken

/-- From `s` on there is never more than one action that can be taken.  After
`n` of them the system is in `t`, where there is none; before that, `P` holds. -/
inductive Forced (step : S → A → Option S) (P : S → Prop) : S → Nat → S → Prop
  | stop {s : S} (stuck : ∀ action, step s action = none) : Forced step P s 0 s
  | go {s s' t : S} {n : Nat} (action : A) (holds : P s)
      (taken : step s action = some s')
      (only : ∀ other, other ≠ action → step s other = none)
      (rest : Forced step P s' n t) : Forced step P s (n + 1) t

section Forced

variable {step : S → A → Option S} {ok : S → A → Prop} {P : S → Prop} {s t u : S}
  {n : Nat} {actions : List A}

theorem Forced.stuck (h : Forced step P s n t) (action : A) : step t action = none := by
  induction h with
  | stop stuck => exact stuck action
  | go _ _ _ _ _ ih => exact ih

theorem Forced.run (h : Forced step P s n t) :
    ∃ actions, Run step (fun _ _ => True) s actions t := by
  induction h with
  | stop stuck => exact ⟨[], Run.nil _⟩
  | go action _ taken _ _ ih =>
      obtain ⟨actions, hrest⟩ := ih
      exact ⟨[action] ++ actions, ((Run.nil _).snoc trivial taken).trans hrest⟩

/-- Whatever run there is, it is on the way. -/
theorem Forced.of_run (h : Forced step P s n t) (hrun : Run step ok s actions u) :
    ∃ m, actions.length + m = n ∧ Forced step P u m t := by
  induction hrun with
  | nil => exact ⟨n, Nat.zero_add n, h⟩
  | @snoc u u' actions action run allowed taken ih =>
      obtain ⟨m, hlength, hforced⟩ := ih
      cases hforced with
      | stop stuck => cases (stuck action).symm.trans taken
      | @go _ s' _ m action' holds taken' only rest =>
          have haction : action = action' := by
            by_contra hne
            cases (only action hne).symm.trans taken
          subst haction
          obtain rfl := Option.some.inj (taken'.symm.trans taken)
          refine ⟨m, ?_, rest⟩
          rw [List.length_append, List.length_singleton]
          omega

/-- On the way one can go on; at the end one has arrived. -/
theorem Forced.end_or_go (h : Forced step P s n t) :
    s = t ∨ P s ∧ ∃ action, step s action ≠ none := by
  cases h with
  | stop stuck => exact Or.inl rfl
  | go action holds taken only rest =>
      exact Or.inr ⟨holds, action, taken ▸ Option.some_ne_none _⟩

end Forced

/-- A deterministic machine that answers every input. -/
structure Machine (S : Type u) (I : Type v) (O : Type w) where
  step : S → I → S × O

namespace Machine

variable {I : Type v} {O : Type w} {T : Type x}

/-- The state after a list of inputs. -/
def after (M : Machine S I O) (s : S) (inputs : List I) : S :=
  inputs.foldl (fun s i => (M.step s i).1) s

/-- The answers to a list of inputs. -/
def outputs (M : Machine S I O) : S → List I → List O
  | _, [] => []
  | s, i :: rest => (M.step s i).2 :: M.outputs (M.step s i).1 rest

@[simp] theorem after_nil (M : Machine S I O) (s : S) : M.after s [] = s := rfl

@[simp] theorem after_cons (M : Machine S I O) (s : S) (i : I)
    (rest : List I) : M.after s (i :: rest) = M.after (M.step s i).1 rest :=
  rfl

theorem after_concat (M : Machine S I O) (s : S) (inputs : List I) (i : I) :
    M.after s (inputs ++ [i]) = (M.step (M.after s inputs) i).1 := by
  simp [after]

/-- `rel` is a simulation when related states answer alike and step to
related states. -/
def Simulation (M : Machine S I O) (N : Machine T I O)
    (rel : S → T → Prop) : Prop :=
  ∀ s t i, rel s t →
    (M.step s i).2 = (N.step t i).2 ∧ rel (M.step s i).1 (N.step t i).1

theorem Simulation.after {M : Machine S I O} {N : Machine T I O}
    {rel : S → T → Prop} (hsim : Simulation M N rel) {s : S} {t : T}
    (hrel : rel s t) (inputs : List I) :
    rel (M.after s inputs) (N.after t inputs) := by
  induction inputs generalizing s t with
  | nil => exact hrel
  | cons i rest ih => exact ih (hsim s t i hrel).2

theorem Simulation.outputs_eq {M : Machine S I O} {N : Machine T I O}
    {rel : S → T → Prop} (hsim : Simulation M N rel) {s : S} {t : T}
    (hrel : rel s t) (inputs : List I) :
    M.outputs s inputs = N.outputs t inputs := by
  induction inputs generalizing s t with
  | nil => rfl
  | cons i rest ih =>
      obtain ⟨hout, hnext⟩ := hsim s t i hrel
      simp only [outputs, hout, ih hnext]

end Machine

end PintosLabs
