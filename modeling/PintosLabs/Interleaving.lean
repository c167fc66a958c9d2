/-
Threads that share a memory: each thread is a program of single loads and
stores, and any thread may take the next step.  Threads that keep to their own
parts of the memory leave there what each of them leaves when it runs alone.
-/
import Mathlib.Logic.Function.Basic
import PintosLabs.Machine

namespace PintosLabs

universe u v

/-- What a thread has still to do. -/
inductive Prog (Loc : Type u) (V : Type v) where
  | done
  | load (a : Loc) (next : V → Prog Loc V)
  | store (a : Loc) (value : V) (next : Prog Loc V)

/-- A memory and the threads on it. -/
structure Threads (Loc : Type u) (V : Type v) where
  mem : Loc → V
  progs : List (Prog Loc V)

variable {Loc : Type u} {V : Type v} [DecidableEq Loc]

namespace Prog

/-- The memory that a thread leaves when it runs alone. -/
def run : Prog Loc V → (Loc → V) → Loc → V
  | done, mem => mem
  | load a next, mem => (next (mem a)).run mem
  | store a value next, mem => next.run (Function.update mem a value)

/-- How many loads and stores it makes when it runs alone. -/
def steps : Prog Loc V → (Loc → V) → Nat
  | done, _ => 0
  | load a next, mem => (next (mem a)).steps mem + 1
  | store a value next, mem => next.steps (Function.update mem a value) + 1

/-- The program keeps to a part of the memory. -/
def Within (part : Loc → Prop) : Prog Loc V → Prop
  | done => True
  | load a next => part a ∧ ∀ value, (next value).Within part
  | store a _ next => part a ∧ next.Within part

variable {part : Loc → Prop} {p : Prog Loc V}

/-- It leaves the rest as it is. -/
theorem run_of_not (hp : p.Within part) {a : Loc} (ha : ¬ part a) (mem : Loc → V) :
    p.run mem a = mem a := by
  induction p generalizing mem with
  | done => rfl
  | load b next ih => exact ih (mem b) (hp.2 _) mem
  | store b value next ih =>
      refine (ih hp.2 _).trans (Function.update_of_ne ?_ _ _)
      rintro rfl
      exact ha hp.1

theorem update_agree {mem mem' : Loc → V} (hmem : ∀ a, part a → mem a = mem' a) (b : Loc)
    (value : V) (a : Loc) (ha : part a) :
    Function.update mem b value a = Function.update mem' b value a := by
  by_cases hab : a = b
  · subst hab
    rw [Function.update_self, Function.update_self]
  · rw [Function.update_of_ne hab, Function.update_of_ne hab]
    exact hmem a ha

/-- It does not depend on the rest. -/
theorem run_congr (hp : p.Within part) {mem mem' : Loc → V}
    (hmem : ∀ a, part a → mem a = mem' a) :
    p.steps mem = p.steps mem' ∧ ∀ a, part a → p.run mem a = p.run mem' a := by
  induction p generalizing mem mem' with
  | done => exact ⟨rfl, hmem⟩
  | load b next ih =>
      have hnext := ih (mem b) (hp.2 _) hmem
      simp only [steps, run, ← hmem b hp.1]
      exact ⟨congrArg Nat.succ hnext.1, hnext.2⟩
  | store b value next ih =>
      have hnext := ih hp.2 (update_agree hmem b value)
      exact ⟨congrArg Nat.succ hnext.1, hnext.2⟩

end Prog

namespace Threads

/-- Thread `i` makes its next load or store. -/
def step (s : Threads Loc V) (i : Nat) : Option (Threads Loc V) :=
  match s.progs[i]? with
  | some (.load a next) => some { s with progs := s.progs.set i (next (s.mem a)) }
  | some (.store a value next) =>
      some ⟨Function.update s.mem a value, s.progs.set i next⟩
  | _ => none

/-- Each thread keeps to its own part, and no two parts meet. -/
structure Separate (part : Nat → Loc → Prop) (s : Threads Loc V) : Prop where
  within : ∀ (i : Nat) p, s.progs[i]? = some p → p.Within (part i)
  disjoint : ∀ i j a, part i a → part j a → i = j

/-- A step of one thread, as it is for each of the threads. -/
theorem step_cases {s s' : Threads Loc V} {i : Nat} {part : Nat → Loc → Prop}
    (hs : s.Separate part) (hstep : s.step i = some s') :
    ∃ p p', s.progs[i]? = some p ∧ s'.progs = s.progs.set i p' ∧ p'.Within (part i) ∧
      p'.run s'.mem = p.run s.mem ∧ p.steps s.mem = p'.steps s'.mem + 1 ∧
        ∀ a, ¬ part i a → s'.mem a = s.mem a := by
  rw [step] at hstep
  split at hstep
  case h_1 a next hp =>
    rw [← Option.some.inj hstep]
    exact ⟨_, _, hp, rfl, (hs.within i _ hp).2 _, rfl, rfl, fun _ _ => rfl⟩
  case h_2 a value next hp =>
    rw [← Option.some.inj hstep]
    have hwithin := hs.within i _ hp
    refine ⟨_, _, hp, rfl, hwithin.2, rfl, rfl, fun b hb => Function.update_of_ne ?_ _ _⟩
    rintro rfl
    exact hb hwithin.1
  case h_3 => cases hstep

variable {part : Nat → Loc → Prop} {s s' s₀ : Threads Loc V} {i : Nat}

omit [DecidableEq Loc] in
/-- A step leaves the parts of the other threads as they are. -/
theorem step_agree (hs : s.Separate part) {j : Nat} (hij : i ≠ j)
    (hframe : ∀ a, ¬ part i a → s'.mem a = s.mem a) (a : Loc) (ha : part j a) :
    s'.mem a = s.mem a :=
  hframe a fun hi => hij (hs.disjoint i j a hi ha)

theorem Separate.step (hs : s.Separate part) (hstep : s.step i = some s') :
    s'.Separate part := by
  obtain ⟨p, p', hp, hprogs, hwithin, -, -, -⟩ := step_cases hs hstep
  refine ⟨fun j q hq => ?_, hs.disjoint⟩
  rw [hprogs] at hq
  by_cases hij : i = j
  · subst hij
    rw [List.getElem?_set_self (List.getElem?_eq_some_iff.mp hp).1] at hq
    exact Option.some.inj hq ▸ hwithin
  · rw [List.getElem?_set_ne hij] at hq
    exact hs.within j q hq

/-- What state `s` still comes to is what `s₀` comes to, thread by thread. -/
structure Follows (part : Nat → Loc → Prop) (s₀ s : Threads Loc V) : Prop where
  separate : s.Separate part
  length : s.progs.length = s₀.progs.length
  result : ∀ (j : Nat) p₀ p, s₀.progs[j]? = some p₀ → s.progs[j]? = some p →
    ∀ a, part j a → p.run s.mem a = p₀.run s₀.mem a
  frame : ∀ a, (∀ j < s₀.progs.length, ¬ part j a) → s.mem a = s₀.mem a

theorem Separate.follows (hs : s.Separate part) : s.Follows part s where
  separate := hs
  length := rfl
  result _ _ _ hp₀ hp _ _ := by rw [Option.some.inj (hp₀.symm.trans hp)]
  frame _ _ := rfl

theorem Follows.step (hs : s₀.Follows part s) (hstep : s.step i = some s') :
    s₀.Follows part s' := by
  obtain ⟨p, p', hp, hprogs, -, hrun, -, hframe⟩ := step_cases hs.separate hstep
  have hlt := (List.getElem?_eq_some_iff.mp hp).1
  refine ⟨hs.separate.step hstep, ?_, fun j p₀ q hp₀ hq a ha => ?_, fun a ha => ?_⟩
  · rw [hprogs, List.length_set]
    exact hs.length
  · rw [hprogs] at hq
    by_cases hij : i = j
    · subst hij
      rw [List.getElem?_set_self hlt] at hq
      rw [← Option.some.inj hq, hrun]
      exact hs.result i p₀ p hp₀ hp a ha
    · rw [List.getElem?_set_ne hij] at hq
      have hagree := step_agree hs.separate hij hframe
      rw [(Prog.run_congr (hs.separate.within j q hq) hagree).2 a ha]
      exact hs.result j p₀ q hp₀ hq a ha
  · rw [hframe a (ha i (hs.length ▸ hlt))]
    exact hs.frame a ha

abbrev Reaches (s₀ : Threads Loc V) (order : List Nat) (s : Threads Loc V) : Prop :=
  Run step (fun _ _ => True) s₀ order s

theorem Follows.of_run {order : List Nat} (hs₀ : s₀.Separate part)
    (hrun : Reaches s₀ order s) : s₀.Follows part s :=
  hrun.invariant (s₀.Follows part) (fun h _ hstep => h.step hstep) hs₀.follows

end Threads

end PintosLabs
