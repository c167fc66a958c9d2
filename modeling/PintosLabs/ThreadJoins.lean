/-
The main program of the readers and writers (Main_file.c): it creates the threads
in a random order, keeps their handles in two arrays, and joins what it finds
there.  Writing or reading behind the end of an array makes a step `none`; every
`pthread_create` succeeds, and the handles are numbers.
-/
import Mathlib.Data.List.Perm.Basic
import Mathlib.Logic.Function.Basic

namespace PintosLabs

namespace ThreadJoins

def rehsSize : Nat := 600

def wrhsSize : Nat := 25

/-- The variables of `main`.  `threads` counts the threads there are; for each
reader and each writer, `readers` and `writers` have the slot that its handle was
stored in, and the handle. -/
structure Main where
  j : Nat
  k : Nat
  rehs : Nat → Option Nat
  wrhs : Nat → Option Nat
  threads : Nat
  readers : List (Nat × Nat)
  writers : List (Nat × Nat)

def start : Main := ⟨0, 0, fun _ => none, fun _ => none, 0, [], []⟩

/-- `pthread_create (&wrhs[j], NULL, writer, &buffer)` -/
def createWriter (s : Main) : Option Main :=
  if s.j < wrhsSize then
    some { s with
      wrhs := Function.update s.wrhs s.j (some s.threads)
      j := s.j + 1
      threads := s.threads + 1
      writers := s.writers ++ [(s.j, s.threads)] }
  else none

/-- `pthread_create (&rehs[j], NULL, reader, &buffer)` -/
def createReader (s : Main) : Option Main :=
  if s.j < rehsSize then
    some { s with
      rehs := Function.update s.rehs s.j (some s.threads)
      k := s.k + 1
      threads := s.threads + 1
      readers := s.readers ++ [(s.j, s.threads)] }
  else none

/-- One turn of the loop. -/
def turn (nr nw r : Nat) (s : Main) : Option Main :=
  if 0 = r then
    if s.j < nw then createWriter s else createReader s
  else if s.k < nr then createReader s else createWriter s

/-- The first turns of the loop; `rand` is what `rand` returns in each. -/
def creation (nr nw : Nat) (rand : Nat → Nat) : Nat → Option Main
  | 0 => some start
  | i + 1 => do
      let s ← creation nr nw rand i
      turn nr nw (rand i % 2) s

/-- The two join loops: what they wait for. -/
def joins (nr nw : Nat) (s : Main) : Option (List (Option Nat)) :=
  if nw ≤ wrhsSize ∧ nr ≤ rehsSize then
    some ((List.range nw).map s.wrhs ++ (List.range nr).map s.rehs)
  else none

/-- The loop creates all readers and writers, their handles are in different slots
of the two arrays, and each thread is waited for once. -/
structure JoinedIn (nr nw : Nat) (s : Main) : Prop where
  readers_length : s.readers.length = nr
  writers_length : s.writers.length = nw
  readers_slots : (s.readers.map Prod.fst).Perm (List.range nr)
  writers_slots : (s.writers.map Prod.fst).Perm (List.range nw)
  rehs : ∀ p ∈ s.readers, s.rehs p.1 = some p.2
  wrhs : ∀ p ∈ s.writers, s.wrhs p.1 = some p.2
  joined : ∃ waited, joins nr nw s = some waited ∧
    waited.Perm ((List.range s.threads).map some)

def AllJoined (nr nw : Nat) (rand : Nat → Nat) : Prop :=
  ∃ s, creation nr nw rand (nw + nr) = some s ∧ JoinedIn nr nw s

/-- The first turn, the third and so on make a reader, by the random number or for
want of a writer, and those between make a writer. -/
def RightTurn (nw : Nat) (rand : Nat → Nat) (i : Nat) : Prop :=
  if i % 2 = 0 then rand i % 2 = 1 ∨ nw ≤ i / 2 else rand i % 2 = 0 ∧ i / 2 < nw

/-- Readers and writers take turns for as long as there are readers to create. -/
def TakeTurns (nr nw : Nat) (rand : Nat → Nat) : Prop :=
  ∀ i < 2 * nr - 1, RightTurn nw rand i

/-! What the loop keeps. -/

/-- After `i` turns. -/
structure Inv (nr nw i : Nat) (s : Main) : Prop where
  turns : s.k + s.j = i
  k_le : s.k ≤ nr
  j_le : s.j ≤ nw
  threads : s.threads = i
  readers_length : s.readers.length = s.k
  writers_slots : s.writers.map Prod.fst = List.range s.j
  wrhs : ∀ p ∈ s.writers, s.wrhs p.1 = some p.2
  handles : (s.writers.map Prod.snd ++ s.readers.map Prod.snd).Perm (List.range i)
  sorted : (s.readers.map Prod.fst).Pairwise (· ≤ ·)
  slots_le : ∀ x ∈ s.readers.map Prod.fst, x ≤ s.j
  rehs : s.readers.map Prod.fst = List.range s.k → ∀ p ∈ s.readers, s.rehs p.1 = some p.2

section Create

variable {nr nw i : Nat} {s s' : Main}

theorem start_inv (nr nw : Nat) : Inv nr nw 0 start :=
  ⟨rfl, Nat.zero_le _, Nat.zero_le _, rfl, rfl, rfl, fun _ hp => (by cases hp), .refl _,
    .nil, fun _ hx => (by cases hx), fun _ _ hp => (by cases hp)⟩

/-- Slots written before are kept by a write to one that has not been. -/
theorem stored_concat {slots : Nat → Option Nat} {ps : List (Nat × Nat)} {slot handle : Nat}
    (hps : ∀ p ∈ ps, slots p.1 = some p.2) (hnew : slot ∉ ps.map Prod.fst) :
    ∀ p ∈ ps ++ [(slot, handle)],
      Function.update slots slot (some handle) p.1 = some p.2 := by
  intro p hp
  rcases List.mem_append.mp hp with hp | hp
  · have hslot : p.1 ∈ ps.map Prod.fst := List.mem_map_of_mem hp
    rw [Function.update_of_ne (ne_of_mem_of_not_mem hslot hnew), hps p hp]
  · rw [List.mem_singleton.mp hp, Function.update_self]

theorem Inv.createWriter (h : Inv nr nw i s) (hnw : nw ≤ wrhsSize) (hlt : s.j < nw) :
    ∃ s', ThreadJoins.createWriter s = some s' ∧ Inv nr nw (i + 1) s' ∧
      s'.j = s.j + 1 ∧ s'.k = s.k ∧ s'.readers = s.readers := by
  have hnew : s.j ∉ s.writers.map Prod.fst := by
    rw [h.writers_slots]
    exact fun hmem => absurd (List.mem_range.mp hmem) (Nat.lt_irrefl _)
  refine ⟨_, if_pos (Nat.lt_of_lt_of_le hlt hnw), ?_, rfl, rfl, rfl⟩
  refine ⟨congrArg Nat.succ h.turns, h.k_le, hlt, congrArg Nat.succ h.threads,
    h.readers_length, ?_, stored_concat h.wrhs hnew, ?_, h.sorted,
    fun x hx => Nat.le_succ_of_le (h.slots_le x hx), h.rehs⟩
  · rw [List.map_append, h.writers_slots, List.range_succ]
    rfl
  · rw [List.map_append, List.range_succ, List.append_assoc]
    refine (List.Perm.append_left _ List.perm_append_comm).trans ?_
    rw [← List.append_assoc]
    exact h.handles.append (by rw [h.threads]; exact .refl _)

theorem Inv.createReader (h : Inv nr nw i s) (hnw : nw ≤ wrhsSize) (hlt : s.k < nr) :
    ∃ s', ThreadJoins.createReader s = some s' ∧ Inv nr nw (i + 1) s' ∧
      s'.j = s.j ∧ s'.k = s.k + 1 ∧
        s'.readers.map Prod.fst = s.readers.map Prod.fst ++ [s.j] := by
  have hroom : s.j < rehsSize :=
    Nat.lt_of_le_of_lt (Nat.le_trans h.j_le hnw) (by decide : wrhsSize < rehsSize)
  refine ⟨_, if_pos hroom, ?_, rfl, rfl, List.map_append⟩
  refine ⟨?_, hlt, h.j_le, congrArg Nat.succ h.threads, ?_, h.writers_slots, h.wrhs, ?_, ?_,
    ?_, ?_⟩
  · have hturns := h.turns
    change s.k + 1 + s.j = i + 1
    omega
  · rw [List.length_append, h.readers_length]
    rfl
  · rw [List.map_append, List.range_succ, ← List.append_assoc]
    exact h.handles.append (by rw [h.threads]; exact .refl _)
  · rw [List.map_append, List.pairwise_append]
    refine ⟨h.sorted, List.pairwise_singleton _ _, fun x hx y hy => ?_⟩
    rw [List.mem_singleton.mp hy]
    exact h.slots_le x hx
  · intro x hx
    rw [List.map_append, List.mem_append] at hx
    rcases hx with hx | hx
    · exact h.slots_le x hx
    · exact Nat.le_of_eq (List.mem_singleton.mp hx)
  · intro hslots
    rw [List.map_append, List.range_succ] at hslots
    obtain ⟨hbefore, hslot⟩ := List.append_inj' hslots rfl
    refine stored_concat (h.rehs hbefore) ?_
    have hself : s.j = s.k := (List.cons.inj hslot).1
    rw [hbefore, hself]
    exact fun hmem => absurd (List.mem_range.mp hmem) (Nat.lt_irrefl _)

/-- What a turn creates, by its random number and by who is left to be created. -/
theorem Inv.turn (h : Inv nr nw i s) (hnw : nw ≤ wrhsSize) (hi : i < nw + nr) (r : Nat) :
    ∃ s', ThreadJoins.turn nr nw r s = some s' ∧ Inv nr nw (i + 1) s' ∧
      (s'.j = s.j + 1 ∧ s'.k = s.k ∧ s'.readers = s.readers ∧
          (0 = r ∧ s.j < nw ∨ nr ≤ s.k) ∨
        s'.j = s.j ∧ s'.k = s.k + 1 ∧
          s'.readers.map Prod.fst = s.readers.map Prod.fst ++ [s.j] ∧
          s.k < nr ∧ (0 ≠ r ∨ nw ≤ s.j)) := by
  have hturns := h.turns
  rw [ThreadJoins.turn]
  split
  case isTrue hr =>
    split
    case isTrue hlt =>
      obtain ⟨s', hrun, hinv, hj, hk, hreaders⟩ := h.createWriter hnw hlt
      exact ⟨s', hrun, hinv, Or.inl ⟨hj, hk, hreaders, Or.inl ⟨hr, hlt⟩⟩⟩
    case isFalse hle =>
      have hlt : s.k < nr := by omega
      obtain ⟨s', hrun, hinv, hj, hk, hslots⟩ := h.createReader hnw hlt
      exact ⟨s', hrun, hinv, Or.inr ⟨hj, hk, hslots, hlt, Or.inr (Nat.le_of_not_lt hle)⟩⟩
  case isFalse hr =>
    split
    case isTrue hlt =>
      obtain ⟨s', hrun, hinv, hj, hk, hslots⟩ := h.createReader hnw hlt
      exact ⟨s', hrun, hinv, Or.inr ⟨hj, hk, hslots, hlt, Or.inl hr⟩⟩
    case isFalse hle =>
      have hlt : s.j < nw := by omega
      obtain ⟨s', hrun, hinv, hj, hk, hreaders⟩ := h.createWriter hnw hlt
      exact ⟨s', hrun, hinv, Or.inl ⟨hj, hk, hreaders, Or.inr (Nat.le_of_not_lt hle)⟩⟩

end Create

/-! Taking turns. -/

/-- Each reader so far has got the slot of its own number. -/
def InStep (s : Main) : Prop := s.readers.map Prod.fst = List.range s.k

theorem not_inStep_concat {s s' : Main} (hk : s'.k = s.k + 1)
    (hslots : s'.readers.map Prod.fst = s.readers.map Prod.fst ++ [s.j])
    (hnot : ¬ InStep s ∨ s.j ≠ s.k) : ¬ InStep s' := by
  intro hstep
  rw [InStep, hslots, hk, List.range_succ] at hstep
  obtain ⟨hbefore, hslot⟩ := List.append_inj' hstep rfl
  rcases hnot with hnot | hnot
  · exact hnot hbefore
  · exact hnot (List.cons.inj hslot).1

/-- The turns have all been right so far, or one has been wrong and a reader has got
another slot than its own, or will. -/
theorem creation_turns {nr nw : Nat} (hnw : nw ≤ wrhsSize) (rand : Nat → Nat) {i : Nat}
    (hi : i ≤ nw + nr) : ∃ s, creation nr nw rand i = some s ∧ Inv nr nw i s ∧
      ((∀ i' < i, i' < 2 * nr - 1 → RightTurn nw rand i') ∧ InStep s ∧
          (i ≤ 2 * nr - 1 → s.k = (i + 1) / 2) ∧ (2 * nr - 1 ≤ i → s.k = nr) ∨
        (∃ i', i' < 2 * nr - 1 ∧ ¬ RightTurn nw rand i') ∧
          (¬ InStep s ∨ s.k < s.j ∧ s.k < nr)) := by
  induction i with
  | zero =>
      refine ⟨start, rfl, start_inv nr nw, Or.inl ⟨fun i' hi' => absurd hi' (Nat.not_lt_zero _),
        rfl, fun _ => rfl, fun hle => ?_⟩⟩
      change 0 = nr
      omega
  | succ i ih =>
      obtain ⟨s, hrun, hinv, hturns⟩ := ih (Nat.le_of_succ_le hi)
      obtain ⟨s', hturn, hinv', hcase⟩ := hinv.turn hnw hi (rand i % 2)
      refine ⟨s', ?_, hinv', ?_⟩
      · rw [creation, hrun, Option.bind_eq_bind, Option.bind_some, hturn]
      have hsum := hinv.turns
      rcases hturns with ⟨hright, hstep, hpart, hall⟩ | ⟨hwrong, hbad⟩
      · have hbit : rand i % 2 < 2 := Nat.mod_lt _ Nat.two_pos
        have hnext : ∀ {i' : Nat}, (i < 2 * nr - 1 → RightTurn nw rand i) → i' < i + 1 →
            i' < 2 * nr - 1 → RightTurn nw rand i' := by
          intro i' hthis hi' hlt
          rcases Nat.lt_succ_iff_lt_or_eq.mp hi' with hbefore | rfl
          · exact hright i' hbefore hlt
          · exact hthis hlt
        rcases hcase with ⟨hj, hk, hreaders, hwhen⟩ | ⟨hj, hk, hslots, hlt, hwhen⟩
        · have hstep' : InStep s' := by rwa [InStep, hreaders, hk]
          by_cases hthis : i < 2 * nr - 1 → RightTurn nw rand i
          · refine Or.inl ⟨fun i' => hnext hthis, hstep', fun hle => ?_, fun hle => ?_⟩
            · have hcount := hpart (Nat.le_of_succ_le hle)
              have hright' := hthis hle
              rw [RightTurn] at hright'
              split at hright' <;> omega
            · rw [hk]
              by_cases hdone : 2 * nr - 1 ≤ i
              · exact hall hdone
              · have hright' := hthis (Nat.lt_of_not_le hdone)
                have hcount := hpart (Nat.le_of_lt (Nat.lt_of_not_le hdone))
                rw [RightTurn] at hright'
                split at hright' <;> omega
          · obtain ⟨hleft, hwrong⟩ := Classical.not_imp.mp hthis
            have hcount := hpart (Nat.le_of_lt hleft)
            refine Or.inr ⟨⟨i, hleft, hwrong⟩, Or.inr ?_⟩
            rw [RightTurn] at hwrong
            split at hwrong <;> omega
        · have hleft : i < 2 * nr - 1 := by
            refine Nat.lt_of_not_le fun hle => ?_
            rw [hall hle] at hlt
            exact Nat.lt_irrefl _ hlt
          have hcount := hpart (Nat.le_of_lt hleft)
          by_cases hthis : RightTurn nw rand i
          · have hslot : s.j = s.k := by
              rw [RightTurn] at hthis
              split at hthis <;> omega
            refine Or.inl ⟨fun i' => hnext fun _ => hthis, ?_, fun hle => ?_, fun hle => ?_⟩
            · rw [InStep, hslots, hstep, hslot, hk, List.range_succ]
            · omega
            · omega
          · refine Or.inr ⟨⟨i, hleft, hthis⟩, Or.inl ?_⟩
            refine not_inStep_concat hk hslots (Or.inr ?_)
            rw [RightTurn] at hthis
            split at hthis <;> omega
      · refine Or.inr ⟨hwrong, ?_⟩
        rcases hcase with ⟨hj, hk, hreaders, hwhen⟩ | ⟨hj, hk, hslots, hlt, -⟩
        · rw [InStep, hreaders, hk, hj]
          exact hbad.imp_right fun h => ⟨Nat.lt_succ_of_lt h.1, h.2⟩
        · refine Or.inl (not_inStep_concat hk hslots ?_)
          exact hbad.imp_right fun h => Nat.ne_of_gt h.1

theorem joinedIn_iff {nr nw : Nat} {s : Main} (h : Inv nr nw (nw + nr) s)
    (hnr : nr ≤ rehsSize) (hnw : nw ≤ wrhsSize) : JoinedIn nr nw s ↔ InStep s := by
  obtain ⟨hk, hj⟩ : s.k = nr ∧ s.j = nw := by
    have hturns := h.turns
    have hk := h.k_le
    have hj := h.j_le
    omega
  have hwriters : s.writers.map Prod.fst = List.range nw := hj ▸ h.writers_slots
  constructor
  · intro hjoined
    rw [InStep, hk]
    exact hjoined.readers_slots.eq_of_pairwise (fun _ _ _ _ => Nat.le_antisymm) h.sorted
      List.pairwise_le_range
  · intro hstep
    have hreaders : s.readers.map Prod.fst = List.range nr := hk ▸ hstep
    have hrehs := h.rehs hstep
    refine ⟨h.readers_length.trans hk, ?_, .of_eq hreaders, .of_eq hwriters, hrehs, h.wrhs,
      _, if_pos ⟨hnw, hnr⟩, ?_⟩
    · rw [← List.length_map (f := Prod.fst), hwriters, List.length_range]
    · have hstored : ∀ {slots : Nat → Option Nat} {ps : List (Nat × Nat)},
          (∀ p ∈ ps, slots p.1 = some p.2) →
            (ps.map Prod.fst).map slots = (ps.map Prod.snd).map some := by
        intro slots ps hps
        rw [List.map_map, List.map_map]
        exact List.map_congr_left hps
      rw [← hwriters, ← hreaders, hstored h.wrhs, hstored hrehs, ← List.map_append, h.threads]
      exact h.handles.map some

/-- All readers and writers are joined exactly if they are created in turns, readers
first, until there is no reader left to create. -/
theorem all_joined_iff {nr nw : Nat} (hnr : nr ≤ rehsSize) (hnw : nw ≤ wrhsSize)
    (rand : Nat → Nat) : AllJoined nr nw rand ↔ TakeTurns nr nw rand := by
  obtain ⟨s, hrun, hinv, hturns⟩ := creation_turns hnw rand (Nat.le_refl (nw + nr))
  have hjoined : AllJoined nr nw rand ↔ InStep s := by
    rw [← joinedIn_iff hinv hnr hnw]
    refine ⟨?_, fun h => ⟨s, hrun, h⟩⟩
    rintro ⟨s', hrun', h⟩
    rwa [Option.some.inj (hrun.symm.trans hrun')]
  rw [hjoined]
  have hk : s.k = nr := by
    have hsum := hinv.turns
    have hle := hinv.k_le
    have hle' := hinv.j_le
    omega
  rcases hturns with ⟨hright, hstep, -, -⟩ | ⟨⟨i, hlt, hwrong⟩, hbad⟩
  · refine iff_of_true hstep fun i hlt => ?_
    by_cases hi : i < nw + nr
    · exact hright i hi hlt
    · -- there are fewer writers than turns of theirs
      have hlast := hright (2 * nw + 1) (by omega) (by omega)
      rw [RightTurn, if_neg (by omega)] at hlast
      omega
  · refine iff_of_false ?_ fun hall => hwrong (hall i hlt)
    exact hbad.resolve_right fun h => Nat.lt_irrefl _ (hk ▸ h.2)

namespace ThreadJoinsWitness

theorem all_joined_iff_two : AllJoined 2 1 (fun i => i + 1) ↔ TakeTurns 2 1 (fun i => i + 1) :=
  all_joined_iff (by decide) (by decide) _

/-- Two readers one after the other, whose handles get the same slot. -/
theorem second_reader_overwrites :
    ¬ ∀ (nr nw : Nat) (rand : Nat → Nat), nr ≤ rehsSize → nw ≤ wrhsSize →
      AllJoined nr nw rand := by
  intro hclaim
  obtain ⟨s, hrun, hjoined⟩ := hclaim 2 0 (fun _ => 1) (by decide) (by decide)
  have hslots : s.readers.map Prod.fst = [0, 0] := by
    have hmap := congrArg (Option.map fun s : Main => s.readers.map Prod.fst) hrun
    exact (Option.some.inj hmap).symm
  have hperm := hslots ▸ hjoined.readers_slots
  exact absurd hperm (by decide)

end ThreadJoinsWitness

end ThreadJoins

end PintosLabs
