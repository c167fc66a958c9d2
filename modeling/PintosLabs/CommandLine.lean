/-
How `load` (userprog/process.c) cuts a command line into words, where it lies in
its page: `strtok_r` (lib/string.c) writes a NUL behind each word, and `argv` has
room for `ARGLEN` of them.
-/
import PintosLabs.CStrings

namespace PintosLabs
namespace Exec

/-- `' '` -/
def space : UInt8 := 32

/-- `ARGLEN` -/
def arglen : Nat := 50

/-- `strtok_r` with spaces, from `s` on: the memory, the token and `save_ptr`. -/
def strtokR (memory : Bytes) (s : Nat) : Option (Bytes × Option Nat × Nat) := do
  let token := s + ((memory.drop s).takeWhile (· = space)).length
  let first ← memory[token]?
  if first = 0 then some (memory, none, token)
  else
    let stop := token +
      ((memory.drop token).takeWhile fun byte => byte ≠ space ∧ byte ≠ 0).length
    let last ← memory[stop]?
    if last = 0 then some (memory, some token, stop)
    else some (memory.set stop 0, some token, stop + 1)

/-- The loop of `load` that fills `argv`.  Each turn goes on by a byte or more. -/
def tokenise : Nat → Bytes → Nat → List Nat → Option (Bytes × List Nat)
  | 0, _, _, _ => none
  | fuel + 1, memory, save, argv => do
      let (memory, token, save) ← strtokR memory save
      match token with
      | none => some (memory, argv)
      | some arg =>
          if argv.length < arglen then tokenise fuel memory save (argv ++ [arg])
          else none

/-- The maximal runs of bytes that are not spaces. -/
def words (line : Bytes) : List Bytes := (line.splitOn space).filter (· ≠ [])

/-- What `load` opens: the first word, with the spaces in front of it. -/
def programName (line : Bytes) : Bytes :=
  line.takeWhile (· = space) ++ (line.dropWhile (· = space)).takeWhile (· ≠ space)

variable {before after spaces run rest line : Bytes} {argv : List Nat} {fuel : Nat}

@[simp] theorem words_nil : words [] = [] := rfl

theorem words_cons_space : words (space :: line) = words line := by
  have hsplit : ([] ++ space :: line).splitOn space = [] :: line.splitOn space :=
    List.splitOn_append_cons_self_of_not_mem List.not_mem_nil line
  rw [List.nil_append] at hsplit
  rw [words, hsplit, List.filter_cons_of_neg (by simp)]
  rfl

theorem words_spaces (hspaces : ∀ byte ∈ spaces, byte = space) :
    words (spaces ++ line) = words line := by
  induction spaces with
  | nil => rfl
  | cons byte spaces ih =>
      rw [List.cons_append, hspaces byte List.mem_cons_self, words_cons_space,
        ih fun b hb => hspaces b (List.mem_cons_of_mem _ hb)]

theorem words_run (hrun : space ∉ run) (hne : run ≠ []) : words run = [run] := by
  rw [words, List.splitOn_eq_singleton hrun, List.filter_cons_of_pos (by simpa using hne)]
  rfl

theorem words_run_space (hrun : space ∉ run) (hne : run ≠ []) :
    words (run ++ space :: line) = run :: words line := by
  rw [words, List.splitOn_append_cons_self_of_not_mem hrun,
    List.filter_cons_of_pos (by simpa using hne)]
  rfl

/-- A line is spaces only, or it starts with a word behind some spaces. -/
theorem words_cases (line : Bytes) :
    ∃ spaces tail, line = spaces ++ tail ∧ (∀ byte ∈ spaces, byte = space) ∧
      (tail = [] ∨ ∃ run, space ∉ run ∧ run ≠ [] ∧ programName line = spaces ++ run ∧
        (tail = run ∨ ∃ rest, tail = run ++ space :: rest)) := by
  refine ⟨line.takeWhile (· = space), line.dropWhile (· = space),
    List.takeWhile_append_dropWhile.symm, fun byte hbyte => ?_, ?_⟩
  · simpa using List.mem_takeWhile_imp hbyte
  · cases htail : line.dropWhile (· = space) with
    | nil => exact Or.inl rfl
    | cons first tail =>
        have hfirst : first ≠ space := by
          have hhead : (line.dropWhile (· = space)).head? = some first := by
            rw [htail]
            rfl
          have := List.head?_dropWhile_not (· = space) line
          rw [hhead] at this
          simpa using this
        refine Or.inr ⟨(first :: tail).takeWhile (· ≠ space), ?_, ?_, ?_, ?_⟩
        · exact fun hmem => by simpa using List.mem_takeWhile_imp hmem
        · rw [List.takeWhile_cons_of_pos (by simpa using hfirst)]
          exact List.cons_ne_nil _ _
        · rw [programName, htail]
        · have hsplit : first :: tail = (first :: tail).takeWhile (· ≠ space) ++
              (first :: tail).dropWhile (· ≠ space) :=
            List.takeWhile_append_dropWhile.symm
          cases hrest : (first :: tail).dropWhile (· ≠ space) with
          | nil =>
              rw [hrest, List.append_nil] at hsplit
              exact Or.inl hsplit
          | cons last rest =>
              have hlast : last = space := by
                have := List.head?_dropWhile_not (· ≠ space) (first :: tail)
                rw [hrest] at this
                simpa using this
              rw [hrest, hlast] at hsplit
              exact Or.inr ⟨rest, hsplit⟩

theorem takeWhile_stop {p : UInt8 → Bool} {byte : UInt8} (hrun : ∀ b ∈ run, p b = true)
    (hbyte : ¬ p byte) : (run ++ byte :: rest).takeWhile p = run := by
  rw [List.takeWhile_append_of_pos hrun, List.takeWhile_cons_of_neg hbyte, List.append_nil]

theorem strtokR_spaces (hspaces : ∀ byte ∈ spaces, byte = space) :
    strtokR (before ++ (spaces ++ 0 :: after)) before.length =
      some (before ++ (spaces ++ 0 :: after), none, before.length + spaces.length) := by
  have hskip : (spaces ++ 0 :: after).takeWhile (· = space) = spaces :=
    takeWhile_stop (fun b hb => decide_eq_true (hspaces b hb)) (by decide)
  have hfirst : (before ++ (spaces ++ 0 :: after))[before.length + spaces.length]? =
      some 0 := by
    rw [← List.append_assoc, List.getElem?_append_right (by simp)]
    simp
  rw [strtokR, List.drop_left]
  simp only [hskip, hfirst, Option.bind_eq_bind, Option.bind_some, if_true]

/-- The token that `strtok_r` finds, and what stands behind it. -/
theorem strtokR_run {byte : UInt8} (hspaces : ∀ b ∈ spaces, b = space)
    (hrun : space ∉ run) (hnul : (0 : UInt8) ∉ run) (hne : run ≠ [])
    (hbyte : byte = space ∨ byte = 0) :
    strtokR (before ++ (spaces ++ (run ++ byte :: rest))) before.length =
      some (before ++ (spaces ++ (run ++ 0 :: rest)), some (before.length + spaces.length),
        before.length + spaces.length + run.length + if byte = 0 then 0 else 1) := by
  obtain ⟨first, tail, rfl⟩ := List.exists_cons_of_ne_nil hne
  have hfirst : first ≠ space ∧ first ≠ 0 :=
    ⟨fun heq => hrun (heq ▸ List.mem_cons_self), fun heq => hnul (heq ▸ List.mem_cons_self)⟩
  have hskip : (spaces ++ (first :: tail ++ byte :: rest)).takeWhile (· = space) = spaces :=
    takeWhile_stop (fun b hb => decide_eq_true (hspaces b hb)) (by simpa using hfirst.1)
  have hassoc : before ++ (spaces ++ (first :: tail ++ byte :: rest)) =
      (before ++ spaces) ++ (first :: tail ++ byte :: rest) :=
    (List.append_assoc _ _ _).symm
  have hlen : before.length + spaces.length = (before ++ spaces).length :=
    List.length_append.symm
  have hread : (before ++ (spaces ++ (first :: tail ++ byte :: rest)))[before.length +
      spaces.length]? = some first := by
    rw [hassoc, hlen, List.getElem?_append_right (Nat.le_refl _), Nat.sub_self]
    rfl
  have hdrop : (before ++ (spaces ++ (first :: tail ++ byte :: rest))).drop
      (before.length + spaces.length) = first :: tail ++ byte :: rest := by
    rw [hassoc, hlen, List.drop_left]
  have hscan : (first :: tail ++ byte :: rest).takeWhile
      (fun b => decide (b ≠ space ∧ b ≠ 0)) = first :: tail := by
    refine takeWhile_stop (fun b hb => decide_eq_true ?_) ?_
    · exact ⟨fun heq => hrun (heq ▸ hb), fun heq => hnul (heq ▸ hb)⟩
    · rcases hbyte with rfl | rfl <;> decide
  have hassoc' : before ++ (spaces ++ (first :: tail ++ byte :: rest)) =
      (before ++ (spaces ++ first :: tail)) ++ byte :: rest := by
    simp
  have hlen' : before.length + spaces.length + (first :: tail).length =
      (before ++ (spaces ++ first :: tail)).length := by
    rw [List.length_append, List.length_append, Nat.add_assoc]
  have hlast : (before ++ (spaces ++ (first :: tail ++ byte :: rest)))[before.length +
      spaces.length + (first :: tail).length]? = some byte := by
    rw [hassoc', hlen', List.getElem?_append_right (Nat.le_refl _), Nat.sub_self]
    rfl
  have hset : (before ++ (spaces ++ (first :: tail ++ byte :: rest))).set
      (before.length + spaces.length + (first :: tail).length) 0 =
        before ++ (spaces ++ (first :: tail ++ 0 :: rest)) := by
    rw [hassoc', hlen', List.set_append_right _ _ (Nat.le_refl _), Nat.sub_self]
    simp
  rw [strtokR, List.drop_left]
  simp only [hskip, hread, hdrop, hscan, hlast, hset, Option.bind_eq_bind, Option.bind_some,
    if_neg hfirst.2]
  by_cases hzero : byte = 0
  · rw [if_pos hzero, if_pos hzero, hzero, Nat.add_zero]
  · rw [if_neg hzero, if_neg hzero]

theorem strtokR_of_words (hwords : words line ≠ []) (hnul : (0 : UInt8) ∉ line) :
    ∃ memory p save, strtokR (before ++ (line ++ 0 :: after)) before.length =
      some (memory, some p, save) := by
  obtain ⟨spaces, tail, rfl, hspaces, rfl | ⟨run, hrun, hne, -, rfl | ⟨rest, rfl⟩⟩⟩ :=
    words_cases line
  · rw [words_spaces hspaces] at hwords
    exact absurd words_nil hwords
  · rw [List.append_assoc]
    exact ⟨_, _, _, strtokR_run hspaces hrun (fun h => hnul (by simp [h])) hne (Or.inr rfl)⟩
  · rw [List.append_assoc, List.append_assoc]
    exact ⟨_, _, _, strtokR_run hspaces hrun (fun h => hnul (by simp [h])) hne (Or.inl rfl)⟩

/-- A turn of the loop on a line `line` that starts at the end of `before`: it puts
`run` into `argv` and goes on with `next` behind `before'`.  What the other turns
write there changes neither the word nor the name in front of it. -/
structure Turn (before line after before' next : Bytes) (run : CString) (p : Nat) :
    Prop where
  words_eq : words line = run.bytes :: words next
  length_lt : next.length < line.length
  noNul : (0 : UInt8) ∉ next
  turn : ∀ fuel argv, tokenise (fuel + 1) (before ++ (line ++ 0 :: after)) before.length argv =
    if argv.length < arglen then
      tokenise fuel (before' ++ (next ++ 0 :: after)) before'.length (argv ++ [p])
    else none
  same : ∀ next' : Bytes, next'.length = next.length →
    ∃ line' : Bytes, line'.length = line.length ∧
      before' ++ (next' ++ 0 :: after) = before ++ (line' ++ 0 :: after)
  word : ∀ next' : Bytes, next'.length = next.length →
    readString (before' ++ (next' ++ 0 :: after)) p = some run
  name : ∀ next' : Bytes, next'.length = next.length →
    (readString (before' ++ (next' ++ 0 :: after)) before.length).map CString.bytes =
      some (programName line)

theorem turn_of_run (hnul : (0 : UInt8) ∉ spaces ++ run)
    (hspaces : ∀ byte ∈ spaces, byte = space) (hrun : space ∉ run) (hne : run ≠ [])
    (hname : programName line = spaces ++ run) {sep next : Bytes}
    (hline : (sep = [] ∧ line = spaces ++ run ∧ next = []) ∨
      (sep = [0] ∧ line = spaces ++ (run ++ space :: next) ∧ (0 : UInt8) ∉ next)) :
    Turn before line after (before ++ (spaces ++ (run ++ sep))) next
      ⟨run, fun h => hnul (List.mem_append_right _ h)⟩ (before.length + spaces.length) := by
  have hrunNul : (0 : UInt8) ∉ run := fun h => hnul (List.mem_append_right _ h)
  have hlen := List.length_pos_iff.mpr hne
  have hlength : before.length + spaces.length = (before ++ spaces).length :=
    List.length_append.symm
  rcases hline with ⟨rfl, rfl, rfl⟩ | ⟨rfl, rfl, hnext⟩
  · refine ⟨?_, by simp; omega, List.not_mem_nil, fun fuel argv => ?_, ?_, ?_, ?_⟩
    · rw [words_spaces hspaces, words_run hrun hne, words_nil]
    · rw [tokenise, List.append_assoc, strtokR_run hspaces hrun hrunNul hne (Or.inr rfl)]
      simp [Nat.add_assoc]
    · intro next' hnext'
      exact ⟨spaces ++ run, rfl, by simp [List.length_eq_zero_iff.mp hnext']⟩
    · intro next' hnext'
      rw [List.length_eq_zero_iff.mp hnext', hlength]
      have hsplit : before ++ (spaces ++ (run ++ [])) ++ ([] ++ 0 :: after) =
          (before ++ spaces) ++
            (CString.stored ⟨run, hrunNul⟩ ++ after) := by
        simp [CString.stored]
      rw [hsplit, readString_eq rfl]
    · intro next' hnext'
      rw [List.length_eq_zero_iff.mp hnext', hname]
      have hsplit : before ++ (spaces ++ (run ++ [])) ++ ([] ++ 0 :: after) =
          before ++ (CString.stored ⟨spaces ++ run, hnul⟩ ++ after) := by
        simp [CString.stored]
      rw [hsplit, readString_eq rfl]
      rfl
  · refine ⟨?_, by simp; omega, hnext, fun fuel argv => ?_, ?_, ?_, ?_⟩
    · rw [words_spaces hspaces, words_run_space hrun hne]
    · have hassoc : before ++ (spaces ++ (run ++ space :: next) ++ 0 :: after) =
          before ++ (spaces ++ (run ++ space :: (next ++ 0 :: after))) := by
        simp
      rw [tokenise, hassoc, strtokR_run hspaces hrun hrunNul hne (Or.inl rfl)]
      simp [Nat.add_assoc, show space ≠ 0 by decide]
    · intro next' hnext'
      exact ⟨spaces ++ (run ++ 0 :: next'), by simp [hnext'], by simp⟩
    · intro next' hnext'
      rw [hlength]
      have hsplit : before ++ (spaces ++ (run ++ [0])) ++ (next' ++ 0 :: after) =
          (before ++ spaces) ++
            (CString.stored ⟨run, hrunNul⟩ ++ (next' ++ 0 :: after)) := by
        simp [CString.stored]
      rw [hsplit, readString_eq rfl]
    · intro next' hnext'
      rw [hname]
      have hsplit : before ++ (spaces ++ (run ++ [0])) ++ (next' ++ 0 :: after) =
          before ++ (CString.stored ⟨spaces ++ run, hnul⟩ ++ (next' ++ 0 :: after)) := by
        simp [CString.stored]
      rw [hsplit, readString_eq rfl]
      rfl

theorem exists_turn (hnul : (0 : UInt8) ∉ line) (hwords : words line ≠ []) (before after : Bytes) :
    ∃ before' next run p, Turn before line after before' next run p := by
  obtain ⟨spaces, tail, rfl, hspaces, rfl | ⟨run, hrun, hne, hname, rfl | ⟨rest, rfl⟩⟩⟩ :=
    words_cases line
  · rw [words_spaces hspaces] at hwords
    exact absurd words_nil hwords
  · exact ⟨_, [], _, _, turn_of_run hnul hspaces hrun hne hname
      (Or.inl ⟨rfl, rfl, rfl⟩)⟩
  · have hnul' : (0 : UInt8) ∉ spaces ++ run := fun h => hnul (by
      rcases List.mem_append.mp h with h | h <;> simp [h])
    exact ⟨_, rest, _, _, turn_of_run hnul' hspaces hrun hne hname
      (Or.inr ⟨rfl, rfl, fun h => hnul (by simp [h])⟩)⟩

theorem spaces_of_no_words (hwords : words line = []) : ∀ byte ∈ line, byte = space := by
  obtain ⟨spaces, tail, rfl, hspaces, rfl | ⟨run, hrun, hne, -, htail⟩⟩ := words_cases line
  · rwa [List.append_nil]
  · rw [words_spaces hspaces] at hwords
    rcases htail with rfl | ⟨rest, rfl⟩
    · rw [words_run hrun hne] at hwords
      cases hwords
    · rw [words_run_space hrun hne] at hwords
      cases hwords

theorem programName_of_no_words (hwords : words line = []) : programName line = line := by
  have hall : ∀ byte ∈ line, decide (byte = space) = true := fun byte hbyte =>
    decide_eq_true (spaces_of_no_words hwords byte hbyte)
  rw [programName, List.takeWhile_eq_self_iff.mpr hall, List.dropWhile_eq_nil_iff.mpr hall]
  exact List.append_nil _

theorem tokenise_of_no_words (hwords : words line = []) :
    tokenise (fuel + 1) (before ++ (line ++ 0 :: after)) before.length argv =
      some (before ++ (line ++ 0 :: after), argv) := by
  rw [tokenise, strtokR_spaces (spaces_of_no_words hwords)]
  rfl

/-- What the words of a line become: `argv` points to them, and the memory around the
line stays. -/
theorem tokenise_spec (hnul : (0 : UInt8) ∉ line) (hfuel : line.length < fuel)
    (hroom : argv.length + (words line).length ≤ arglen) :
    ∃ (line' : Bytes) (positions : List Nat) (args : List CString),
      line'.length = line.length ∧
      tokenise fuel (before ++ (line ++ 0 :: after)) before.length argv =
        some (before ++ (line' ++ 0 :: after), argv ++ positions) ∧
      args.map CString.bytes = words line ∧
      positions.map (readString (before ++ (line' ++ 0 :: after))) = args.map some ∧
      (readString (before ++ (line' ++ 0 :: after)) before.length).map CString.bytes =
        some (programName line) := by
  induction fuel generalizing before line argv with
  | zero => omega
  | succ fuel ih =>
      by_cases hwords : words line = []
      · refine ⟨line, [], [], rfl, ?_, hwords.symm, rfl, ?_⟩
        · rw [tokenise_of_no_words hwords, List.append_nil]
        · have hsplit : before ++ (line ++ 0 :: after) =
              before ++ (CString.stored ⟨line, hnul⟩ ++ after) := by
            simp [CString.stored]
          rw [hsplit, readString_eq rfl, programName_of_no_words hwords]
          rfl
      · obtain ⟨before', next, run, p, hturn⟩ := exists_turn hnul hwords before after
        have hcount : argv.length + ((words next).length + 1) ≤ arglen := by
          rw [hturn.words_eq] at hroom
          exact hroom
        have hlt := hturn.length_lt
        obtain ⟨next', positions, args, hnext', hrun, hargs, hpoints, -⟩ :=
          @ih before' next (argv ++ [p]) hturn.noNul (by omega)
            (by rw [List.length_append, List.length_singleton]; omega)
        obtain ⟨line', hline', hsame⟩ := hturn.same next' hnext'
        refine ⟨line', p :: positions, run :: args, hline', ?_, ?_, ?_, ?_⟩
        · rw [hturn.turn, if_pos (by omega), hrun, hsame, List.append_assoc]
          rfl
        · rw [hturn.words_eq, List.map_cons, hargs]
        · rw [← hsame, List.map_cons, List.map_cons, hpoints, hturn.word next' hnext']
        · rw [← hsame]
          exact hturn.name next' hnext'

/-- More than `ARGLEN` words do not fit into `argv`. -/
theorem tokenise_eq_none (hnul : (0 : UInt8) ∉ line)
    (hargv : argv.length ≤ arglen) (hroom : arglen < argv.length + (words line).length) :
    tokenise fuel (before ++ (line ++ 0 :: after)) before.length argv = none := by
  induction fuel generalizing before line argv with
  | zero => rfl
  | succ fuel ih =>
      have hwords : words line ≠ [] := fun hnil => by
        rw [hnil, List.length_nil] at hroom
        omega
      obtain ⟨before', next, run, p, hturn⟩ := exists_turn hnul hwords before after
      rw [hturn.turn]
      split
      · rw [hturn.words_eq, List.length_cons] at hroom
        refine ih hturn.noNul ?_ ?_ <;>
          rw [List.length_append, List.length_singleton] <;> omega
      · rfl

end Exec
end PintosLabs
