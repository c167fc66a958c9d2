/-
Which job `jobselect` chooses: one of the highest priority, and of these the
one that waits longest, unless the first of them is compared with a wait that
is not its own.  `highest_wait` is not set when a higher priority is found.
-/
import PintosLabs.JobQueue
import Mathlib.Data.List.Induction

namespace PintosLabs

namespace Scheduler

variable {job : Nat → JobInfo} {nodes before after : List Nat} {f a : Nat} {w : Int}

/-- A job of the priority `f` has. -/
def Ties (job : Nat → JobInfo) (f a : Nat) : Prop := (job a).curpri = (job f).curpri

/-- A wait that `jobselect` notes in `highest_wait`, if it is longer than those
before: of a job that ties with the highest before it. -/
def Noted (job : Nat → JobInfo) (nodes : List Nat) (w : Int) : Prop :=
  ∃ before a after, nodes = before ++ a :: after ∧ (∃ b ∈ before, Ties job a b) ∧
    (∀ b ∈ before, (job b).curpri ≤ (job a).curpri) ∧ (job a).waitTime = w

/-- `f` is the first job of the highest priority. -/
structure First (job : Nat → JobInfo) (before : List Nat) (f : Nat) (after : List Nat) :
    Prop where
  before_lt : ∀ b ∈ before, (job b).curpri < (job f).curpri
  after_le : ∀ b ∈ after, (job b).curpri ≤ (job f).curpri

/-- The first job of the highest priority is compared as it should be: it waits no
longer than another of them if one waits longer than what was noted at lower
priorities, and no less than the others if none does. -/
def WaitsCompared (job : Nat → JobInfo) (nodes : List Nat) : Prop :=
  ∀ before f after, nodes = before ++ f :: after → First job before f after →
    ((∃ a ∈ after, Ties job f a ∧ ∀ w, Noted job before w → w < (job a).waitTime) →
      ∃ a ∈ after, Ties job f a ∧ (job f).waitTime ≤ (job a).waitTime) ∧
    ((∀ a ∈ after, Ties job f a → ∃ w, Noted job before w ∧ (job a).waitTime ≤ w) →
      ∀ a ∈ after, Ties job f a → (job a).waitTime ≤ (job f).waitTime)

theorem noted_concat : Noted job (nodes ++ [a]) w ↔ Noted job nodes w ∨
    (∃ b ∈ nodes, Ties job a b) ∧ (∀ b ∈ nodes, (job b).curpri ≤ (job a).curpri) ∧
      (job a).waitTime = w := by
  constructor
  · rintro ⟨before, b, after, hsplit, hnoted⟩
    rcases List.eq_nil_or_concat' after with rfl | ⟨init, last, rfl⟩
    · obtain ⟨rfl, hb⟩ := List.append_inj' hsplit rfl
      obtain rfl : a = b := List.singleton_inj.mp hb
      exact Or.inr hnoted
    · rw [← List.cons_append, ← List.append_assoc] at hsplit
      exact Or.inl ⟨before, b, init, (List.append_inj' hsplit rfl).1, hnoted⟩
  · rintro (⟨before, b, after, rfl, hnoted⟩ | hnoted)
    · exact ⟨before, b, after ++ [a], by simp, hnoted⟩
    · exact ⟨nodes, a, [], rfl, hnoted⟩

/-- What is noted from `f` on are the waits of the jobs that tie with it. -/
theorem First.noted (h : First job before f after) :
    Noted job (before ++ f :: after) w ↔
      Noted job before w ∨ ∃ a ∈ after, Ties job f a ∧ (job a).waitTime = w := by
  induction after using List.reverseRecOn with
  | nil =>
      rw [noted_concat]
      refine or_congr_right (iff_of_false ?_ (by simp))
      rintro ⟨⟨b, hb, htie⟩, -⟩
      exact (Int.ne_of_lt (h.before_lt b hb)) htie
  | append_singleton rest a ih =>
      have hrest : First job before f rest :=
        ⟨h.before_lt, fun b hb => h.after_le b (List.mem_append_left _ hb)⟩
      have hle := h.after_le a (by simp)
      rw [← List.cons_append, ← List.append_assoc, noted_concat, ih hrest, or_assoc]
      refine or_congr_right ?_
      constructor
      · rintro (⟨b, hb, htie⟩ | ⟨-, hmax, hwait⟩)
        · exact ⟨b, List.mem_append_left _ hb, htie⟩
        · exact ⟨a, by simp, Int.le_antisymm hle (hmax f (by simp)), hwait⟩
      · rintro ⟨b, hb, htie, hwait⟩
        rcases List.mem_append.mp hb with hb | hb
        · exact Or.inl ⟨b, hb, htie, hwait⟩
        · obtain rfl : b = a := List.mem_singleton.mp hb
          refine Or.inr ⟨⟨f, by simp, htie.symm⟩, fun c hc => ?_, hwait⟩
          rw [show (job b).curpri = (job f).curpri from htie]
          rcases List.mem_append.mp hc with hc | hc
          · exact Int.le_of_lt (h.before_lt c hc)
          · rcases List.mem_cons.mp hc with rfl | hc
            · exact Int.le_refl _
            · exact hrest.after_le c hc

/-- The decomposition is the only one. -/
theorem First.unique {before' after' : List Nat} {f' : Nat} (h : First job before f after)
    (h' : First job before' f' after')
    (heq : before ++ f :: after = before' ++ f' :: after') :
    before = before' ∧ f = f' ∧ after = after' := by
  have hno : ∀ {b₁ b₂ a₁ a₂ rest : List Nat} {f₁ f₂ : Nat}, First job b₁ f₁ a₁ →
      First job b₂ f₂ a₂ → b₂ = b₁ ++ rest → f₁ :: a₁ = rest ++ f₂ :: a₂ →
        rest = [] := by
    intro b₁ b₂ a₁ a₂ rest f₁ f₂ h₁ h₂ hb hsplit
    cases rest with
    | nil => rfl
    | cons g rest =>
        obtain ⟨rfl, rfl⟩ := List.cons.inj hsplit
        have hlt := h₂.before_lt f₁ (by simp [hb])
        exact absurd (h₁.after_le f₂ (by simp)) (Int.not_le.mpr hlt)
  rcases List.append_eq_append_iff.mp heq with ⟨rest, hb, hf⟩ | ⟨rest, hb, hf⟩
  · obtain rfl := hno h h' hb hf
    obtain ⟨rfl, rfl⟩ := List.cons.inj hf
    exact ⟨by rw [hb, List.append_nil], rfl, rfl⟩
  · obtain rfl := hno h' h hb hf
    obtain ⟨rfl, rfl⟩ := List.cons.inj hf
    exact ⟨by rw [hb, List.append_nil], rfl, rfl⟩

/-- The longest of the noted waits, or -1 if there is none. -/
structure LongestNoted (job : Nat → JobInfo) (nodes : List Nat) (w : Int) : Prop where
  le : ∀ v, Noted job nodes v → v ≤ w
  noted : w = -1 ∨ Noted job nodes w

/-- The job that is chosen: the first of the highest priority, if no other of them
waits longer than what was noted before it, or the first that waits longest of
those that do. -/
def Picks (job : Nat → JobInfo) (before : List Nat) (f : Nat) (after : List Nat)
    (a : Nat) : Prop :=
  (a = f ∧ ∀ b ∈ after, Ties job f b → ∃ w, Noted job before w ∧ (job b).waitTime ≤ w) ∨
    (a ∈ after ∧ Ties job f a ∧ (∀ w, Noted job before w → w < (job a).waitTime) ∧
      ∀ b ∈ after, Ties job f b → (job b).waitTime ≤ (job a).waitTime)

theorem Picks.ties (h : Picks job before f after a) : Ties job f a := by
  rcases h with ⟨rfl, -⟩ | ⟨-, htie, -⟩
  · rfl
  · exact htie

/-- The chosen job waits longest if and only if the waits are compared. -/
theorem Picks.longest_iff (hfirst : First job before f after)
    (h : Picks job before f after a) :
    (∀ b ∈ before ++ f :: after, Ties job a b → (job b).waitTime ≤ (job a).waitTime) ↔
      WaitsCompared job (before ++ f :: after) := by
  have hties : Ties job f a := h.ties
  have hmem : ∀ b ∈ before ++ f :: after, Ties job a b →
      b = f ∨ b ∈ after ∧ Ties job f b := by
    intro b hb htie
    have htie' : Ties job f b := htie.trans hties
    rcases List.mem_append.mp hb with hb | hb
    · exact absurd htie' (Int.ne_of_lt (hfirst.before_lt b hb))
    · exact (List.mem_cons.mp hb).imp_right fun hin => ⟨hin, htie'⟩
  have hfirst_tie : Ties job a f := hties.symm
  constructor
  · intro hlongest before' f' after' hsplit hfirst'
    obtain ⟨rfl, rfl, rfl⟩ := hfirst.unique hfirst' hsplit
    rcases h with ⟨rfl, hnone⟩ | ⟨hin, htie, hnew, hmax⟩
    · refine ⟨fun hsome => ?_, fun _ b hb htie => hlongest b (by simp [hb]) htie⟩
      obtain ⟨b, hb, htie, hfresh⟩ := hsome
      obtain ⟨w, hw, hle⟩ := hnone b hb htie
      exact absurd hle (Int.not_le.mpr (hfresh w hw))
    · refine ⟨fun _ => ⟨a, hin, htie, hlongest f (by simp) hfirst_tie⟩, fun hall => ?_⟩
      obtain ⟨w, hw, hle⟩ := hall a hin htie
      exact absurd hle (Int.not_le.mpr (hnew w hw))
  · intro hcompared b hb htie
    obtain ⟨hlater, hnolater⟩ := hcompared before f after rfl hfirst
    rcases h with ⟨rfl, hnone⟩ | ⟨hin, htie', hnew, hmax⟩
    · rcases hmem b hb htie with rfl | ⟨hb, htie⟩
      · exact Int.le_refl _
      · exact hnolater hnone b hb htie
    · obtain ⟨c, hc, hctie, hle⟩ := hlater ⟨a, hin, htie', hnew⟩
      rcases hmem b hb htie with rfl | ⟨hb, htie⟩
      · exact Int.le_trans hle (hmax c hc hctie)
      · exact hmax b hb htie

/-! The loop. -/

/-- What the loop has found among the nodes it has passed, which it sees in this
order behind `head`. -/
structure Choice.Found (job : Nat → JobInfo) (head : Option Nat) (nodes : List Nat)
    (before : List Nat) (f : Nat) (after : List Nat) (c : Choice) : Prop where
  split : nodes = before ++ f :: after
  first : First job before f after
  highest : c.highest = (job f).curpri
  noted : LongestNoted job nodes c.highestWait
  picked : ∃ passed a rest, nodes = passed ++ a :: rest ∧ c.select = some a ∧
    c.selectprev = NodeHeap.trailing head passed ∧ Picks job before f after a

variable {head : Option Nat} {c : Choice}

theorem LongestNoted.concat (h : LongestNoted job nodes w)
    (htie : (∃ b ∈ nodes, Ties job a b) ∧ ∀ b ∈ nodes, (job b).curpri ≤ (job a).curpri) :
    LongestNoted job (nodes ++ [a]) (max w (job a).waitTime) where
  le v hv := by
    rcases noted_concat.mp hv with hv | ⟨-, -, rfl⟩
    · exact Int.le_trans (h.le v hv) (Int.le_max_left _ _)
    · exact Int.le_max_right _ _
  noted := by
    rcases Int.le_total w (job a).waitTime with hle | hle
    · rw [Int.max_eq_right hle]
      exact Or.inr (noted_concat.mpr (Or.inr ⟨htie.1, htie.2, rfl⟩))
    · rw [Int.max_eq_left hle]
      exact h.noted.imp_right fun hnoted => noted_concat.mpr (Or.inl hnoted)

theorem LongestNoted.concat_of_not (h : LongestNoted job nodes w)
    (hnot : ¬ ((∃ b ∈ nodes, Ties job a b) ∧
      ∀ b ∈ nodes, (job b).curpri ≤ (job a).curpri)) :
    LongestNoted job (nodes ++ [a]) w where
  le v hv := by
    rcases noted_concat.mp hv with hv | ⟨hex, hmax, -⟩
    · exact h.le v hv
    · exact absurd ⟨hex, hmax⟩ hnot
  noted := h.noted.imp_right fun hnoted => noted_concat.mpr (Or.inl hnoted)

/-- A job of a higher priority becomes the first. -/
theorem Choice.Found.higher (h : Choice.Found job head nodes before f after c)
    (hlt : (job f).curpri < (job a).curpri) :
    Choice.Found job head (nodes ++ [a]) nodes a []
      { c with
        select := some a
        selectprev := NodeHeap.trailing head nodes
        highest := (job a).curpri } := by
  have hall : ∀ b ∈ nodes, (job b).curpri < (job a).curpri := by
    intro b hb
    rw [h.split] at hb
    rcases List.mem_append.mp hb with hb | hb
    · exact Int.lt_trans (h.first.before_lt b hb) hlt
    · rcases List.mem_cons.mp hb with rfl | hb
      · exact hlt
      · exact Int.lt_of_le_of_lt (h.first.after_le b hb) hlt
  refine ⟨rfl, ⟨hall, nofun⟩, rfl, h.noted.concat_of_not ?_,
    ⟨nodes, a, [], rfl, rfl, rfl, Or.inl ⟨rfl, nofun⟩⟩⟩
  rintro ⟨⟨b, hb, htie⟩, -⟩
  exact (Int.ne_of_lt (hall b hb)) htie

/-- A job of a lower priority changes nothing. -/
theorem Choice.Found.lower (h : Choice.Found job head nodes before f after c)
    (hlt : (job a).curpri < (job f).curpri) :
    Choice.Found job head (nodes ++ [a]) before f (after ++ [a]) c := by
  obtain ⟨passed, b, rest, hsplit, hselect, hprev, hpicks⟩ := h.picked
  have hf : f ∈ nodes := by
    rw [h.split]
    simp
  have hties : ∀ d ∈ after ++ [a], Ties job f d → d ∈ after := by
    intro d hd htie
    rcases List.mem_append.mp hd with hd | hd
    · exact hd
    · obtain rfl : d = a := List.mem_singleton.mp hd
      exact absurd htie (Int.ne_of_lt hlt)
  refine ⟨by rw [h.split]; simp, ⟨h.first.before_lt, fun d hd => ?_⟩, h.highest,
    h.noted.concat_of_not fun hmax => Int.not_le.mpr hlt (hmax.2 f hf),
    ⟨passed, b, rest ++ [a], by rw [hsplit]; simp, hselect, hprev, ?_⟩⟩
  · rcases List.mem_append.mp hd with hd | hd
    · exact h.first.after_le d hd
    · rw [List.mem_singleton.mp hd]
      exact Int.le_of_lt hlt
  · rcases hpicks with ⟨hbf, hnone⟩ | ⟨hin, htie, hnew, hmax⟩
    · exact Or.inl ⟨hbf, fun d hd htie => hnone d (hties d hd htie) htie⟩
    · exact Or.inr ⟨List.mem_append_left _ hin, htie, hnew,
        fun d hd htie => hmax d (hties d hd htie) htie⟩

/-- A job of the highest priority is chosen if it waits longer than what was noted. -/
theorem Choice.Found.tie (h : Choice.Found job head nodes before f after c)
    (hpos : 0 ≤ (job a).waitTime) (htie : Ties job f a) :
    Choice.Found job head (nodes ++ [a]) before f (after ++ [a])
      (if (job a).waitTime > c.highestWait then
        { c with
          select := some a
          selectprev := NodeHeap.trailing head nodes
          highestWait := (job a).waitTime }
      else c) := by
  obtain ⟨passed, b, rest, hsplit, hselect, hprev, hpicks⟩ := h.picked
  have hfirst : First job before f (after ++ [a]) := by
    refine ⟨h.first.before_lt, fun d hd => ?_⟩
    rcases List.mem_append.mp hd with hd | hd
    · exact h.first.after_le d hd
    · rw [List.mem_singleton.mp hd]
      exact Int.le_of_eq htie
  have hall : (∃ d ∈ nodes, Ties job a d) ∧
      ∀ d ∈ nodes, (job d).curpri ≤ (job a).curpri := by
    refine ⟨⟨f, by rw [h.split]; simp, htie.symm⟩, fun d hd => ?_⟩
    rw [h.split] at hd
    rw [show (job a).curpri = (job f).curpri from htie]
    rcases List.mem_append.mp hd with hd | hd
    · exact Int.le_of_lt (h.first.before_lt d hd)
    · rcases List.mem_cons.mp hd with rfl | hd
      · exact Int.le_refl _
      · exact h.first.after_le d hd
  have hnoted := h.noted.concat hall
  have hnodes : ∀ {w}, Noted job nodes w ↔
      Noted job before w ∨ ∃ d ∈ after, Ties job f d ∧ (job d).waitTime = w := by
    intro w
    rw [h.split]
    exact h.first.noted
  have hsplit' : nodes ++ [a] = before ++ f :: (after ++ [a]) := by
    rw [h.split]
    simp
  split_ifs with hgt
  · rw [Int.max_eq_right (Int.le_of_lt hgt)] at hnoted
    refine ⟨hsplit', hfirst, h.highest, hnoted, ⟨nodes, a, [], rfl, rfl, rfl,
      Or.inr ⟨by simp, htie, fun w hw => ?_, fun d hd hdtie => ?_⟩⟩⟩
    · exact Int.lt_of_le_of_lt (h.noted.le w (hnodes.mpr (Or.inl hw))) hgt
    · rcases List.mem_append.mp hd with hd | hd
      · exact Int.le_of_lt (Int.lt_of_le_of_lt
          (h.noted.le _ (hnodes.mpr (Or.inr ⟨d, hd, hdtie, rfl⟩))) hgt)
      · exact Int.le_of_eq (congrArg (fun b => (job b).waitTime) (List.mem_singleton.mp hd))
  · have hle : (job a).waitTime ≤ c.highestWait := Int.not_lt.mp hgt
    rw [Int.max_eq_left hle] at hnoted
    -- what was noted was noted before `f`, or is the wait of a job that ties with it
    have hbound := hnodes.mp (h.noted.noted.resolve_left fun hnone => by omega)
    refine ⟨hsplit', hfirst, h.highest, hnoted, ⟨passed, b, rest ++ [a],
      by rw [hsplit]; simp, hselect, hprev, ?_⟩⟩
    rcases hpicks with ⟨hbf, hnone⟩ | ⟨hin, hbtie, hnew, hmax⟩
    · refine Or.inl ⟨hbf, fun d hd hdtie => ?_⟩
      rcases List.mem_append.mp hd with hd | hd
      · exact hnone d hd hdtie
      · rw [List.mem_singleton.mp hd]
        rcases hbound with hbefore | ⟨e, he, hetie, hwait⟩
        · exact ⟨_, hbefore, hle⟩
        · obtain ⟨w, hw, hle'⟩ := hnone e he hetie
          exact ⟨w, hw, Int.le_trans (hwait ▸ hle) hle'⟩
    · refine Or.inr ⟨List.mem_append_left _ hin, hbtie, hnew, fun d hd hdtie => ?_⟩
      rcases List.mem_append.mp hd with hd | hd
      · exact hmax d hd hdtie
      · rw [List.mem_singleton.mp hd]
        rcases hbound with hbefore | ⟨e, he, hetie, hwait⟩
        · exact Int.le_trans hle (Int.le_of_lt (hnew _ hbefore))
        · exact Int.le_trans (hwait ▸ hle) (hmax e he hetie)

/-- One round of the loop. -/
theorem Choice.Found.look (h : Choice.Found job head nodes before f after c)
    (hpos : 0 ≤ (job a).waitTime) :
    ∃ before' f' after', Choice.Found job head (nodes ++ [a]) before' f' after'
      (Choice.look job c (NodeHeap.trailing head nodes) a) := by
  have hhighest := h.highest
  rw [Choice.look]
  rcases Int.lt_trichotomy (job f).curpri (job a).curpri with hlt | heq | hgt
  · rw [if_pos (by omega)]
    exact ⟨_, _, _, h.higher hlt⟩
  · have htie : (job a).curpri = c.highest := by omega
    rw [if_neg (by omega)]
    simp only [htie, true_and]
    exact ⟨before, f, after ++ [a], h.tie hpos heq.symm⟩
  · rw [if_neg (by omega), if_neg (by omega)]
    exact ⟨_, _, _, h.lower hgt⟩

/-- A queue of jobs that `jobselect` may look at. -/
structure Waiting (k : Scheduler) (nodes : List Nat) : Prop where
  list : Segment k.heap.next k.head nodes none
  lt_size : ∀ a ∈ nodes, a < k.heap.size
  curpri : ∀ a ∈ nodes, 0 ≤ (k.job a).curpri
  wait : ∀ a ∈ nodes, 0 ≤ (k.job a).waitTime

/-- `jobselect` takes out one of the jobs of the highest priority and leaves the others
in their order; the job waits longest of those if and only if their waits are
compared with what was noted among them. -/
theorem jobselect_longest_iff {k : Scheduler} (h : k.Waiting nodes) (hne : nodes ≠ []) :
    ∃ k' before a after, k.jobselect = some k' ∧ k'.next = some a ∧
      nodes = before ++ a :: after ∧
      Segment k'.heap.next k'.head (before ++ after) none ∧ k'.heap.next a = none ∧
      (∀ b ∈ nodes, (k.job b).curpri ≤ (k.job a).curpri) ∧
      ((∀ b ∈ nodes, (k.job b).curpri = (k.job a).curpri →
        (k.job b).waitTime ≤ (k.job a).waitTime) ↔ WaitsCompared k.job nodes) := by
  have hprev : nodes ≠ [] → k.head = NodeHeap.trailing k.head [] := fun _ => rfl
  have hsplit : nodes = [] ++ nodes := rfl
  have hnone : ∀ {P : Nat → Prop}, ∀ b ∈ ([] : List Nat), P b := fun _ h => by cases h
  obtain ⟨c, hfold, hc⟩ := NodeHeap.foldPairs_spec (n := k.heap.size + 1)
    (Choice.look k.job) (P := fun passed c => passed = [] ∧ c = ⟨none, none, -1, -1⟩ ∨
      ∃ before f after, Choice.Found k.job k.head passed before f after c)
    (fun {passed a after c} hnodes hc => by
      have hcurpri := h.curpri a (by simp [hnodes])
      have hwait := h.wait a (by simp [hnodes])
      rcases hc with ⟨rfl, rfl⟩ | ⟨before, f, rest, hfound⟩
      · rw [Choice.look, if_pos (by change (-1 : Int) < _; omega)]
        refine Or.inr ⟨[], a, [], rfl, ⟨hnone, hnone⟩, rfl, ⟨fun w hw => ?_, Or.inl rfl⟩,
          ⟨[], a, [], rfl, rfl, rfl, Or.inl ⟨rfl, hnone⟩⟩⟩
        rcases noted_concat.mp hw with ⟨_, _, _, hnil, -⟩ | ⟨⟨b, hb, -⟩, -⟩
        · exact absurd hnil (by simp)
        · exact absurd hb List.not_mem_nil
      · exact Or.inr (hfound.look hwait))
    hsplit hprev h.list (Nat.lt_succ_of_le (h.list.length_le h.lt_size))
    (Or.inl ⟨rfl, rfl⟩)
  obtain ⟨before, f, after, hfound⟩ := hc.resolve_left fun hnil => hne hnil.1
  obtain ⟨passed, a, rest, hnodes, hselect, hselectprev, hpicks⟩ := hfound.picked
  obtain ⟨first, hhead⟩ : ∃ first, k.head = some first := by
    obtain ⟨b, tail, hcons⟩ := List.exists_cons_of_ne_nil hne
    have hlist := h.list
    rw [hcons] at hlist
    exact ⟨b, hlist.head_eq⟩
  have hlist := h.list
  rw [hnodes] at hlist
  obtain ⟨heap, head, hunlink, hlist', hnext, -⟩ := NodeHeap.unlink_spec hlist
  refine ⟨{ k with heap := heap, head := head, next := some a }, passed, a, rest, ?_, rfl,
    hnodes, hlist', hnext, fun b hb => ?_, ?_⟩
  · rw [jobselect]
    simp only [hhead] at hfold hselectprev hunlink ⊢
    simp only [hfold, Option.bind_eq_bind, Option.bind_some, hselect, hselectprev, hunlink]
  · rw [show (k.job a).curpri = (k.job f).curpri from hpicks.ties]
    rw [hfound.split] at hb
    rcases List.mem_append.mp hb with hb | hb
    · exact Int.le_of_lt (hfound.first.before_lt b hb)
    · rcases List.mem_cons.mp hb with rfl | hb
      · exact Int.le_refl _
      · exact hfound.first.after_le b hb
  · rw [hfound.split]
    exact hpicks.longest_iff hfound.first

namespace JobSelectWitness

/-- Two jobs of priority 3 in the queue. -/
def two (wait₀ wait₁ : Int) : Scheduler :=
  { boot with
    heap := ⟨fun a => ⟨a + 1, a + 100, 3, 3, if a = 0 then wait₀ else wait₁, 0, .ready⟩,
      fun a => if a = 0 then some 1 else none, 2⟩
    head := some 0 }

theorem two_waiting {wait₀ wait₁ : Int} (h₀ : 0 ≤ wait₀) (h₁ : 0 ≤ wait₁) :
    (two wait₀ wait₁).Waiting [0, 1] where
  list := ⟨rfl, rfl, rfl⟩
  lt_size := by
    change ∀ a ∈ [0, 1], a < 2
    decide
  curpri := by
    intro a _
    change (0 : Int) ≤ 3
    decide
  wait := by
    intro a _
    change 0 ≤ if a = 0 then wait₀ else wait₁
    split
    · exact h₀
    · exact h₁

theorem jobselect_longest_two : ∃ k' before a after,
    (two 2 5).jobselect = some k' ∧ k'.next = some a ∧ [0, 1] = before ++ a :: after ∧
      Segment k'.heap.next k'.head (before ++ after) none := by
  obtain ⟨k', before, a, after, hselect, hnext, hsplit, hlist, -⟩ :=
    jobselect_longest_iff (two_waiting (by decide : (0 : Int) ≤ 2)
      (by decide : (0 : Int) ≤ 5)) (by decide)
  exact ⟨k', before, a, after, hselect, hnext, hsplit, hlist⟩

/-- The first job waits longer, and the second is chosen. -/
theorem first_passed_over : ∃ k k' : Scheduler, k.Waiting [0, 1] ∧ k.jobselect = some k' ∧
    k'.next = some 1 ∧ (k.job 0).curpri = (k.job 1).curpri ∧
      (k.job 1).waitTime < (k.job 0).waitTime := by
  have hselect : ((two 5 2).jobselect.map Scheduler.next) = some (some 1) := by
    decide +kernel
  obtain ⟨k', hk', hnext⟩ := Option.map_eq_some_iff.mp hselect
  exact ⟨two 5 2, k', two_waiting (by decide) (by decide), hk', hnext, rfl,
    show (2 : Int) < 5 by decide⟩

end JobSelectWitness

end Scheduler

end PintosLabs
