/-
The second-chance queue: pages with reference bits, where a hit sets the bit, a
miss moves the front pages whose bit is set to the back, with the bit cleared,
and gives up the first one whose bit is clear.  It is compared with a queue that
takes the bit of the page loaded last away at the next miss already.
-/
import Mathlib.Data.List.Induction
import Mathlib.Data.List.Nodup
import Mathlib.Data.List.TakeWhile
import PintosLabs.Machine

namespace PintosLabs

namespace SecondChance

universe u

variable {P : Type u}

/-- The pages of a queue, each with its reference bit; the front is first. -/
abbrev Queue (P : Type u) := List (P × Bool)

def pages (q : Queue P) : List P := q.map Prod.fst

/-- A hit sets the bit. -/
def touch [DecidableEq P] (p : P) (q : Queue P) : Queue P :=
  q.map fun e => if e.1 = p then (p, true) else e

def clear (e : P × Bool) : P × Bool := (e.1, false)

/-- Front pages whose bit is set move to the back with the bit cleared. -/
def turn : Nat → Queue P → Queue P
  | n + 1, (p, true) :: rest => turn n (rest ++ [(p, false)])
  | _, q => q

/-- A miss, and the page that makes way if the queue is full. -/
def load (K : Nat) (q : Queue P) (p : P) : Queue P × Option P :=
  if q.length < K then (q ++ [(p, true)], none)
  else
    match turn (q.length + 1) q with
    | [] => ([(p, true)], none)
    | (victim, _) :: rest => (rest ++ [(p, true)], some victim)

/-- The textbook clock with `K` frames. -/
def textbook [DecidableEq P] (K : Nat) : Machine (Queue P) P (Option P) where
  step q p := if p ∈ pages q then (touch p q, none) else load K q p

/-- The page loaded last loses its bit. -/
def clearLast : Queue P → Queue P
  | [] => []
  | [e] => [clear e]
  | e :: rest => e :: clearLast rest

/-- The clock that takes the bit of the page loaded last away at the next
miss. -/
def hasty [DecidableEq P] (K : Nat) : Machine (Queue P) P (Option P) where
  step q p := if p ∈ pages q then (touch p q, none) else load K (clearLast q) p

/-- The pages that make way, in their order. -/
def evictions {S : Type u} (M : Machine S P (Option P)) (s : S) (requests : List P) :
    List P :=
  (M.outputs s requests).filterMap id

theorem evictions_cons {S : Type u} (M : Machine S P (Option P)) (s : S) (p : P)
    (rest : List P) :
    evictions M s (p :: rest) =
      (M.step s p).2.toList ++ evictions M (M.step s p).1 rest := by
  rw [evictions, Machine.outputs, List.filterMap_cons]
  cases (M.step s p).2 <;> rfl

@[simp] theorem pages_append (q q' : Queue P) : pages (q ++ q') = pages q ++ pages q' :=
  List.map_append

@[simp] theorem pages_cons (e : P × Bool) (q : Queue P) :
    pages (e :: q) = e.1 :: pages q := rfl

@[simp] theorem pages_touch [DecidableEq P] (p : P) (q : Queue P) : pages (touch p q) = pages q := by
  rw [pages, touch, List.map_map]
  refine List.map_congr_left fun e _ => ?_
  by_cases h : e.1 = p <;> simp [h]

theorem clearLast_append (q : Queue P) (e : P × Bool) :
    clearLast (q ++ [e]) = q ++ [clear e] := by
  induction q with
  | nil => rfl
  | cons e' rest ih =>
      rw [List.cons_append, List.cons_append, ← ih]
      cases h : rest ++ [e] with
      | nil => exact absurd h (by simp)
      | cons e'' rest' => rfl

@[simp] theorem length_clearLast (q : Queue P) : (clearLast q).length = q.length := by
  cases q using List.reverseRecOn with
  | nil => rfl
  | append_singleton q e => rw [clearLast_append, List.length_append, List.length_append]; rfl

/-- The front pages whose bit is set are passed. -/
theorem turn_pass {n : Nat} {before after : Queue P} (hn : before.length ≤ n)
    (hbefore : ∀ e ∈ before, e.2 = true) :
    turn n (before ++ after) = turn (n - before.length) (after ++ before.map clear) := by
  induction before generalizing n after with
  | nil => simp
  | cons e rest ih =>
      obtain ⟨p, bit⟩ := e
      rw [List.forall_mem_cons] at hbefore
      obtain ⟨n, rfl⟩ : ∃ k, n = k + 1 := ⟨n - 1, by rw [List.length_cons] at hn; omega⟩
      obtain rfl : bit = true := hbefore.1
      rw [List.cons_append, turn, List.append_assoc, ih (Nat.le_of_succ_le_succ hn) hbefore.2,
        List.length_cons, Nat.add_sub_add_right, List.append_assoc]
      rfl

theorem turn_stop (n : Nat) (p : P) (rest : Queue P) :
    turn n ((p, false) :: rest) = (p, false) :: rest := by
  cases n <;> rfl

/-- The first page whose bit is clear makes way. -/
theorem load_full {K : Nat} {before after : Queue P} {victim p : P}
    (hfull : K ≤ (before ++ (victim, false) :: after).length)
    (hbefore : ∀ e ∈ before, e.2 = true) :
    load K (before ++ (victim, false) :: after) p =
      (after ++ before.map clear ++ [(p, true)], some victim) := by
  rw [load, if_neg (Nat.not_lt.mpr hfull), turn_pass (by simp; omega) hbefore,
    List.cons_append, turn_stop]

/-- Where every bit is set the front page makes way, after a whole round. -/
theorem load_round {K : Nat} {front p : P} {rest : Queue P}
    (hfull : K ≤ ((front, true) :: rest).length) (hrest : ∀ e ∈ rest, e.2 = true) :
    load K ((front, true) :: rest) p =
      (rest.map clear ++ [(p, true)], some front) := by
  have hall : ∀ e ∈ (front, true) :: rest, e.2 = true := by
    rw [List.forall_mem_cons]
    exact ⟨rfl, hrest⟩
  have hpass := @turn_pass P _ _ [] (Nat.le_succ ((front, true) :: rest).length) hall
  rw [List.append_nil, List.nil_append, List.map_cons, clear, turn_stop] at hpass
  rw [load, if_neg (Nat.not_lt.mpr hfull), hpass]

/-- The first page whose bit is clear. -/
theorem exists_first_clear {q : Queue P} (h : ∃ e ∈ q, e.2 = false) :
    ∃ before victim after, q = before ++ (victim, false) :: after ∧
      ∀ e ∈ before, e.2 = true := by
  induction q with
  | nil =>
      obtain ⟨e, hmem, -⟩ := h
      exact absurd hmem List.not_mem_nil
  | cons e rest ih =>
      obtain ⟨p, bit⟩ := e
      cases bit with
      | false => exact ⟨[], p, rest, rfl, by simp⟩
      | true =>
          have hrest : ∃ e ∈ rest, e.2 = false := by
            obtain ⟨e, hmem, hclear⟩ := h
            rcases List.mem_cons.mp hmem with rfl | hmem
            · exact absurd hclear (by simp)
            · exact ⟨e, hmem, hclear⟩
          obtain ⟨before, victim, after, rfl, hbefore⟩ := ih hrest
          refine ⟨(p, true) :: before, victim, after, rfl, ?_⟩
          rw [List.forall_mem_cons]
          exact ⟨rfl, hbefore⟩

/-! A page that is remembered with both bits: the one of the textbook clock,
and whether it was hit again since the first miss after the one that loaded it
(or since it was last passed for another page to make way). -/

structure Resident (P : Type u) where
  page : P
  bit : Bool
  again : Bool

namespace Resident

/-- A page that has just been loaded. -/
def new (p : P) : Resident P := ⟨p, true, true⟩

def forget (e : Resident P) : Resident P := { e with again := false }

def passed (e : Resident P) : Resident P := ⟨e.page, false, false⟩

/-- The queue of the textbook clock. -/
def ofTextbook (q : List (Resident P)) : Queue P := q.map fun e => (e.page, e.bit)

/-- The queue of the hasty clock, as long as it gives up the same pages. -/
def ofHasty (q : List (Resident P)) : Queue P := q.map fun e => (e.page, e.again)

def pages (q : List (Resident P)) : List P := q.map Resident.page

def touch [DecidableEq P] (p : P) (q : List (Resident P)) : List (Resident P) :=
  q.map fun e => if e.page = p then new p else e

/-- What the textbook clock leaves of a full queue after a miss: the pages
before the victim have been passed, all of them if no bit was clear. -/
def replace (q : List (Resident P)) : List (Resident P) :=
  match q.dropWhile Resident.bit with
  | _ :: after => after ++ (q.takeWhile Resident.bit).map passed
  | [] => q.tail.map fun e => { e with bit := false }

/-- The page loaded last is no longer taken as hit again. -/
def forgetLast (q : List (Resident P)) : List (Resident P) :=
  q.dropLast ++ (q.getLast?.map forget).toList

/-- One request, as the textbook clock serves it. -/
def next [DecidableEq P] (K : Nat) (q : List (Resident P)) (p : P) : List (Resident P) :=
  if p ∈ pages q then touch p q
  else if q.length < K then forgetLast q ++ [new p]
  else replace (forgetLast q) ++ [new p]

/-- The pages that the textbook clock passes on a miss. -/
def spared (q : List (Resident P)) : List (Resident P) :=
  match q.dropWhile Resident.bit with
  | _ :: _ => q.takeWhile Resident.bit
  | [] => []

/-- The page that makes way in the textbook clock. -/
def victim? (q : List (Resident P)) : Option (Resident P) :=
  match q.dropWhile Resident.bit with
  | victim :: _ => some victim
  | [] => q.head?

/-- Every page that the textbook clock passes was hit again, and the one that
makes way was not. -/
def HitAgain (q : List (Resident P)) : Prop :=
  (∀ e ∈ spared q, e.again = true) ∧ ∀ e ∈ victim? q, e.again = false

/-- Every miss of a full queue finds the pages hit again that are passed. -/
def AllHitAgain [DecidableEq P] (K : Nat) : List (Resident P) → List P → Prop
  | _, [] => True
  | q, p :: rest =>
      (p ∉ pages q → q.length = K → HitAgain q) ∧ AllHitAgain K (next K q p) rest

/-- The queue while both clocks agree. -/
structure Inv (K : Nat) (q : List (Resident P)) : Prop where
  nodup : (pages q).Nodup
  length_le : q.length ≤ K
  last : ∀ e ∈ q.getLast?, e.bit = true ∧ e.again = true

variable {K : Nat} {q before after : List (Resident P)} {v last : Resident P} {p : P}

@[simp] theorem pages_ofTextbook (q : List (Resident P)) :
    SecondChance.pages (ofTextbook q) = pages q := by
  rw [SecondChance.pages, ofTextbook, List.map_map]
  rfl

@[simp] theorem pages_ofHasty (q : List (Resident P)) :
    SecondChance.pages (ofHasty q) = pages q := by
  rw [SecondChance.pages, ofHasty, List.map_map]
  rfl

@[simp] theorem length_ofTextbook (q : List (Resident P)) :
    (ofTextbook q).length = q.length := List.length_map _

@[simp] theorem length_ofHasty (q : List (Resident P)) :
    (ofHasty q).length = q.length := List.length_map _

theorem forgetLast_append (q : List (Resident P)) (e : Resident P) :
    forgetLast (q ++ [e]) = q ++ [forget e] := by
  rw [forgetLast, List.dropLast_concat, List.getLast?_concat]
  rfl

theorem ofTextbook_forgetLast (q : List (Resident P)) :
    ofTextbook (forgetLast q) = ofTextbook q := by
  cases q using List.reverseRecOn with
  | nil => rfl
  | append_singleton q e =>
      rw [forgetLast_append, ofTextbook, ofTextbook, List.map_append, List.map_append]
      rfl

theorem ofHasty_forgetLast (q : List (Resident P)) :
    ofHasty (forgetLast q) = clearLast (ofHasty q) := by
  cases q using List.reverseRecOn with
  | nil => rfl
  | append_singleton q e =>
      rw [forgetLast_append, ofHasty, ofHasty, List.map_append, List.map_append,
        List.map_singleton, List.map_singleton, clearLast_append]
      rfl

theorem pages_forgetLast (q : List (Resident P)) : pages (forgetLast q) = pages q := by
  rw [← pages_ofTextbook, ofTextbook_forgetLast, pages_ofTextbook]

/-- How a full queue divides: the pages that are passed, the one that makes
way, the others and the page loaded last. -/
structure Parts (q before : List (Resident P)) (v : Resident P)
    (after : List (Resident P)) (last : Resident P) : Prop where
  eq : q = before ++ v :: (after ++ [last])
  before_bit : ∀ e ∈ before, e.bit = true
  last_bit : last.bit = true
  victim : v.bit = false ∨ before = [] ∧ v.bit = true ∧ ∀ e ∈ after, e.bit = true

theorem Inv.parts (h : Inv K q) (hK : 2 ≤ K) (hfull : q.length = K) :
    ∃ before v after last, Parts q before v after last := by
  cases q using List.reverseRecOn with
  | nil => simp at hfull; omega
  | append_singleton q last =>
      have hlast := h.last last (by simp)
      by_cases hall : ∀ e ∈ q, e.bit = true
      · cases q with
        | nil => simp at hfull; omega
        | cons v after =>
            rw [List.forall_mem_cons] at hall
            exact ⟨[], v, after, last, rfl, by simp, hlast.1, Or.inr ⟨rfl, hall⟩⟩
      · have hclear : ∃ e ∈ q, ¬ e.bit = true := by
          by_contra hnone
          exact hall fun e he => by_contra fun hbit => hnone ⟨e, he, hbit⟩
        obtain ⟨v, hv⟩ : ∃ v, q.find? (fun e => ! e.bit) = some v := by
          rw [← Option.isSome_iff_exists, List.find?_isSome]
          simpa using hclear
        obtain ⟨hbit, before, after, rfl, hbefore⟩ := List.find?_eq_some_iff_append.mp hv
        exact ⟨before, v, after, last, by simp, by simpa using hbefore, hlast.1,
          Or.inl (by simpa using hbit)⟩

theorem Parts.dropWhile (h : Parts q before v after last) (hv : v.bit = false)
    (last' : Resident P) :
    (before ++ v :: (after ++ [last'])).dropWhile Resident.bit =
        v :: (after ++ [last']) ∧
      (before ++ v :: (after ++ [last'])).takeWhile Resident.bit = before := by
  rw [List.dropWhile_append_of_pos h.before_bit, List.takeWhile_append_of_pos h.before_bit,
    List.dropWhile_cons_of_neg (by simp [hv]), List.takeWhile_cons_of_neg (by simp [hv]),
    List.append_nil]
  exact ⟨rfl, rfl⟩

theorem Parts.dropWhile_round (h : Parts q before v after last) (hv : v.bit = true)
    {last' : Resident P} (hlast : last'.bit = true) :
    before = [] ∧ (v :: (after ++ [last'])).dropWhile Resident.bit = [] := by
  obtain ⟨rfl, -, hafter⟩ := h.victim.resolve_left (by simp [hv])
  refine ⟨rfl, ?_⟩
  rw [List.dropWhile_eq_nil_iff]
  intro e he
  rcases List.mem_cons.mp he with rfl | he
  · exact hv
  rcases List.mem_append.mp he with he | he
  · exact hafter e he
  · rw [List.mem_singleton.mp he]
    exact hlast

theorem Parts.hitAgain_iff (h : Parts q before v after last) :
    HitAgain q ↔ (∀ e ∈ before, e.again = true) ∧ v.again = false := by
  rw [HitAgain, spared, victim?, h.eq]
  cases hv : v.bit with
  | false =>
      obtain ⟨hdrop, htake⟩ := h.dropWhile hv last
      simp only [hdrop, htake, Option.mem_def, Option.some.injEq, forall_eq']
  | true =>
      obtain ⟨rfl, hdrop⟩ := h.dropWhile_round hv h.last_bit
      simp only [hdrop, List.nil_append, List.head?_cons, Option.mem_def,
        Option.some.injEq, forall_eq']

theorem Parts.replace_eq (h : Parts q before v after last) :
    replace (forgetLast q) =
      (if v.bit = true then (after ++ [forget last]).map fun e => { e with bit := false }
        else after ++ [forget last]) ++ before.map passed := by
  have hq : forgetLast q = before ++ v :: (after ++ [forget last]) := by
    rw [h.eq, ← List.cons_append, ← List.append_assoc, forgetLast_append, List.append_assoc,
      List.cons_append]
  rw [replace, hq]
  cases hv : v.bit with
  | false =>
      obtain ⟨hdrop, htake⟩ := h.dropWhile hv (forget last)
      simp only [hdrop, htake, Bool.false_eq_true, if_false]
  | true =>
      obtain ⟨rfl, hdrop⟩ := @Parts.dropWhile_round _ _ _ _ _ _ h hv (forget last) h.last_bit
      simp only [hdrop, List.nil_append, List.tail_cons, if_true, List.map_nil,
        List.append_nil]

/-- The textbook clock on a full queue. -/
theorem Parts.textbook_load (h : Parts q before v after last) (hfull : q.length = K)
    (p : P) :
    load K (ofTextbook q) p =
      (ofTextbook (replace (forgetLast q) ++ [new p]), some v.page) := by
  rw [h.replace_eq, ofTextbook, h.eq, List.map_append, List.map_cons]
  have hlen : K ≤ (before.map (fun e => (e.page, e.bit)) ++ (v.page, v.bit) ::
      (after ++ [last]).map fun e => (e.page, e.bit)).length := by
    rw [← hfull, h.eq]
    simp
  have hpassed : (before.map fun e => (e.page, e.bit)).map clear =
      (before.map passed).map fun e => (e.page, e.bit) := by
    rw [List.map_map, List.map_map]
    rfl
  cases hv : v.bit with
  | false =>
      rw [hv] at hlen
      rw [load_full hlen (by simpa using h.before_bit), hpassed]
      simp [ofTextbook, new, forget]
  | true =>
      obtain ⟨rfl, -, hafter⟩ := h.victim.resolve_left (by simp [hv])
      rw [hv] at hlen
      rw [List.map_nil, List.nil_append] at hlen ⊢
      have hall : ∀ e ∈ (after ++ [last]).map fun e => (e.page, e.bit), e.2 = true := by
        simpa [or_imp, forall_and, h.last_bit] using hafter
      rw [load_round hlen hall]
      simp [ofTextbook, new, forget, clear, Function.comp_def]

/-- The hasty clock on a full queue of which the passed pages were hit again. -/
theorem Parts.hasty_load (h : Parts q before v after last) (hfull : q.length = K)
    (hagain : HitAgain q) (p : P) :
    load K (clearLast (ofHasty q)) p =
      (ofHasty (replace (forgetLast q) ++ [new p]), some v.page) := by
  obtain ⟨hbefore, hv⟩ := h.hitAgain_iff.mp hagain
  have hq : clearLast (ofHasty q) = before.map (fun e => (e.page, e.again)) ++
      (v.page, false) :: (after ++ [forget last]).map fun e => (e.page, e.again) := by
    rw [← ofHasty_forgetLast, h.eq, ← List.cons_append, ← List.append_assoc,
      forgetLast_append, ofHasty, List.append_assoc, List.cons_append, List.map_append,
      List.map_cons, hv]
  have hlen := congrArg List.length hq
  rw [length_clearLast, length_ofHasty, hfull] at hlen
  rw [hq, load_full hlen.le (by simpa using hbefore), h.replace_eq, List.map_map]
  cases hvbit : v.bit with
  | false => simp [ofHasty, new, passed, Function.comp_def, clear]
  | true => simp [ofHasty, new, passed, Function.comp_def, clear]

/-- Otherwise it gives up another page. -/
theorem Parts.hasty_other (h : Parts q before v after last) (hfull : q.length = K)
    (hnodup : (pages q).Nodup) (hagain : ¬ HitAgain q) (p : P) :
    ∃ w, w ≠ v.page ∧ (load K (clearLast (ofHasty q)) p).2 = some w := by
  have hq : clearLast (ofHasty q) = before.map (fun e => (e.page, e.again)) ++
      (v.page, v.again) :: (after ++ [forget last]).map fun e => (e.page, e.again) := by
    rw [← ofHasty_forgetLast, h.eq, ← List.cons_append, ← List.append_assoc,
      forgetLast_append, ofHasty, List.append_assoc, List.cons_append, List.map_append,
      List.map_cons]
  have hclear : ∃ e ∈ clearLast (ofHasty q), e.2 = false :=
    ⟨(last.page, false), by rw [hq]; simp [forget], rfl⟩
  obtain ⟨passed, w, rest, hsplit, hpassed⟩ := exists_first_clear hclear
  have hlen : (clearLast (ofHasty q)).length = K := by
    rw [length_clearLast, length_ofHasty, hfull]
  refine ⟨w, ?_, by rw [hsplit, load_full (by rw [← hsplit, hlen]) hpassed]⟩
  rintro rfl
  have hpages : SecondChance.pages (clearLast (ofHasty q)) = pages q := by
    rw [← ofHasty_forgetLast, pages_ofHasty, pages_forgetLast]
  -- one page stands at one place only
  have hnodup' := hnodup
  rw [← hpages, hsplit, pages_append, pages_cons, List.nodup_middle] at hnodup'
  have hw := (List.nodup_cons.mp hnodup').1
  rw [List.mem_append, not_or] at hw
  have hsame := hsplit
  rw [hq] at hsame
  have heq := congrArg SecondChance.pages hsame.symm
  rw [pages_append, pages_append, pages_cons, pages_cons,
    List.append_cons_inj_of_notMem hw.1 hw.2] at heq
  have hlength := congrArg List.length heq.1
  rw [SecondChance.pages, SecondChance.pages, List.length_map, List.length_map] at hlength
  obtain ⟨hbefore, hv⟩ := List.append_inj hsame hlength.symm
  refine hagain (h.hitAgain_iff.mpr ⟨fun e he => ?_, ?_⟩)
  · exact hpassed (e.page, e.again) (hbefore ▸ List.mem_map_of_mem he)
  · exact congrArg Prod.snd (List.cons.inj hv).1

section Next

variable [DecidableEq P]

theorem pages_touch (p : P) (q : List (Resident P)) : pages (touch p q) = pages q := by
  rw [pages, touch, List.map_map]
  refine List.map_congr_left fun e _ => ?_
  by_cases h : e.page = p <;> simp [new, h]

theorem Inv.next (h : Inv K q) (hK : 2 ≤ K) (p : P) : Inv K (Resident.next K q p) := by
  rw [Resident.next]
  split
  case isTrue hmem =>
    refine ⟨(pages_touch p q).symm ▸ h.nodup, ?_, ?_⟩
    · rw [touch, List.length_map]
      exact h.length_le
    · intro e he
      rw [touch, List.getLast?_map, Option.mem_def, Option.map_eq_some_iff] at he
      obtain ⟨e', he', rfl⟩ := he
      split
      · exact ⟨rfl, rfl⟩
      · exact h.last e' he'
  case isFalse hmem =>
    have hpush : ∀ {r : List (Resident P)}, (pages r).Nodup → p ∉ pages r →
        r.length < K → Inv K (r ++ [new p]) := by
      intro r hnodup hout hlt
      refine ⟨?_, by rw [List.length_append]; exact hlt, fun e he => ?_⟩
      · rw [pages, List.map_append]
        refine List.Nodup.append hnodup (List.nodup_singleton _) ?_
        rw [List.map_singleton, List.disjoint_singleton]
        exact hout
      · rw [List.getLast?_concat, Option.mem_some_iff] at he
        rw [← he]
        exact ⟨rfl, rfl⟩
    have hlen : (forgetLast q).length = q.length := by
      rw [← length_ofTextbook, ofTextbook_forgetLast, length_ofTextbook]
    split
    case isTrue hroom =>
      exact hpush ((pages_forgetLast q).symm ▸ h.nodup)
        ((pages_forgetLast q).symm ▸ hmem) (hlen ▸ hroom)
    case isFalse hfull =>
      have hfull' : q.length = K := Nat.le_antisymm h.length_le (Nat.le_of_not_lt hfull)
      obtain ⟨before, v, after, last, hparts⟩ := h.parts hK hfull'
      have hpages : pages (replace (forgetLast q)) = pages (after ++ [last] ++ before) := by
        rw [hparts.replace_eq]
        split <;> simp [pages, forget, passed, Function.comp_def]
      have hperm : (pages q).Perm (v.page :: pages (after ++ [last] ++ before)) := by
        rw [hparts.eq]
        simp only [pages, List.map_append, List.map_cons]
        exact List.perm_middle.trans (List.perm_append_comm.cons _)
      have hnodup := List.nodup_cons.mp (hperm.nodup_iff.mp h.nodup)
      refine hpush (hpages ▸ hnodup.2) ?_ ?_
      · rw [hpages]
        exact fun hin => hmem (hperm.mem_iff.mpr (List.mem_cons_of_mem _ hin))
      · have := hperm.length_eq
        rw [← hpages, pages, pages, List.length_cons, List.length_map, List.length_map]
          at this
        omega

/-- Where the passed pages were hit again, both clocks give up the same page. -/
theorem Inv.same (h : Inv K q) (hK : 2 ≤ K) (p : P)
    (hagain : p ∉ pages q → q.length = K → HitAgain q) :
    ∃ out, (textbook K).step (ofTextbook q) p = (ofTextbook (Resident.next K q p), out) ∧
      (hasty K).step (ofHasty q) p = (ofHasty (Resident.next K q p), out) := by
  simp only [textbook, hasty, pages_ofTextbook, pages_ofHasty]
  rw [Resident.next]
  by_cases hmem : p ∈ pages q
  · refine ⟨none, ?_, ?_⟩
    · rw [if_pos hmem, if_pos hmem, SecondChance.touch, ofTextbook, ofTextbook, touch,
        List.map_map, List.map_map]
      congr 1
      refine List.map_congr_left fun e _ => ?_
      by_cases he : e.page = p <;> simp [new, he]
    · rw [if_pos hmem, if_pos hmem, SecondChance.touch, ofHasty, ofHasty, touch,
        List.map_map, List.map_map]
      congr 1
      refine List.map_congr_left fun e _ => ?_
      by_cases he : e.page = p <;> simp [new, he]
  rw [if_neg hmem, if_neg hmem, if_neg hmem]
  rcases Nat.lt_or_eq_of_le h.length_le with hroom | hfull
  · refine ⟨none, ?_, ?_⟩
    · rw [if_pos hroom, load, if_pos (by rwa [length_ofTextbook]), ← ofTextbook_forgetLast,
        ofTextbook, ofTextbook, List.map_append]
      rfl
    · rw [if_pos hroom, load, if_pos (by rwa [length_clearLast, length_ofHasty]),
        ← ofHasty_forgetLast, ofHasty, ofHasty, List.map_append]
      rfl
  · obtain ⟨before, v, after, last, hparts⟩ := h.parts hK hfull
    rw [if_neg (by omega)]
    exact ⟨_, hparts.textbook_load hfull p, hparts.hasty_load hfull (hagain hmem hfull) p⟩

theorem Inv.other (h : Inv K q) (hK : 2 ≤ K) {p : P} (hmem : p ∉ pages q)
    (hfull : q.length = K) (hagain : ¬ HitAgain q) :
    ∃ v w, w ≠ v ∧ ((textbook K).step (ofTextbook q) p).2 = some v ∧
      ((hasty K).step (ofHasty q) p).2 = some w := by
  obtain ⟨before, v, after, last, hparts⟩ := h.parts hK hfull
  obtain ⟨w, hne, hload⟩ := hparts.hasty_other hfull h.nodup hagain p
  refine ⟨v.page, w, hne, ?_, ?_⟩
  · simp only [textbook, pages_ofTextbook, if_neg hmem, hparts.textbook_load hfull p]
  · simp only [hasty, pages_ofHasty, if_neg hmem, hload]

/-- Both clocks give up the same pages exactly when every page that is passed
was hit again. -/
theorem Inv.evictions_iff (h : Inv K q) (hK : 2 ≤ K) (requests : List P) :
    evictions (hasty K) (ofHasty q) requests =
        evictions (textbook K) (ofTextbook q) requests ↔
      AllHitAgain K q requests := by
  induction requests generalizing q with
  | nil => exact iff_of_true rfl trivial
  | cons p rest ih =>
      rw [evictions_cons, evictions_cons, AllHitAgain]
      by_cases hagain : p ∉ pages q → q.length = K → HitAgain q
      · obtain ⟨out, htextbook, hhasty⟩ := h.same hK p hagain
        rw [htextbook, hhasty, List.append_cancel_left_eq, ih (h.next hK p),
          and_iff_right hagain]
      · refine iff_of_false (fun heq => ?_) (fun hall => hagain hall.1)
        rw [Classical.not_imp, Classical.not_imp] at hagain
        obtain ⟨hmem, hfull, hnot⟩ := hagain
        obtain ⟨v, w, hne, htextbook, hhasty⟩ := h.other hK hmem hfull hnot
        rw [htextbook, hhasty] at heq
        exact hne (List.cons.inj heq).1

end Next

end Resident

end SecondChance

end PintosLabs
