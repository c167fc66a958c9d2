/-
Demand paging, and why it is best to give up the page that is used farthest in
the future.  Two runs from caches that differ in one page are compared: the
one that holds the page needed first can follow the other one step by step.
-/
import Mathlib.Algebra.Ring.Int.Defs
import Mathlib.Algebra.Ring.Nat
import Mathlib.Data.Finset.Card
import Mathlib.Data.List.Lemmas

namespace PintosLabs

universe u

variable {P : Type u} [DecidableEq P]

/-- `PagingRun K rule resident refs hits`: the requests `refs` can be served
from the resident pages with that many hits.  A page is given up only on a
miss, and only when `K` pages are resident; the rule says which pages may go,
given the resident ones and the requests still to come. -/
inductive PagingRun (K : Nat) (rule : Finset P → List P → P → Prop) :
    Finset P → List P → Nat → Prop
  | done (R : Finset P) : PagingRun K rule R [] 0
  | hit {R : Finset P} {p : P} {rest : List P} {hits : Nat} (resident : p ∈ R)
      (run : PagingRun K rule R rest hits) :
      PagingRun K rule R (p :: rest) (hits + 1)
  | load {R : Finset P} {p : P} {rest : List P} {hits : Nat} (absent : p ∉ R)
      (room : R.card < K) (run : PagingRun K rule (insert p R) rest hits) :
      PagingRun K rule R (p :: rest) hits
  | replace {R : Finset P} {p v : P} {rest : List P} {hits : Nat} (absent : p ∉ R)
      (full : R.card = K) (resident : v ∈ R) (allowed : rule R rest v)
      (run : PagingRun K rule (insert p (R.erase v)) rest hits) :
      PagingRun K rule R (p :: rest) hits

/-- Any page may be given up. -/
def anyPage : Finset P → List P → P → Prop := fun _ _ _ => True

/-- A page may be given up if none is next used later. -/
def farthestPage : Finset P → List P → P → Prop :=
  fun R rest v => ∀ w ∈ R, rest.idxOf w ≤ rest.idxOf v

abbrev DemandRun (K : Nat) : Finset P → List P → Nat → Prop :=
  PagingRun K anyPage

abbrev FarthestRun (K : Nat) : Finset P → List P → Nat → Prop :=
  PagingRun K farthestPage

variable {K : Nat}

theorem PagingRun.demand {rule : Finset P → List P → P → Prop} {R : Finset P}
    {refs : List P} {hits : Nat} (h : PagingRun K rule R refs hits) :
    DemandRun K R refs hits := by
  induction h with
  | done R => exact .done R
  | hit hmem _ ih => exact .hit hmem ih
  | load hnot hroom _ ih => exact .load hnot hroom ih
  | replace hnot hfull hmem _ _ ih => exact .replace hnot hfull hmem trivial ih

/-- What serving one request does to the resident pages, and the hits it
gains. -/
def PagingStep (K : Nat) (rule : Finset P → List P → P → Prop) (R : Finset P)
    (p : P) (rest : List P) (R' : Finset P) (gain : Nat) : Prop :=
  (p ∈ R ∧ R' = R ∧ gain = 1) ∨
    p ∉ R ∧ gain = 0 ∧ (R.card < K ∧ R' = insert p R ∨
      R.card = K ∧ ∃ v ∈ R, rule R rest v ∧ R' = insert p (R.erase v))

theorem PagingStep.run {rule : Finset P → List P → P → Prop} {R R' : Finset P}
    {p : P} {rest : List P} {gain hits : Nat}
    (hstep : PagingStep K rule R p rest R' gain)
    (hrun : PagingRun K rule R' rest hits) :
    PagingRun K rule R (p :: rest) (hits + gain) := by
  rcases hstep with ⟨hmem, rfl, rfl⟩ | ⟨hnot, rfl, ⟨hroom, rfl⟩ |
    ⟨hfull, v, hv, hallowed, rfl⟩⟩
  · exact .hit hmem hrun
  · exact .load hnot hroom hrun
  · exact .replace hnot hfull hv hallowed hrun

/-- No more than `K` pages are ever resident. -/
theorem PagingStep.card_le {rule : Finset P → List P → P → Prop} {R R' : Finset P}
    {p : P} {rest : List P} {gain : Nat}
    (hstep : PagingStep K rule R p rest R' gain) (hle : R.card ≤ K) :
    R'.card ≤ K := by
  rcases hstep with ⟨-, rfl, -⟩ | ⟨hnot, -, ⟨hroom, rfl⟩ | ⟨hfull, v, hv, -, rfl⟩⟩
  · exact hle
  · rw [Finset.card_insert_of_notMem hnot]
    exact hroom
  · rw [Finset.card_insert_of_notMem (fun h => hnot (Finset.mem_of_mem_erase h)),
      Finset.card_erase_add_one hv]
    exact hle

/-- A cache that holds all the pages misses each of them once. -/
theorem PagingRun.hits_of_few {rule : Finset P → List P → P → Prop} {R : Finset P}
    {refs : List P} {hits : Nat} (h : PagingRun K rule R refs hits)
    (hfew : (R ∪ refs.toFinset).card ≤ K) :
    hits + (refs.toFinset \ R).card = refs.length := by
  induction h with
  | done R => simp
  | @hit R p rest hits hmem _ ih =>
      rw [List.toFinset_cons, Finset.union_insert,
        Finset.insert_eq_of_mem (Finset.mem_union_left _ hmem)] at hfew
      rw [List.toFinset_cons, Finset.insert_sdiff_of_mem _ hmem, List.length_cons,
        ← ih hfew]
      omega
  | @load R p rest hits hnot _ _ ih =>
      rw [List.toFinset_cons, Finset.union_insert, ← Finset.insert_union] at hfew
      have hnew : insert p rest.toFinset \ R = insert p (rest.toFinset \ insert p R) := by
        ext q
        by_cases hq : q = p
        · simp [hq, hnot]
        · simp [hq]
      rw [List.toFinset_cons, hnew, Finset.card_insert_of_notMem (by simp),
        List.length_cons, ← ih hfew]
      omega
  | @replace R p v rest hits hnot hfull _ _ _ _ =>
      have hmore : (insert p R).card ≤ (R ∪ (p :: rest).toFinset).card := by
        refine Finset.card_le_card fun q hq => ?_
        rcases Finset.mem_insert.mp hq with rfl | hq
        · simp
        · exact Finset.mem_union_left _ hq
      rw [Finset.card_insert_of_notMem hnot] at hmore
      omega

/-- Only requests for resident pages are all hits. -/
theorem PagingRun.subset_of_hits {rule : Finset P → List P → P → Prop} {R : Finset P}
    {refs : List P} {hits : Nat} (h : PagingRun K rule R refs hits) :
    hits ≤ refs.length ∧ (hits = refs.length → refs.toFinset ⊆ R) := by
  induction h with
  | done R => simp
  | @hit R p rest hits hmem _ ih =>
      refine ⟨Nat.succ_le_succ ih.1, fun heq => ?_⟩
      rw [List.toFinset_cons, Finset.insert_subset_iff]
      exact ⟨hmem, ih.2 (Nat.succ.inj heq)⟩
  | load _ _ _ ih =>
      rw [List.length_cons]
      exact ⟨by omega, by omega⟩
  | replace _ _ _ _ _ ih =>
      rw [List.length_cons]
      exact ⟨by omega, by omega⟩

section Swap

variable {S : Finset P} {u w p z : P}

theorem insert_insert_erase (hz : z ≠ u) :
    insert p ((insert u S).erase z) = insert u (insert p (S.erase z)) := by
  rw [Finset.erase_insert_of_ne (Ne.symm hz), Finset.insert_comm]

theorem card_swap (hu : u ∉ S) (hw : w ∉ S) :
    (insert w S).card = (insert u S).card := by
  rw [Finset.card_insert_of_notMem hu, Finset.card_insert_of_notMem hw]

theorem card_replace (hu : u ∉ insert p (S.erase z)) (hz : z ∈ S) (hp : p ∉ S)
    (hu' : u ∉ S) : (insert u (insert p (S.erase z))).card = (insert u S).card := by
  rw [Finset.card_insert_of_notMem hu, Finset.card_insert_of_notMem hu',
    Finset.card_insert_of_notMem (fun h => hp (Finset.mem_of_mem_erase h)),
    Finset.card_erase_add_one hz]

/-- One request to two full caches, of which one has `u` where the other one
has `w`.  The other cache can be as good from here on, short of the hit on `u`;
or it can come to differ again in one page, the same one with as many hits, or
another one and a hit more. -/
theorem DemandRun.swap_step {rest : List P} {hits : Nat} (huw : u ≠ w)
    (hfull : (insert u S).card = K) (hu : u ∉ S) (hw : w ∉ S)
    (hrun : DemandRun K (insert u S) (p :: rest) hits) :
    (∃ hits', DemandRun K (insert w S) (p :: rest) hits' ∧
      (hits ≤ hits' ∨ p = u ∧ hits ≤ hits' + 1)) ∨
    p ≠ u ∧ ∃ S' w' hits₀ gain, u ∉ S' ∧ w' ∉ S' ∧ (insert u S').card = K ∧
      DemandRun K (insert u S') rest hits₀ ∧
      (∀ hits', DemandRun K (insert w' S') rest hits' →
        DemandRun K (insert w S) (p :: rest) (hits' + gain)) ∧
      (w' = w ∧ p ≠ w ∧ hits ≤ hits₀ + gain ∨
        p = w ∧ gain = 1 ∧ hits ≤ hits₀) := by
  have hfull' : (insert w S).card = K := (card_swap hu hw).trans hfull
  -- giving up `w` where `u` was given up leaves equal caches
  have hsame : p ∉ insert w S → ∀ {hits}, DemandRun K (insert p S) rest hits →
      DemandRun K (insert w S) (p :: rest) hits := by
    intro hout hits hrest
    refine .replace hout hfull' (Finset.mem_insert_self w S) trivial ?_
    rwa [Finset.erase_insert hw]
  cases hrun with
  | hit hmem hrest =>
      rcases Finset.mem_insert.mp hmem with rfl | hpS
      · have hout : p ∉ insert w S :=
          Finset.mem_insert.not.mpr (not_or.mpr ⟨huw, hu⟩)
        exact Or.inl ⟨_, hsame hout hrest, Or.inr ⟨rfl, Nat.le_refl _⟩⟩
      · refine Or.inr ⟨ne_of_mem_of_not_mem hpS hu, S, w, _, 1, hu, hw, hfull, hrest,
          fun _ hrun' => .hit (Finset.mem_insert_of_mem hpS) hrun',
          Or.inl ⟨rfl, ne_of_mem_of_not_mem hpS hw, Nat.le_refl _⟩⟩
  | load _ hroom _ => exact absurd hfull hroom.ne
  | @replace _ _ z _ _ hnot _ hz _ hrest =>
      rw [Finset.mem_insert, not_or] at hnot
      by_cases hzu : z = u
      · subst hzu
        rw [Finset.erase_insert hu] at hrest
        by_cases hpw : p = w
        · subst hpw
          exact Or.inl ⟨_, .hit (Finset.mem_insert_self p S) hrest,
            Or.inl (Nat.le_succ _)⟩
        · have hout : p ∉ insert w S :=
            Finset.mem_insert.not.mpr (not_or.mpr ⟨hpw, hnot.2⟩)
          exact Or.inl ⟨_, hsame hout hrest, Or.inl (Nat.le_refl _)⟩
      · have hzS := Finset.mem_of_mem_insert_of_ne hz hzu
        have hzw : z ≠ w := ne_of_mem_of_not_mem hzS hw
        have huS' : u ∉ insert p (S.erase z) := by simp [Ne.symm hnot.1, hu]
        have hcard := (card_replace huS' hzS hnot.2 hu).trans hfull
        rw [insert_insert_erase hzu] at hrest
        by_cases hpw : p = w
        · subst hpw
          have hback : insert z (insert p (S.erase z)) = insert p S := by
            rw [Finset.insert_comm, Finset.insert_erase hzS]
          refine Or.inr ⟨hnot.1, _, z, _, 1, huS', by simp [hzw], hcard, hrest,
            fun _ hrun' => .hit (Finset.mem_insert_self p S) ?_,
            Or.inr ⟨rfl, rfl, Nat.le_refl _⟩⟩
          rwa [hback] at hrun'
        · have hout : p ∉ insert w S :=
            Finset.mem_insert.not.mpr (not_or.mpr ⟨hpw, hnot.2⟩)
          refine Or.inr ⟨hnot.1, _, w, _, 0, huS', by simp [Ne.symm hpw, hw], hcard,
            hrest, fun _ hrun' => .replace hout hfull'
              (Finset.mem_insert_of_mem hzS) trivial ?_,
            Or.inl ⟨rfl, hpw, Nat.le_refl _⟩⟩
          rwa [insert_insert_erase hzw]

/-- Holding another page instead loses at most one hit. -/
theorem DemandRun.swap_le {refs : List P} {hits : Nat}
    (hfull : (insert u S).card = K) (hu : u ∉ S) (hw : w ∉ S)
    (hrun : DemandRun K (insert u S) refs hits) :
    ∃ hits', DemandRun K (insert w S) refs hits' ∧ hits ≤ hits' + 1 := by
  induction refs generalizing S w hits with
  | nil =>
      cases hrun
      exact ⟨0, .done _, Nat.zero_le _⟩
  | cons p rest ih =>
      by_cases huw : u = w
      · subst huw
        exact ⟨hits, hrun, Nat.le_succ _⟩
      rcases hrun.swap_step huw hfull hu hw with ⟨hits', hrun', hle⟩ |
        ⟨-, S', w', hits₀, gain, hu', hw', hfull', hrest, hfollow, hgain⟩
      · exact ⟨hits', hrun', by omega⟩
      · obtain ⟨hits', hrun', hle⟩ := ih hfull' hu' hw' hrest
        exact ⟨_, hfollow hits' hrun', by omega⟩

/-- Holding a page that is used no later instead loses nothing. -/
theorem DemandRun.swap_earlier {refs : List P} {hits : Nat}
    (hfull : (insert u S).card = K) (hu : u ∉ S) (hw : w ∉ S)
    (hearlier : refs.idxOf w ≤ refs.idxOf u)
    (hrun : DemandRun K (insert u S) refs hits) :
    ∃ hits', DemandRun K (insert w S) refs hits' ∧ hits ≤ hits' := by
  induction refs generalizing S hits with
  | nil =>
      cases hrun
      exact ⟨0, .done _, Nat.le_refl _⟩
  | cons p rest ih =>
      by_cases huw : u = w
      · subst huw
        exact ⟨hits, hrun, Nat.le_refl _⟩
      have hpu : p ≠ u := by
        rintro rfl
        rw [List.idxOf_cons_self, List.idxOf_cons_ne _ huw] at hearlier
        exact Nat.not_succ_le_zero _ hearlier
      rcases hrun.swap_step huw hfull hu hw with ⟨hits', hrun', hle⟩ |
        ⟨-, S', w', hits₀, gain, hu', hw', hfull', hrest, hfollow, hgain⟩
      · exact ⟨hits', hrun', hle.resolve_right fun h => hpu h.1⟩
      · rcases hgain with ⟨rfl, hpw, hle⟩ | ⟨rfl, rfl, hle⟩
        · rw [List.idxOf_cons_ne _ hpw, List.idxOf_cons_ne _ hpu] at hearlier
          obtain ⟨hits', hrun', hle'⟩ := ih hfull' hu' hw'
            (Nat.le_of_succ_le_succ hearlier) hrest
          exact ⟨_, hfollow hits' hrun', by omega⟩
        · obtain ⟨hits', hrun', hle'⟩ := hrest.swap_le hfull' hu' hw'
          exact ⟨_, hfollow hits' hrun', by omega⟩

end Swap

/-- No run has more hits than one that gives up the page used farthest in the
future. -/
theorem FarthestRun.optimal {R : Finset P} {refs : List P} {hits hits' : Nat}
    (hrun : FarthestRun K R refs hits) (hother : DemandRun K R refs hits') :
    hits' ≤ hits := by
  induction hrun generalizing hits' with
  | done R =>
      cases hother
      exact Nat.le_refl _
  | hit hmem _ ih =>
      cases hother with
      | hit _ hrest => exact Nat.succ_le_succ (ih hrest)
      | load hnot _ _ => exact absurd hmem hnot
      | replace hnot _ _ _ _ => exact absurd hmem hnot
  | load hnot hroom _ ih =>
      cases hother with
      | hit hmem _ => exact absurd hmem hnot
      | load _ _ hrest => exact ih hrest
      | replace _ hfull _ _ _ => exact absurd hfull hroom.ne
  | @replace R p v rest hits hnot hfull hv hfarthest _ ih =>
      cases hother with
      | hit hmem _ => exact absurd hmem hnot
      | load _ hroom _ => exact absurd hfull hroom.ne
      | @replace _ _ z _ _ _ _ hz _ hrest =>
          by_cases hzv : z = v
          · subst hzv
            exact ih hrest
          -- the caches differ in `v` and `z`, and `z` is used no later
          have hpv : v ≠ p := ne_of_mem_of_not_mem hv hnot
          have hpz : z ≠ p := ne_of_mem_of_not_mem hz hnot
          obtain ⟨S, hS⟩ : ∃ S, S = insert p ((R.erase z).erase v) := ⟨_, rfl⟩
          have hvS : v ∉ S := by simp [hS, hpv]
          have hzS : z ∉ S := by simp [hS, hpz]
          have htheirs : insert p (R.erase z) = insert v S := by
            rw [hS, Finset.insert_comm,
              Finset.insert_erase (Finset.mem_erase.mpr ⟨Ne.symm hzv, hv⟩)]
          have hours : insert p (R.erase v) = insert z S := by
            rw [hS, Finset.insert_comm, Finset.erase_right_comm,
              Finset.insert_erase (Finset.mem_erase.mpr ⟨hzv, hz⟩)]
          have hcard : (insert v S).card = K := by
            rw [← htheirs, Finset.card_insert_of_notMem
              (fun h => hnot (Finset.mem_of_mem_erase h)),
              Finset.card_erase_add_one hz, hfull]
          rw [htheirs] at hrest
          obtain ⟨best, hbest, hle⟩ :=
            DemandRun.swap_earlier hcard hvS hzS (hfarthest z hz) hrest
          rw [← hours] at hbest
          exact hle.trans (ih hbest)

end PintosLabs
