/-
Priorities lent to those who hold what one waits for.  A ledger remembers for
each lock the greatest priority lent through it, and a donor brings it up to
date lock by lock; on the way the ledger is behind in a few places, which the
donors know.  Nothing here names a particular program.
-/
import Mathlib.Data.Set.Insert
import Mathlib.Logic.Function.Basic
import Mathlib.Logic.Relation
import Mathlib.Order.Bounds.Basic

namespace PintosLabs

universe u v w

/-- How far a donor has got: it is to compare itself with what is remembered of
a lock, has raised that, or has raised the holder as well. -/
inductive DonorStage (L : Type v) where
  | idle
  | compares (l : L)
  | raised (l : L)
  | donated (l : L)

/-- Who has which priority of its own and which with what is lent to it, what is
remembered of the locks, who holds them, and who waits for which. -/
@[ext] structure PriorityLedger (T : Type u) (L : Type v) (P : Type w) where
  own : T → P
  priority : T → P
  lent : L → P
  held : T → Set L
  awaited : T → Option L
  stage : T → DonorStage L

namespace PriorityLedger

variable {T : Type u} {L : Type v} {P : Type w}

/-- Donor `c` will come to lock `l`, for which `u` waits. -/
def Brings (v : PriorityLedger T L P) (c u : T) (l : L) : Prop :=
  v.stage c = .compares l ∨
    ∃ x ∈ v.held u, v.stage c = .raised x ∨ v.stage c = .donated x

theorem Brings.stage_ne {v : PriorityLedger T L P} {c u : T} {l : L}
    (h : v.Brings c u l) : v.stage c ≠ .idle := by
  intro hidle
  rcases h with hc | ⟨x, -, hc | hc⟩ <;> rw [hidle] at hc <;> cases hc

/-- Other donors still come where they were to come to. -/
theorem Brings.congr {v v' : PriorityLedger T L P} {c u : T} {l : L}
    (h : v.Brings c u l) (hstage : v'.stage c = v.stage c)
    (hheld : v.held u ⊆ v'.held u) : v'.Brings c u l := by
  rcases h with hc | ⟨x, hx, hc⟩
  · exact Or.inl (hstage.trans hc)
  · exact Or.inr ⟨x, hheld hx, by rwa [hstage]⟩

variable [LinearOrder P]

/-- The ledger is in order, but for what the donors are about to do. -/
structure Balanced (v : PriorityLedger T L P) : Prop where
  own_le : ∀ t, v.own t ≤ v.priority t
  covered : ∀ t, v.priority t ≤ v.own t ∨ ∃ l ∈ v.held t, v.priority t ≤ v.lent l
  lent_le : ∀ t, ∀ l ∈ v.held t, v.lent l ≤ v.priority t ∨
    ∃ c, v.stage c = .raised l ∧ v.lent l ≤ v.priority c
  waiter_le : ∀ t, ∀ l ∈ v.held t, ∀ u, v.awaited u = some l →
    v.priority u ≤ v.lent l ∨ ∃ c, v.Brings c u l ∧ v.priority u ≤ v.priority c
  backed : ∀ t, ∀ l ∈ v.held t, v.lent l ≤ v.own t ∨
    ∃ u, v.awaited u = some l ∧ v.lent l ≤ v.priority u

/-- Thread `u` waits for a lock that `t` holds. -/
def LendsTo (v : PriorityLedger T L P) (u t : T) : Prop :=
  ∃ l ∈ v.held t, v.awaited u = some l

/-- Each priority is the greatest of the thread's own and those of the threads
that wait for it, directly or through others. -/
def Exact (v : PriorityLedger T L P) : Prop :=
  ∀ t, IsGreatest (insert (v.own t) (v.priority '' {u | Relation.TransGen v.LendsTo u t}))
    (v.priority t)

/-- `q` is the greatest of the own priority of `t` and what is remembered of the
locks. -/
structure IsUpdated (v : PriorityLedger T L P) (t : T) (locks : Set L) (q : P) :
    Prop where
  own_le : v.own t ≤ q
  lent_le : ∀ l ∈ locks, v.lent l ≤ q
  covered : q ≤ v.own t ∨ ∃ l ∈ locks, q ≤ v.lent l

variable {v : PriorityLedger T L P}

/-- A ledger that is in order and that no donor works on is exact. -/
theorem Balanced.exact (h : v.Balanced) (hidle : ∀ c, v.stage c = .idle) : v.Exact := by
  have hlent : ∀ t, ∀ l ∈ v.held t, v.lent l ≤ v.priority t := by
    intro t l hl
    refine (h.lent_le t l hl).resolve_right fun hraised => ?_
    obtain ⟨c, hstage, -⟩ := hraised
    rw [hidle] at hstage
    cases hstage
  have hstep : ∀ u t, v.LendsTo u t → v.priority u ≤ v.priority t := by
    intro u t hlends
    obtain ⟨l, hl, hawaits⟩ := hlends
    refine le_trans ((h.waiter_le t l hl u hawaits).resolve_right fun hbrings => ?_)
      (hlent t l hl)
    obtain ⟨c, hstage | ⟨x, -, hstage | hstage⟩, -⟩ := hbrings <;>
      rw [hidle] at hstage <;> cases hstage
  intro t
  constructor
  · rcases h.covered t with hle | ⟨l, hl, hle⟩
    · exact Or.inl (le_antisymm hle (h.own_le t))
    · rcases h.backed t l hl with hown | ⟨u, hawaits, hback⟩
      · exact Or.inl (le_antisymm (hle.trans hown) (h.own_le t))
      · have hlends : v.LendsTo u t := ⟨l, hl, hawaits⟩
        exact Or.inr ⟨u, Relation.TransGen.single hlends,
          le_antisymm (hstep u t hlends) (hle.trans hback)⟩
  · rintro p (rfl | ⟨u, hchain, rfl⟩)
    · exact h.own_le t
    · induction hchain with
      | single hlends => exact hstep _ _ hlends
      | tail _ hlends ih => exact ih.trans (hstep _ _ hlends)

/-! What keeps a ledger in order. -/

section Donor

variable [DecidableEq T] {c : T} {l : L}

/-- A thread says which lock it waits for and becomes a donor. -/
theorem Balanced.await (h : v.Balanced) (hidle : v.stage c = .idle)
    (hawaited : ∀ m, v.awaited c = some m → m = l) :
    Balanced { v with
      awaited := Function.update v.awaited c (some l)
      stage := Function.update v.stage c (.compares l) } := by
  have hother : ∀ d, v.stage d ≠ .idle → d ≠ c := fun d hd heq => hd (heq ▸ hidle)
  refine ⟨h.own_le, h.covered, fun t m hm => ?_, fun t m hm u hu => ?_, fun t m hm => ?_⟩
  · refine (h.lent_le t m hm).imp_right fun hraised => ?_
    obtain ⟨d, hd, hle⟩ := hraised
    have hne : d ≠ c := hother d (hd ▸ fun h => by cases h)
    exact ⟨d, (Function.update_of_ne hne _ _).trans hd, hle⟩
  · by_cases huc : u = c
    · subst huc
      change Function.update v.awaited u (some l) u = some m at hu
      rw [Function.update_self, Option.some.injEq] at hu
      subst hu
      exact Or.inr ⟨u, Or.inl (Function.update_self _ _ _), le_refl _⟩
    · change Function.update v.awaited c (some l) u = some m at hu
      rw [Function.update_of_ne huc] at hu
      refine (h.waiter_le t m hm u hu).imp_right fun hbrings => ?_
      obtain ⟨d, hbrings, hle⟩ := hbrings
      exact ⟨d, hbrings.congr (Function.update_of_ne (hother d hbrings.stage_ne) _ _)
        subset_rfl, hle⟩
  · refine (h.backed t m hm).imp_right fun hback => ?_
    obtain ⟨u, hu, hle⟩ := hback
    refine ⟨u, ?_, hle⟩
    change Function.update v.awaited c (some l) u = some m
    by_cases huc : u = c
    · subst huc
      rw [Function.update_self, hawaited m hu]
    · rw [Function.update_of_ne huc, hu]

/-- The donor has nothing to add to what is remembered of the lock. -/
theorem Balanced.stop (h : v.Balanced) (hstage : v.stage c = .compares l)
    (hle : v.priority c ≤ v.lent l) :
    Balanced { v with stage := Function.update v.stage c .idle } := by
  refine ⟨h.own_le, h.covered, fun t m hm => ?_, fun t m hm u hu => ?_, h.backed⟩
  · refine (h.lent_le t m hm).imp_right fun hraised => ?_
    obtain ⟨d, hd, hle⟩ := hraised
    have hne : d ≠ c := by
      rintro rfl
      cases hstage.symm.trans hd
    exact ⟨d, (Function.update_of_ne hne _ _).trans hd, hle⟩
  · rcases h.waiter_le t m hm u hu with hu | ⟨d, hbrings, hd⟩
    · exact Or.inl hu
    by_cases hdc : d = c
    · subst hdc
      rcases hbrings with hm | ⟨x, -, hx | hx⟩
      · obtain rfl := DonorStage.compares.inj (hstage.symm.trans hm)
        exact Or.inl (hd.trans hle)
      · cases hstage.symm.trans hx
      · cases hstage.symm.trans hx
    · exact Or.inr ⟨d, hbrings.congr (Function.update_of_ne hdc _ _) subset_rfl, hd⟩

/-- The donor raises what is remembered of the lock; a thread that waits for it
has to stand behind that. -/
theorem Balanced.raise [DecidableEq L] (h : v.Balanced) (hstage : v.stage c = .compares l)
    (hle : v.lent l ≤ v.priority c)
    (hback : ∃ u, v.awaited u = some l ∧ v.priority c ≤ v.priority u) :
    Balanced { v with
      lent := Function.update v.lent l (v.priority c)
      stage := Function.update v.stage c (.raised l) } := by
  have hmono : ∀ m, v.lent m ≤ Function.update v.lent l (v.priority c) m := by
    intro m
    by_cases hm : m = l
    · subst hm
      rwa [Function.update_self]
    · rw [Function.update_of_ne hm]
  refine ⟨h.own_le, fun t => ?_, fun t m hm => ?_, fun t m hm u hu => ?_, fun t m hm => ?_⟩
  · refine (h.covered t).imp_right fun hlent => ?_
    obtain ⟨m, hm, hlent⟩ := hlent
    exact ⟨m, hm, hlent.trans (hmono m)⟩
  · change Function.update v.lent l (v.priority c) m ≤ _ ∨ ∃ d, _ ∧
      Function.update v.lent l (v.priority c) m ≤ _
    by_cases hml : m = l
    · subst hml
      rw [Function.update_self]
      exact Or.inr ⟨c, Function.update_self _ _ _, le_refl _⟩
    · rw [Function.update_of_ne hml]
      refine (h.lent_le t m hm).imp_right fun hraised => ?_
      obtain ⟨d, hd, hle⟩ := hraised
      have hne : d ≠ c := by
        rintro rfl
        cases hstage.symm.trans hd
      exact ⟨d, (Function.update_of_ne hne _ _).trans hd, hle⟩
  · rcases h.waiter_le t m hm u hu with hu | ⟨d, hbrings, hd⟩
    · exact Or.inl (hu.trans (hmono m))
    by_cases hdc : d = c
    · subst hdc
      rcases hbrings with hm | ⟨x, -, hx | hx⟩
      · obtain rfl := DonorStage.compares.inj (hstage.symm.trans hm)
        refine Or.inl ?_
        change v.priority u ≤ Function.update v.lent l (v.priority d) l
        rwa [Function.update_self]
      · cases hstage.symm.trans hx
      · cases hstage.symm.trans hx
    · exact Or.inr ⟨d, hbrings.congr (Function.update_of_ne hdc _ _) subset_rfl, hd⟩
  · change Function.update v.lent l (v.priority c) m ≤ _ ∨ ∃ u, _ ∧
      Function.update v.lent l (v.priority c) m ≤ _
    by_cases hml : m = l
    · subst hml
      rw [Function.update_self]
      exact Or.inr hback
    · rw [Function.update_of_ne hml]
      exact h.backed t m hm

/-- The donor raises the holder of the lock. -/
theorem Balanced.donate (h : v.Balanced) {t : T} {q : P} (hstage : v.stage c = .raised l)
    (hholder : ∀ u, l ∈ v.held u → u = t) (hq : v.IsUpdated t (v.held t) q) :
    Balanced { v with
      priority := Function.update v.priority t q
      stage := Function.update v.stage c (.donated l) } := by
  have hmono : ∀ u, v.priority u ≤ Function.update v.priority t q u := by
    intro u
    by_cases hu : u = t
    · subst hu
      rw [Function.update_self]
      rcases h.covered u with hle | ⟨m, hm, hle⟩
      · exact hle.trans hq.own_le
      · exact hle.trans (hq.lent_le m hm)
    · rw [Function.update_of_ne hu]
  -- what the donor was to bring, it still is to bring
  have hbrings : ∀ d u m, v.Brings d u m → Brings { v with
      priority := Function.update v.priority t q
      stage := Function.update v.stage c (.donated l) } d u m := by
    intro d u m hd
    by_cases hdc : d = c
    · subst hdc
      rcases hd with hm | ⟨x, hx, hd | hd⟩
      · cases hstage.symm.trans hm
      · obtain rfl := DonorStage.raised.inj (hstage.symm.trans hd)
        exact Or.inr ⟨l, hx, Or.inr (Function.update_self _ _ _)⟩
      · cases hstage.symm.trans hd
    · exact hd.congr (Function.update_of_ne hdc _ _) subset_rfl
  refine ⟨fun u => (h.own_le u).trans (hmono u), fun u => ?_, fun u m hm => ?_,
    fun u m hm w hw => ?_, fun u m hm => ?_⟩
  · by_cases hu : u = t
    · subst hu
      simpa only [Function.update_self] using hq.covered
    · simpa only [Function.update_of_ne hu] using h.covered u
  · by_cases hu : u = t
    · subst hu
      refine Or.inl ?_
      change v.lent m ≤ Function.update v.priority u q u
      rw [Function.update_self]
      exact hq.lent_le m hm
    · rcases h.lent_le u m hm with hle | ⟨d, hd, hle⟩
      · exact Or.inl (hle.trans (hmono u))
      · refine Or.inr ⟨d, ?_, hle.trans (hmono d)⟩
        have hne : d ≠ c := by
          rintro rfl
          obtain rfl := DonorStage.raised.inj (hstage.symm.trans hd)
          exact hu (hholder u hm)
        exact (Function.update_of_ne hne _ _).trans hd
  · by_cases hwt : w = t
    · subst hwt
      change Function.update v.priority w q w ≤ _ ∨ ∃ d, _ ∧
        Function.update v.priority w q w ≤ _
      rw [Function.update_self]
      by_cases hle : q ≤ v.priority w
      · refine (h.waiter_le u m hm w hw).imp hle.trans fun hdonor => ?_
        obtain ⟨d, hd, hpriority⟩ := hdonor
        exact ⟨d, hbrings d w m hd, (hle.trans hpriority).trans (hmono d)⟩
      · -- the new priority is what a donor has just brought
        rcases hq.covered with hown | ⟨x, hx, hlent⟩
        · exact absurd (hown.trans (h.own_le w)) hle
        · obtain ⟨d, hd, hpriority⟩ :=
            (h.lent_le w x hx).resolve_left fun hx => hle (hlent.trans hx)
          exact Or.inr ⟨d, hbrings d w m (Or.inr ⟨x, hx, Or.inl hd⟩),
            (hlent.trans hpriority).trans (hmono d)⟩
    · change Function.update v.priority t q w ≤ _ ∨ ∃ d, _ ∧
        Function.update v.priority t q w ≤ _
      rw [Function.update_of_ne hwt]
      refine (h.waiter_le u m hm w hw).imp_right fun hdonor => ?_
      obtain ⟨d, hd, hpriority⟩ := hdonor
      exact ⟨d, hbrings d w m hd, hpriority.trans (hmono d)⟩
  · refine (h.backed u m hm).imp_right fun hback => ?_
    obtain ⟨w, hw, hle⟩ := hback
    exact ⟨w, hw, hle.trans (hmono w)⟩

/-- The donor goes on to the lock that the holder waits for, if any. -/
theorem Balanced.follow (h : v.Balanced) {t : T} {stage : DonorStage L}
    (hstage : v.stage c = .donated l) (hholder : ∀ u, l ∈ v.held u → u = t)
    (hnext : ∀ m, v.awaited t = some m → stage = .compares m) :
    Balanced { v with stage := Function.update v.stage c stage } := by
  refine ⟨h.own_le, h.covered, fun u m hm => ?_, fun u m hm w hw => ?_, h.backed⟩
  · refine (h.lent_le u m hm).imp_right fun hraised => ?_
    obtain ⟨d, hd, hle⟩ := hraised
    have hne : d ≠ c := by
      rintro rfl
      cases hstage.symm.trans hd
    exact ⟨d, (Function.update_of_ne hne _ _).trans hd, hle⟩
  · refine (h.waiter_le u m hm w hw).imp_right fun hdonor => ?_
    obtain ⟨d, hd, hle⟩ := hdonor
    refine ⟨d, ?_, hle⟩
    by_cases hdc : d = c
    · subst hdc
      rcases hd with hd | ⟨x, hx, hd | hd⟩
      · cases hstage.symm.trans hd
      · cases hstage.symm.trans hd
      · obtain rfl := DonorStage.donated.inj (hstage.symm.trans hd)
        obtain rfl := hholder w hx
        exact Or.inl ((Function.update_self _ _ _).trans (hnext m hw))
    · exact hd.congr (Function.update_of_ne hdc _ _) subset_rfl

end Donor

/-! Steps of a thread that is no donor. -/

/-- The donors are other threads, wherever they are to come to. -/
theorem Balanced.waiter_le_ne (h : v.Balanced) {c : T} (hidle : v.stage c = .idle)
    {t u : T} {m : L} (hm : m ∈ v.held t) (hu : v.awaited u = some m) :
    v.priority u ≤ v.lent m ∨
      ∃ d, d ≠ c ∧ v.Brings d u m ∧ v.priority u ≤ v.priority d := by
  refine (h.waiter_le t m hm u hu).imp_right fun hdonor => ?_
  obtain ⟨d, hd, hle⟩ := hdonor
  exact ⟨d, fun heq => hd.stage_ne (heq ▸ hidle), hd, hle⟩

section Idle

variable [DecidableEq T] {c : T} {l : L}

/-- The holder takes a lock that nobody held. -/
theorem Balanced.take [DecidableEq L] (h : v.Balanced) (hidle : v.stage c = .idle)
    (hfree : ∀ t, l ∉ v.held t) (hawaited : ∀ m, v.awaited c = some m → m = l)
    (hwaiters : ∀ u, u ≠ c → v.awaited u = some l → v.priority u ≤ v.priority c)
    (hback : v.priority c ≤ v.own c ∨
      ∃ u, u ≠ c ∧ v.awaited u = some l ∧ v.priority c ≤ v.priority u) :
    Balanced { v with
      lent := Function.update v.lent l (v.priority c)
      held := Function.update v.held c (insert l (v.held c))
      awaited := Function.update v.awaited c none } := by
  have hsub : ∀ t, v.held t ⊆ Function.update v.held c (insert l (v.held c)) t := by
    intro t
    by_cases ht : t = c
    · subst ht
      rw [Function.update_self]
      exact Set.subset_insert _ _
    · rw [Function.update_of_ne ht]
  have hcases : ∀ t m, m ∈ Function.update v.held c (insert l (v.held c)) t →
      t = c ∧ m = l ∨ m ∈ v.held t ∧ m ≠ l := by
    intro t m hm
    by_cases hml : m = l
    · subst hml
      by_cases ht : t = c
      · exact Or.inl ⟨ht, rfl⟩
      · rw [Function.update_of_ne ht] at hm
        exact absurd hm (hfree t)
    · refine Or.inr ⟨?_, hml⟩
      by_cases ht : t = c
      · subst ht
        rw [Function.update_self] at hm
        exact hm.resolve_left hml
      · rwa [Function.update_of_ne ht] at hm
  have hlent : ∀ m, m ≠ l → Function.update v.lent l (v.priority c) m = v.lent m :=
    fun m hm => Function.update_of_ne hm _ _
  have hwaits : ∀ u m, Function.update v.awaited c none u = some m →
      u ≠ c ∧ v.awaited u = some m := by
    intro u m hu
    by_cases huc : u = c
    · subst huc
      rw [Function.update_self] at hu
      cases hu
    · rw [Function.update_of_ne huc] at hu
      exact ⟨huc, hu⟩
  refine ⟨h.own_le, fun t => ?_, fun t m hm => ?_, fun t m hm u hu => ?_, fun t m hm => ?_⟩
  · refine (h.covered t).imp_right fun hcovered => ?_
    obtain ⟨m, hm, hle⟩ := hcovered
    exact ⟨m, hsub t hm, hle.trans (hlent m fun heq => hfree t (heq ▸ hm)).ge⟩
  · change Function.update v.lent l (v.priority c) m ≤ _ ∨ ∃ d, _ ∧
      Function.update v.lent l (v.priority c) m ≤ _
    rcases hcases t m hm with ⟨rfl, rfl⟩ | ⟨hm, hml⟩
    · rw [Function.update_self]
      exact Or.inl (le_refl _)
    · rw [hlent m hml]
      exact h.lent_le t m hm
  · obtain ⟨huc, hwaited⟩ := hwaits u m hu
    change _ ≤ Function.update v.lent l (v.priority c) m ∨ _
    rcases hcases t m hm with ⟨rfl, rfl⟩ | ⟨hm, hml⟩
    · rw [Function.update_self]
      exact Or.inl (hwaiters u huc hwaited)
    · rw [hlent m hml]
      refine (h.waiter_le t m hm u hwaited).imp_right fun hdonor => ?_
      obtain ⟨d, hd, hle⟩ := hdonor
      exact ⟨d, hd.congr rfl (hsub u), hle⟩
  · change Function.update v.lent l (v.priority c) m ≤ _ ∨ ∃ u, _ ∧
      Function.update v.lent l (v.priority c) m ≤ _
    have hkeeps : ∀ u, u ≠ c → v.awaited u = some m →
        Function.update v.awaited c none u = some m :=
      fun u hne hu => (Function.update_of_ne hne _ _).trans hu
    rcases hcases t m hm with ⟨rfl, rfl⟩ | ⟨hm, hml⟩
    · rw [Function.update_self]
      refine hback.imp_right fun hback => ?_
      obtain ⟨u, hne, hu, hle⟩ := hback
      exact ⟨u, hkeeps u hne hu, hle⟩
    · rw [hlent m hml]
      refine (h.backed t m hm).imp_right fun hback => ?_
      obtain ⟨u, hu, hle⟩ := hback
      exact ⟨u, hkeeps u (fun heq => hml (hawaited m (heq ▸ hu))) hu, hle⟩

/-- A thread that waits for nothing gives up locks, changes its own priority or
both, and its priority is brought up to date. -/
theorem Balanced.update (h : v.Balanced) (hidle : v.stage c = .idle)
    (hawaited : v.awaited c = none) {locks : Set L} {own q : P}
    (hlocks : locks ⊆ v.held c) (hown : own ≤ q)
    (hlent : ∀ l ∈ locks, v.lent l ≤ q ∨
      ∃ d, v.stage d = .raised l ∧ v.lent l ≤ v.priority d)
    (hcovered : q ≤ own ∨ ∃ l ∈ locks, q ≤ v.lent l)
    (hbacked : ∀ l ∈ locks, v.lent l ≤ own ∨
      ∃ u, v.awaited u = some l ∧ v.lent l ≤ v.priority u) :
    Balanced { v with
      own := Function.update v.own c own
      priority := Function.update v.priority c q
      held := Function.update v.held c locks } := by
  have hsub : ∀ t, Function.update v.held c locks t ⊆ v.held t := by
    intro t
    by_cases ht : t = c
    · subst ht
      rwa [Function.update_self]
    · rw [Function.update_of_ne ht]
  have hwaits : ∀ u m, v.awaited u = some m → u ≠ c := by
    rintro u m hu rfl
    rw [hawaited] at hu
    cases hu
  refine ⟨fun t => ?_, fun t => ?_, fun t m hm => ?_, fun t m hm u hu => ?_,
    fun t m hm => ?_⟩
  · by_cases ht : t = c
    · subst ht
      simpa only [Function.update_self] using hown
    · simpa only [Function.update_of_ne ht] using h.own_le t
  · by_cases ht : t = c
    · subst ht
      simpa only [Function.update_self] using hcovered
    · simpa only [Function.update_of_ne ht] using h.covered t
  · have hkeeps : (∃ d, v.stage d = .raised m ∧ v.lent m ≤ v.priority d) →
        ∃ d, v.stage d = .raised m ∧ v.lent m ≤ Function.update v.priority c q d := by
      rintro ⟨d, hd, hle⟩
      refine ⟨d, hd, ?_⟩
      rwa [Function.update_of_ne]
      rintro rfl
      cases hidle.symm.trans hd
    by_cases ht : t = c
    · subst ht
      change m ∈ Function.update v.held t locks t at hm
      rw [Function.update_self] at hm
      refine (hlent m hm).imp (fun hle => ?_) hkeeps
      change v.lent m ≤ Function.update v.priority t q t
      rwa [Function.update_self]
    · refine (h.lent_le t m (hsub t hm)).imp (fun hle => ?_) hkeeps
      change v.lent m ≤ Function.update v.priority c q t
      rwa [Function.update_of_ne ht]
  · have huc := hwaits u m hu
    change Function.update v.priority c q u ≤ _ ∨ ∃ d, _ ∧
      Function.update v.priority c q u ≤ Function.update v.priority c q d
    rw [Function.update_of_ne huc]
    refine (h.waiter_le_ne hidle (hsub t hm) hu).imp_right fun hdonor => ?_
    obtain ⟨d, hdc, hd, hle⟩ := hdonor
    refine ⟨d, hd.congr rfl (Function.update_of_ne huc _ _).ge, ?_⟩
    rwa [Function.update_of_ne hdc]
  · have hkeeps : (∃ u, v.awaited u = some m ∧ v.lent m ≤ v.priority u) →
        ∃ u, v.awaited u = some m ∧ v.lent m ≤ Function.update v.priority c q u := by
      rintro ⟨u, hu, hle⟩
      refine ⟨u, hu, ?_⟩
      rwa [Function.update_of_ne (hwaits u m hu)]
    by_cases ht : t = c
    · subst ht
      change m ∈ Function.update v.held t locks t at hm
      rw [Function.update_self] at hm
      refine (hbacked m hm).imp (fun hle => ?_) hkeeps
      change v.lent m ≤ Function.update v.own t own t
      rwa [Function.update_self]
    · refine (h.backed t m (hsub t hm)).imp (fun hle => ?_) hkeeps
      change v.lent m ≤ Function.update v.own c own t
      rwa [Function.update_of_ne ht]

end Idle

end PriorityLedger

end PintosLabs
