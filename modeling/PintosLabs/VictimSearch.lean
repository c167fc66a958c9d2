/-
The search for a victim in the buffer cache: where the hand of
`cache_replace_find` stops, which access bits it clears on its way, and what it
writes to the disk.
-/
import Mathlib.Data.List.TakeWhile
import PintosLabs.CacheReplacement

namespace PintosLabs

namespace CacheState

/-- The hand passes over a slot in use that has been accessed. -/
def passes (c : CacheState) (i : Fin cacheSize) : Bool :=
  (c.cache i).valid && (c.cache i).access

/-- The slots in the order of the hand. -/
def handOrder (c : CacheState) : List (Fin cacheSize) := (List.range cacheSize).map c.slot

def passedOver (c : CacheState) : List (Fin cacheSize) := c.handOrder.takeWhile c.passes

/-- The first slot that the hand does not pass over, or its own. -/
def victim (c : CacheState) : Fin cacheSize :=
  (c.handOrder.find? fun i => !c.passes i).getD c.clock

/-- The slots passed over lose their access bit. -/
def cleared (c : CacheState) (passed : List (Fin cacheSize)) (i : Fin cacheSize) : CacheEntry :=
  if i ∈ passed then { c.cache i with access := false } else c.cache i

end CacheState

/-- What a search for a victim comes to: `i` is the slot that it returns, `c'`
the state that it leaves. -/
structure VictimFound (c : CacheState) (i : Fin cacheSize) (c' : CacheState) : Prop where
  first : i = c.victim
  invalid : (c'.cache i).valid = false
  access : ∀ j, (c'.cache j).access =
    if j ∈ c.passedOver then false else (c.cache j).access
  others : ∀ j, j ≠ i → c'.cache j = c.cleared c.passedOver j
  contents : (c'.cache i).diskSector = (c.cache i).diskSector ∧
    (c'.cache i).buffer = (c.cache i).buffer
  written : (c.cache i).valid = true → (c.cache i).dirty = true →
    c'.disk = Function.update c.disk (c.cache i).diskSector (c.cache i).buffer
  unwritten : ¬ ((c.cache i).valid = true ∧ (c.cache i).dirty = true) → c'.disk = c.disk
  hand : c'.clock = i

/-! The way of the hand. -/

namespace CacheState

/-- The state in which the hand has passed over the first `k` slots. -/
def passed (c : CacheState) (k : Nat) : CacheState :=
  { c with
    cache := c.cleared ((List.range k).map c.slot)
    clock := c.slot k }

variable {c : CacheState}

theorem slot_inj {j k : Nat} (hj : j < cacheSize) (hk : k < cacheSize)
    (h : c.slot j = c.slot k) : j = k := by
  have hval := congrArg Fin.val h
  have hlt := c.clock.isLt
  simp only [slot, cacheSize] at hval hj hk hlt
  omega

theorem slot_size (c : CacheState) : c.slot cacheSize = c.clock := by
  refine Fin.ext ?_
  have hlt := c.clock.isLt
  simp only [slot, cacheSize] at hlt ⊢
  omega

theorem slot_notMem {k : Nat} (hk : k < cacheSize) :
    c.slot k ∉ (List.range k).map c.slot := by
  intro hmem
  obtain ⟨j, hj, heq⟩ := List.mem_map.mp hmem
  have hlt := List.mem_range.mp hj
  exact absurd (slot_inj (hlt.trans hk) hk heq) (Nat.ne_of_lt hlt)

theorem passed_zero (c : CacheState) : c.passed 0 = c := by
  rw [passed, slot_zero]
  rfl

/-- The slot under the hand is still as it was. -/
theorem passed_entry {k : Nat} (hk : k < cacheSize) :
    (c.passed k).cache (c.passed k).clock = c.cache (c.slot k) :=
  if_neg (slot_notMem hk)

theorem passed_succ {k : Nat} (hk : k < cacheSize) :
    c.passed (k + 1) =
      { (c.passed k).setEntry (c.passed k).clock
          { (c.passed k).cache (c.passed k).clock with access := false } with
        clock := ⟨((c.passed k).clock.val + 1) % cacheSize,
          Nat.mod_lt _ (by decide)⟩ } := by
  have hclock : c.slot (k + 1) = ⟨((c.slot k).val + 1) % cacheSize,
      Nat.mod_lt _ (by decide)⟩ := by
    refine Fin.ext ?_
    simp only [slot, cacheSize]
    omega
  have hcache : (c.passed (k + 1)).cache = Function.update (c.passed k).cache (c.slot k)
      { c.cache (c.slot k) with access := false } := by
    funext i
    by_cases hi : i = c.slot k
    · subst hi
      rw [Function.update_self]
      exact if_pos (List.mem_map_of_mem (List.mem_range.mpr (Nat.lt_succ_self k)))
    · rw [Function.update_of_ne hi]
      change c.cleared _ i = c.cleared _ i
      have hmem : i ∈ (List.range (k + 1)).map c.slot ↔ i ∈ (List.range k).map c.slot := by
        rw [List.range_succ, List.map_append, List.mem_append]
        exact or_iff_left fun h => hi (List.mem_singleton.mp h)
      simp only [cleared, hmem]
  rw [passed_entry hk]
  exact congrArg₂ (fun cache clock => CacheState.mk cache clock c.disk) hcache hclock

end CacheState

theorem clockLoop_passed {c : CacheState} {k : Nat} (hk : k ≤ cacheSize)
    (hpasses : ∀ j < k, c.passes (c.slot j) = true) : clockLoop c = clockLoop (c.passed k) := by
  induction k with
  | zero => rw [c.passed_zero]
  | succ k ih =>
      have hentry := c.passed_entry (Nat.lt_of_succ_le hk)
      have hpass := hpasses k (Nat.lt_succ_self k)
      rw [CacheState.passes, Bool.and_eq_true, ← hentry] at hpass
      rw [ih (Nat.le_of_succ_le hk) fun j hj => hpasses j (Nat.lt_succ_of_lt hj),
        c.passed_succ (Nat.lt_of_succ_le hk)]
      conv_lhs => rw [clockLoop]
      rw [if_neg (by simp [hpass.1]), dif_pos hpass.2]

theorem clockLoop_stops {c : CacheState} (hstop : c.passes c.clock = false) :
    clockLoop c = c := by
  rw [clockLoop]
  split
  case isTrue => rfl
  case isFalse hvalid =>
    rw [Bool.not_eq_false] at hvalid
    rw [CacheState.passes, hvalid, Bool.true_and] at hstop
    rw [dif_neg (by rw [hstop]; exact Bool.false_ne_true)]

namespace CacheState

variable (c : CacheState)

theorem length_handOrder : c.handOrder.length = cacheSize := by
  rw [handOrder, List.length_map, List.length_range]

theorem length_passedOver_le : c.passedOver.length ≤ cacheSize :=
  (List.takeWhile_prefix _).length_le.trans_eq c.length_handOrder

theorem passedOver_eq : c.passedOver = (List.range c.passedOver.length).map c.slot := by
  calc c.passedOver = c.handOrder.take c.passedOver.length :=
        List.prefix_iff_eq_take.mp (List.takeWhile_prefix _)
    _ = (List.range (min c.passedOver.length cacheSize)).map c.slot := by
        rw [handOrder, ← List.map_take, List.take_range]
    _ = (List.range c.passedOver.length).map c.slot := by
        rw [Nat.min_eq_left c.length_passedOver_le]

theorem passes_of_passedOver {j : Nat} (hj : j < c.passedOver.length) :
    c.passes (c.slot j) = true := by
  have hmem : c.slot j ∈ c.passedOver := by
    rw [passedOver_eq]
    exact List.mem_map_of_mem (List.mem_range.mpr hj)
  exact List.mem_takeWhile_imp hmem

/-- The slot behind those passed over, if they are not all. -/
theorem head_dropWhile : (c.handOrder.dropWhile c.passes).head? =
    if c.passedOver.length < cacheSize then some (c.slot c.passedOver.length) else none := by
  have hsplit := List.takeWhile_append_dropWhile (p := c.passes) (l := c.handOrder)
  have hnext : (c.handOrder.dropWhile c.passes).head? = c.handOrder[c.passedOver.length]? := by
    conv_rhs => rw [← hsplit]
    rw [passedOver, List.getElem?_append_right (Nat.le_refl _), Nat.sub_self, List.head?_eq_getElem?]
  rw [hnext, handOrder, List.getElem?_map]
  split
  case isTrue hlt => rw [List.getElem?_range hlt, Option.map_some]
  case isFalse hle =>
      rw [List.getElem?_eq_none (by rw [List.length_range]; exact Nat.le_of_not_lt hle),
        Option.map_none]

theorem victim_eq : c.victim = c.slot c.passedOver.length := by
  rw [victim, List.find?_not_eq_head?_dropWhile, head_dropWhile]
  split
  case isTrue => rfl
  case isFalse hle =>
      rw [Nat.le_antisymm c.length_passedOver_le (Nat.le_of_not_lt hle), c.slot_size]
      rfl

/-- The hand stops behind the slots it has passed over: there, or on its own slot,
whose bit it has cleared itself. -/
theorem passed_stops : (c.passed c.passedOver.length).passes
    (c.passed c.passedOver.length).clock = false := by
  by_cases hlt : c.passedOver.length < cacheSize
  · have hnot := List.head?_dropWhile_not c.passes c.handOrder
    rw [head_dropWhile, if_pos hlt] at hnot
    rw [passes, c.passed_entry hlt]
    exact hnot
  · have hall := Nat.le_antisymm c.length_passedOver_le (Nat.le_of_not_lt hlt)
    have hself : c.clock ∈ (List.range cacheSize).map c.slot :=
      c.slot_zero ▸ List.mem_map_of_mem (List.mem_range.mpr (by decide))
    rw [hall, passes, Bool.and_eq_false_iff]
    refine Or.inr ?_
    change (c.cleared _ (c.slot cacheSize)).access = false
    rw [c.slot_size, cleared, if_pos hself]

theorem clockLoop_eq : clockLoop c = c.passed c.passedOver.length := by
  rw [clockLoop_passed c.length_passedOver_le fun j hj => c.passes_of_passedOver hj,
    clockLoop_stops c.passed_stops]

theorem cleared_eq (passed : List (Fin cacheSize)) (i : Fin cacheSize) :
    ∃ access, c.cleared passed i = { c.cache i with access := access } ∧
      access = if i ∈ passed then false else (c.cache i).access := by
  refine ⟨_, ?_, rfl⟩
  rw [cleared]
  split <;> rfl

end CacheState

/-- What happens to the slot at which the hand stops, and to the disk. -/
theorem cacheReplaceFind_stopped {c d : CacheState} {i : Fin cacheSize}
    (hloop : clockLoop c = d) (hclock : d.clock = i) :
    (cacheReplaceFind c).1 = i ∧ (cacheReplaceFind c).2.clock = i ∧
      (∃ dirty, (cacheReplaceFind c).2.cache =
        Function.update d.cache i { d.cache i with valid := false, dirty := dirty }) ∧
      (cacheReplaceFind c).2.disk =
        if (d.cache i).valid = true ∧ (d.cache i).dirty = true then
          Function.update d.disk (d.cache i).diskSector (d.cache i).buffer
        else d.disk := by
  subst hclock
  rw [cacheReplaceFind_eq, hloop]
  split
  case isTrue hinvalid =>
      refine ⟨rfl, rfl, ⟨(d.cache d.clock).dirty, ?_⟩, ?_⟩
      · rw [← hinvalid, Function.update_eq_self]
      · rw [if_neg fun h => (by rw [hinvalid] at h; cases h.1)]
  case isFalse hvalid =>
      rw [Bool.not_eq_false] at hvalid
      refine ⟨rfl, ?_, ?_, ?_⟩
      · unfold cacheFlush
        split <;> rfl
      · refine ⟨false, ?_⟩
        unfold cacheFlush
        split
        case isTrue =>
          simp only [CacheState.setEntry_cache, Function.update_self, Function.update_idem]
        case isFalse hclean =>
          rw [Bool.not_eq_true] at hclean
          simp only [CacheState.setEntry_cache, ← hclean]
      · unfold cacheFlush
        split
        case isTrue hdirty => rw [if_pos ⟨hvalid, hdirty⟩]; rfl
        case isFalse hclean => rw [if_neg fun h => hclean h.2]; rfl

/-- From every contents of the slots and every place of the hand, the search ends
at the first slot, in the order of the hand, that is invalid or has not been
accessed. -/
theorem cacheReplaceFind_victim (c : CacheState) :
    VictimFound c (cacheReplaceFind c).1 (cacheReplaceFind c).2 := by
  obtain ⟨d, hd⟩ : ∃ d, d = c.passed c.passedOver.length := ⟨_, rfl⟩
  have hcache : ∀ j, d.cache j = c.cleared c.passedOver j := by
    intro j
    conv_rhs => rw [c.passedOver_eq]
    rw [hd]
    rfl
  have hdisk : d.disk = c.disk := by rw [hd]; rfl
  obtain ⟨hreturned, hhand, ⟨dirty, hslots⟩, hwritten⟩ :=
    cacheReplaceFind_stopped (c.clockLoop_eq.trans hd.symm) (i := c.victim)
      (by rw [hd, c.victim_eq]; rfl)
  obtain ⟨access, hvictim, haccess⟩ := c.cleared_eq c.passedOver c.victim
  rw [← hcache] at hvictim
  rw [hvictim, hdisk] at hwritten
  rw [hvictim] at hslots
  generalize hafter : (cacheReplaceFind c).2 = c' at *
  have hself : c'.cache c.victim = { c.cache c.victim with
      valid := false, dirty := dirty, access := access } := by
    rw [hslots, Function.update_self]
  have hothers : ∀ j, j ≠ c.victim → c'.cache j = c.cleared c.passedOver j := by
    intro j hj
    rw [hslots, Function.update_of_ne hj, hcache]
  rw [hreturned]
  refine ⟨rfl, by rw [hself], fun j => ?_, hothers, ⟨by rw [hself], by rw [hself]⟩,
    fun hvalid hdirty => hwritten.trans (if_pos ⟨hvalid, hdirty⟩),
    fun hnot => hwritten.trans (if_neg hnot), hhand⟩
  by_cases hj : j = c.victim
  · rw [hj, hself, haccess]
  · obtain ⟨access', hcleared, haccess'⟩ := c.cleared_eq c.passedOver j
    rw [hothers j hj, hcleared, haccess']

end PintosLabs
