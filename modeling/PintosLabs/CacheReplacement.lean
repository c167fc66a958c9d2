/-
Which sectors the buffer cache gives up.  The hand of `cache_replace_find`
stays on the slot it has found, so that the sector loaded last is the first one
it looks at on the next miss, and loses its access bit there.
-/
import PintosLabs.BufferCache
import PintosLabs.SecondChance

namespace PintosLabs

open SecondChance (Queue clear clearLast evictions hasty load_full textbook turn)

/-- The sector that has to make way for one that is not cached. -/
def cacheEvicted (c : CacheState) (sector : BlockSector) : Option BlockSector :=
  match cacheFind c sector with
  | some _ => none
  | none =>
      let slot := (clockLoop c).cache (clockLoop c).clock
      if slot.valid then some slot.diskSector else none

def CacheCall.sector? : CacheCall → Option BlockSector
  | .read sector => some sector
  | .write sector _ => some sector
  | .close => none

/-- The sectors that make way in a sequence of calls. -/
def evictedSectors : CacheState → List CacheCall → List BlockSector
  | _, [] => []
  | c, call :: rest =>
      (call.sector?.bind (cacheEvicted c)).toList ++
        evictedSectors (cacheMachine.step c call).1 rest

/-! The slots in the order in which the hand comes to them. -/

/-- What the replacement sees of a slot. -/
def CacheEntry.seen (e : CacheEntry) : Option (BlockSector × Bool) :=
  if e.valid then some (e.diskSector, e.access) else none

namespace CacheState

/-- The slot `k` places after the hand. -/
def slot (c : CacheState) (k : Nat) : Fin cacheSize :=
  ⟨(c.clock.val + k) % cacheSize, Nat.mod_lt _ (by decide)⟩

def ring (c : CacheState) : List (Option (BlockSector × Bool)) :=
  (List.range cacheSize).map fun k => (c.cache (c.slot k)).seen

@[simp] theorem length_ring (c : CacheState) : c.ring.length = cacheSize := by
  rw [ring, List.length_map, List.length_range]

theorem slot_zero (c : CacheState) : c.slot 0 = c.clock :=
  Fin.ext (Nat.mod_eq_of_lt c.clock.isLt)

theorem slot_congr {c c' : CacheState} (hclock : c'.clock = c.clock) (k : Nat) :
    c'.slot k = c.slot k := by
  simp only [slot, hclock]

theorem slot_eq_clock {c : CacheState} {k : Nat} (hk : k < cacheSize)
    (h : c.slot k = c.clock) : k = 0 := by
  have hval := congrArg Fin.val h
  have hlt := c.clock.isLt
  simp only [slot, cacheSize] at hval hk hlt
  omega

theorem exists_slot (c : CacheState) (i : Fin cacheSize) :
    ∃ k < cacheSize, c.slot k = i := by
  refine ⟨(cacheSize + i.val - c.clock.val) % cacheSize, Nat.mod_lt _ (by decide),
    Fin.ext ?_⟩
  have hlt := c.clock.isLt
  have hi := i.isLt
  simp only [slot, cacheSize] at hlt hi ⊢
  omega

theorem getElem?_ring (c : CacheState) {k : Nat} (hk : k < cacheSize) :
    c.ring[k]? = some (c.cache (c.slot k)).seen := by
  rw [ring, List.getElem?_map, List.getElem?_range hk, Option.map_some]

theorem mem_ring {c : CacheState} {e : Option (BlockSector × Bool)} :
    e ∈ c.ring ↔ ∃ i, (c.cache i).seen = e := by
  rw [ring, List.mem_map]
  constructor
  · rintro ⟨k, -, h⟩
    exact ⟨c.slot k, h⟩
  · rintro ⟨i, h⟩
    obtain ⟨k, hk, rfl⟩ := c.exists_slot i
    exact ⟨k, List.mem_range.mpr hk, h⟩

theorem head_ring (c : CacheState) : ∃ rest, c.ring = (c.cache c.clock).seen :: rest := by
  refine ⟨c.ring.tail, ?_⟩
  have hhead := c.getElem?_ring (show 0 < cacheSize by decide)
  rw [slot_zero] at hhead
  cases hring : c.ring with
  | nil =>
      rw [hring] at hhead
      exact absurd hhead (by simp)
  | cons e rest =>
      rw [hring, List.getElem?_cons_zero, Option.some.injEq] at hhead
      rw [hhead, List.tail_cons]

/-- States whose slots look the same have the same ring. -/
theorem ring_map {c c' : CacheState} (hclock : c'.clock = c.clock)
    {f : Option (BlockSector × Bool) → Option (BlockSector × Bool)}
    (hseen : ∀ i, (c'.cache i).seen = f (c.cache i).seen) : c'.ring = c.ring.map f := by
  rw [ring, ring, List.map_map]
  refine List.map_congr_left fun k _ => ?_
  rw [hseen, slot_congr hclock]
  rfl

theorem ring_congr {c c' : CacheState} (hclock : c'.clock = c.clock)
    (hseen : ∀ i, (c'.cache i).seen = (c.cache i).seen) : c'.ring = c.ring := by
  rw [ring_map (f := id) hclock hseen, List.map_id]

/-- The slot under the hand is the first of the ring. -/
theorem ring_setEntry (c : CacheState) (entry : CacheEntry) {c' : CacheState}
    (hclock : c'.clock = c.clock)
    (hcache : ∀ i, (c'.cache i).seen =
      if i = c.clock then entry.seen else (c.cache i).seen) :
    c'.ring = entry.seen :: c.ring.tail := by
  refine List.ext_getElem? fun k => ?_
  by_cases hk : k < cacheSize
  · rw [getElem?_ring c' hk, hcache, slot_congr hclock]
    cases k with
    | zero => rw [slot_zero, if_pos rfl, List.getElem?_cons_zero]
    | succ k =>
        rw [if_neg fun h => absurd (slot_eq_clock hk h) (Nat.succ_ne_zero k),
          List.getElem?_cons_succ, List.getElem?_tail, getElem?_ring c hk]
  · rw [List.getElem?_eq_none (by rw [length_ring]; omega), List.getElem?_eq_none]
    rw [List.length_cons, List.length_tail, length_ring]
    have : 0 < cacheSize := by decide
    omega

/-- The hand goes on to the next slot. -/
theorem ring_advance {c c' : CacheState} (hcache : c'.cache = c.cache)
    (hclock : c'.clock = c.slot 1) {e : Option (BlockSector × Bool)}
    {rest : List (Option (BlockSector × Bool))} (hring : c.ring = e :: rest) :
    c'.ring = rest ++ [e] := by
  have hlen := congrArg List.length hring
  rw [length_ring, List.length_cons] at hlen
  refine List.ext_getElem? fun k => ?_
  have hslot : c'.slot k = c.slot (k + 1) := by
    refine Fin.ext ?_
    simp only [slot, hclock, cacheSize]
    omega
  by_cases hk : k < cacheSize
  · rw [getElem?_ring c' hk, hcache, hslot]
    by_cases hlast : k + 1 < cacheSize
    · rw [← getElem?_ring c hlast, hring, List.getElem?_cons_succ,
        List.getElem?_append_left (by omega)]
    · have hsame : c.slot (k + 1) = c.slot 0 := by
        refine Fin.ext ?_
        simp only [slot, cacheSize] at hlast hk ⊢
        omega
      rw [hsame, ← getElem?_ring c (by decide), hring, List.getElem?_cons_zero,
        List.getElem?_append_right (by omega), show k - rest.length = 0 by omega]
      rfl
  · rw [List.getElem?_eq_none (by rw [length_ring]; omega), List.getElem?_eq_none]
    rw [List.length_append, List.length_singleton]
    omega

end CacheState

section Loop

variable {c : CacheState}

theorem seen_eq_some {e : CacheEntry} {sector : BlockSector} {access : Bool} :
    e.seen = some (sector, access) ↔
      e.valid = true ∧ e.diskSector = sector ∧ e.access = access := by
  rw [CacheEntry.seen]
  cases e.valid <;> simp

theorem seen_eq_none {e : CacheEntry} : e.seen = none ↔ e.valid = false := by
  rw [CacheEntry.seen]
  cases e.valid <;> simp

/-- One turn of the loop: the slot under the hand loses its access bit. -/
theorem clockLoop_turn {sector : BlockSector}
    {rest : List (Option (BlockSector × Bool))}
    (hring : c.ring = some (sector, true) :: rest) :
    ∃ c', clockLoop c = clockLoop c' ∧ c'.ring = rest ++ [some (sector, false)] := by
  obtain ⟨rest', hhead⟩ := c.head_ring
  rw [hring] at hhead
  obtain ⟨hseen, rfl⟩ := List.cons.inj hhead
  obtain ⟨hvalid, hsector, haccess⟩ := seen_eq_some.mp hseen.symm
  obtain ⟨c₁, hc₁⟩ : ∃ c₁, c₁ =
      c.setEntry c.clock { c.cache c.clock with access := false } := ⟨_, rfl⟩
  refine ⟨{ c₁ with clock := ⟨(c.clock.val + 1) % cacheSize, Nat.mod_lt _ (by decide)⟩ },
    ?_, ?_⟩
  · conv_lhs => rw [clockLoop]
    rw [if_neg (by simp [hvalid]), dif_pos haccess, hc₁]
  · have hring₁ : c₁.ring = some (sector, false) :: rest := by
      refine (CacheState.ring_setEntry c { c.cache c.clock with access := false }
        (by rw [hc₁, CacheState.setEntry_clock]) fun i => ?_).trans ?_
      · rw [hc₁, CacheState.setEntry_cache]
        by_cases hi : i = c.clock
        · subst hi
          rw [Function.update_self, if_pos rfl]
        · rw [Function.update_of_ne hi, if_neg hi]
      · rw [hring, List.tail_cons]
        congr 1
        exact seen_eq_some.mpr ⟨hvalid, hsector, rfl⟩
    have hclock : c₁.clock = c.clock := by rw [hc₁, CacheState.setEntry_clock]
    exact @CacheState.ring_advance c₁ { c₁ with clock := c.slot 1 } rfl
      (CacheState.slot_congr hclock 1).symm _ _ hring₁

/-- The hand passes the slots whose access bit is set. -/
theorem clockLoop_ring {before : Queue BlockSector}
    {stop : Option (BlockSector × Bool)} {after : List (Option (BlockSector × Bool))}
    (hring : c.ring = before.map some ++ stop :: after)
    (hbefore : ∀ e ∈ before, e.2 = true) (hstop : ∀ sector, stop ≠ some (sector, true)) :
    (clockLoop c).ring = stop :: (after ++ (before.map clear).map some) := by
  induction before generalizing c after with
  | nil =>
      rw [List.map_nil, List.map_nil, List.append_nil]
      obtain ⟨rest, hhead⟩ := c.head_ring
      have heq := hhead.symm.trans hring
      rw [List.map_nil, List.nil_append, List.cons.injEq] at heq
      rw [clockLoop]
      split
      · exact hring
      · split
        case isTrue hvalid haccess =>
          exact absurd (heq.1.symm.trans (seen_eq_some.mpr ⟨by simpa using hvalid, rfl,
            haccess⟩)) (hstop _)
        case isFalse => exact hring
  | cons e rest ih =>
      obtain ⟨sector, access⟩ := e
      rw [List.forall_mem_cons] at hbefore
      obtain rfl : access = true := hbefore.1
      obtain ⟨c', hloop, hring'⟩ := clockLoop_turn hring
      rw [hloop, @ih c' (after ++ [some (sector, false)]) (by simp [hring']) hbefore.2]
      simp [clear]

theorem cacheFlush_seen (c : CacheState) (i j : Fin cacheSize) :
    ((cacheFlush c i).cache j).seen = (c.cache j).seen := by
  unfold cacheFlush
  split
  · by_cases hji : j = i
    · subst hji
      simp [CacheEntry.seen]
    · simp [hji]
  · rfl

theorem cacheFlush_clock (c : CacheState) (i : Fin cacheSize) :
    (cacheFlush c i).clock = c.clock := by
  unfold cacheFlush
  split <;> rfl

/-- The slot that is handed over is the one under the hand. -/
theorem cacheReplaceFind_seen (c : CacheState) :
    (cacheReplaceFind c).1 = (clockLoop c).clock ∧
      (cacheReplaceFind c).2.clock = (clockLoop c).clock ∧
      ∀ j ≠ (clockLoop c).clock,
        ((cacheReplaceFind c).2.cache j).seen = ((clockLoop c).cache j).seen := by
  rw [cacheReplaceFind_eq]
  split
  · exact ⟨rfl, rfl, fun _ _ => rfl⟩
  · refine ⟨rfl, cacheFlush_clock _ _, fun j hj => ?_⟩
    simp only [CacheState.setEntry_cache, Function.update_of_ne hj]
    exact cacheFlush_seen _ _ _

/-- The slot of a sector that was not cached is the one the hand has found. -/
theorem ring_miss {sector : BlockSector} (hfind : cacheFind c sector = none)
    {stop : Option (BlockSector × Bool)} {rest : List (Option (BlockSector × Bool))}
    (hring : (clockLoop c).ring = stop :: rest) {entry : CacheEntry}
    (hentry : entry.seen = some (sector, true)) :
    ((cacheEntryFor c sector).2.setEntry (cacheEntryFor c sector).1 entry).ring =
        some (sector, true) :: rest ∧
      cacheEvicted c sector = stop.map Prod.fst := by
  obtain ⟨hslot, hclock, hseen⟩ := cacheReplaceFind_seen c
  constructor
  · refine ((clockLoop c).ring_setEntry entry ?_ fun i => ?_).trans ?_
    · simp only [cacheEntryFor, hfind, CacheState.setEntry_clock]
      exact hclock
    · simp only [cacheEntryFor, hfind, CacheState.setEntry_cache, hslot]
      by_cases hi : i = (clockLoop c).clock
      · rw [if_pos hi, hi, Function.update_self]
      · rw [if_neg hi, Function.update_of_ne hi, Function.update_of_ne hi, hseen i hi]
    · rw [hring, hentry, List.tail_cons]
  · obtain ⟨rest', hhead⟩ := (clockLoop c).head_ring
    rw [hring, List.cons.injEq] at hhead
    rw [cacheEvicted, hfind, hhead.1, CacheEntry.seen]
    simp only
    split <;> rfl

/-- A hit sets the access bit of the sector. -/
def touchSeen (sector : BlockSector) (slot : Option (BlockSector × Bool)) :
    Option (BlockSector × Bool) :=
  slot.map fun e => if e.1 = sector then (sector, true) else e

theorem ring_hit (hwf : c.WellFormed) {sector : BlockSector} {i : Fin cacheSize}
    (hfind : cacheFind c sector = some i) {entry : CacheEntry}
    (hentry : entry.seen = some (sector, true)) :
    ((cacheEntryFor c sector).2.setEntry (cacheEntryFor c sector).1 entry).ring =
        c.ring.map (touchSeen sector) ∧
      cacheEvicted c sector = none := by
  obtain ⟨hvalid, hsector⟩ := cacheFind_eq_some hfind
  have hhit : touchSeen sector (c.cache i).seen = some (sector, true) := by
    rw [seen_eq_some.mpr ⟨hvalid, hsector, rfl⟩]
    simp [touchSeen]
  refine ⟨CacheState.ring_map ?_ fun j => ?_, by rw [cacheEvicted, hfind]⟩
  · simp only [cacheEntryFor, hfind, CacheState.setEntry_clock]
  · simp only [cacheEntryFor, hfind, CacheState.setEntry_cache]
    by_cases hj : j = i
    · rw [hj, Function.update_self, hentry, hhit]
    · rw [Function.update_of_ne hj, touchSeen]
      cases hseen : (c.cache j).seen with
      | none => rfl
      | some e =>
          obtain ⟨hvalid', hsector', -⟩ := seen_eq_some.mp (hseen.trans rfl)
          rw [Option.map_some, if_neg]
          intro heq
          exact hj (hwf.unique j i hvalid' hvalid (hsector'.trans (heq.trans hsector.symm)))

end Loop

/-- The cached sectors, the one loaded last being under the hand. -/
def Queued (c : CacheState) (q : Queue BlockSector) : Prop :=
  q = [] ∧ c.ring = List.replicate cacheSize none ∨
    ∃ older sector m, q = older ++ [(sector, true)] ∧
      c.ring = some (sector, true) :: (List.replicate m none ++ older.map some)

section Queued

variable {c : CacheState} {q : Queue BlockSector}

theorem Queued.mem_ring (h : Queued c q) {e : BlockSector × Bool} :
    some e ∈ c.ring ↔ e ∈ q := by
  rcases h with ⟨rfl, hring⟩ | ⟨older, sector, m, rfl, hring⟩
  · simp [hring]
  · simp [hring, or_comm]

theorem Queued.cacheFind_iff (h : Queued c q) {sector : BlockSector} :
    cacheFind c sector = none ↔ sector ∉ SecondChance.pages q := by
  rw [cacheFind_eq_none, SecondChance.pages, List.mem_map]
  constructor
  · rintro hnone ⟨⟨s, access⟩, hmem, rfl⟩
    obtain ⟨i, hi⟩ := CacheState.mem_ring.mp (h.mem_ring.mpr hmem)
    obtain ⟨hvalid, hsector, -⟩ := seen_eq_some.mp hi
    exact hnone i hvalid hsector
  · intro hout i hvalid hsector
    refine hout ⟨(sector, (c.cache i).access), h.mem_ring.mp ?_, rfl⟩
    exact CacheState.mem_ring.mpr ⟨i, seen_eq_some.mpr ⟨hvalid, hsector, rfl⟩⟩

/-- What a read or a write does to the queue is what the hasty clock does. -/
theorem Queued.request (h : Queued c q) (hwf : c.WellFormed) (sector : BlockSector)
    {entry : CacheEntry} (hentry : entry.seen = some (sector, true)) :
    Queued ((cacheEntryFor c sector).2.setEntry (cacheEntryFor c sector).1 entry)
        ((hasty cacheSize).step q sector).1 ∧
      cacheEvicted c sector = ((hasty cacheSize).step q sector).2 := by
  simp only [hasty]
  cases hfind : cacheFind c sector with
  | some i =>
      have hmem : sector ∈ SecondChance.pages q := by
        by_contra hout
        rw [h.cacheFind_iff.mpr hout] at hfind
        cases hfind
      obtain ⟨hring, hevicted⟩ := ring_hit hwf hfind hentry
      rw [if_pos hmem, hevicted]
      refine ⟨?_, rfl⟩
      rcases h with ⟨rfl, -⟩ | ⟨older, last, m, rfl, hring'⟩
      · exact absurd hmem List.not_mem_nil
      · refine Or.inr ⟨SecondChance.touch sector older, last, m, ?_, ?_⟩
        · rw [SecondChance.touch, List.map_append, SecondChance.touch, List.map_singleton]
          by_cases hlast : last = sector <;> simp [hlast]
        · rw [hring, hring', List.map_cons, List.map_append, List.map_replicate,
            List.map_map, SecondChance.touch, List.map_map]
          by_cases hlast : last = sector <;> simp [touchSeen, hlast, Function.comp_def]
  | none =>
      rw [if_neg (h.cacheFind_iff.mp hfind)]
      rcases h with ⟨rfl, hring⟩ | ⟨older, last, m, rfl, hring⟩
      · have hloop := @clockLoop_ring c [] none (List.replicate (cacheSize - 1) none)
          (by rw [hring]; rfl) (by simp) (by simp)
        obtain ⟨hring', hevicted⟩ := ring_miss hfind hloop hentry
        refine ⟨Or.inr ⟨[], sector, cacheSize - 1, rfl, ?_⟩, hevicted⟩
        rw [hring']
        simp
      · have hlen := congrArg List.length hring
        rw [CacheState.length_ring, List.length_cons, List.length_append,
          List.length_replicate, List.length_map] at hlen
        rw [SecondChance.clearLast_append]
        cases m with
        | succ m =>
            have hloop := @clockLoop_ring c [(last, true)] none
              (List.replicate m none ++ older.map some)
              (by rw [hring, List.replicate_succ]; rfl) (by simp) (by simp)
            obtain ⟨hring', hevicted⟩ := ring_miss hfind hloop hentry
            rw [SecondChance.load, if_pos (by simp; omega)]
            refine ⟨Or.inr ⟨older ++ [clear (last, true)], sector, m, rfl, ?_⟩, hevicted⟩
            rw [hring']
            simp
        | zero =>
            obtain ⟨before, victim, after, hsplit, hbefore⟩ :=
              SecondChance.exists_first_clear
                (show ∃ e ∈ older ++ [clear (last, true)], e.2 = false from
                  ⟨clear (last, true), by simp, rfl⟩)
            obtain ⟨c', hturn, hring₁⟩ := clockLoop_turn hring
            have hloop := @clockLoop_ring c' before (some (victim, false))
              (after.map some) (by
                rw [hring₁, List.replicate_zero, List.nil_append]
                change older.map some ++ [clear (last, true)].map some = _
                rw [← List.map_append, hsplit, List.map_append, List.map_cons])
              hbefore (by simp)
            rw [← hturn] at hloop
            obtain ⟨hring', hevicted⟩ := ring_miss hfind hloop hentry
            have hfull : cacheSize ≤ (before ++ (victim, false) :: after).length := by
              rw [← hsplit]
              simp
              omega
            rw [hsplit, load_full hfull hbefore]
            refine ⟨Or.inr ⟨after ++ before.map clear, sector, 0, rfl, ?_⟩, hevicted⟩
            rw [hring', List.map_append]
            rfl

theorem cacheClose_ring (c : CacheState) : (cacheClose c).ring = c.ring := by
  rw [cacheClose_eq]
  induction List.finRange cacheSize generalizing c with
  | nil => rfl
  | cons i rest ih =>
      rw [List.foldl_cons, ih, cacheCloseStep]
      split
      · rfl
      · exact CacheState.ring_congr (cacheFlush_clock c i) (cacheFlush_seen c i)

/-- The sectors that make way are those that the hasty clock gives up. -/
theorem Queued.evictedSectors_eq (h : Queued c q) (hwf : c.WellFormed)
    (calls : List CacheCall) :
    evictedSectors c calls =
      evictions (hasty cacheSize) q (calls.filterMap CacheCall.sector?) := by
  induction calls generalizing c q with
  | nil => rfl
  | cons call rest ih =>
      rw [evictedSectors]
      cases call with
      | read sector =>
          obtain ⟨hvalid, hsector, -⟩ := cacheEntryFor_spec hwf sector
          obtain ⟨hqueue, hevicted⟩ := h.request hwf sector
            (seen_eq_some.mpr ⟨hvalid, hsector, rfl⟩ :
              CacheEntry.seen { (cacheEntryFor c sector).2.cache
                (cacheEntryFor c sector).1 with access := true } = some (sector, true))
          rw [List.filterMap_cons_some (f := CacheCall.sector?) rfl,
            SecondChance.evictions_cons, ← hevicted,
            ← ih hqueue (cacheRead_spec hwf sector).2.1]
          rfl
      | write sector source =>
          obtain ⟨hvalid, hsector, -⟩ := cacheEntryFor_spec hwf sector
          obtain ⟨hqueue, hevicted⟩ := h.request hwf sector
            (seen_eq_some.mpr ⟨hvalid, hsector, rfl⟩ :
              CacheEntry.seen { (cacheEntryFor c sector).2.cache
                (cacheEntryFor c sector).1 with
                  access := true, dirty := true, buffer := source } = some (sector, true))
          rw [List.filterMap_cons_some (f := CacheCall.sector?) rfl,
            SecondChance.evictions_cons, ← hevicted,
            ← ih hqueue (cacheWrite_spec hwf sector source).1]
          rfl
      | close =>
          have hqueue : Queued (cacheClose c) q := by
            rw [Queued, cacheClose_ring]
            exact h
          rw [List.filterMap_cons_none (f := CacheCall.sector?) rfl,
            ← ih hqueue (cacheClose_spec hwf).1]
          simp only [cacheMachine, CacheCall.sector?, Option.bind_none, Option.toList_none,
            List.nil_append]

/-- The sector loaded last is the next to make way if and only if all the
others have their access bit set. -/
theorem Queued.evicted_last_iff {older : Queue BlockSector} {last sector : BlockSector}
    (h : Queued c (older ++ [(last, true)])) (hwf : c.WellFormed)
    (hnodup : last ∉ SecondChance.pages older) (hfull : older.length + 1 = cacheSize)
    (hmiss : sector ∉ SecondChance.pages (older ++ [(last, true)])) :
    cacheEvicted c sector = some last ↔ ∀ e ∈ older, e.2 = true := by
  have hentry : CacheEntry.seen ⟨true, sector, fun _ => 0, false, true⟩ =
      some (sector, true) := rfl
  rw [(h.request hwf sector hentry).2]
  simp only [hasty, if_neg hmiss, SecondChance.clearLast_append]
  obtain ⟨before, victim, after, hsplit, hbefore⟩ :=
    SecondChance.exists_first_clear
      (show ∃ e ∈ older ++ [clear (last, true)], e.2 = false from
        ⟨clear (last, true), by simp, rfl⟩)
  have hlen := congrArg List.length hsplit
  rw [List.length_append, List.length_singleton, hfull] at hlen
  rw [hsplit, load_full hlen.le hbefore, Option.some.injEq]
  cases after using List.reverseRecOn with
  | nil =>
      obtain ⟨rfl, hlast⟩ := List.append_inj' hsplit rfl
      exact iff_of_true (congrArg Prod.fst (List.cons.inj hlast).1).symm hbefore
  | append_singleton after e =>
      rw [← List.cons_append, ← List.append_assoc] at hsplit
      obtain ⟨rfl, -⟩ := List.append_inj' hsplit rfl
      refine iff_of_false (fun heq => hnodup ?_) fun hall => ?_
      · simp [heq]
      · exact absurd (hall (victim, false) (by simp)) (by simp)

end Queued

theorem cacheInit_queued (start : CacheState) : Queued (cacheInit start) [] := by
  refine Or.inl ⟨rfl, List.eq_replicate_iff.mpr ⟨CacheState.length_ring _, fun e he => ?_⟩⟩
  obtain ⟨i, rfl⟩ := CacheState.mem_ring.mp he
  rfl

/-- After `cache_init`, the sectors that make way are those of the textbook
clock exactly when, at every miss of the full cache, the sectors that the
textbook clock passes were hit again since the first miss after the one that
loaded them, and the one it gives up was not. -/
theorem evictedSectors_iff (start : CacheState) (calls : List CacheCall) :
    evictedSectors (cacheInit start) calls =
        evictions (textbook cacheSize) [] (calls.filterMap CacheCall.sector?) ↔
      SecondChance.Resident.AllHitAgain cacheSize []
        (calls.filterMap CacheCall.sector?) := by
  rw [(cacheInit_queued start).evictedSectors_eq (cacheInit_spec start).1]
  have hempty : SecondChance.Resident.Inv (P := BlockSector) cacheSize [] :=
    ⟨List.nodup_nil, Nat.zero_le _, by simp⟩
  exact hempty.evictions_iff (by decide) _

namespace CacheReplacementWitness

/-- A cache of which nothing is known but that the device holds zeros. -/
def start : CacheState where
  cache _ := ⟨false, 0, fun _ => 0, false, false⟩
  clock := ⟨0, by decide⟩
  disk _ _ := 0

/-- All sectors but the one loaded last are read again before the next miss. -/
def calls : List CacheCall :=
  ((List.range 64 ++ List.range 63 ++ [64]).map UInt32.ofNat).map .read

theorem sector_loaded_last_makes_way :
    ¬ ∀ (start : CacheState) (calls : List CacheCall),
      evictedSectors (cacheInit start) calls =
        evictions (textbook cacheSize) [] (calls.filterMap CacheCall.sector?) := by
  intro h
  have hcalls := h start calls
  rw [(cacheInit_queued start).evictedSectors_eq (cacheInit_spec start).1] at hcalls
  have hhasty : evictions (hasty cacheSize) [] (calls.filterMap CacheCall.sector?) =
      [63] := by decide +kernel
  have htextbook : evictions (textbook cacheSize) []
      (calls.filterMap CacheCall.sector?) = [0] := by decide +kernel
  rw [hhasty, htextbook] at hcalls
  exact absurd hcalls (by decide)

end CacheReplacementWitness

end PintosLabs
