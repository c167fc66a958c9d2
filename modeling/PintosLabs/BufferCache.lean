/-
The buffer cache of the file system (filesys/cache.c): sixty-four slots over
the file system device, replaced by a clock hand that survives between calls.
Every call runs under `cache_lock`, so each is one step of the machine here.
-/
import Mathlib.Data.Fintype.Card
import Mathlib.Data.Fin.Basic
import Mathlib.Data.UInt
import PintosLabs.Machine
import PintosLabs.SectorStore

namespace PintosLabs

def cacheSize : Nat := 64

def blockSectorSize : Nat := 512

abbrev BlockSector := UInt32

/-- The bytes of one sector. -/
abbrev Block := Fin blockSectorSize → UInt8

structure CacheEntry where
  valid : Bool
  diskSector : BlockSector
  buffer : Block
  dirty : Bool
  access : Bool

/-- The static variables of cache.c and the device below them.  `clock` is
the static local of `cache_replace_find`. -/
structure CacheState where
  cache : Fin cacheSize → CacheEntry
  clock : Fin cacheSize
  disk : BlockSector → Block

def CacheState.setEntry (c : CacheState) (i : Fin cacheSize)
    (entry : CacheEntry) : CacheState :=
  { c with cache := Function.update c.cache i entry }

@[simp] theorem CacheState.setEntry_cache (c : CacheState) (i : Fin cacheSize)
    (entry : CacheEntry) :
    (c.setEntry i entry).cache = Function.update c.cache i entry := rfl

@[simp] theorem CacheState.setEntry_clock (c : CacheState) (i : Fin cacheSize)
    (entry : CacheEntry) : (c.setEntry i entry).clock = c.clock := rfl

@[simp] theorem CacheState.setEntry_disk (c : CacheState) (i : Fin cacheSize)
    (entry : CacheEntry) : (c.setEntry i entry).disk = c.disk := rfl

/-- `cache_flush`: write a dirty slot back. -/
def cacheFlush (c : CacheState) (i : Fin cacheSize) : CacheState :=
  if (c.cache i).dirty then
    { c.setEntry i { c.cache i with dirty := false } with
      disk := Function.update c.disk (c.cache i).diskSector (c.cache i).buffer }
  else c

/-- `cache_find`: the first valid slot that holds the sector. -/
def cacheFind (c : CacheState) (sector : BlockSector) :
    Option (Fin cacheSize) :=
  (List.finRange cacheSize).find? fun i =>
    (c.cache i).valid && (c.cache i).diskSector == sector

/-- The slots whose access bit is set, which the hand has still to clear. -/
def CacheState.accessed (c : CacheState) : Finset (Fin cacheSize) :=
  Finset.univ.filter fun i => (c.cache i).access = true

theorem CacheState.mem_accessed {c : CacheState} {i : Fin cacheSize} :
    i ∈ c.accessed ↔ (c.cache i).access = true := by
  rw [accessed, Finset.mem_filter]
  exact and_iff_right (Finset.mem_univ i)

theorem CacheState.accessed_clear_ssubset (c : CacheState) (i : Fin cacheSize)
    (haccess : (c.cache i).access = true) :
    (c.setEntry i { c.cache i with access := false }).accessed ⊂ c.accessed := by
  rw [Finset.ssubset_iff_of_subset]
  · exact ⟨i, by simp [mem_accessed, haccess], by simp [mem_accessed]⟩
  · intro j hj
    by_cases hji : j = i
    · subst hji
      simp [mem_accessed] at hj
    · simpa [mem_accessed, hji] using hj

/-- The loop of `cache_replace_find`, which leaves the hand on the slot it
stops at.  Every turn that goes on clears an access bit, so it stops. -/
def clockLoop (c : CacheState) : CacheState :=
  if (c.cache c.clock).valid = false then c
  else if haccess : (c.cache c.clock).access = true then
    clockLoop
      { c.setEntry c.clock { c.cache c.clock with access := false } with
        clock := ⟨(c.clock.val + 1) % cacheSize, Nat.mod_lt _ (by decide)⟩ }
  else c
termination_by c.accessed.card
decreasing_by
  exact Finset.card_lt_card (c.accessed_clear_ssubset c.clock haccess)

/-- `cache_replace_find`: the slot to load into, made invalid, its old
contents written back first when they were dirty. -/
def cacheReplaceFind (c : CacheState) : Fin cacheSize × CacheState :=
  let c := clockLoop c
  if (c.cache c.clock).valid = false then (c.clock, c)
  else
    let c := if (c.cache c.clock).dirty then cacheFlush c c.clock else c
    (c.clock, c.setEntry c.clock { c.cache c.clock with valid := false })

/-- The part `cache_read` and `cache_write` share: the slot of the sector,
loaded from the device when the sector was not cached. -/
def cacheEntryFor (c : CacheState) (sector : BlockSector) :
    Fin cacheSize × CacheState :=
  match cacheFind c sector with
  | some i => (i, c)
  | none =>
      let (i, c) := cacheReplaceFind c
      (i, c.setEntry i
        { c.cache i with
          valid := true, diskSector := sector, dirty := false,
          buffer := c.disk sector })

def cacheRead (c : CacheState) (sector : BlockSector) : Block × CacheState :=
  let (i, c) := cacheEntryFor c sector
  let c := c.setEntry i { c.cache i with access := true }
  ((c.cache i).buffer, c)

def cacheWrite (c : CacheState) (sector : BlockSector) (source : Block) :
    CacheState :=
  let (i, c) := cacheEntryFor c sector
  c.setEntry i
    { c.cache i with access := true, dirty := true, buffer := source }

def cacheInit (c : CacheState) : CacheState :=
  { c with cache := fun i => { c.cache i with valid := false } }

def cacheClose (c : CacheState) : CacheState :=
  (List.finRange cacheSize).foldl
    (fun c i => if (c.cache i).valid = false then c else cacheFlush c i) c

/-! The invariant of the slots, and the contents a client sees. -/

/-- No sector is in two valid slots, and a clean slot agrees with the disk. -/
structure CacheState.WellFormed (c : CacheState) : Prop where
  unique : ∀ i j, (c.cache i).valid = true → (c.cache j).valid = true →
    (c.cache i).diskSector = (c.cache j).diskSector → i = j
  coherent : ∀ i, (c.cache i).valid = true → (c.cache i).dirty = false →
    c.disk (c.cache i).diskSector = (c.cache i).buffer

/-- What a read of the sector would deliver. -/
def CacheState.view (c : CacheState) (sector : BlockSector) : Block :=
  match cacheFind c sector with
  | some i => (c.cache i).buffer
  | none => c.disk sector

theorem cacheFind_eq_some {c : CacheState} {sector : BlockSector}
    {i : Fin cacheSize} (hfind : cacheFind c sector = some i) :
    (c.cache i).valid = true ∧ (c.cache i).diskSector = sector := by
  have := List.find?_some hfind
  simpa using this

theorem cacheFind_eq_none {c : CacheState} {sector : BlockSector} :
    cacheFind c sector = none ↔
      ∀ i, (c.cache i).valid = true → (c.cache i).diskSector ≠ sector := by
  simp [cacheFind]

theorem CacheState.WellFormed.cacheFind_of_holds {c : CacheState}
    (hwf : c.WellFormed) {i : Fin cacheSize} (hvalid : (c.cache i).valid = true) :
    cacheFind c (c.cache i).diskSector = some i := by
  cases hfind : cacheFind c (c.cache i).diskSector with
  | none => exact absurd rfl (cacheFind_eq_none.mp hfind i hvalid)
  | some j =>
      obtain ⟨hj, hsector⟩ := cacheFind_eq_some hfind
      rw [hwf.unique j i hj hvalid hsector]

theorem CacheState.WellFormed.view_of_holds {c : CacheState}
    (hwf : c.WellFormed) {i : Fin cacheSize} {sector : BlockSector}
    (hvalid : (c.cache i).valid = true)
    (hsector : (c.cache i).diskSector = sector) :
    c.view sector = (c.cache i).buffer := by
  subst hsector
  simp [view, hwf.cacheFind_of_holds hvalid]

theorem CacheState.view_of_absent {c : CacheState} {sector : BlockSector}
    (habsent : ∀ i, (c.cache i).valid = true → (c.cache i).diskSector ≠ sector) :
    c.view sector = c.disk sector := by
  simp [view, cacheFind_eq_none.mpr habsent]

/-- Two states whose slots differ in their access bits only. -/
def CacheState.SameData (c c' : CacheState) : Prop :=
  c'.disk = c.disk ∧
    ∀ i, ∃ access, c'.cache i = { c.cache i with access := access }

theorem CacheState.SameData.refl (c : CacheState) : c.SameData c :=
  ⟨rfl, fun i => ⟨(c.cache i).access, rfl⟩⟩

theorem CacheState.SameData.trans {c c' c'' : CacheState}
    (hfirst : c.SameData c') (hsecond : c'.SameData c'') : c.SameData c'' := by
  refine ⟨hsecond.1.trans hfirst.1, fun i => ?_⟩
  obtain ⟨a, ha⟩ := hfirst.2 i
  obtain ⟨b, hb⟩ := hsecond.2 i
  exact ⟨b, by rw [hb, ha]⟩

theorem CacheState.SameData.setAccess (c : CacheState) (i : Fin cacheSize)
    (access : Bool) :
    c.SameData (c.setEntry i { c.cache i with access := access }) := by
  refine ⟨rfl, fun j => ?_⟩
  by_cases hji : j = i
  · subst hji
    exact ⟨access, by simp⟩
  · exact ⟨(c.cache j).access, by simp [hji]⟩

section SameData

variable {c c' : CacheState} (hsame : c.SameData c')
include hsame

theorem CacheState.SameData.valid_eq (i : Fin cacheSize) :
    (c'.cache i).valid = (c.cache i).valid := by
  obtain ⟨_, h⟩ := hsame.2 i
  rw [h]

theorem CacheState.SameData.diskSector_eq (i : Fin cacheSize) :
    (c'.cache i).diskSector = (c.cache i).diskSector := by
  obtain ⟨_, h⟩ := hsame.2 i
  rw [h]

theorem CacheState.SameData.buffer_eq (i : Fin cacheSize) :
    (c'.cache i).buffer = (c.cache i).buffer := by
  obtain ⟨_, h⟩ := hsame.2 i
  rw [h]

theorem CacheState.SameData.dirty_eq (i : Fin cacheSize) :
    (c'.cache i).dirty = (c.cache i).dirty := by
  obtain ⟨_, h⟩ := hsame.2 i
  rw [h]

theorem CacheState.SameData.view_eq : c'.view = c.view := by
  funext sector
  have hfind : cacheFind c' sector = cacheFind c sector := by
    simp only [cacheFind, hsame.valid_eq, hsame.diskSector_eq]
  simp only [view, hfind, hsame.buffer_eq, hsame.1]

theorem CacheState.SameData.wellFormed (hwf : c.WellFormed) :
    c'.WellFormed := by
  constructor
  · intro i j hi hj hsector
    simp only [hsame.valid_eq, hsame.diskSector_eq] at hi hj hsector
    exact hwf.unique i j hi hj hsector
  · intro i hi hdirty
    simp only [hsame.valid_eq, hsame.dirty_eq] at hi hdirty
    rw [hsame.diskSector_eq, hsame.buffer_eq, hsame.1]
    exact hwf.coherent i hi hdirty

end SameData

/-! What each function of the cache does to the slots and to the contents. -/

theorem clockLoop_sameData (c : CacheState) : c.SameData (clockLoop c) := by
  fun_induction clockLoop c with
  | case1 c hvalid => exact CacheState.SameData.refl c
  | case2 c hvalid haccess ih =>
      exact (CacheState.SameData.setAccess c c.clock false).trans
        ⟨ih.1, ih.2⟩
  | case3 c hvalid haccess => exact CacheState.SameData.refl c

section Flush

variable {c : CacheState} (hwf : c.WellFormed) {i : Fin cacheSize}
  (hvalid : (c.cache i).valid = true)
include hwf hvalid

theorem cacheFlush_wellFormed : (cacheFlush c i).WellFormed := by
  unfold cacheFlush
  split
  case isFalse => exact hwf
  case isTrue hdirty =>
    have hentry : ∀ j, ∃ dirty, Function.update c.cache i
        { c.cache i with dirty := false } j =
          { c.cache j with dirty := dirty } := by
      intro j
      by_cases hji : j = i
      · subst hji
        exact ⟨false, by simp⟩
      · exact ⟨(c.cache j).dirty, by simp [hji]⟩
    constructor
    · intro j k hj hk hsector
      obtain ⟨_, hj'⟩ := hentry j
      obtain ⟨_, hk'⟩ := hentry k
      simp only [CacheState.setEntry_cache, hj', hk'] at hj hk hsector
      exact hwf.unique j k hj hk hsector
    · intro j hj hjdirty
      by_cases hji : j = i
      · subst hji
        simp
      · simp only [CacheState.setEntry_cache, Function.update_of_ne hji] at hj hjdirty ⊢
        have hne : (c.cache j).diskSector ≠ (c.cache i).diskSector :=
          fun heq => hji (hwf.unique j i hj hvalid heq)
        rw [Function.update_of_ne hne]
        exact hwf.coherent j hj hjdirty

theorem cacheFlush_view : (cacheFlush c i).view = c.view := by
  have hwf' := cacheFlush_wellFormed hwf hvalid
  unfold cacheFlush at hwf' ⊢
  split at hwf'
  case isFalse hdirty => simp [hdirty]
  case isTrue hdirty =>
    rw [if_pos hdirty]
    funext sector
    cases hfind : cacheFind c sector with
    | some j =>
        obtain ⟨hj, hsector⟩ := cacheFind_eq_some hfind
        rw [hwf.view_of_holds hj hsector]
        rw [hwf'.view_of_holds (i := j)]
        all_goals
          by_cases hji : j = i
          · subst hji
            simp [hj, hsector]
          · simp [hji, hj, hsector]
    | none =>
        have habsent := cacheFind_eq_none.mp hfind
        rw [CacheState.view_of_absent habsent, CacheState.view_of_absent]
        · have hne : sector ≠ (c.cache i).diskSector :=
            fun heq => habsent i hvalid heq.symm
          simp [hne]
        · intro j hj
          by_cases hji : j = i
          · subst hji
            simpa using habsent j hvalid
          · simp only [CacheState.setEntry_cache, Function.update_of_ne hji] at hj ⊢
            exact habsent j hj

end Flush

theorem cacheFlush_clean (c : CacheState) (i : Fin cacheSize) :
    ((cacheFlush c i).cache i).dirty = false := by
  unfold cacheFlush
  split
  case isTrue => simp
  case isFalse hdirty => simpa using hdirty

theorem cacheFlush_valid (c : CacheState) (i j : Fin cacheSize) :
    ((cacheFlush c i).cache j).valid = (c.cache j).valid := by
  unfold cacheFlush
  split
  · by_cases hji : j = i
    · subst hji
      simp
    · simp [hji]
  · rfl

theorem cacheFlush_diskSector (c : CacheState) (i j : Fin cacheSize) :
    ((cacheFlush c i).cache j).diskSector = (c.cache j).diskSector := by
  unfold cacheFlush
  split
  · by_cases hji : j = i
    · subst hji
      simp
    · simp [hji]
  · rfl

theorem cacheFlush_clean_mono (c : CacheState) (i : Fin cacheSize)
    {j : Fin cacheSize} (hclean : (c.cache j).dirty = false) :
    ((cacheFlush c i).cache j).dirty = false := by
  unfold cacheFlush
  split
  · by_cases hji : j = i
    · subst hji
      simp
    · simpa [hji] using hclean
  · exact hclean

/-- Dropping a clean slot loses nothing: its sector is read from the disk
from now on. -/
theorem CacheState.WellFormed.drop {c : CacheState} (hwf : c.WellFormed)
    {i : Fin cacheSize} (hvalid : (c.cache i).valid = true)
    (hclean : (c.cache i).dirty = false) :
    (c.setEntry i { c.cache i with valid := false }).WellFormed ∧
      (c.setEntry i { c.cache i with valid := false }).view = c.view := by
  have hwf' : (c.setEntry i { c.cache i with valid := false }).WellFormed := by
    constructor
    · intro j k hj hk hsector
      have hji : j ≠ i := by rintro rfl; simp at hj
      have hki : k ≠ i := by rintro rfl; simp at hk
      simp only [setEntry_cache, Function.update_of_ne hji,
        Function.update_of_ne hki] at hj hk hsector
      exact hwf.unique j k hj hk hsector
    · intro j hj hdirty
      have hji : j ≠ i := by rintro rfl; simp at hj
      simp only [setEntry_cache, Function.update_of_ne hji] at hj hdirty ⊢
      exact hwf.coherent j hj hdirty
  refine ⟨hwf', ?_⟩
  funext sector
  by_cases hsector : sector = (c.cache i).diskSector
  · subst hsector
    rw [hwf.view_of_holds hvalid rfl, ← hwf.coherent i hvalid hclean]
    apply view_of_absent
    intro j hj heq
    have hji : j ≠ i := by rintro rfl; simp at hj
    simp only [setEntry_cache, Function.update_of_ne hji] at hj heq
    exact hji (hwf.unique j i hj hvalid heq)
  · cases hfind : cacheFind c sector with
    | some j =>
        obtain ⟨hj, hjsector⟩ := cacheFind_eq_some hfind
        have hji : j ≠ i := by
          rintro rfl
          exact hsector hjsector.symm
        rw [hwf.view_of_holds hj hjsector,
          hwf'.view_of_holds (i := j) (by simpa [hji] using hj)
            (by simpa [hji] using hjsector)]
        simp [hji]
    | none =>
        have habsent := cacheFind_eq_none.mp hfind
        rw [view_of_absent habsent, view_of_absent]
        · rfl
        · intro j hj
          have hji : j ≠ i := by rintro rfl; simp at hj
          simp only [setEntry_cache, Function.update_of_ne hji] at hj ⊢
          exact habsent j hj

/-- What `cache_replace_find` comes to: the slot under the hand is flushed and
dropped, unless the hand stopped at an invalid one. -/
theorem cacheReplaceFind_eq (c : CacheState) :
    cacheReplaceFind c =
      if ((clockLoop c).cache (clockLoop c).clock).valid = false then
        ((clockLoop c).clock, clockLoop c)
      else
        ((clockLoop c).clock,
          let flushed := cacheFlush (clockLoop c) (clockLoop c).clock
          flushed.setEntry (clockLoop c).clock
            { flushed.cache (clockLoop c).clock with valid := false }) := by
  have hclock : (cacheFlush (clockLoop c) (clockLoop c).clock).clock =
      (clockLoop c).clock := by
    unfold cacheFlush
    split <;> rfl
  simp only [cacheReplaceFind]
  split
  · rfl
  · split
    case isTrue => rw [hclock]
    case isFalse hclean =>
      rw [show cacheFlush (clockLoop c) (clockLoop c).clock = clockLoop c by
        unfold cacheFlush
        rw [if_neg hclean]]

/-- The victim of the clock hand is handed over invalid (the assertion of the
callers), and the contents are as before. -/
theorem cacheReplaceFind_spec {c : CacheState} (hwf : c.WellFormed) :
    (((cacheReplaceFind c).2.cache (cacheReplaceFind c).1).valid = false) ∧
      (cacheReplaceFind c).2.WellFormed ∧
      (cacheReplaceFind c).2.view = c.view := by
  have hsame := clockLoop_sameData c
  have hloop := hsame.wellFormed hwf
  rw [cacheReplaceFind_eq]
  by_cases hvalid : ((clockLoop c).cache (clockLoop c).clock).valid = false
  · rw [if_pos hvalid]
    exact ⟨hvalid, hloop, hsame.view_eq⟩
  · rw [if_neg hvalid]
    simp only [Bool.not_eq_false] at hvalid
    obtain ⟨hdrop, hview⟩ := (cacheFlush_wellFormed hloop hvalid).drop
      (i := (clockLoop c).clock)
      (by rw [cacheFlush_valid]; exact hvalid)
      (cacheFlush_clean _ _)
    refine ⟨by simp, hdrop, ?_⟩
    rw [hview, cacheFlush_view hloop hvalid, hsame.view_eq]

/-- Replacement brings no sector into the cache. -/
theorem cacheReplaceFind_absent {c : CacheState} {sector : BlockSector}
    (habsent : ∀ j, (c.cache j).valid = true → (c.cache j).diskSector ≠ sector) :
    ∀ j, ((cacheReplaceFind c).2.cache j).valid = true →
      ((cacheReplaceFind c).2.cache j).diskSector ≠ sector := by
  have hsame := clockLoop_sameData c
  intro j
  rw [cacheReplaceFind_eq]
  split
  · rw [hsame.valid_eq, hsame.diskSector_eq]
    exact habsent j
  · by_cases hj : j = (clockLoop c).clock
    · subst hj
      simp
    · simp only [CacheState.setEntry_cache, Function.update_of_ne hj,
        cacheFlush_valid, cacheFlush_diskSector, hsame.valid_eq,
        hsame.diskSector_eq]
      exact habsent j

/-- Loading an uncached sector into an invalid slot changes no contents. -/
theorem CacheState.WellFormed.load {c : CacheState} (hwf : c.WellFormed)
    {i : Fin cacheSize} {sector : BlockSector} {access : Bool}
    (hinvalid : (c.cache i).valid = false)
    (habsent : ∀ j, (c.cache j).valid = true → (c.cache j).diskSector ≠ sector)
    {c' : CacheState}
    (hc' : c' = c.setEntry i ⟨true, sector, c.disk sector, false, access⟩) :
    c'.WellFormed ∧ c'.view = c.view := by
  have hslot : c'.cache i = ⟨true, sector, c.disk sector, false, access⟩ := by
    simp [hc']
  have hother : ∀ j, j ≠ i → c'.cache j = c.cache j := by
    intro j hji
    simp [hc', hji]
  have hdisk : c'.disk = c.disk := by rw [hc', setEntry_disk]
  have hwf' : c'.WellFormed := by
    constructor
    · intro j k hj hk hsector
      by_cases hji : j = i <;> by_cases hki : k = i
      · rw [hji, hki]
      · subst hji
        rw [hother k hki] at hk hsector
        rw [hslot] at hsector
        exact absurd hsector.symm (habsent k hk)
      · subst hki
        rw [hother j hji] at hj hsector
        rw [hslot] at hsector
        exact absurd hsector (habsent j hj)
      · rw [hother j hji] at hj hsector
        rw [hother k hki] at hk hsector
        exact hwf.unique j k hj hk hsector
    · intro j hj hdirty
      by_cases hji : j = i
      · subst hji
        rw [hslot, hdisk]
      · rw [hother j hji] at hj hdirty ⊢
        rw [hdisk]
        exact hwf.coherent j hj hdirty
  refine ⟨hwf', ?_⟩
  funext s
  by_cases hs : s = sector
  · subst hs
    rw [view_of_absent habsent,
      hwf'.view_of_holds (i := i) (by rw [hslot]) (by rw [hslot]), hslot]
  · cases hfind : cacheFind c s with
    | some j =>
        obtain ⟨hj, hjsector⟩ := cacheFind_eq_some hfind
        have hji : j ≠ i := by
          rintro rfl
          rw [hinvalid] at hj
          contradiction
        rw [hwf.view_of_holds hj hjsector,
          hwf'.view_of_holds (i := j) (by rw [hother j hji]; exact hj)
            (by rw [hother j hji]; exact hjsector), hother j hji]
    | none =>
        have hnone := cacheFind_eq_none.mp hfind
        rw [view_of_absent hnone, view_of_absent, hdisk]
        intro j hj
        by_cases hji : j = i
        · subst hji
          rw [hslot]
          exact fun heq => hs heq.symm
        · rw [hother j hji] at hj ⊢
          exact hnone j hj

/-- The slot found or loaded holds the sector, and the contents stay. -/
theorem cacheEntryFor_spec {c : CacheState} (hwf : c.WellFormed)
    (sector : BlockSector) :
    let r := cacheEntryFor c sector
    (r.2.cache r.1).valid = true ∧ (r.2.cache r.1).diskSector = sector ∧
      r.2.WellFormed ∧ r.2.view = c.view := by
  unfold cacheEntryFor
  cases hfind : cacheFind c sector with
  | some i =>
      obtain ⟨hvalid, hsector⟩ := cacheFind_eq_some hfind
      exact ⟨hvalid, hsector, hwf, rfl⟩
  | none =>
      obtain ⟨hinvalid, hwf', hview⟩ := cacheReplaceFind_spec hwf
      have habsent : ∀ j, ((cacheReplaceFind c).2.cache j).valid = true →
          ((cacheReplaceFind c).2.cache j).diskSector ≠ sector :=
        cacheReplaceFind_absent (cacheFind_eq_none.mp hfind)
      obtain ⟨hload, hloadView⟩ := hwf'.load hinvalid habsent rfl
      exact ⟨by simp, by simp, hload, hloadView.trans hview⟩

theorem cacheRead_spec {c : CacheState} (hwf : c.WellFormed)
    (sector : BlockSector) :
    (cacheRead c sector).1 = c.view sector ∧
      (cacheRead c sector).2.WellFormed ∧
      (cacheRead c sector).2.view = c.view := by
  obtain ⟨hvalid, hsector, hwf', hview⟩ := cacheEntryFor_spec hwf sector
  have hsame := CacheState.SameData.setAccess (cacheEntryFor c sector).2
    (cacheEntryFor c sector).1 true
  refine ⟨?_, hsame.wellFormed hwf', hsame.view_eq.trans hview⟩
  rw [← hview, hwf'.view_of_holds hvalid hsector]
  simp [cacheRead]

/-- Storing into the slot of a sector changes the contents there only. -/
theorem CacheState.WellFormed.store {c : CacheState} (hwf : c.WellFormed)
    {i : Fin cacheSize} {sector : BlockSector}
    (hvalid : (c.cache i).valid = true)
    (hsector : (c.cache i).diskSector = sector) (source : Block)
    {c' : CacheState}
    (hc' : c' = c.setEntry i
      { c.cache i with access := true, dirty := true, buffer := source }) :
    c'.WellFormed ∧ c'.view = Function.update c.view sector source := by
  have hslot : c'.cache i = ⟨true, sector, source, true, true⟩ := by
    simp [hc', hvalid, hsector]
  have hother : ∀ j, j ≠ i → c'.cache j = c.cache j := by
    intro j hji
    simp [hc', hji]
  have hdisk : c'.disk = c.disk := by rw [hc', setEntry_disk]
  have hsectors : ∀ j, (c'.cache j).valid = (c.cache j).valid ∧
      (c'.cache j).diskSector = (c.cache j).diskSector := by
    intro j
    by_cases hji : j = i
    · subst hji
      simp [hslot, hvalid, hsector]
    · simp [hother j hji]
  have hwf' : c'.WellFormed := by
    constructor
    · intro j k hj hk heq
      rw [(hsectors j).1] at hj
      rw [(hsectors k).1] at hk
      rw [(hsectors j).2, (hsectors k).2] at heq
      exact hwf.unique j k hj hk heq
    · intro j hj hdirty
      have hji : j ≠ i := by
        rintro rfl
        simp [hslot] at hdirty
      rw [hother j hji] at hj hdirty ⊢
      rw [hdisk]
      exact hwf.coherent j hj hdirty
  refine ⟨hwf', ?_⟩
  funext s
  by_cases hs : s = sector
  · subst hs
    rw [hwf'.view_of_holds (i := i) (by rw [hslot]) (by rw [hslot]), hslot]
    simp
  · rw [Function.update_of_ne hs]
    cases hfind : cacheFind c s with
    | some j =>
        obtain ⟨hj, hjsector⟩ := cacheFind_eq_some hfind
        have hji : j ≠ i := by
          rintro rfl
          exact hs (hjsector.symm.trans hsector)
        rw [hwf.view_of_holds hj hjsector,
          hwf'.view_of_holds (i := j) (by rw [hother j hji]; exact hj)
            (by rw [hother j hji]; exact hjsector), hother j hji]
    | none =>
        have hnone := cacheFind_eq_none.mp hfind
        rw [view_of_absent hnone, view_of_absent, hdisk]
        intro j hj
        rw [(hsectors j).1] at hj
        rw [(hsectors j).2]
        exact hnone j hj

theorem cacheWrite_spec {c : CacheState} (hwf : c.WellFormed)
    (sector : BlockSector) (source : Block) :
    (cacheWrite c sector source).WellFormed ∧
      (cacheWrite c sector source).view =
        Function.update c.view sector source := by
  obtain ⟨hvalid, hsector, hwf', hview⟩ := cacheEntryFor_spec hwf sector
  rw [← hview]
  exact hwf'.store hvalid hsector source rfl

/-- One turn of the loop of `cache_close`. -/
def cacheCloseStep (c : CacheState) (i : Fin cacheSize) : CacheState :=
  if (c.cache i).valid = false then c else cacheFlush c i

theorem cacheClose_eq (c : CacheState) :
    cacheClose c = (List.finRange cacheSize).foldl cacheCloseStep c := rfl

theorem cacheCloseStep_spec {c : CacheState} (hwf : c.WellFormed)
    (i : Fin cacheSize) :
    (cacheCloseStep c i).WellFormed ∧ (cacheCloseStep c i).view = c.view := by
  unfold cacheCloseStep
  split
  case isTrue => exact ⟨hwf, rfl⟩
  case isFalse hvalid =>
    simp only [Bool.not_eq_false] at hvalid
    exact ⟨cacheFlush_wellFormed hwf hvalid, cacheFlush_view hwf hvalid⟩

/-- The slot `i` is not waiting to be written back. -/
def CacheState.Settled (c : CacheState) (i : Fin cacheSize) : Prop :=
  (c.cache i).valid = true → (c.cache i).dirty = false

theorem cacheCloseStep_settled (c : CacheState) (i : Fin cacheSize) :
    (cacheCloseStep c i).Settled i := by
  unfold cacheCloseStep CacheState.Settled
  split
  case isTrue hvalid =>
    intro h
    rw [hvalid] at h
    contradiction
  case isFalse => exact fun _ => cacheFlush_clean c i

theorem cacheCloseStep_settled_mono {c : CacheState} (i : Fin cacheSize)
    {j : Fin cacheSize} (hsettled : c.Settled j) :
    (cacheCloseStep c i).Settled j := by
  unfold cacheCloseStep CacheState.Settled
  split
  case isTrue => exact hsettled
  case isFalse =>
    rw [cacheFlush_valid]
    exact fun hj => cacheFlush_clean_mono c i (hsettled hj)

theorem foldl_cacheCloseStep_spec {c : CacheState} (hwf : c.WellFormed)
    (slots : List (Fin cacheSize)) :
    (slots.foldl cacheCloseStep c).WellFormed ∧
      (slots.foldl cacheCloseStep c).view = c.view ∧
      ∀ i, i ∈ slots ∨ c.Settled i → (slots.foldl cacheCloseStep c).Settled i := by
  induction slots generalizing c with
  | nil => exact ⟨hwf, rfl, fun i hi => hi.resolve_left (by simp)⟩
  | cons slot rest ih =>
      obtain ⟨hstep, hview⟩ := cacheCloseStep_spec hwf slot
      obtain ⟨hrest, hrestView, hsettled⟩ := ih hstep
      refine ⟨hrest, hrestView.trans hview, fun i hi => hsettled i ?_⟩
      rcases hi with hi | hi
      · rcases List.mem_cons.mp hi with rfl | hi
        · exact Or.inr (cacheCloseStep_settled c i)
        · exact Or.inl hi
      · exact Or.inr (cacheCloseStep_settled_mono slot hi)

/-- After `cache_close` the disk itself holds the contents. -/
theorem cacheClose_spec {c : CacheState} (hwf : c.WellFormed) :
    (cacheClose c).WellFormed ∧ (cacheClose c).view = c.view ∧
      (cacheClose c).disk = c.view := by
  obtain ⟨hwf', hview, hsettled⟩ :=
    foldl_cacheCloseStep_spec hwf (List.finRange cacheSize)
  rw [← cacheClose_eq] at hwf' hview hsettled
  refine ⟨hwf', hview, ?_⟩
  rw [← hview]
  funext sector
  cases hfind : cacheFind (cacheClose c) sector with
  | some i =>
      obtain ⟨hi, rfl⟩ := cacheFind_eq_some hfind
      rw [hwf'.view_of_holds hi rfl]
      exact hwf'.coherent i hi
        (hsettled i (Or.inl (List.mem_finRange i)) hi)
  | none =>
      rw [CacheState.view_of_absent (cacheFind_eq_none.mp hfind)]

theorem cacheInit_spec (c : CacheState) :
    (cacheInit c).WellFormed ∧ (cacheInit c).view = c.disk := by
  refine ⟨⟨?_, ?_⟩, ?_⟩
  · intro i j hi
    simp [cacheInit] at hi
  · intro i hi
    simp [cacheInit] at hi
  · funext sector
    rw [CacheState.view_of_absent]
    · rfl
    · intro i hi
      simp [cacheInit] at hi

/-- A cache whose slots are consistent with each other and with the disk. -/
def BufferCache : Type := { c : CacheState // c.WellFormed }

/-- The cache is a sector store: a client cannot tell it from the disk. -/
instance BufferCache.store : SectorStore BufferCache BlockSector Block where
  read c sector :=
    ((cacheRead c.1 sector).1,
      ⟨(cacheRead c.1 sector).2, (cacheRead_spec c.2 sector).2.1⟩)
  write c sector source :=
    ⟨cacheWrite c.1 sector source, (cacheWrite_spec c.2 sector source).1⟩
  view c := c.1.view
  read_fst c sector := (cacheRead_spec c.2 sector).1
  view_read c sector := (cacheRead_spec c.2 sector).2.2
  view_write c sector source := (cacheWrite_spec c.2 sector source).2

/-! Runs of calls, and the disk they cannot be told from. -/

inductive CacheCall where
  | read (sector : BlockSector)
  | write (sector : BlockSector) (source : Block)
  | close

/-- The cache as a machine: a read answers the bytes it copies out. -/
def cacheMachine : Machine CacheState CacheCall (Option Block) where
  step c
    | .read sector => ((cacheRead c sector).2, some (cacheRead c sector).1)
    | .write sector source => (cacheWrite c sector source, none)
    | .close => (cacheClose c, none)

/-- What the cache is for: a disk that is read and written directly. -/
def rawDiskMachine :
    Machine (BlockSector → Block) CacheCall (Option Block) where
  step disk
    | .read sector => (disk, some (disk sector))
    | .write sector source => (Function.update disk sector source, none)
    | .close => (disk, none)

theorem cacheMachine_simulates :
    Machine.Simulation cacheMachine rawDiskMachine
      fun c disk => c.WellFormed ∧ c.view = disk := by
  rintro c disk call ⟨hwf, rfl⟩
  cases call with
  | read sector =>
      obtain ⟨hbytes, hwf', hview⟩ := cacheRead_spec hwf sector
      exact ⟨congrArg some hbytes, hwf', hview⟩
  | write sector source => exact ⟨rfl, cacheWrite_spec hwf sector source⟩
  | close =>
      obtain ⟨hwf', hview, _⟩ := cacheClose_spec hwf
      refine ⟨rfl, ?_⟩
      simp only [cacheMachine, rawDiskMachine]
      exact ⟨hwf', hview⟩

/-- The bytes a call writes to `sector`, if it is a write of that sector. -/
def CacheCall.written? (sector : BlockSector) : CacheCall → Option Block
  | .write s source => if s = sector then some source else none
  | _ => none

/-- The bytes of the latest write of `sector` among `calls`, or the bytes the
disk started with when there is none. -/
def latestBytes (disk : BlockSector → Block) (calls : List CacheCall)
    (sector : BlockSector) : Block :=
  (calls.reverse.findSome? (CacheCall.written? sector)).getD (disk sector)

theorem rawDiskMachine_after (disk : BlockSector → Block)
    (calls : List CacheCall) :
    rawDiskMachine.after disk calls = latestBytes disk calls := by
  induction calls using List.reverseRecOn with
  | nil => rfl
  | append_singleton pre call ih =>
      rw [Machine.after_concat, ih]
      funext sector
      cases call with
      | read s =>
          simp [rawDiskMachine, latestBytes, List.findSome?_cons,
            CacheCall.written?]
      | close =>
          simp [rawDiskMachine, latestBytes, List.findSome?_cons,
            CacheCall.written?]
      | write s source =>
          by_cases hs : sector = s
          · subst hs
            simp [rawDiskMachine, latestBytes, CacheCall.written?]
          · simp [rawDiskMachine, latestBytes, CacheCall.written?, hs,
              Ne.symm hs]

/-- The cache in front of a disk cannot be told from the disk: over any calls
after `cache_init` every read answers as the bare disk would, and in the state
they lead to a read of any sector delivers its latest bytes, no two valid
slots hold one sector, and a close leaves those bytes on the disk itself.  The
calls may contain closes, so what follows a close is covered as well. -/
theorem cache_refines_disk (start : CacheState) (calls : List CacheCall) :
    let c := cacheMachine.after (cacheInit start) calls
    cacheMachine.outputs (cacheInit start) calls =
        rawDiskMachine.outputs start.disk calls ∧
      (∀ sector, (cacheRead c sector).1 = latestBytes start.disk calls sector) ∧
      (∀ i j, (c.cache i).valid = true → (c.cache j).valid = true →
        (c.cache i).diskSector = (c.cache j).diskSector → i = j) ∧
      (∀ sector, (cacheClose c).disk sector =
        latestBytes start.disk calls sector) := by
  intro c
  have hstart := cacheInit_spec start
  obtain ⟨hwf, hview⟩ := cacheMachine_simulates.after hstart calls
  rw [rawDiskMachine_after] at hview
  refine ⟨cacheMachine_simulates.outputs_eq hstart calls, ?_, hwf.unique, ?_⟩
  · intro sector
    rw [(cacheRead_spec hwf sector).1, hview]
  · intro sector
    rw [(cacheClose_spec hwf).2.2, hview]

end PintosLabs
