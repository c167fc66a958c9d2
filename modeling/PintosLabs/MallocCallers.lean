/-
What the callers of the kernel memory can rely on, whatever calls have been made
since the kernel started: nobody else has their memory, it holds what they have put
there, and what they give back can be had again.
-/
import PintosLabs.MallocRuns

namespace PintosLabs

open Exec (pgsize)

namespace Malloc

open Palloc (Chunk Flags noFlags pallocGetMultiple)

namespace System

/-- A caller holds the `n` bytes from `a` on. -/
inductive Holds (s : System) : Nat → Nat → Prop
  | block {p : Nat} {bytes : List UInt8} (held : s.blocks p = some bytes) :
      Holds s p bytes.length
  | pages {page : Nat} {grant : Grant} (held : s.grants page = some grant) :
      Holds s (page * pgsize) grant.bytes.length

instance (s : System) (act : Act) : Decidable (s.Fits act) := by
  cases act <;> unfold Fits <;> infer_instance

variable {s t : System} {l : Layout} {userPageLimit initRamPages : Nat} {memory : ByteMemory}
  {h : Heap} {acts : List Act}

theorem inv_start (hboot : boot userPageLimit initRamPages memory = some h) :
    (start h).Inv ⟨[], [], [], []⟩ := by
  obtain ⟨pages, hpages, hinit⟩ := Option.bind_eq_some_iff.mp hboot
  refine ⟨Heap.inv_mallocInit (Palloc.exact_pallocInit hpages) hinit, ?_, ?_, ?_, ?_, ?_⟩
  · exact fun q hq => absurd hq List.not_mem_nil
  · exact fun b hb => absurd hb List.not_mem_nil
  · intro p bytes hp
    cases hp
  · refine fun c => ⟨fun hc => absurd hc List.not_mem_nil, ?_⟩
    rintro ⟨bytes, hbytes⟩
    cases hbytes
  · intro page grant hg
    cases hg

/-- Pages cannot be had where there are not that many. -/
theorem full_of_none {flags : Flags} {pageCnt : Nat} {state : Palloc.State} {held : List Chunk}
    (hexact : state.Exact held) (hget : pallocGetMultiple flags pageCnt state = none) :
    flags.assert = true ∧ pageCnt ≠ 0 ∧ state.Full flags.user pageCnt := by
  rcases Palloc.pallocGetMultiple_cases hexact flags pageCnt with
    ⟨pages, state', page, hpages, _⟩ | ⟨hfull, hpages⟩
  · cases hpages.symm.trans hget
  · rw [hpages] at hget
    split at hget
    case isTrue hassert => exact ⟨hassert.2, hassert.1, hfull.resolve_left hassert.1⟩
    case isFalse => cases hget

theorem none_of_full {flags : Flags} {pageCnt : Nat} {state : Palloc.State} {held : List Chunk}
    (hexact : state.Exact held) (hassert : flags.assert = true) (hcnt : pageCnt ≠ 0)
    (hfull : state.Full flags.user pageCnt) : pallocGetMultiple flags pageCnt state = none := by
  rcases Palloc.pallocGetMultiple_cases hexact flags pageCnt with
    ⟨pages, state', page, _, hgot⟩ | ⟨_, hpages⟩
  · have hin := hgot.exact.inside _ List.mem_cons_self
    have hin' : Chunk.Inside ⟨page, pageCnt, flags.user⟩ state :=
      ⟨hin.1, (hgot.shape flags.user).1 ▸ hin.2.1, (hgot.shape flags.user).2.1 ▸ hin.2.2⟩
    obtain ⟨page', hhas, hused⟩ := hfull _ rfl rfl hin'
    obtain ⟨c, hc, hcHas⟩ := (hexact.used_iff page').mp hused
    have happart := (List.pairwise_cons.mp hgot.exact.apart).1 c hc
    simp only [Chunk.Apart, Chunk.Has] at happart hhas hcHas
    omega
  · rw [hpages, if_pos ⟨hcnt, hassert⟩]

/-- What is a caller's own can be done. -/
theorem Inv.goes (hinv : s.Inv l) {act : Act} (hfits : s.Fits act) (hown : s.Own act) :
    s.Goes act := by
  cases act with
  | malloc size => exact hinv.goes_malloc hfits
  | calloc a b => exact hinv.goes_calloc hfits
  | realloc oldBlock newSize => exact hinv.goes_realloc hfits hown
  | free p => exact hinv.goes_free hown
  | write p ofs byte =>
      obtain ⟨bytes, hp, hofs⟩ := hown
      exact hinv.goes_write hp hofs
  | getPages flags pageCnt =>
      refine hinv.goes_getPages fun hnone => ?_
      obtain ⟨hassert, hcnt, hfull⟩ := full_of_none hinv.heap.exact hnone
      exact hown hassert hcnt hfull
  | freePages page =>
      obtain ⟨grant, hg⟩ := Option.isSome_iff_exists.mp hown
      exact hinv.goes_freePages hg
  | writePages page ofs byte =>
      obtain ⟨grant, hg, hofs⟩ := hown
      exact hinv.goes_writePages hg hofs

/-- What is not a caller's own cannot be done. -/
theorem Inv.own_of_step (hinv : s.Inv l) {act : Act} (hstep : s.step act = some t) :
    s.Own act := by
  cases act with
  | malloc size => trivial
  | calloc a b => trivial
  | realloc oldBlock newSize =>
      by_cases hzero : oldBlock = 0
      · exact Or.inl hzero
      · rw [step, if_neg hzero] at hstep
        obtain ⟨bytes, hp, _⟩ := Option.bind_eq_some_iff.mp hstep
        exact Or.inr (hp ▸ rfl)
  | free p =>
      by_cases hzero : p = 0
      · exact Or.inl hzero
      · rw [step, if_neg hzero] at hstep
        obtain ⟨bytes, hp, _⟩ := Option.bind_eq_some_iff.mp hstep
        exact Or.inr (hp ▸ rfl)
  | write p ofs byte =>
      obtain ⟨bytes, hp, hstep⟩ := Option.bind_eq_some_iff.mp hstep
      split at hstep
      case isTrue hofs => exact ⟨bytes, hp, hofs⟩
      case isFalse => cases hstep
  | getPages flags pageCnt =>
      intro hassert hcnt hfull
      rw [step, none_of_full hinv.heap.exact hassert hcnt hfull] at hstep
      cases hstep
  | freePages page =>
      obtain ⟨grant, hg, _⟩ := Option.bind_eq_some_iff.mp hstep
      change (s.grants page).isSome = true
      rw [hg]
      rfl
  | writePages page ofs byte =>
      obtain ⟨grant, hg, hstep⟩ := Option.bind_eq_some_iff.mp hstep
      split at hstep
      case isTrue hofs => exact ⟨grant, hg, hofs⟩
      case isFalse => cases hstep

/-- The invariant holds in every run. -/
theorem exists_inv (hboot : boot userPageLimit initRamPages memory = some h)
    (hrun : Run step Fits (start h) acts s) : ∃ l, s.Inv l := by
  refine hrun.invariant (fun s => ∃ l, s.Inv l) ?_ ⟨_, inv_start hboot⟩
  rintro s s' act ⟨l, hinv⟩ hfits hstep
  obtain ⟨t, l', ht, hinv'⟩ := hinv.goes hfits (hinv.own_of_step hstep)
  exact ⟨l', Option.some.inj (hstep.symm.trans ht) ▸ hinv'⟩

/-- What a caller holds lies in pages: those of a block belong to `malloc`. -/
theorem Inv.block_in (hinv : s.Inv l) {p : Nat} {bytes : List UInt8}
    (hp : s.blocks p = some bytes) :
    ∃ b ∈ l.live, b.addr = p ∧ bytes.length ≤ b.room ∧ ∃ c ∈ l.own, Heap.In b c := by
  obtain ⟨⟨b, hb, rfl⟩, _⟩ := hinv.blocks p bytes hp
  obtain ⟨bytes', hbytes, hroom⟩ := hinv.live b hb
  obtain rfl := Option.some.inj (hp.symm.trans hbytes)
  exact ⟨b, hb, rfl, hroom, hinv.heap.within hb⟩

theorem Inv.block_apart_pages (hinv : s.Inv l) {p page : Nat} {bytes : List UInt8}
    {grant : Grant} (hp : s.blocks p = some bytes) (hg : s.grants page = some grant) :
    p + bytes.length ≤ page * pgsize ∨ page * pgsize + grant.bytes.length ≤ p := by
  obtain ⟨b, hb, rfl, hroom, c, hc, hin⟩ := hinv.block_in hp
  have hmem : (⟨page, grant.cnt, grant.user⟩ : Chunk) ∈ l.others :=
    (hinv.others _).mpr ⟨grant.bytes, hg⟩
  have happart := Palloc.apart_addresses
    ((List.pairwise_append.mp hinv.heap.exact.apart).2.2 c hc _ hmem)
  have hlength := (hinv.grants page grant hg).1
  have hlow := hin.low
  have hhigh := hin.high
  change c.address + pgsize * c.cnt ≤ page * pgsize ∨
    page * pgsize + pgsize * grant.cnt ≤ c.address at happart
  omega

/-- Two callers never hold the same byte. -/
theorem holders_apart (hboot : boot userPageLimit initRamPages memory = some h)
    (hrun : Run step Fits (start h) acts s) {a n a' n' : Nat} (hheld : s.Holds a n)
    (hheld' : s.Holds a' n') (hne : (a, n) ≠ (a', n')) : a + n ≤ a' ∨ a' + n' ≤ a := by
  obtain ⟨l, hinv⟩ := exists_inv hboot hrun
  cases hheld with
  | @block p bytes hp =>
      cases hheld' with
      | @block p' bytes' hp' =>
          obtain ⟨b, hb, rfl, hroom, _⟩ := hinv.block_in hp
          obtain ⟨b', hb', rfl, hroom', _⟩ := hinv.block_in hp'
          have hbb : b ≠ b' := by
            rintro rfl
            exact hne (Option.some.inj (hp.symm.trans hp') ▸ rfl)
          have happart := hinv.heap.apart_of_ne hb hb' hbb
          simp only [Heap.ApartBlocks] at happart
          omega
      | pages hg => exact hinv.block_apart_pages hp hg
  | @pages page grant hg =>
      cases hheld' with
      | block hp => exact (hinv.block_apart_pages hp hg).symm
      | @pages page' grant' hg' =>
          have hmem : (⟨page, grant.cnt, grant.user⟩ : Chunk) ∈ l.held :=
            List.mem_append_right _ ((hinv.others _).mpr ⟨grant.bytes, hg⟩)
          have hmem' : (⟨page', grant'.cnt, grant'.user⟩ : Chunk) ∈ l.held :=
            List.mem_append_right _ ((hinv.others _).mpr ⟨grant'.bytes, hg'⟩)
          have hcc : (⟨page, grant.cnt, grant.user⟩ : Chunk) ≠
              ⟨page', grant'.cnt, grant'.user⟩ := by
            intro heq
            obtain rfl := congrArg Chunk.page heq
            exact hne (Option.some.inj (hg.symm.trans hg') ▸ rfl)
          have happart := Palloc.apart_addresses (hinv.heap.exact.apart_of_ne hmem hmem' hcc)
          rw [(hinv.grants page grant hg).1, (hinv.grants page' grant' hg').1]
          exact happart

theorem Inv.own_nil (hinv : s.Inv l) (hblocks : ∀ p, s.blocks p = none) : l.own = [] := by
  have hlive : l.live = [] := by
    refine List.eq_nil_iff_forall_not_mem.mpr fun b hb => ?_
    obtain ⟨bytes, hbytes, _⟩ := hinv.live b hb
    cases (hblocks b.addr).symm.trans hbytes
  have harenas : l.arenas = [] := by
    refine List.eq_nil_iff_forall_not_mem.mpr fun q hq => ?_
    obtain ⟨b, hb, _⟩ := hinv.busy q hq
    exact absurd (hlive ▸ hb) List.not_mem_nil
  have hbigs : l.bigs.map Big.block = [] := by
    have hperm := hinv.heap.bigBlocks
    rw [hlive] at hperm
    exact hperm.symm.eq_nil
  rw [Layout.own, harenas, List.map_eq_nil_iff.mp hbigs]
  rfl

/-- When all blocks have been given back, `malloc` keeps no page. -/
theorem nothing_leaks (hboot : boot userPageLimit initRamPages memory = some h)
    (hrun : Run step Fits (start h) acts s) (hblocks : ∀ p, s.blocks p = none) (page : Nat) :
    s.heap.pages.Used page ↔
      ∃ first grant, s.grants first = some grant ∧ first ≤ page ∧ page < first + grant.cnt := by
  obtain ⟨l, hinv⟩ := exists_inv hboot hrun
  have hheld : l.held = l.others := by
    rw [Layout.held, hinv.own_nil hblocks, List.nil_append]
  rw [hinv.heap.exact.used_iff page, hheld]
  constructor
  · rintro ⟨c, hc, hlow, hhigh⟩
    obtain ⟨bytes, hg⟩ := (hinv.others c).mp hc
    exact ⟨c.page, _, hg, hlow, hhigh⟩
  · rintro ⟨first, grant, hg, hlow, hhigh⟩
    exact ⟨⟨first, grant.cnt, grant.user⟩, (hinv.others _).mpr ⟨grant.bytes, hg⟩, hlow, hhigh⟩

/-! Requests that get no memory, or too little. -/

/-- A null pointer means that the kernel pool has not got the pages. -/
theorem malloc_null (hboot : boot userPageLimit initRamPages memory = some h)
    (hrun : Run step Fits (start h) acts s) {size : Nat} (hsize : size ≠ 0)
    (hfits : size + arenaSize + pgsize ≤ 2 ^ 32) {h' : Heap}
    (hnull : s.heap.malloc size = some (0, h')) :
    h' = s.heap ∧ s.heap.pages.Full false (Heap.pageCount size) := by
  obtain ⟨l, hinv⟩ := exists_inv hboot hrun
  rcases hinv.heap.malloc_cases hinv.busy size with
    ⟨b, l', h'', hmalloc, hgranted, _⟩ | ⟨hmalloc, hfull⟩
  · have heq := Option.some.inj (hnull.symm.trans hmalloc)
    exact absurd (congrArg Prod.fst heq).symm hgranted.addr_ne_zero
  · have heq := Option.some.inj (hnull.symm.trans hmalloc)
    refine ⟨congrArg Prod.snd heq, (hfull.resolve_left hsize).resolve_left ?_⟩
    simp only [Heap.pageCount, arenaSize, pgsize] at *
    omega

/-- A block of `malloc` has room for the request unless the size wraps around together
with the header's. -/
theorem malloc_room_iff (hboot : boot userPageLimit initRamPages memory = some h)
    (hrun : Run step Fits (start h) acts s) {size p : Nat} (hsize : size < 2 ^ 32) {h' : Heap}
    (hmalloc : s.heap.malloc size = some (p, h')) (hp : p ≠ 0) :
    ∃ room, h'.blockSize p = some room ∧ (size ≤ room ↔ size + arenaSize < 2 ^ 32) := by
  obtain ⟨l, hinv⟩ := exists_inv hboot hrun
  rcases hinv.heap.malloc_cases hinv.busy size with
    ⟨b, l', h'', hmalloc', hgranted, hroom⟩ | ⟨hmalloc', _⟩
  · have heq := Option.some.inj (hmalloc.symm.trans hmalloc')
    obtain ⟨rfl, rfl⟩ := Prod.mk.inj heq
    refine ⟨b.room, hgranted.inv.blockSize_eq (hgranted.live ▸ List.mem_cons_self), ?_⟩
    refine ⟨fun hle => ?_, hroom.enough⟩
    by_contra hwrap
    exact absurd (hroom.short hsize (Nat.le_of_not_lt hwrap)) (Nat.not_lt.mpr hle)
  · exact absurd (congrArg Prod.fst (Option.some.inj (hmalloc.symm.trans hmalloc'))) hp

namespace CallersWitness

/-- The kernel with seven free pages in either pool. -/
def first : Heap := (boot 8 272 fun _ => 0).get (by decide +kernel)

theorem boots : boot 8 272 (fun _ => 0) = some first := (Option.some_get _).symm

def fits (s : System) (act : Act) : Bool := decide (s.Fits act)

/-- Two blocks, two pages, and a byte in a block and in a page; then the first block is
resized. -/
def resizing : List Act :=
  [Act.malloc 16, .calloc 4 30, .write 3222278156 3 7, .getPages ⟨false, true, true⟩ 2,
    .writePages 786697 5 9, .realloc 3222278156 600]

def checked (acts : List Act) (s : System) : Option System :=
  acts.foldlM (fun s act => if fits s act then s.step act else none) s

def final : System := (checked resizing (start first)).get (by decide +kernel)

theorem runs : Run step Fits (start first) resizing final :=
  Run.of_check fits (fun _ => True) (fun _ _ => trivial) (fun _ => of_decide_eq_true) trivial
    (show checked resizing (start first) = some final from (Option.some_get _).symm)

theorem holds_block {p n : Nat} (h : (final.blocks p).map List.length = some n) :
    final.Holds p n := by
  obtain ⟨bytes, hp, rfl⟩ := Option.map_eq_some_iff.mp h
  exact Holds.block hp

theorem two_apart : 3222282252 + 120 ≤ 3222286348 ∨ 3222286348 + 600 ≤ 3222282252 :=
  holders_apart boots runs (holds_block (by decide +kernel)) (holds_block (by decide +kernel))
    (by decide)

def freeing : List Act := [Act.malloc 16, .free 3222278156]

def released : System := (checked freeing (start first)).get (by decide +kernel)

theorem addr_first : (first.malloc 16).map Prod.fst = some 3222278156 := by decide +kernel

theorem eq_of_run_nil (hrun : Run step Fits s [] t) : t = s := by
  generalize hacts : ([] : List Act) = acts at hrun
  cases hrun with
  | nil => rfl
  | snoc => exact absurd hacts.symm (List.append_ne_nil_of_right_ne_nil _ (List.cons_ne_nil _ _))

/-- No block is held after the run. -/
theorem blocks_freeing (hrun : Run step Fits (start first) freeing s) (p : Nat) :
    s.blocks p = none := by
  obtain ⟨u, hrun, _, hfree⟩ := Run.last
    (show Run step Fits (start first) ([Act.malloc 16] ++ [Act.free 3222278156]) s from hrun)
  obtain ⟨v, hrun, _, hmalloc⟩ := Run.last
    (show Run step Fits (start first) ([] ++ [Act.malloc 16]) u from hrun)
  obtain rfl := eq_of_run_nil hrun
  rw [step] at hmalloc
  obtain ⟨answer, hanswer, hmalloc⟩ := Option.bind_eq_some_iff.mp hmalloc
  obtain rfl := Option.some.inj hmalloc
  have haddr := addr_first
  rw [show first.malloc 16 = some answer from hanswer] at haddr
  obtain ⟨bytes, _, hfree⟩ := Option.bind_eq_some_iff.mp hfree
  obtain ⟨heap, _, hfree⟩ := Option.bind_eq_some_iff.mp hfree
  obtain rfl := Option.some.inj hfree
  change Function.update (hold _ answer _).blocks 3222278156 none p = none
  by_cases hp : p = 3222278156
  · rw [hp, Function.update_self]
  · rw [Function.update_of_ne hp, hold]
    split
    · rfl
    · change Function.update (start first).blocks answer.1 _ p = none
      rw [show answer.1 = 3222278156 from Option.some.inj haddr, Function.update_of_ne hp]
      rfl

/-- A block that is handed out and given back leaves no page in use. -/
theorem freed_leaks_nothing : ∃ s, Run step Fits (start first) freeing s ∧
    ∀ page, s.heap.pages.Used page ↔
      ∃ first grant, s.grants first = some grant ∧ first ≤ page ∧ page < first + grant.cnt :=
  have hrun : Run step Fits (start first) freeing released :=
    Run.of_check fits (fun _ => True) (fun _ _ => trivial) (fun _ => of_decide_eq_true) trivial
      (show checked freeing (start first) = some released from (Option.some_get _).symm)
  ⟨_, hrun, nothing_leaks boots hrun (blocks_freeing hrun)⟩

/-- Ten pages are more than the kernel pool has. -/
theorem large_null : ∃ h', (start first).heap.malloc 40000 = some (0, h') ∧
    h' = (start first).heap ∧ (start first).heap.pages.Full false (Heap.pageCount 40000) := by
  have hnull : ((start first).heap.malloc 40000).map Prod.fst = some 0 := by decide +kernel
  obtain ⟨⟨p, h'⟩, hmalloc, rfl⟩ := Option.map_eq_some_iff.mp hnull
  exact ⟨h', hmalloc, malloc_null boots (Run.nil _) (by decide) (by decide) hmalloc⟩

/-- A request of almost all of the memory gets a single page. -/
theorem wrapped_room : ∃ p h' room, (start first).heap.malloc 4294967285 = some (p, h') ∧
    h'.blockSize p = some room ∧ (4294967285 ≤ room ↔ 4294967285 + arenaSize < 2 ^ 32) := by
  have haddr : ((start first).heap.malloc 4294967285).map Prod.fst = some 3222278156 := by
    decide +kernel
  obtain ⟨⟨p, h'⟩, hmalloc, rfl⟩ := Option.map_eq_some_iff.mp haddr
  obtain ⟨room, hroom⟩ :=
    malloc_room_iff boots (Run.nil _) (by decide) hmalloc (by decide)
  exact ⟨_, h', room, hmalloc, hroom⟩

end CallersWitness

end System

end Malloc

end PintosLabs
