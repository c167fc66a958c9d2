/-
The kernel memory as its callers see it: blocks and pages that are handed out,
written to, and given back, in any order.  What a caller finds in its memory is what
it has put there; no call fails an assertion; and memory that has been given back is
free again.
-/
import PintosLabs.MallocFrees
import PintosLabs.Machine

namespace PintosLabs

open Exec (pgsize)

namespace Malloc

open Palloc (Chunk Flags pallocGetMultiple pallocFreeMultiple)

/-- Pages that have been handed out, and what has been put there. -/
structure Grant where
  cnt : Nat
  user : Bool
  bytes : List UInt8

/-- The heap, and what the callers hold: blocks by their addresses and pages by the
number of the first one. -/
structure System where
  heap : Heap
  blocks : Nat → Option (List UInt8)
  grants : Nat → Option Grant

/-- A call, or a byte that a caller writes into its memory. -/
inductive Act where
  | malloc (size : Nat)
  | calloc (a b : Nat)
  | realloc (oldBlock newSize : Nat)
  | free (p : Nat)
  | write (p ofs : Nat) (byte : UInt8)
  | getPages (flags : Flags) (pageCnt : Nat)
  | freePages (page : Nat)
  | writePages (page ofs : Nat) (byte : UInt8)

namespace System

/-- The answer of a call that hands out a block: the caller holds it from now on,
unless it is the null pointer. -/
def hold (s : System) (answer : Nat × Heap) (bytes : List UInt8) : System :=
  { s with
    heap := answer.2
    blocks := if answer.1 = 0 then s.blocks
      else Function.update s.blocks answer.1 (some bytes) }

/-- What a new block of memory shows. -/
def fresh (answer : Nat × Heap) (size : Nat) : List UInt8 := answer.2.memory.bytes answer.1 size

/-- What a block shows that has been resized: as much as fits of what it held. -/
def resized (answer : Nat × Heap) (bytes : List UInt8) (size : Nat) : List UInt8 :=
  bytes.take size ++
    answer.2.memory.bytes (answer.1 + min size bytes.length) (size - bytes.length)

/-- A step of the system.  Only what is held is written to or given back. -/
def step (s : System) : Act → Option System
  | .malloc size => do
      let answer ← s.heap.malloc size
      some (s.hold answer (fresh answer size))
  | .calloc a b => do
      let answer ← s.heap.calloc a b
      some (s.hold answer (List.replicate (a * b) 0))
  | .realloc oldBlock newSize =>
      if oldBlock = 0 then do
        let answer ← s.heap.realloc 0 newSize
        some (s.hold answer (fresh answer newSize))
      else do
        let bytes ← s.blocks oldBlock
        let answer ← s.heap.realloc oldBlock newSize
        let gone := newSize = 0 ∨ answer.1 ≠ 0
        let s := if gone then { s with blocks := Function.update s.blocks oldBlock none } else s
        some (s.hold answer (resized answer bytes newSize))
  | .free p =>
      if p = 0 then do
        let heap ← s.heap.free 0
        some { s with heap := heap }
      else do
        let _ ← s.blocks p
        let heap ← s.heap.free p
        some { s with heap := heap, blocks := Function.update s.blocks p none }
  | .write p ofs byte => do
      let bytes ← s.blocks p
      if ofs < bytes.length then
        some { s with
          heap := s.heap.setMemory (s.heap.memory.put (p + ofs) [byte])
          blocks := Function.update s.blocks p (some (bytes.set ofs byte)) }
      else none
  | .getPages flags pageCnt => do
      let (pages, state) ← pallocGetMultiple flags pageCnt s.heap.pages
      let bytes := if flags.zero then List.replicate (pgsize * pageCnt) 0
        else state.memory.bytes pages (pgsize * pageCnt)
      some { s with
        heap := { s.heap with pages := state }
        grants := if pages = 0 then s.grants
          else Function.update s.grants (pgNo pages) (some ⟨pageCnt, flags.user, bytes⟩) }
  | .freePages page => do
      let grant ← s.grants page
      let state ← pallocFreeMultiple (page * pgsize) grant.cnt s.heap.pages
      some { s with
        heap := { s.heap with pages := state }
        grants := Function.update s.grants page none }
  | .writePages page ofs byte => do
      let grant ← s.grants page
      if ofs < grant.bytes.length then
        some { s with
          heap := s.heap.setMemory (s.heap.memory.put (page * pgsize + ofs) [byte])
          grants := Function.update s.grants page
            (some { grant with bytes := grant.bytes.set ofs byte }) }
      else none

/-- A request whose size does not wrap around. -/
def Fits (_ : System) : Act → Prop
  | .malloc size => size + arenaSize < 2 ^ 32
  | .calloc a b => a * b + arenaSize < 2 ^ 32
  | .realloc _ newSize => newSize + arenaSize < 2 ^ 32
  | _ => True

/-- The act is a caller's own: it names what the caller holds, and it does not insist
on pages that there are not. -/
def Own (s : System) : Act → Prop
  | .realloc oldBlock _ => oldBlock = 0 ∨ (s.blocks oldBlock).isSome
  | .free p => p = 0 ∨ (s.blocks p).isSome
  | .write p ofs _ => ∃ bytes, s.blocks p = some bytes ∧ ofs < bytes.length
  | .getPages flags pageCnt => flags.assert = true → pageCnt ≠ 0 →
      ¬ s.heap.pages.Full flags.user pageCnt
  | .freePages page => (s.grants page).isSome
  | .writePages page ofs _ => ∃ grant, s.grants page = some grant ∧ ofs < grant.bytes.length
  | _ => True

/-- Nothing is held. -/
def start (heap : Heap) : System := ⟨heap, fun _ => none, fun _ => none⟩

end System

/-- The heap when the kernel has started. -/
def boot (userPageLimit initRamPages : Nat) (memory : ByteMemory) : Option Heap := do
  let pages ← Palloc.pallocInit userPageLimit initRamPages memory
  mallocInit pages

namespace System

/-- The blocks in use are what the callers hold, and they show it. -/
structure Inv (s : System) (l : Layout) : Prop where
  heap : s.heap.Inv l
  busy : Heap.Busy l
  live : ∀ b ∈ l.live, ∃ bytes, s.blocks b.addr = some bytes ∧ bytes.length ≤ b.room
  blocks : ∀ p bytes, s.blocks p = some bytes → (∃ b ∈ l.live, b.addr = p) ∧
    s.heap.memory.bytes p bytes.length = bytes
  others : ∀ c, c ∈ l.others ↔ ∃ bytes, s.grants c.page = some ⟨c.cnt, c.user, bytes⟩
  grants : ∀ page grant, s.grants page = some grant →
    grant.bytes.length = pgsize * grant.cnt ∧
    s.heap.memory.bytes (page * pgsize) (pgsize * grant.cnt) = grant.bytes

variable {s s' : System} {l l' : Layout} {h' : Heap} {b : Block}

theorem bytes_agree {m m' : ByteMemory} {a n : Nat} {bytes : List UInt8}
    (hbytes : m.bytes a bytes.length = bytes) (hagree : m.Agree m' a n)
    (hle : bytes.length ≤ n) : m'.bytes a bytes.length = bytes :=
  (hagree.mono (Nat.le_refl a) (Nat.add_le_add_left hle a)).symm.bytes.trans hbytes

/-- The invariant is kept when everything that is held has been held before, or is
shown by the memory now. -/
theorem Inv.next (hinv : s.Inv l) (hheap : h'.Inv l') (hbusy : Heap.Busy l') {rest : List Block}
    {others : List Chunk} (hkeeps : s.heap.Keeps h' { l with live := rest, others := others })
    {blocks : Nat → Option (List UInt8)} {grants : Nat → Option Grant}
    (hlive : ∀ b ∈ l'.live, (b ∈ rest ∧ b ∈ l.live ∧ blocks b.addr = s.blocks b.addr) ∨
      ∃ bytes, blocks b.addr = some bytes ∧ bytes.length ≤ b.room ∧
        h'.memory.bytes b.addr bytes.length = bytes)
    (hblocks : ∀ p bytes, blocks p = some bytes → ∃ b ∈ l'.live, b.addr = p)
    (hothers : ∀ c ∈ l'.others,
      (c ∈ others ∧ c ∈ l.others ∧ grants c.page = s.grants c.page) ∨
      ∃ bytes, grants c.page = some ⟨c.cnt, c.user, bytes⟩ ∧ bytes.length = pgsize * c.cnt ∧
        h'.memory.bytes c.address (pgsize * c.cnt) = bytes)
    (hgrants : ∀ page grant, grants page = some grant → ∃ c ∈ l'.others, c.page = page) :
    System.Inv ⟨h', blocks, grants⟩ l' where
  heap := hheap
  busy := hbusy
  live b hb := by
    rcases hlive b hb with ⟨_, hold, hsame⟩ | ⟨bytes, hbytes, hle, _⟩
    · obtain ⟨bytes, hbytes, hle⟩ := hinv.live b hold
      exact ⟨bytes, hsame.trans hbytes, hle⟩
    · exact ⟨bytes, hbytes, hle⟩
  blocks p bytes hp := by
    obtain ⟨b, hb, rfl⟩ := hblocks p bytes hp
    refine ⟨⟨b, hb, rfl⟩, ?_⟩
    rcases hlive b hb with ⟨hrest, hold, hsame⟩ | ⟨bytes', hbytes, _, hshown⟩
    · obtain ⟨bytes', hbytes, hle⟩ := hinv.live b hold
      obtain rfl := Option.some.inj ((hp.symm.trans hsame).trans hbytes)
      exact bytes_agree (hinv.blocks _ _ hbytes).2 (hkeeps.live b hrest) hle
    · obtain rfl := Option.some.inj (hp.symm.trans hbytes)
      exact hshown
  others c := by
    constructor
    · intro hc
      rcases hothers c hc with ⟨_, hold, hsame⟩ | ⟨bytes, hbytes, _⟩
      · obtain ⟨bytes, hbytes⟩ := (hinv.others c).mp hold
        exact ⟨bytes, hsame.trans hbytes⟩
      · exact ⟨bytes, hbytes⟩
    · rintro ⟨bytes, hc⟩
      obtain ⟨c', hc', hpage⟩ := hgrants _ _ hc
      rcases hothers c' hc' with ⟨_, hold, hsame⟩ | ⟨bytes', hbytes, _⟩
      · obtain ⟨bytes', hbytes⟩ := (hinv.others c').mp hold
        rw [hpage] at hsame hbytes
        have heq := Option.some.inj ((hc.symm.trans hsame).trans hbytes)
        obtain ⟨page, cnt, user⟩ := c
        obtain ⟨page', cnt', user'⟩ := c'
        simp only [Grant.mk.injEq] at heq hpage
        rw [hpage, ← heq.1, ← heq.2.1] at hc'
        exact hc'
      · rw [hpage] at hbytes
        have heq := Option.some.inj (hc.symm.trans hbytes)
        obtain ⟨page, cnt, user⟩ := c
        obtain ⟨page', cnt', user'⟩ := c'
        simp only [Grant.mk.injEq] at heq hpage
        rw [hpage, ← heq.1, ← heq.2.1] at hc'
        exact hc'
  grants page grant hp := by
    obtain ⟨c, hc, rfl⟩ := hgrants page grant hp
    rcases hothers c hc with ⟨hrest, hold, hsame⟩ | ⟨bytes, hbytes, hlength, hshown⟩
    · obtain ⟨bytes, hbytes⟩ := (hinv.others c).mp hold
      have hgrant := Option.some.inj ((hp.symm.trans hsame).trans hbytes)
      obtain ⟨hlength, hshown⟩ := hinv.grants _ _ hbytes
      rw [hgrant]
      refine ⟨hlength, ?_⟩
      exact ((hkeeps.others c hrest).symm.bytes).trans hshown
    · rw [Option.some.inj (hp.symm.trans hbytes)]
      exact ⟨hlength, hshown⟩

/-- A new block has been handed out. -/
theorem Inv.grant (hinv : s.Inv l) (hgranted : Heap.Granted s.heap h' l l' b)
    {bytes : List UInt8} (hroom : bytes.length ≤ b.room)
    (hshown : h'.memory.bytes b.addr bytes.length = bytes) :
    (s.hold (b.addr, h') bytes).Inv l' := by
  have happart := hgranted.inv.pairwise_live
  rw [hgranted.live] at happart
  have hne : ∀ b' ∈ l.live, b'.addr ≠ b.addr := by
    intro b' hb' heq
    have hmeet := (List.pairwise_cons.mp happart).1 b' hb'
    have hpos := hgranted.inv.room_pos (b := b) (hgranted.live ▸ List.mem_cons_self)
    have hpos' := hinv.heap.room_pos hb'
    simp only [Heap.ApartBlocks] at hmeet
    omega
  rw [hold, if_neg hgranted.addr_ne_zero]
  refine hinv.next hgranted.inv hgranted.busy hgranted.keeps ?_ ?_ ?_ ?_
  · intro b' hb'
    rw [hgranted.live] at hb'
    rcases List.mem_cons.mp hb' with rfl | hb'
    · exact Or.inr ⟨bytes, Function.update_self _ _ _, hroom, hshown⟩
    · exact Or.inl ⟨hb', hb', Function.update_of_ne (hne b' hb') _ _⟩
  · intro p bytes' hp
    by_cases hpb : p = b.addr
    · exact ⟨b, hgranted.live ▸ List.mem_cons_self, hpb.symm⟩
    · rw [Function.update_of_ne hpb] at hp
      obtain ⟨b', hb', haddr⟩ := (hinv.blocks p bytes' hp).1
      exact ⟨b', hgranted.live ▸ List.mem_cons_of_mem b hb', haddr⟩
  · intro c hc
    rw [hgranted.others] at hc
    exact Or.inl ⟨hc, hc, rfl⟩
  · intro page grant hp
    obtain ⟨cnt, user, bytes'⟩ := grant
    exact ⟨⟨page, cnt, user⟩, hgranted.others ▸ (hinv.others _).mpr ⟨bytes', hp⟩, rfl⟩

/-- The block that a pointer of a caller points to, and the other blocks. -/
theorem Inv.exists_block (hinv : s.Inv l) {p : Nat} {bytes : List UInt8}
    (hp : s.blocks p = some bytes) :
    ∃ b rest, b.addr = p ∧ l.live.Perm (b :: rest) ∧ bytes.length ≤ b.room ∧
      (∀ b' ∈ rest, b' ∈ l.live ∧ b'.addr ≠ p) ∧ ∀ b' ∈ l.live, b'.addr ≠ p → b' ∈ rest := by
  obtain ⟨⟨b, hb, rfl⟩, _⟩ := hinv.blocks p bytes hp
  have hperm := List.perm_cons_erase hb
  obtain ⟨bytes', hbytes, hroom⟩ := hinv.live b hb
  obtain rfl := Option.some.inj (hp.symm.trans hbytes)
  refine ⟨b, l.live.erase b, rfl, hperm, hroom, fun b' hb' => ⟨List.mem_of_mem_erase hb', ?_⟩,
    fun b' hb' hne => ?_⟩
  · intro heq
    have hmeet := hinv.heap.apart_of_perm hperm hb'
    have hpos := hinv.heap.room_pos hb
    have hpos' := hinv.heap.room_pos (List.mem_of_mem_erase hb')
    simp only [Heap.ApartBlocks] at hmeet
    omega
  · exact (List.mem_erase_of_ne fun heq => hne (congrArg Block.addr heq)).mpr hb'

/-- A block is given back. -/
theorem Inv.release (hinv : s.Inv l) {p : Nat} {bytes : List UInt8}
    (hp : s.blocks p = some bytes) :
    ∃ l' h', s.heap.free p = some h' ∧
      System.Inv ⟨h', Function.update s.blocks p none, s.grants⟩ l' := by
  obtain ⟨b, rest, rfl, hperm, _, hrest, hmem⟩ := hinv.exists_block hp
  obtain ⟨l', h', hfree, hfreed⟩ := hinv.heap.exists_free hinv.busy hperm
  have hkeeps : s.heap.Keeps h' { l with live := rest, others := l.others } :=
    hfreed.keeps.mono (fun b' hb' => hfreed.live ▸ hb') fun c hc => hfreed.others ▸ hc
  refine ⟨l', h', hfree, hinv.next hfreed.inv hfreed.busy hkeeps ?_ ?_ ?_ ?_⟩
  · intro b' hb'
    rw [hfreed.live] at hb'
    obtain ⟨hold, hne⟩ := hrest b' hb'
    exact Or.inl ⟨hb', hold, Function.update_of_ne hne _ _⟩
  · intro p' bytes' hp'
    by_cases hpb : p' = b.addr
    · rw [hpb, Function.update_self] at hp'
      cases hp'
    · rw [Function.update_of_ne hpb] at hp'
      obtain ⟨b', hb', rfl⟩ := (hinv.blocks p' bytes' hp').1
      exact ⟨b', hfreed.live ▸ hmem b' hb' hpb, rfl⟩
  · intro c hc
    rw [hfreed.others] at hc
    exact Or.inl ⟨hc, hc, rfl⟩
  · intro page grant hg
    obtain ⟨cnt, user, bytes'⟩ := grant
    exact ⟨⟨page, cnt, user⟩, hfreed.others ▸ (hinv.others _).mpr ⟨bytes', hg⟩, rfl⟩

theorem hold_zero (s : System) (bytes : List UInt8) :
    s.hold (0, s.heap) bytes = s := by
  rw [hold, if_pos rfl]

theorem Inv.grant_fresh (hinv : s.Inv l) (hgranted : Heap.Granted s.heap h' l l' b) {size : Nat}
    (hroom : size ≤ b.room) : (s.hold (b.addr, h') (fresh (b.addr, h') size)).Inv l' := by
  have hlength : (fresh (b.addr, h') size).length = size := ByteMemory.length_bytes
  refine hinv.grant hgranted (hlength.symm ▸ hroom) ?_
  rw [hlength]
  rfl

/-- A step of the system can be taken, and it keeps the invariant. -/
def Goes (s : System) (act : Act) : Prop := ∃ s' l', s.step act = some s' ∧ s'.Inv l'

theorem Inv.goes_malloc (hinv : s.Inv l) {size : Nat} (hfits : size + arenaSize < 2 ^ 32) :
    s.Goes (.malloc size) := by
  rw [Goes, step]
  rcases hinv.heap.malloc_cases hinv.busy size with
    ⟨b, l', h', hmalloc, hgranted, hroom⟩ | ⟨hmalloc, _⟩
  · exact ⟨_, l', by rw [hmalloc]; rfl, hinv.grant_fresh hgranted (hroom.enough hfits)⟩
  · refine ⟨s, l, ?_, hinv⟩
    rw [hmalloc]
    exact congrArg some (s.hold_zero _)

theorem Inv.goes_calloc (hinv : s.Inv l) {m n : Nat} (hfits : m * n + arenaSize < 2 ^ 32) :
    s.Goes (.calloc m n) := by
  rw [Goes, step]
  rcases hinv.heap.calloc_cases hinv.busy hfits with
    ⟨b, l', h', hcalloc, hgranted, hroom, hzero⟩ | hcalloc
  · refine ⟨_, l', by rw [hcalloc]; rfl, hinv.grant hgranted ?_ ?_⟩
    · rw [List.length_replicate]
      exact hroom
    · refine ByteMemory.bytes_eq_of fun k hk => ?_
      rw [List.length_replicate] at hk
      rw [List.getElem_replicate, hzero k hk]
  · refine ⟨s, l, ?_, hinv⟩
    rw [hcalloc]
    exact congrArg some (s.hold_zero _)

theorem Inv.goes_free (hinv : s.Inv l) {p : Nat} (hown : p = 0 ∨ (s.blocks p).isSome) :
    s.Goes (.free p) := by
  rw [Goes, step]
  by_cases hzero : p = 0
  · rw [if_pos hzero]
    exact ⟨s, l, rfl, hinv⟩
  · rw [if_neg hzero]
    obtain ⟨bytes, hp⟩ := Option.isSome_iff_exists.mp (hown.resolve_left hzero)
    obtain ⟨l', h', hfree, hinv'⟩ := hinv.release hp
    exact ⟨_, l', by rw [hp, hfree]; rfl, hinv'⟩

theorem length_resized (answer : Nat × Heap) (bytes : List UInt8) (size : Nat) :
    (resized answer bytes size).length = size := by
  rw [resized, List.length_append, List.length_take, ByteMemory.length_bytes]
  omega

/-- A block that has been resized shows what has been copied, and what it holds anyway. -/
theorem bytes_resized {a size : Nat} {bytes : List UInt8}
    (hcopy : ∀ k, (hk : k < min size bytes.length) →
      h'.memory (a + k) = bytes.get ⟨k, Nat.lt_of_lt_of_le hk (Nat.min_le_right _ _)⟩) :
    h'.memory.bytes a (resized (a, h') bytes size).length = resized (a, h') bytes size := by
  refine ByteMemory.bytes_eq_of fun k hk => ?_
  simp only [resized]
  by_cases hlt : k < min size bytes.length
  · rw [List.getElem_append_left (by rwa [List.length_take]), List.getElem_take]
    exact hcopy k hlt
  · rw [List.getElem_append_right (by rw [List.length_take]; omega)]
    simp only [ByteMemory.bytes, List.getElem_map, List.getElem_range, List.length_take]
    congr 1
    omega

/-- A block has moved: the old one is given back and the new one holds `bytes'`. -/
theorem Inv.move (hinv : s.Inv l) {rest : List Block} {bytes bytes' : List UInt8} {new : Block}
    (hp : s.blocks b.addr = some bytes) (hrest : ∀ b' ∈ rest, b' ∈ l.live ∧ b'.addr ≠ b.addr)
    (hmem : ∀ b' ∈ l.live, b'.addr ≠ b.addr → b' ∈ rest)
    (hheap : h'.Inv l') (hbusy : Heap.Busy l') (hlive : l'.live = new :: rest)
    (hothers : l'.others = l.others) (hkeeps : s.heap.Keeps h' { l with live := rest })
    (hroom : bytes'.length ≤ new.room)
    (hshown : h'.memory.bytes new.addr bytes'.length = bytes') :
    System.Inv ⟨h', Function.update (Function.update s.blocks b.addr none) new.addr (some bytes'),
      s.grants⟩ l' := by
  have happart := hheap.pairwise_live
  rw [hlive] at happart
  have hne : ∀ b' ∈ rest, b'.addr ≠ new.addr := by
    intro b' hb' heq
    have hmeet := (List.pairwise_cons.mp happart).1 b' hb'
    have hpos := hheap.room_pos (b := new) (hlive ▸ List.mem_cons_self)
    have hpos' := hinv.heap.room_pos (hrest b' hb').1
    simp only [Heap.ApartBlocks] at hmeet
    omega
  refine hinv.next hheap hbusy hkeeps ?_ ?_ ?_ ?_
  · intro b' hb'
    rw [hlive] at hb'
    rcases List.mem_cons.mp hb' with rfl | hb'
    · exact Or.inr ⟨_, Function.update_self _ _ _, hroom, hshown⟩
    · obtain ⟨hold, hbne⟩ := hrest b' hb'
      refine Or.inl ⟨hb', hold, ?_⟩
      rw [Function.update_of_ne (hne b' hb'), Function.update_of_ne hbne]
  · intro p' bytes' hp'
    by_cases hpn : p' = new.addr
    · exact ⟨new, hlive ▸ List.mem_cons_self, hpn.symm⟩
    · rw [Function.update_of_ne hpn] at hp'
      by_cases hpb : p' = b.addr
      · rw [hpb, Function.update_self] at hp'
        cases hp'
      · rw [Function.update_of_ne hpb] at hp'
        obtain ⟨b', hb', rfl⟩ := (hinv.blocks p' bytes' hp').1
        exact ⟨b', hlive ▸ List.mem_cons_of_mem new (hmem b' hb' hpb), rfl⟩
  · intro c hc
    rw [hothers] at hc
    exact Or.inl ⟨hc, hc, rfl⟩
  · intro page grant hg
    obtain ⟨cnt, user, bytes''⟩ := grant
    exact ⟨⟨page, cnt, user⟩, hothers ▸ (hinv.others _).mpr ⟨bytes'', hg⟩, rfl⟩

theorem Inv.goes_realloc (hinv : s.Inv l) {oldBlock newSize : Nat}
    (hfits : newSize + arenaSize < 2 ^ 32)
    (hown : oldBlock = 0 ∨ (s.blocks oldBlock).isSome) : s.Goes (.realloc oldBlock newSize) := by
  rw [Goes, step]
  by_cases hzero : oldBlock = 0
  · rw [if_pos hzero, Heap.realloc]
    by_cases hsize : newSize = 0
    · rw [if_pos hsize]
      refine ⟨s, l, ?_, hinv⟩
      exact congrArg some (s.hold_zero _)
    · rw [if_neg hsize]
      rcases hinv.heap.malloc_cases hinv.busy newSize with
        ⟨b, l', h', hmalloc, hgranted, hroom⟩ | ⟨hmalloc, _⟩
      · exact ⟨_, l', by rw [hmalloc]; rfl, hinv.grant_fresh hgranted (hroom.enough hfits)⟩
      · refine ⟨s, l, ?_, hinv⟩
        rw [hmalloc]
        exact congrArg some (s.hold_zero _)
  · rw [if_neg hzero]
    obtain ⟨bytes, hp⟩ := Option.isSome_iff_exists.mp (hown.resolve_left hzero)
    rw [hp]
    by_cases hsize : newSize = 0
    · obtain ⟨l', h', hfree, hinv'⟩ := hinv.release hp
      refine ⟨_, l', ?_, hinv'⟩
      rw [Heap.realloc, if_pos hsize, hfree]
      change some (hold (if newSize = 0 ∨ (0, h').1 ≠ 0 then _ else s) _ _) = _
      rw [if_pos (Or.inl hsize), hold, if_pos rfl]
    · obtain ⟨b, rest, rfl, hperm, hroom, hrest, hmem⟩ := hinv.exists_block hp
      rcases hinv.heap.realloc_cases hinv.busy hperm hsize hfits with
        ⟨new, l', h', hrealloc, hheap, hbusy, hlive, hothers, hnewRoom, hkeeps, hcopy⟩ |
        ⟨hrealloc, _⟩
      · have hnew : new.addr ≠ 0 := hheap.addr_ne_zero (hlive ▸ List.mem_cons_self)
        have hlength : (resized (new.addr, h') bytes newSize).length = newSize :=
          length_resized _ _ _
        have hshown : h'.memory.bytes new.addr (resized (new.addr, h') bytes newSize).length =
            resized (new.addr, h') bytes newSize := by
          refine bytes_resized fun k hk => ?_
          rw [hcopy k (by omega)]
          exact ByteMemory.shown_at (hinv.blocks _ _ hp).2 (by omega)
        refine ⟨_, l', ?_, hinv.move hp hrest hmem hheap hbusy hlive hothers hkeeps
          (hlength.symm ▸ hnewRoom) hshown⟩
        rw [hrealloc]
        change some (hold (if newSize = 0 ∨ (new.addr, h').1 ≠ 0 then _ else s) _ _) = _
        rw [if_pos (Or.inr hnew), hold, if_neg hnew]
      · refine ⟨s, l, ?_, hinv⟩
        rw [hrealloc]
        change some (hold (if newSize = 0 ∨ (0, s.heap).1 ≠ 0 then _ else s) _ _) = _
        rw [if_neg (by simp [hsize])]
        exact congrArg some (s.hold_zero _)

theorem put_outside {m : ByteMemory} {a ofs n : Nat} {byte : UInt8} {start : Nat} (room : Nat)
    (hin : start ≤ a ∧ a < start + room) (hout : ofs + n ≤ start ∨ start + room ≤ ofs) :
    m.Agree (m.put a [byte]) ofs n :=
  (ByteMemory.agree_put (by rw [List.length_singleton]; omega)).symm

theorem Inv.goes_write (hinv : s.Inv l) {p ofs : Nat} {byte : UInt8} {bytes : List UInt8}
    (hp : s.blocks p = some bytes) (hofs : ofs < bytes.length) :
    s.Goes (.write p ofs byte) := by
  rw [Goes, step]
  obtain ⟨b, rest, rfl, hperm, hroom, hrest, hmem⟩ := hinv.exists_block hp
  obtain ⟨hheap, hkeeps⟩ := hinv.heap.write hperm
    (m := s.heap.memory.put (b.addr + ofs) [byte]) fun ofs' n hout =>
      put_outside b.room ⟨Nat.le_add_right _ _, by omega⟩ hout
  have hnext : System.Inv ⟨s.heap.setMemory (s.heap.memory.put (b.addr + ofs) [byte]),
      Function.update s.blocks b.addr (some (bytes.set ofs byte)), s.grants⟩ l := ?_
  · refine ⟨_, l, ?_, hnext⟩
    rw [hp]
    exact if_pos hofs
  refine hinv.next hheap hinv.busy hkeeps ?_ ?_ ?_ ?_
  · intro b' hb'
    by_cases hne : b'.addr = b.addr
    · refine Or.inr ⟨bytes.set ofs byte, ?_, ?_, ?_⟩
      · rw [hne, Function.update_self]
      · obtain ⟨bytes', hbytes, hle⟩ := hinv.live b' hb'
        rw [hne] at hbytes
        obtain rfl := Option.some.inj (hp.symm.trans hbytes)
        rwa [List.length_set]
      · rw [hne]
        exact ByteMemory.bytes_put (hinv.blocks _ _ hp).2 hofs
    · exact Or.inl ⟨hmem b' hb' hne, hb', Function.update_of_ne hne _ _⟩
  · intro p' bytes' hp'
    by_cases hpb : p' = b.addr
    · exact ⟨b, hperm.mem_iff.mpr List.mem_cons_self, hpb.symm⟩
    · rw [Function.update_of_ne hpb] at hp'
      exact (hinv.blocks p' bytes' hp').1
  · exact fun c hc => Or.inl ⟨hc, hc, rfl⟩
  · intro page grant hg
    obtain ⟨cnt, user, bytes'⟩ := grant
    exact ⟨⟨page, cnt, user⟩, (hinv.others _).mpr ⟨bytes', hg⟩, rfl⟩

/-- The pages of a grant, and the other pages. -/
theorem Inv.exists_chunk (hinv : s.Inv l) {page : Nat} {grant : Grant}
    (hg : s.grants page = some grant) :
    ∃ others, l.others.Perm (⟨page, grant.cnt, grant.user⟩ :: others) ∧
      (∀ c ∈ others, c ∈ l.others ∧ c.page ≠ page) ∧
      ∀ c ∈ l.others, c.page ≠ page → c ∈ others := by
  have hc : (⟨page, grant.cnt, grant.user⟩ : Chunk) ∈ l.others :=
    (hinv.others _).mpr ⟨grant.bytes, hg⟩
  have hperm := List.perm_cons_erase hc
  have happart : (l.others).Pairwise Chunk.Apart :=
    (List.pairwise_append.mp hinv.heap.exact.apart).2.1
  refine ⟨_, hperm, fun c hmem => ⟨List.mem_of_mem_erase hmem, fun heq => ?_⟩,
    fun c hmem hne => (List.mem_erase_of_ne fun heq => hne (congrArg Chunk.page heq)).mpr hmem⟩
  have hmeet := (List.pairwise_cons.mp (happart.perm hperm Or.symm)).1 c hmem
  have hpos := (hinv.heap.exact.inside _ (List.mem_append_right _ hc)).1
  have hpos' := (hinv.heap.exact.inside c
    (List.mem_append_right _ (List.mem_of_mem_erase hmem))).1
  simp only [Chunk.Apart] at hmeet
  simp only at hpos
  omega

theorem Inv.goes_getPages (hinv : s.Inv l) {flags : Flags} {pageCnt : Nat}
    (hget : pallocGetMultiple flags pageCnt s.heap.pages ≠ none) :
    s.Goes (.getPages flags pageCnt) := by
  rw [Goes, step]
  rcases Palloc.pallocGetMultiple_cases hinv.heap.exact flags pageCnt with
    ⟨pages, state, page, hpages, hgot⟩ | ⟨_, hpages⟩
  · have hne : pages ≠ 0 := by
      rw [hgot.address]
      exact Nat.mul_ne_zero (Nat.ne_of_gt hgot.positive) (by decide)
    have hnumber : pgNo pages = page := by
      rw [hgot.address]
      exact Nat.mul_div_cancel page (by decide)
    obtain ⟨hheap, hkeeps⟩ := hinv.heap.addOther { s.heap with pages := state }
      (c := ⟨page, pageCnt, flags.user⟩) hgot.exact (fun ofs n hout => by
        change s.heap.pages.memory.Agree state.memory ofs n
        rw [hgot.memory, hgot.address]
        split
        · exact (ByteMemory.agree_fill hout).symm
        · exact ByteMemory.Agree.refl _ _ _) rfl
    have happart : ∀ c ∈ l.others, c.page ≠ page := by
      intro c hc heq
      have hmeet := (List.pairwise_cons.mp hgot.exact.apart).1 c (List.mem_append_right _ hc)
      have hpos := (hgot.exact.inside _ List.mem_cons_self).1
      have hpos' := (hinv.heap.exact.inside c (List.mem_append_right _ hc)).1
      simp only [Chunk.Apart] at hmeet
      simp only at hpos
      omega
    have hnext : System.Inv ⟨{ s.heap with pages := state }, s.blocks,
        Function.update s.grants page (some ⟨pageCnt, flags.user,
          if flags.zero then List.replicate (pgsize * pageCnt) 0
          else state.memory.bytes pages (pgsize * pageCnt)⟩)⟩
        { l with others := ⟨page, pageCnt, flags.user⟩ :: l.others } := ?_
    · refine ⟨_, _, ?_, hnext⟩
      rw [hpages]
      change some (System.mk _ _ (if pages = 0 then _ else _)) = _
      rw [if_neg hne, hnumber]
    refine hinv.next hheap hinv.busy hkeeps ?_ ?_ ?_ ?_
    · exact fun b hb => Or.inl ⟨hb, hb, rfl⟩
    · exact fun p bytes hp => (hinv.blocks p bytes hp).1
    · intro c hc
      rcases List.mem_cons.mp hc with rfl | hc
      · refine Or.inr ⟨_, Function.update_self _ _ _, ?_, ?_⟩
        · split
          · exact List.length_replicate
          · exact ByteMemory.length_bytes
        · change state.memory.bytes (page * pgsize) _ = _
          rw [← hgot.address]
          by_cases hflag : flags.zero = true
          · have hmemory := hgot.memory
            rw [if_pos hflag] at hmemory
            rw [if_pos hflag, hmemory]
            exact ByteMemory.bytes_fill
          · rw [if_neg hflag]
      · exact Or.inl ⟨hc, hc, Function.update_of_ne (happart c hc) _ _⟩
    · intro page' grant hg
      by_cases hpage : page' = page
      · exact ⟨_, List.mem_cons_self, hpage.symm⟩
      · rw [Function.update_of_ne hpage] at hg
        exact ⟨_, List.mem_cons_of_mem _ ((hinv.others ⟨page', grant.cnt, grant.user⟩).mpr
          ⟨grant.bytes, hg⟩), rfl⟩
  · rw [hpages] at hget ⊢
    split at hget
    case isTrue => exact absurd rfl hget
    case isFalse hassert =>
      rw [if_neg hassert]
      exact ⟨s, l, rfl, hinv⟩

theorem Inv.goes_freePages (hinv : s.Inv l) {page : Nat} {grant : Grant}
    (hg : s.grants page = some grant) : s.Goes (.freePages page) := by
  rw [Goes, step]
  obtain ⟨others, hperm, hrest, hmem⟩ := hinv.exists_chunk hg
  obtain ⟨state, hfree, hheap, hkeeps⟩ := hinv.heap.exists_dropOther hperm
  have hnext : System.Inv ⟨{ s.heap with pages := state }, s.blocks,
      Function.update s.grants page none⟩ { l with others := others } := ?_
  · refine ⟨_, _, ?_, hnext⟩
    rw [hg]
    change (pallocFreeMultiple (page * pgsize) grant.cnt s.heap.pages).bind _ = _
    rw [show pallocFreeMultiple (page * pgsize) grant.cnt s.heap.pages = some state from hfree]
    rfl
  refine hinv.next hheap hinv.busy hkeeps ?_ ?_ ?_ ?_
  · exact fun b hb => Or.inl ⟨hb, hb, rfl⟩
  · exact fun p bytes hp => (hinv.blocks p bytes hp).1
  · intro c hc
    obtain ⟨hold, hne⟩ := hrest c hc
    exact Or.inl ⟨hc, hold, Function.update_of_ne hne _ _⟩
  · intro page' grant' hg'
    by_cases hpage : page' = page
    · rw [hpage, Function.update_self] at hg'
      cases hg'
    · rw [Function.update_of_ne hpage] at hg'
      exact ⟨⟨page', grant'.cnt, grant'.user⟩,
        hmem _ ((hinv.others _).mpr ⟨grant'.bytes, hg'⟩) hpage, rfl⟩

theorem Inv.goes_writePages (hinv : s.Inv l) {page ofs : Nat} {byte : UInt8} {grant : Grant}
    (hg : s.grants page = some grant) (hofs : ofs < grant.bytes.length) :
    s.Goes (.writePages page ofs byte) := by
  rw [Goes, step]
  obtain ⟨others, hperm, hrest, hmem⟩ := hinv.exists_chunk hg
  obtain ⟨hlength, hshown⟩ := hinv.grants page grant hg
  obtain ⟨hheap, hkeeps⟩ := hinv.heap.writeOther hperm
    (m := s.heap.memory.put (page * pgsize + ofs) [byte]) fun ofs' n hout =>
      put_outside (pgsize * grant.cnt) ⟨Nat.le_add_right _ _, by omega⟩ hout
  have hnext : System.Inv ⟨s.heap.setMemory (s.heap.memory.put (page * pgsize + ofs) [byte]),
      s.blocks, Function.update s.grants page
        (some { grant with bytes := grant.bytes.set ofs byte })⟩ l := ?_
  · refine ⟨_, l, ?_, hnext⟩
    rw [hg]
    exact if_pos hofs
  refine hinv.next hheap hinv.busy hkeeps ?_ ?_ ?_ ?_
  · exact fun b hb => Or.inl ⟨hb, hb, rfl⟩
  · exact fun p bytes hp => (hinv.blocks p bytes hp).1
  · intro c hc
    by_cases hne : c.page = page
    · obtain ⟨bytes', hbytes⟩ := (hinv.others c).mp hc
      rw [hne] at hbytes
      obtain rfl := Option.some.inj (hg.symm.trans hbytes)
      refine Or.inr ⟨bytes'.set ofs byte, ?_, ?_, ?_⟩
      · rw [hne, Function.update_self]
      · rw [List.length_set]
        exact hlength
      · rw [← hlength] at hshown
        have hput : (s.heap.memory.put (page * pgsize + ofs) [byte]).bytes (page * pgsize)
            (bytes'.set ofs byte).length = bytes'.set ofs byte := ByteMemory.bytes_put hshown hofs
        rw [List.length_set, hlength] at hput
        rw [Chunk.address, hne]
        exact hput
    · exact Or.inl ⟨hmem c hc hne, hc, Function.update_of_ne hne _ _⟩
  · intro page' grant' hg'
    by_cases hpage : page' = page
    · rw [hpage, Function.update_self] at hg'
      exact ⟨⟨page, grant.cnt, grant.user⟩, hperm.mem_iff.mpr List.mem_cons_self, hpage.symm⟩
    · rw [Function.update_of_ne hpage] at hg'
      exact ⟨⟨page', grant'.cnt, grant'.user⟩, (hinv.others _).mpr ⟨grant'.bytes, hg'⟩, rfl⟩

end System

end Malloc

end PintosLabs
