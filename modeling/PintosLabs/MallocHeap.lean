/-
Where the blocks of `malloc` are.  The pages that it holds are arenas and the
pages of big blocks; every block of an arena is either free or has been handed
out, and nothing that has been handed out meets anything else.
-/
import Mathlib.Data.List.Flatten
import PintosLabs.Malloc

namespace PintosLabs

open Exec (pgsize)

namespace Malloc

open Palloc (Chunk apart_addresses)

/-- A block that has been handed out: its address, its bytes, and its descriptor
unless it has pages of its own. -/
structure Block where
  addr : Nat
  room : Nat
  home : Option Nat
deriving DecidableEq

structure Arena where
  page : Nat
  desc : Nat
deriving DecidableEq

/-- The pages of a big block. -/
structure Big where
  page : Nat
  cnt : Nat
deriving DecidableEq

def Arena.address (q : Arena) : Nat := q.page * pgsize

def Arena.chunk (q : Arena) : Chunk := ⟨q.page, 1, false⟩

def Big.chunk (q : Big) : Chunk := ⟨q.page, q.cnt, false⟩

def Big.block (q : Big) : Block :=
  ⟨q.page * pgsize + arenaSize, pgsize * q.cnt - arenaSize, none⟩

/-- Who has which part of the memory: the blocks in use, the pages that `malloc`
holds for them, and the pages that others hold. -/
structure Layout where
  live : List Block
  arenas : List Arena
  bigs : List Big
  others : List Chunk

namespace Layout

/-- The pages that `malloc` holds. -/
def own (l : Layout) : List Chunk := l.arenas.map Arena.chunk ++ l.bigs.map Big.chunk

def held (l : Layout) : List Chunk := l.own ++ l.others

/-- The blocks in use of a descriptor. -/
def liveIn (l : Layout) (i : Nat) : List Nat :=
  (l.live.filter fun b => b.home = some i).map Block.addr

def arenasOf (l : Layout) (i : Nat) : List Arena := l.arenas.filter fun q => q.desc = i

end Layout

/-- The number of blocks of a list that are in a page. -/
def inPage (page : Nat) (blocks : List Nat) : Nat := blocks.countP fun b => pgNo b = page

namespace Heap

/-- What the header of the pages from `page` on says. -/
structure Header (h : Heap) (page : Nat) (desc : Option Nat) (cnt : Nat) : Prop where
  magic : h.magic (page * pgsize) = arenaMagic
  desc : h.desc (page * pgsize) = desc
  freeCnt : (h.freeCnt (page * pgsize)).toNat = cnt

structure Inv (h : Heap) (l : Layout) : Prop where
  exact : h.pages.Exact l.held
  few : h.descs.length < 2 ^ 32 - 1
  arena : ∀ q ∈ l.arenas, ∃ d, h.descs[q.desc]? = some d ∧
    h.Header q.page (some q.desc) (inPage q.page d.freeList)
  big : ∀ q ∈ l.bigs, h.Header q.page none q.cnt
  blocks : ∀ i d, h.descs[i]? = some d →
    (d.freeList ++ l.liveIn i).Perm ((l.arenasOf i).flatMap fun q => d.blocksOf q.address)
  rooms : ∀ b ∈ l.live, ∀ i, b.home = some i →
    ∃ d, h.descs[i]? = some d ∧ b.room = d.blockSize
  bigBlocks : (l.live.filter fun b => b.home = none).Perm (l.bigs.map Big.block)

/-- Every arena has a block in use. -/
def Busy (l : Layout) : Prop := ∀ q ∈ l.arenas, ∃ b ∈ l.live, b.home = some q.desc ∧
  pgNo b.addr = q.page

/-- The blocks in use and the pages of others hold what they held. -/
structure Keeps (h h' : Heap) (l : Layout) : Prop where
  live : ∀ b ∈ l.live, h.memory.Agree h'.memory b.addr b.room
  others : ∀ c ∈ l.others, h.memory.Agree h'.memory c.address (pgsize * c.cnt)

end Heap

/-! Blocks and pages. -/

theorem Desc.mem_blocksOf {d : Desc} {a b : Nat} :
    b ∈ d.blocksOf a ↔ ∃ k < d.blocksPerArena, b = a + arenaSize + k * d.blockSize := by
  rw [Desc.blocksOf, List.mem_map]
  constructor
  · rintro ⟨k, hk, rfl⟩
    exact ⟨k, List.mem_range.mp hk, rfl⟩
  · rintro ⟨k, hk, rfl⟩
    exact ⟨k, List.mem_range.mpr hk, rfl⟩

/-- A block of the arena at the start of a page. -/
structure Desc.InPage (d : Desc) (page b : Nat) : Prop where
  low : page * pgsize + arenaSize ≤ b
  high : b + d.blockSize ≤ page * pgsize + pgsize
  aligned : (b - page * pgsize - arenaSize) % d.blockSize = 0

theorem Desc.inPage_of_mem {d : Desc} {page b : Nat} (hb : b ∈ d.blocksOf (page * pgsize)) :
    d.InPage page b := by
  obtain ⟨k, hk, rfl⟩ := Desc.mem_blocksOf.mp hb
  have hle : (k + 1) * d.blockSize ≤ d.blocksPerArena * d.blockSize := Nat.mul_le_mul_right _ hk
  have hfits := d.fits
  rw [Nat.succ_mul] at hle
  refine ⟨Nat.le_add_right _ _, by omega, ?_⟩
  rw [Nat.add_assoc, Nat.add_sub_cancel_left, Nat.add_sub_cancel_left]
  exact Nat.mul_mod_left k d.blockSize

namespace Desc.InPage

variable {d : Desc} {page b b' : Nat}

theorem pgNo_eq (h : d.InPage page b) : pgNo b = page := by
  have hlow := h.low
  have hhigh := h.high
  have hpos := d.blockSize_pos
  rw [pgNo]
  simp only [pgsize, arenaSize] at *
  omega

theorem pgOfs_eq (h : d.InPage page b) : pgOfs b = b - page * pgsize := by
  have hlow := h.low
  have hhigh := h.high
  have hpos := d.blockSize_pos
  rw [pgOfs]
  simp only [pgsize, arenaSize] at *
  omega

theorem apart (h : d.InPage page b) (h' : d.InPage page b') (hne : b ≠ b') :
    b + d.blockSize ≤ b' ∨ b' + d.blockSize ≤ b := by
  obtain ⟨k, hk⟩ := Nat.dvd_of_mod_eq_zero h.aligned
  obtain ⟨k', hk'⟩ := Nat.dvd_of_mod_eq_zero h'.aligned
  have hlow := h.low
  have hlow' := h'.low
  have hkk : k ≠ k' := by
    rintro rfl
    omega
  rcases Nat.lt_or_gt_of_ne hkk with hlt | hgt
  · have hle : d.blockSize * (k + 1) ≤ d.blockSize * k' := Nat.mul_le_mul_left _ hlt
    rw [Nat.mul_succ] at hle
    omega
  · have hle : d.blockSize * (k' + 1) ≤ d.blockSize * k := Nat.mul_le_mul_left _ hgt
    rw [Nat.mul_succ] at hle
    omega

end Desc.InPage

theorem Desc.nodup_blocksOf (d : Desc) (a : Nat) : (d.blocksOf a).Nodup := by
  refine List.Nodup.map_on (fun k _ k' _ heq => ?_) List.nodup_range
  have hmul : k * d.blockSize = k' * d.blockSize := Nat.add_left_cancel heq
  exact Nat.eq_of_mul_eq_mul_right d.blockSize_pos hmul

namespace Heap

variable {h h' : Heap} {l : Layout} {b b' : Block}

/-- The block lies behind the header of pages that `malloc` holds. -/
structure In (b : Block) (c : Chunk) : Prop where
  low : c.address + arenaSize ≤ b.addr
  high : b.addr + b.room ≤ c.address + pgsize * c.cnt

theorem Inv.liveIn_iff (b : Block) (i : Nat) (hb : b ∈ l.live) (hhome : b.home = some i) :
    b.addr ∈ l.liveIn i :=
  List.mem_map.mpr ⟨b, List.mem_filter.mpr ⟨hb, decide_eq_true hhome⟩, rfl⟩

/-- Each free block is in an arena of its descriptor. -/
theorem Inv.free_mem (hinv : h.Inv l) {i : Nat} {d : Desc} (hd : h.descs[i]? = some d) {a : Nat}
    (ha : a ∈ d.freeList) : ∃ q ∈ l.arenas, q.desc = i ∧ d.InPage q.page a := by
  have hmem := (hinv.blocks i d hd).mem_iff.mp (List.mem_append_left _ ha)
  obtain ⟨q, hq, ha⟩ := List.mem_flatMap.mp hmem
  obtain ⟨hq, hdesc⟩ := List.mem_filter.mp hq
  exact ⟨q, hq, of_decide_eq_true hdesc, Desc.inPage_of_mem ha⟩

/-- Each block in use of a descriptor is in one of its arenas. -/
theorem Inv.live_mem (hinv : h.Inv l) (hb : b ∈ l.live) {i : Nat} (hhome : b.home = some i) :
    ∃ d, h.descs[i]? = some d ∧ b.room = d.blockSize ∧
      ∃ q ∈ l.arenas, q.desc = i ∧ d.InPage q.page b.addr := by
  obtain ⟨d, hd, hroom⟩ := hinv.rooms b hb i hhome
  have hmem := (hinv.blocks i d hd).mem_iff.mp
    (List.mem_append_right _ (Inv.liveIn_iff b i hb hhome))
  obtain ⟨q, hq, ha⟩ := List.mem_flatMap.mp hmem
  obtain ⟨hq, hdesc⟩ := List.mem_filter.mp hq
  exact ⟨d, hd, hroom, q, hq, of_decide_eq_true hdesc, Desc.inPage_of_mem ha⟩

theorem Inv.big_mem (hinv : h.Inv l) (hb : b ∈ l.live) (hhome : b.home = none) :
    ∃ q ∈ l.bigs, b = q.block := by
  have hmem := hinv.bigBlocks.mem_iff.mp (List.mem_filter.mpr ⟨hb, decide_eq_true hhome⟩)
  obtain ⟨q, hq, heq⟩ := List.mem_map.mp hmem
  exact ⟨q, hq, heq.symm⟩

theorem Inv.arena_held (hinv : h.Inv l) {q : Arena} (hq : q ∈ l.arenas) : q.chunk ∈ l.own :=
  List.mem_append_left _ (List.mem_map_of_mem hq)

theorem Inv.big_held (hinv : h.Inv l) {q : Big} (hq : q ∈ l.bigs) : q.chunk ∈ l.own :=
  List.mem_append_right _ (List.mem_map_of_mem hq)

theorem Inv.own_inside (hinv : h.Inv l) {c : Chunk} (hc : c ∈ l.own) : 0 < c.cnt :=
  (hinv.exact.inside c (List.mem_append_left _ hc)).1

/-- Two blocks in use do not meet. -/
def ApartBlocks (b b' : Block) : Prop := b.addr + b.room ≤ b'.addr ∨ b'.addr + b'.room ≤ b.addr

theorem Inv.room_pos (hinv : h.Inv l) (hb : b ∈ l.live) : 0 < b.room := by
  cases hhome : b.home with
  | some i =>
      obtain ⟨d, hd, hroom, _⟩ := hinv.live_mem hb hhome
      exact hroom ▸ d.blockSize_pos
  | none =>
      obtain ⟨q, hq, rfl⟩ := hinv.big_mem hb hhome
      have hpos := hinv.own_inside (hinv.big_held hq)
      simp only [Big.chunk, Big.block, pgsize, arenaSize] at *
      omega

theorem Inv.nodup_arenas (hinv : h.Inv l) : (l.arenas.map Arena.chunk).Nodup :=
  hinv.exact.nodup.sublist
    ((List.sublist_append_left _ _).trans (List.sublist_append_left _ _))

theorem Inv.nodup_bigs (hinv : h.Inv l) : (l.bigs.map Big.chunk).Nodup :=
  hinv.exact.nodup.sublist
    ((List.sublist_append_right _ _).trans (List.sublist_append_left _ _))

theorem Inv.arena_eq_of_page (hinv : h.Inv l) {q q' : Arena} (hq : q ∈ l.arenas)
    (hq' : q' ∈ l.arenas) (hpage : q.page = q'.page) : q = q' :=
  List.inj_on_of_nodup_map hinv.nodup_arenas hq hq' (by
    rw [Arena.chunk, Arena.chunk, hpage])

/-- The blocks of the arenas of a descriptor are distinct. -/
theorem Inv.nodup_blocks (hinv : h.Inv l) {i : Nat} {d : Desc} (hd : h.descs[i]? = some d) :
    (d.freeList ++ l.liveIn i).Nodup := by
  rw [(hinv.blocks i d hd).nodup_iff, List.nodup_flatMap]
  refine ⟨fun q _ => d.nodup_blocksOf _, ?_⟩
  have hnodup : (l.arenasOf i).Nodup := (List.Nodup.of_map _ hinv.nodup_arenas).filter _
  refine hnodup.pairwise_of_forall_ne fun q hq q' hq' hne a ha ha' => hne ?_
  have hpage := (Desc.inPage_of_mem ha).pgNo_eq.symm.trans (Desc.inPage_of_mem ha').pgNo_eq
  exact hinv.arena_eq_of_page (List.mem_of_mem_filter hq) (List.mem_of_mem_filter hq') hpage

theorem Inv.arena_apart_big (hinv : h.Inv l) {q : Arena} {q' : Big} (hq : q ∈ l.arenas)
    (hq' : q' ∈ l.bigs) : q.chunk.Apart q'.chunk :=
  (List.pairwise_append.mp (List.pairwise_append.mp hinv.exact.apart).1).2.2 _
    (List.mem_map_of_mem hq) _ (List.mem_map_of_mem hq')

/-- The chunk that a block is in. -/
theorem In.of_inPage {q : Arena} {d : Desc} (hin : d.InPage q.page b.addr)
    (hroom : b.room = d.blockSize) : In b q.chunk := by
  refine ⟨hin.low, ?_⟩
  have hhigh := hin.high
  rw [hroom]
  simp only [Arena.chunk, Chunk.address]
  omega

theorem Inv.in_big (hinv : h.Inv l) {q : Big} (hq : q ∈ l.bigs) : In q.block q.chunk := by
  have hpos := hinv.own_inside (hinv.big_held hq)
  refine ⟨Nat.le_refl _, ?_⟩
  simp only [Big.chunk, Big.block, Chunk.address, pgsize, arenaSize] at *
  omega

/-- The pages that each block in use lies in. -/
theorem Inv.within (hinv : h.Inv l) (hb : b ∈ l.live) : ∃ c ∈ l.own, In b c := by
  cases hhome : b.home with
  | some i =>
      obtain ⟨d, hd, hroom, q, hq, _, hin⟩ := hinv.live_mem hb hhome
      exact ⟨q.chunk, hinv.arena_held hq, In.of_inPage hin hroom⟩
  | none =>
      obtain ⟨q, hq, rfl⟩ := hinv.big_mem hb hhome
      exact ⟨q.chunk, hinv.big_held hq, hinv.in_big hq⟩

theorem In.apart {c c' : Chunk} (hin : In b c) (hin' : In b' c') (happart : c.Apart c') :
    ApartBlocks b b' := by
  have haddresses := apart_addresses happart
  have hlow := hin.low
  have hhigh := hin.high
  have hlow' := hin'.low
  have hhigh' := hin'.high
  rw [ApartBlocks]
  omega

theorem Inv.apart_of_ne (hinv : h.Inv l) (hb : b ∈ l.live) (hb' : b' ∈ l.live) (hne : b ≠ b') :
    ApartBlocks b b' := by
  cases hhome : b.home with
  | some i =>
      obtain ⟨d, hd, hroom, q, hq, hdesc, hin⟩ := hinv.live_mem hb hhome
      cases hhome' : b'.home with
      | some i' =>
          obtain ⟨d', hd', hroom', q', hq', hdesc', hin'⟩ := hinv.live_mem hb' hhome'
          by_cases hqq : q = q'
          · subst hqq hdesc
            obtain rfl := hdesc'
            obtain rfl := Option.some.inj (hd.symm.trans hd')
            have haddr : b.addr ≠ b'.addr := by
              intro haddr
              obtain ⟨addr, room, home⟩ := b
              obtain ⟨addr', room', home'⟩ := b'
              simp only at haddr hroom hroom' hhome hhome'
              subst haddr hroom hroom' hhome hhome'
              exact hne rfl
            rw [ApartBlocks, hroom, hroom']
            exact hin.apart hin' haddr
          · refine (In.of_inPage hin hroom).apart (In.of_inPage hin' hroom') ?_
            refine hinv.exact.apart_of_ne (List.mem_append_left _ (hinv.arena_held hq))
              (List.mem_append_left _ (hinv.arena_held hq')) fun hcc => hqq ?_
            exact hinv.arena_eq_of_page hq hq' (congrArg Chunk.page hcc)
      | none =>
          obtain ⟨q', hq', rfl⟩ := hinv.big_mem hb' hhome'
          exact (In.of_inPage hin hroom).apart (hinv.in_big hq') (hinv.arena_apart_big hq hq')
  | none =>
      obtain ⟨q, hq, rfl⟩ := hinv.big_mem hb hhome
      cases hhome' : b'.home with
      | some i' =>
          obtain ⟨d', hd', hroom', q', hq', hdesc', hin'⟩ := hinv.live_mem hb' hhome'
          exact (hinv.in_big hq).apart (In.of_inPage hin' hroom')
            (Or.symm (hinv.arena_apart_big hq' hq))
      | none =>
          obtain ⟨q', hq', rfl⟩ := hinv.big_mem hb' hhome'
          refine (hinv.in_big hq).apart (hinv.in_big hq') ?_
          refine hinv.exact.apart_of_ne (List.mem_append_left _ (hinv.big_held hq))
            (List.mem_append_left _ (hinv.big_held hq')) fun hcc => hne ?_
          obtain ⟨page, cnt⟩ := q
          obtain ⟨page', cnt'⟩ := q'
          simp only [Big.chunk, Chunk.mk.injEq] at hcc
          rw [hcc.1, hcc.2.1]

/-- The blocks in use are distinct. -/
theorem Inv.nodup_live (hinv : h.Inv l) : l.live.Nodup := by
  rw [List.nodup_iff_count_le_one]
  intro b
  by_cases hb : b ∈ l.live
  · cases hhome : b.home with
    | some i =>
        obtain ⟨d, hd, _⟩ := hinv.rooms b hb i hhome
        have hnodup := ((List.nodup_append.mp (hinv.nodup_blocks hd)).2.1).of_map
        have hcount : l.live.count b = (l.live.filter fun b => b.home = some i).count b := by
          rw [List.count_filter (by exact decide_eq_true hhome)]
        exact hcount ▸ List.nodup_iff_count_le_one.mp hnodup b
    | none =>
        have hnodup : (l.bigs.map Big.block).Nodup := by
          refine List.Nodup.map_on (fun q hq q' hq' heq => ?_) hinv.nodup_bigs.of_map
          have hpos := hinv.own_inside (hinv.big_held hq)
          have hpos' := hinv.own_inside (hinv.big_held hq')
          obtain ⟨page, cnt⟩ := q
          obtain ⟨page', cnt'⟩ := q'
          simp only [Big.block, Block.mk.injEq, Big.mk.injEq, Big.chunk, arenaSize, pgsize,
            and_true] at *
          omega
        have hcount : l.live.count b = (l.live.filter fun b => b.home = none).count b := by
          rw [List.count_filter (by exact decide_eq_true hhome)]
        exact hcount ▸ List.nodup_iff_count_le_one.mp (hinv.bigBlocks.nodup_iff.mpr hnodup) b
  · rw [List.count_eq_zero_of_not_mem hb]
    exact Nat.zero_le 1

/-- The blocks in use are pairwise apart. -/
theorem Inv.pairwise_live (hinv : h.Inv l) : l.live.Pairwise ApartBlocks :=
  hinv.nodup_live.pairwise_of_forall_ne fun _ hb _ hb' hne => hinv.apart_of_ne hb hb' hne

end Heap

end Malloc

end PintosLabs
