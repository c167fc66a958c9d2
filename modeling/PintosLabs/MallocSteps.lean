/-
What each function of `malloc` does to the heap: it succeeds, the blocks stay
where they belong, and what is in use is left alone.
-/
import PintosLabs.MallocHeap

namespace PintosLabs

open Exec (pgsize)

namespace Malloc

open Palloc (Chunk apart_addresses noFlags pallocGetMultiple pallocGetPage pallocFreeMultiple
  pallocFreePage)

namespace Heap

variable {h h' : Heap} {l l' : Layout} {b : Block} {d : Desc} {q : Arena} {i : Nat}

/-! The parts of the heap. -/

@[simp] theorem memory_setMemory (m : ByteMemory) : (h.setMemory m).memory = m := rfl

@[simp] theorem descs_setMemory (m : ByteMemory) : (h.setMemory m).descs = h.descs := rfl

@[simp] theorem memory_setFreeList (freeList : List Nat) :
    (h.setFreeList i freeList).memory = h.memory := rfl

@[simp] theorem pages_setFreeList (freeList : List Nat) :
    (h.setFreeList i freeList).pages = h.pages := rfl

theorem descs_setFreeList_self (hd : h.descs[i]? = some d) (freeList : List Nat) :
    (h.setFreeList i freeList).descs[i]? = some (d.setFreeList freeList) := by
  simp [setFreeList, hd]

theorem descs_setFreeList_of_ne {j : Nat} (hne : j ≠ i) (freeList : List Nat) :
    (h.setFreeList i freeList).descs[j]? = h.descs[j]? := by
  simp [setFreeList, Ne.symm hne]

@[simp] theorem length_setFreeList (freeList : List Nat) :
    (h.setFreeList i freeList).descs.length = h.descs.length := List.length_modify ..

/-! Headers. -/

theorem descPtr_toNat (desc : Option Nat) (hfew : ∀ i, desc = some i → i + 1 < 2 ^ 32) :
    (descPtr desc).toNat = (desc.map (· + 1)).getD 0 := by
  cases desc with
  | none => rfl
  | some i => exact Nat.mod_eq_of_lt (hfew i rfl)

theorem Header.of_agree {page cnt : Nat} {desc : Option Nat} (hheader : h.Header page desc cnt)
    (hagree : h.memory.Agree h'.memory (page * pgsize) arenaSize) :
    h'.Header page desc cnt := by
  have hword : ∀ ofs, ofs + 4 ≤ arenaSize → h'.memory.loadWord (page * pgsize + ofs) =
      h.memory.loadWord (page * pgsize + ofs) := by
    intro ofs hofs
    exact (hagree.mono (by omega) (by omega)).symm.loadWord
  have hfirst := hword 0 (by decide)
  rw [Nat.add_zero] at hfirst
  refine ⟨?_, ?_, ?_⟩
  · exact hfirst.trans hheader.magic
  · rw [← hheader.desc, Heap.desc, Heap.desc, hword 4 (by decide)]
  · rw [← hheader.freeCnt, Heap.freeCnt, Heap.freeCnt, hword 8 (by decide)]

theorem header_setHeader (page : Nat) (desc : Option Nat) (cnt : Nat)
    (hfew : ∀ i, desc = some i → i + 1 < 2 ^ 32) (hcnt : cnt < 2 ^ 32) :
    (h.setHeader (page * pgsize) desc cnt).Header page desc cnt := by
  refine ⟨?_, ?_, ?_⟩
  · rw [magic, setHeader, memory_setMemory, ByteMemory.loadWord_storeWord_of_apart (by omega),
      ByteMemory.loadWord_storeWord_of_apart (by omega), ByteMemory.loadWord_storeWord]
  · rw [Heap.desc, setHeader, memory_setMemory, ByteMemory.loadWord_storeWord_of_apart (by omega),
      ByteMemory.loadWord_storeWord, descPtr_toNat desc hfew]
    cases desc with
    | none => rfl
    | some i => rfl
  · rw [freeCnt, setHeader, memory_setMemory, ByteMemory.loadWord_storeWord]
    exact Nat.mod_eq_of_lt hcnt

theorem agree_setHeader {a ofs n : Nat} {desc : Option Nat} {cnt : Nat}
    (hout : ofs + n ≤ a ∨ a + arenaSize ≤ ofs) :
    h.memory.Agree (h.setHeader a desc cnt).memory ofs n := by
  rw [arenaSize] at hout
  rw [setHeader, memory_setMemory]
  refine ByteMemory.Agree.symm ?_
  exact (ByteMemory.agree_storeWord (by omega)).trans
    ((ByteMemory.agree_storeWord (by omega)).trans (ByteMemory.agree_storeWord (by omega)))

theorem header_setFreeCnt {page cnt : Nat} {desc : Option Nat}
    (hheader : h.Header page desc cnt) (new : BitVec 32) :
    (h.setFreeCnt (page * pgsize) new).Header page desc new.toNat := by
  refine ⟨?_, ?_, ?_⟩
  · rw [← hheader.magic, magic, setFreeCnt, memory_setMemory,
      ByteMemory.loadWord_storeWord_of_apart (by omega), magic]
  · rw [← hheader.desc, Heap.desc, setFreeCnt, memory_setMemory,
      ByteMemory.loadWord_storeWord_of_apart (by omega), Heap.desc]
  · rw [freeCnt, setFreeCnt, memory_setMemory, ByteMemory.loadWord_storeWord]

theorem agree_setFreeCnt {a ofs n : Nat} {new : BitVec 32}
    (hout : ofs + n ≤ a ∨ a + arenaSize ≤ ofs) :
    h.memory.Agree (h.setFreeCnt a new).memory ofs n := by
  rw [arenaSize] at hout
  rw [setFreeCnt, memory_setMemory]
  exact (ByteMemory.agree_storeWord (by omega)).symm

/-! What lies where. -/

/-- What is in use does not meet the headers of the pages that `malloc` holds. -/
theorem Inv.live_off_header (hinv : h.Inv l) (hb : b ∈ l.live) {c : Chunk} (hc : c ∈ l.own) :
    b.addr + b.room ≤ c.address ∨ c.address + arenaSize ≤ b.addr := by
  obtain ⟨c', hc', hin⟩ := hinv.within hb
  have hlow := hin.low
  have hhigh := hin.high
  have hpos := hinv.own_inside hc
  by_cases hcc : c = c'
  · subst hcc
    exact Or.inr hlow
  · have happart := apart_addresses
      (hinv.exact.apart_of_ne (List.mem_append_left _ hc) (List.mem_append_left _ hc') hcc)
    simp only [pgsize, arenaSize] at *
    omega

theorem Inv.others_apart (hinv : h.Inv l) {c c' : Chunk} (hc : c ∈ l.own) (hc' : c' ∈ l.others) :
    c.Apart c' :=
  (List.pairwise_append.mp hinv.exact.apart).2.2 c hc c' hc'

/-- A change to a header is a change to nothing else that is in use. -/
theorem Inv.keeps_header (hinv : h.Inv l) {c : Chunk} (hc : c ∈ l.own)
    (hagree : ∀ ofs n, ofs + n ≤ c.address ∨ c.address + arenaSize ≤ ofs →
      h.memory.Agree h'.memory ofs n) : h.Keeps h' l where
  live b hb := hagree _ _ (hinv.live_off_header hb hc)
  others c' hc' := by
    have hpos := hinv.own_inside hc
    have happart := apart_addresses (hinv.others_apart hc hc')
    apply hagree
    simp only [pgsize, arenaSize] at *
    omega

/-- The header of other pages is left alone as well. -/
theorem Inv.other_header (hinv : h.Inv l) {c c' : Chunk} (hc : c ∈ l.own) (hc' : c' ∈ l.own)
    (hne : c ≠ c') (hagree : ∀ ofs n, ofs + n ≤ c.address ∨ c.address + arenaSize ≤ ofs →
      h.memory.Agree h'.memory ofs n) : h.memory.Agree h'.memory c'.address arenaSize := by
  have hpos := hinv.own_inside hc
  have hpos' := hinv.own_inside hc'
  have happart := apart_addresses
    (hinv.exact.apart_of_ne (List.mem_append_left _ hc) (List.mem_append_left _ hc') hne)
  apply hagree
  simp only [pgsize, arenaSize] at *
  omega

theorem Keeps.trans {h'' : Heap} (hk : h.Keeps h' l) (hk' : h'.Keeps h'' l) : h.Keeps h'' l where
  live b hb := (hk.live b hb).trans (hk'.live b hb)
  others c hc := (hk.others c hc).trans (hk'.others c hc)

theorem Keeps.mono (hk : h.Keeps h' l) (hlive : ∀ b ∈ l'.live, b ∈ l.live)
    (hothers : ∀ c ∈ l'.others, c ∈ l.others) : h.Keeps h' l' where
  live b hb := hk.live b (hlive b hb)
  others c hc := hk.others c (hothers c hc)

/-! `block_to_arena` finds the header. -/

theorem Inv.page_pos (hinv : h.Inv l) {c : Chunk} (hc : c ∈ l.own) : 0 < c.page :=
  hinv.exact.pos_of_mem (List.mem_append_left _ hc)

theorem address_ne_zero {page : Nat} (hpage : 0 < page) : page * pgsize ≠ 0 := by
  rw [pgsize]
  omega

theorem wrapped_offset {a start : Nat} (hlow : start + arenaSize ≤ a)
    (hhigh : a < start + pgsize) :
    (a - start + 2 ^ 32 - arenaSize) % 2 ^ 32 = a - start - arenaSize := by
  have hlt : a - start - arenaSize < 2 ^ 32 := by
    simp only [pgsize, arenaSize] at *
    omega
  have hle : arenaSize ≤ a - start := by omega
  rw [Nat.add_comm, Nat.add_sub_assoc hle, Nat.add_mod_left, Nat.mod_eq_of_lt hlt]

theorem offset_inPage {a page : Nat} (hin : d.InPage page a) :
    (pgOfs a + 2 ^ 32 - arenaSize) % 2 ^ 32 = a - page * pgsize - arenaSize := by
  have hlow := hin.low
  have hhigh := hin.high
  have hsize := d.blockSize_pos
  rw [hin.pgOfs_eq]
  exact wrapped_offset hlow (by omega)

theorem round_inPage {a page : Nat} (hin : d.InPage page a) : a - pgOfs a = page * pgsize := by
  have hlow := hin.low
  rw [hin.pgOfs_eq]
  omega

theorem blockToArena_of_inPage {a cnt : Nat} (hheader : h.Header q.page (some i) cnt)
    (hd : h.descs[i]? = some d) (hin : d.InPage q.page a) (hpage : 0 < q.page) :
    h.blockToArena a = some q.address := by
  have haligned := hin.aligned
  rw [← offset_inPage hin] at haligned
  rw [blockToArena, round_inPage hin, if_pos ⟨address_ne_zero hpage, hheader.magic⟩,
    hheader.desc]
  change (h.descs[i]?).bind _ = _
  rw [hd, Option.bind_some]
  exact if_pos haligned

theorem blockToArena_big {page cnt : Nat} (hheader : h.Header page none cnt) (hpage : 0 < page) :
    h.blockToArena (page * pgsize + arenaSize) = some (page * pgsize) := by
  have hofs : pgOfs (page * pgsize + arenaSize) = arenaSize := by
    simp only [pgOfs, pgsize, arenaSize]
    omega
  rw [blockToArena, hofs, Nat.add_sub_cancel,
    if_pos ⟨address_ne_zero hpage, hheader.magic⟩, hheader.desc]
  exact if_pos rfl

/-! Blocks go from the free list of a descriptor to those in use, and back. -/

theorem Inv.chunk_ne_big (hinv : h.Inv l) (hq : q ∈ l.arenas) {q' : Big} (hq' : q' ∈ l.bigs) :
    q'.chunk ≠ q.chunk := by
  intro heq
  have happart := hinv.arena_apart_big hq hq'
  have hpos := hinv.own_inside (hinv.arena_held hq)
  rw [heq] at happart
  simp only [Chunk.Apart] at happart
  omega

/-- The free list of a descriptor and the blocks that are in use of it change, and
with them the header of one arena. -/
theorem Inv.reblock (hinv : h.Inv l) (hq : q ∈ l.arenas) (hd : h.descs[q.desc]? = some d)
    {freeList : List Nat} {live : List Block}
    (hperm : (freeList ++ { l with live := live }.liveIn q.desc).Perm
      (d.freeList ++ l.liveIn q.desc))
    (hother : ∀ home, home ≠ some q.desc →
      (live.filter fun b => b.home = home).Perm (l.live.filter fun b => b.home = home))
    (hrooms : ∀ b ∈ live, b.home = some q.desc → b.room = d.blockSize)
    (hpages : ∀ page, page ≠ q.page → inPage page freeList = inPage page d.freeList)
    (hdescs : h'.descs = (h.setFreeList q.desc freeList).descs)
    (hexact : h'.pages.Exact l.held)
    (hheader : h'.Header q.page (some q.desc) (inPage q.page freeList))
    (hkeeps : ∀ c ∈ l.own, c ≠ q.chunk → h.memory.Agree h'.memory c.address arenaSize) :
    h'.Inv { l with live := live } where
  exact := hexact
  few := by
    rw [hdescs, length_setFreeList]
    exact hinv.few
  arena q' hq' := by
    obtain ⟨d', hd', hheader'⟩ := hinv.arena q' hq'
    by_cases hqq : q' = q
    · subst hqq
      refine ⟨d.setFreeList freeList, ?_, hheader⟩
      rw [hdescs, descs_setFreeList_self hd]
    · have hpage : q'.page ≠ q.page := fun hpage => hqq (hinv.arena_eq_of_page hq' hq hpage)
      have hkept := hheader'.of_agree (hkeeps q'.chunk (hinv.arena_held hq') fun hcc =>
        hpage (congrArg Chunk.page hcc))
      by_cases hdesc : q'.desc = q.desc
      · rw [hdesc] at hd' hkept ⊢
        obtain rfl := Option.some.inj (hd.symm.trans hd')
        refine ⟨d.setFreeList freeList, ?_, ?_⟩
        · rw [hdescs, descs_setFreeList_self hd]
        · rw [Desc.setFreeList, hpages _ hpage]
          exact hkept
      · refine ⟨d', ?_, hkept⟩
        rw [hdescs, descs_setFreeList_of_ne hdesc, hd']
  big q' hq' := (hinv.big q' hq').of_agree
    (hkeeps q'.chunk (hinv.big_held hq') (hinv.chunk_ne_big hq hq'))
  blocks j e he := by
    rw [hdescs] at he
    by_cases hj : j = q.desc
    · subst hj
      rw [descs_setFreeList_self hd] at he
      obtain rfl := Option.some.inj he
      exact hperm.trans (hinv.blocks _ d hd)
    · rw [descs_setFreeList_of_ne hj] at he
      have hsame := (hother (some j) fun heq => hj (Option.some.inj heq)).map Block.addr
      exact (hsame.append_left _).trans (hinv.blocks j e he)
  rooms b hb j hhome := by
    by_cases hj : j = q.desc
    · subst hj
      refine ⟨d.setFreeList freeList, ?_, hrooms b hb hhome⟩
      rw [hdescs, descs_setFreeList_self hd]
    · have hmem := (hother (some j) fun heq => hj (Option.some.inj heq)).mem_iff.mp
        (List.mem_filter.mpr ⟨hb, decide_eq_true hhome⟩)
      rw [hdescs, descs_setFreeList_of_ne hj]
      exact hinv.rooms b (List.mem_of_mem_filter hmem) j hhome
  bigBlocks := (hother none (Option.some_ne_none _).symm).trans hinv.bigBlocks

/-- The block at the front of the free list is handed out. -/
theorem Inv.exists_popBlock (hinv : h.Inv l) (hd : h.descs[i]? = some d) {a : Nat}
    {rest : List Nat} (hfree : d.freeList = a :: rest) :
    ∃ h', h.popBlock i = some (a, h') ∧
      h'.Inv { l with live := ⟨a, d.blockSize, some i⟩ :: l.live } ∧ h.Keeps h' l := by
  obtain ⟨q, hq, rfl, hin⟩ := hinv.free_mem hd (hfree ▸ List.mem_cons_self)
  obtain ⟨d', hd', hheader⟩ := hinv.arena q hq
  obtain rfl := Option.some.inj (hd.symm.trans hd')
  have hheader' : (h.setFreeList q.desc rest).Header q.page (some q.desc)
      (inPage q.page d.freeList) := hheader.of_agree (ByteMemory.Agree.refl _ _ _)
  have harena : (h.setFreeList q.desc rest).blockToArena a = some q.address :=
    blockToArena_of_inPage hheader' (descs_setFreeList_self hd rest)
      ⟨hin.low, hin.high, hin.aligned⟩ (hinv.page_pos (hinv.arena_held hq))
  have hcount : inPage q.page d.freeList = inPage q.page rest + 1 := by
    rw [hfree, inPage, List.countP_cons_of_pos (by exact decide_eq_true hin.pgNo_eq), inPage]
  have hnew : ((h.setFreeList q.desc rest).freeCnt q.address - 1).toNat = inPage q.page rest := by
    have hcnt := hheader'.freeCnt
    rw [hcount] at hcnt
    rw [BitVec.toNat_sub_of_le]
    · rw [Arena.address, hcnt]
      rfl
    · rw [BitVec.le_def, Arena.address, hcnt]
      exact Nat.le_add_left 1 _
  have hagree : ∀ ofs n, ofs + n ≤ q.chunk.address ∨ q.chunk.address + arenaSize ≤ ofs →
      h.memory.Agree ((h.setFreeList q.desc rest).setFreeCnt q.address
        ((h.setFreeList q.desc rest).freeCnt q.address - 1)).memory ofs n :=
    fun _ _ hout => agree_setFreeCnt hout
  refine ⟨_, ?_, ?_, hinv.keeps_header (hinv.arena_held hq) hagree⟩
  · rw [popBlock, hd]
    simp only [Option.bind_eq_bind, Option.bind_some, hfree, harena]
  · refine hinv.reblock hq hd ?_ ?_ ?_ ?_ rfl ?_ ?_ ?_
    · rw [Layout.liveIn, List.filter_cons_of_pos (by exact decide_eq_true rfl), List.map_cons,
        hfree]
      exact List.perm_middle
    · intro home hne
      rw [List.filter_cons_of_neg (by simpa using Ne.symm hne)]
    · intro b hb hhome
      rcases List.mem_cons.mp hb with rfl | hb
      · rfl
      · obtain ⟨d', hd', hroom⟩ := hinv.rooms b hb _ hhome
        obtain rfl := Option.some.inj (hd.symm.trans hd')
        exact hroom
    · intro page hne
      rw [hfree, inPage, inPage, List.countP_cons_of_neg]
      rw [decide_eq_true_eq, hin.pgNo_eq]
      exact Ne.symm hne
    · exact hinv.exact.setMemory _
    · rw [← hnew]
      exact header_setFreeCnt hheader' _
    · intro c hc hne
      exact hinv.other_header (hinv.arena_held hq) hc (Ne.symm hne) hagree

/-! New pages. -/

@[simp] theorem memory_setPages (pages : Palloc.State) :
    { h with pages := pages }.memory = pages.memory := rfl

/-- A header in pages that nobody holds is a change to nothing that is held. -/
theorem Inv.keeps_fresh (hinv : h.Inv l) {c : Chunk} (hpos : 0 < c.cnt)
    (happart : ∀ c' ∈ l.held, c.Apart c')
    (hagree : ∀ ofs n, ofs + n ≤ c.address ∨ c.address + arenaSize ≤ ofs →
      h.memory.Agree h'.memory ofs n) :
    h.Keeps h' l ∧ ∀ c' ∈ l.own, h.memory.Agree h'.memory c'.address arenaSize := by
  have haway : ∀ c' ∈ l.held, ∀ ofs n, c'.address ≤ ofs →
      ofs + n ≤ c'.address + pgsize * c'.cnt → h.memory.Agree h'.memory ofs n := by
    intro c' hc' ofs n hlow hhigh
    have haddresses := apart_addresses (happart c' hc')
    apply hagree
    simp only [pgsize, arenaSize] at *
    omega
  refine ⟨⟨fun b hb => ?_, fun c' hc' => ?_⟩, fun c' hc' => ?_⟩
  · obtain ⟨c', hc', hin⟩ := hinv.within hb
    exact haway c' (List.mem_append_left _ hc') _ _
      (le_trans (Nat.le_add_right _ _) hin.low) hin.high
  · exact haway c' (List.mem_append_right _ hc') _ _ (Nat.le_refl _) (Nat.le_refl _)
  · have hpos' := hinv.own_inside hc'
    refine haway c' (List.mem_append_left _ hc') _ _ (Nat.le_refl _) ?_
    simp only [pgsize, arenaSize]
    omega

theorem Inv.page_ne_of_apart (hinv : h.Inv l) {c : Chunk} (hpos : 0 < c.cnt)
    (happart : ∀ c' ∈ l.held, c.Apart c') (hq : q ∈ l.arenas) : q.page ≠ c.page := by
  have hq' := happart q.chunk (List.mem_append_left _ (hinv.arena_held hq))
  simp only [Chunk.Apart, Arena.chunk] at hq'
  omega

theorem Inv.free_elsewhere (hinv : h.Inv l) {c : Chunk} (hpos : 0 < c.cnt)
    (happart : ∀ c' ∈ l.held, c.Apart c') (hd : h.descs[i]? = some d) :
    inPage c.page d.freeList = 0 := by
  rw [inPage, List.countP_eq_zero]
  intro a ha hpage
  obtain ⟨q, hq, _, hin⟩ := hinv.free_mem hd ha
  exact hinv.page_ne_of_apart hpos happart hq
    (hin.pgNo_eq.symm.trans (of_decide_eq_true hpage))

theorem inPage_append (page : Nat) (blocks blocks' : List Nat) :
    inPage page (blocks ++ blocks') = inPage page blocks + inPage page blocks' :=
  List.countP_append

theorem inPage_blocksOf (d : Desc) (page : Nat) :
    inPage page (d.blocksOf (page * pgsize)) = d.blocksPerArena := by
  rw [inPage, List.countP_eq_length.mpr fun a ha =>
    decide_eq_true (Desc.inPage_of_mem ha).pgNo_eq, Desc.blocksOf, List.length_map,
    List.length_range]

theorem inPage_blocksOf_of_ne (d : Desc) {page page' : Nat} (hne : page' ≠ page) :
    inPage page' (d.blocksOf (page * pgsize)) = 0 := by
  rw [inPage, List.countP_eq_zero]
  intro a ha hpage
  exact hne ((of_decide_eq_true hpage).symm.trans (Desc.inPage_of_mem ha).pgNo_eq)

theorem Desc.blocksPerArena_lt (d : Desc) : d.blocksPerArena < 2 ^ 32 := by
  have hfits := d.fits
  have hle := Nat.le_mul_of_pos_right d.blocksPerArena d.blockSize_pos
  simp only [pgsize, arenaSize] at hfits
  omega

/-- A page becomes an arena, whose blocks are all free. -/
theorem Inv.addArena (hinv : h.Inv l) (h' : Heap) (page : Nat)
    (hd : h.descs[i]? = some d) (hexact : h'.pages.Exact (⟨page, 1, false⟩ :: l.held))
    (hmemory : h'.memory = (h.setHeader (page * pgsize) (some i) d.blocksPerArena).memory)
    (hdescs : h'.descs = (h.setFreeList i (d.freeList ++ d.blocksOf (page * pgsize))).descs) :
    h'.Inv { l with arenas := ⟨page, i⟩ :: l.arenas } ∧ h.Keeps h' l := by
  have happart : ∀ c ∈ l.held, Chunk.Apart ⟨page, 1, false⟩ c :=
    (List.pairwise_cons.mp hexact.apart).1
  have hagree : ∀ ofs n, ofs + n ≤ Chunk.address ⟨page, 1, false⟩ ∨
      Chunk.address ⟨page, 1, false⟩ + arenaSize ≤ ofs → h.memory.Agree h'.memory ofs n := by
    intro ofs n hout
    rw [hmemory]
    exact agree_setHeader hout
  obtain ⟨hkeeps, hheaders⟩ := hinv.keeps_fresh Nat.one_pos happart hagree
  have hlt : i < h.descs.length := (List.getElem?_eq_some_iff.mp hd).1
  have hfew := hinv.few
  have hnone := hinv.free_elsewhere Nat.one_pos happart hd
  refine ⟨⟨hexact, ?_, ?_, ?_, ?_, ?_, hinv.bigBlocks⟩, hkeeps⟩
  · rw [hdescs, length_setFreeList]
    exact hfew
  · intro q hq
    rcases List.mem_cons.mp hq with rfl | hq
    · refine ⟨_, by rw [hdescs, descs_setFreeList_self hd], ?_⟩
      rw [Desc.setFreeList, inPage_append, inPage_blocksOf, hnone, Nat.zero_add]
      have hheader := header_setHeader (h := h) page (some i) d.blocksPerArena
        (fun j hj => by
          obtain rfl := Option.some.inj hj
          omega) (Desc.blocksPerArena_lt d)
      exact hheader.of_agree (hmemory ▸ ByteMemory.Agree.refl _ _ _)
    · obtain ⟨d', hd', hheader⟩ := hinv.arena q hq
      have hkept := hheader.of_agree (hheaders q.chunk (hinv.arena_held hq))
      by_cases hdesc : q.desc = i
      · rw [hdesc] at hd' hkept ⊢
        obtain rfl := Option.some.inj (hd.symm.trans hd')
        refine ⟨_, by rw [hdescs, descs_setFreeList_self hd], ?_⟩
        rw [Desc.setFreeList, inPage_append, inPage_blocksOf_of_ne d
          (hinv.page_ne_of_apart Nat.one_pos happart hq), Nat.add_zero]
        exact hkept
      · exact ⟨d', by rw [hdescs, descs_setFreeList_of_ne hdesc, hd'], hkept⟩
  · exact fun q hq => (hinv.big q hq).of_agree (hheaders q.chunk (hinv.big_held hq))
  · intro j e he
    rw [hdescs] at he
    by_cases hj : j = i
    · subst hj
      rw [descs_setFreeList_self hd] at he
      obtain rfl := Option.some.inj he
      rw [Layout.arenasOf, List.filter_cons_of_pos (by exact decide_eq_true rfl),
        List.flatMap_cons, Desc.setFreeList, List.append_assoc]
      exact (List.perm_append_comm_assoc _ _ _).trans ((hinv.blocks j d hd).append_left _)
    · rw [descs_setFreeList_of_ne hj] at he
      rw [Layout.arenasOf, List.filter_cons_of_neg (by simpa using Ne.symm hj)]
      exact hinv.blocks j e he
  · intro b hb j hhome
    obtain ⟨e, he, hroom⟩ := hinv.rooms b hb j hhome
    rw [hdescs]
    by_cases hj : j = i
    · subst hj
      obtain rfl := Option.some.inj (hd.symm.trans he)
      exact ⟨_, descs_setFreeList_self hd _, hroom⟩
    · exact ⟨e, by rw [descs_setFreeList_of_ne hj, he], hroom⟩

/-- Pages become a big block. -/
theorem Inv.addBig (hinv : h.Inv l) (h' : Heap) {q : Big} (hcnt : q.cnt < 2 ^ 32)
    (hexact : h'.pages.Exact (q.chunk :: l.held))
    (hmemory : h'.memory = (h.setHeader (q.page * pgsize) none q.cnt).memory)
    (hdescs : h'.descs = h.descs) :
    h'.Inv { l with live := q.block :: l.live, bigs := q :: l.bigs } ∧ h.Keeps h' l := by
  have happart : ∀ c ∈ l.held, q.chunk.Apart c := (List.pairwise_cons.mp hexact.apart).1
  have hpos : 0 < q.chunk.cnt := (hexact.inside _ List.mem_cons_self).1
  have hagree : ∀ ofs n, ofs + n ≤ q.chunk.address ∨ q.chunk.address + arenaSize ≤ ofs →
      h.memory.Agree h'.memory ofs n := by
    intro ofs n hout
    rw [hmemory]
    exact agree_setHeader hout
  obtain ⟨hkeeps, hheaders⟩ := hinv.keeps_fresh hpos happart hagree
  have hlive : ∀ j, { l with live := q.block :: l.live, bigs := q :: l.bigs }.liveIn j =
      l.liveIn j := by
    intro j
    rw [Layout.liveIn, List.filter_cons_of_neg (by simp [Big.block]), Layout.liveIn]
  refine ⟨⟨?_, ?_, ?_, ?_, ?_, ?_, ?_⟩, hkeeps⟩
  · refine hexact.perm ?_
    rw [Layout.held, Layout.held, Layout.own, Layout.own, List.map_cons]
    simp only [List.append_assoc, List.cons_append]
    exact List.perm_middle.symm
  · rw [hdescs]
    exact hinv.few
  · intro q' hq'
    obtain ⟨d, hd, hheader⟩ := hinv.arena q' hq'
    exact ⟨d, by rw [hdescs, hd], hheader.of_agree (hheaders q'.chunk (hinv.arena_held hq'))⟩
  · intro q' hq'
    rcases List.mem_cons.mp hq' with rfl | hq'
    · have hheader := header_setHeader (h := h) q'.page none q'.cnt
        (fun j hj => by cases hj) hcnt
      exact hheader.of_agree (hmemory ▸ ByteMemory.Agree.refl _ _ _)
    · exact (hinv.big q' hq').of_agree (hheaders q'.chunk (hinv.big_held hq'))
  · intro j e he
    rw [hlive]
    exact hinv.blocks j e (hdescs ▸ he)
  · intro b hb j hhome
    rw [hdescs]
    rcases List.mem_cons.mp hb with rfl | hb
    · cases hhome
    · exact hinv.rooms b hb j hhome
  · rw [List.filter_cons_of_pos (by exact decide_eq_true rfl), List.map_cons]
    exact hinv.bigBlocks.cons _

/-! `malloc` -/

theorem Inv.addr_ne_zero (hinv : h.Inv l) (hb : b ∈ l.live) : b.addr ≠ 0 := by
  obtain ⟨c, hc, hin⟩ := hinv.within hb
  have hpage := hinv.page_pos hc
  have hlow := hin.low
  simp only [Chunk.address, pgsize, arenaSize] at hlow
  omega

/-- A block has been handed out. -/
structure Granted (h h' : Heap) (l l' : Layout) (b : Block) : Prop where
  inv : h'.Inv l'
  busy : Busy l'
  live : l'.live = b :: l.live
  others : l'.others = l.others
  keeps : h.Keeps h' l

theorem Granted.addr_ne_zero (hgranted : Granted h h' l l' b) : b.addr ≠ 0 :=
  hgranted.inv.addr_ne_zero (hgranted.live ▸ List.mem_cons_self)

/-- How much room there is in the block that a request of `size` bytes gets.  It is
too small when the sum with the size of the header wraps around. -/
structure Room (size room : Nat) : Prop where
  enough : size + arenaSize < 2 ^ 32 → size ≤ room
  short : size < 2 ^ 32 → 2 ^ 32 ≤ size + arenaSize → room < size
  tight : room < size + pgsize

theorem room_pageCount {size : Nat} (hcnt : pageCount size ≠ 0) :
    Room size (pgsize * pageCount size - arenaSize) := by
  constructor <;> simp only [pageCount, pgsize, arenaSize] at * <;> omega

theorem room_blockSize {size : Nat} (hle : size ≤ d.blockSize) : Room size d.blockSize := by
  have hfits := d.fits
  have hmul := Nat.le_mul_of_pos_left d.blockSize d.blocks_pos
  constructor <;> simp only [pgsize, arenaSize] at * <;> omega

theorem pageCount_lt (size : Nat) : pageCount size < 2 ^ 32 := by
  simp only [pageCount, pgsize]
  omega

theorem pageCount_small {size : Nat} (hpos : size ≠ 0) (hle : size ≤ d.blockSize) :
    pageCount size = 1 := by
  have hfits := d.fits
  have hmul := Nat.le_mul_of_pos_left d.blockSize d.blocks_pos
  simp only [pageCount, pgsize, arenaSize] at *
  omega

theorem setPages_self (h : Heap) : { h with pages := h.pages } = h := rfl

theorem Inv.mallocPages_cases (hinv : h.Inv l) (hbusy : Busy l) (size : Nat) :
    (∃ b l' h', h.mallocPages size = some (b.addr, h') ∧ Granted h h' l l' b ∧
      Room size b.room) ∨
    (h.mallocPages size = some (0, h) ∧
      (pageCount size = 0 ∨ h.pages.Full false (pageCount size))) := by
  rw [mallocPages]
  rcases Palloc.pallocGetMultiple_cases hinv.exact noFlags (pageCount size) with
    ⟨pages, s, page, hget, hgot⟩ | ⟨hfull, hget⟩
  · have hcnt : pageCount size ≠ 0 :=
      Nat.ne_of_gt (hgot.exact.inside _ List.mem_cons_self).1
    have hne : pages ≠ 0 := hgot.address ▸ address_ne_zero hgot.positive
    have hmemory : s.memory = h.pages.memory := hgot.memory
    obtain ⟨hinv', hkeeps⟩ := hinv.addBig (({ h with pages := s } : Heap).setHeader
        (page * pgsize) none (pageCount size)) (q := ⟨page, pageCount size⟩)
      (pageCount_lt size) (hgot.exact.setMemory _) (by
        simp only [setHeader, memory_setMemory, memory_setPages, hmemory]
        rfl) rfl
    refine Or.inl ⟨Big.block ⟨page, pageCount size⟩, _, _, ?_,
      ⟨hinv', ?_, rfl, rfl, hkeeps⟩, room_pageCount hcnt⟩
    · rw [hget]
      change (if pages = 0 then _ else _) = _
      rw [if_neg hne, hgot.address]
      rfl
    · intro q hq
      obtain ⟨b, hb, hin⟩ := hbusy q hq
      exact ⟨b, List.mem_cons_of_mem _ hb, hin⟩
  · refine Or.inr ⟨?_, hfull⟩
    rw [hget, if_neg (fun hassert => Bool.false_ne_true hassert.2)]
    rfl

theorem Inv.newArena_cases (hinv : h.Inv l) (hd : h.descs[i]? = some d) :
    (∃ q h', h.newArena i d = some (true, h') ∧ q.desc = i ∧
      h'.Inv { l with arenas := q :: l.arenas } ∧ h.Keeps h' l ∧
      h'.descs[i]? = some (d.setFreeList (d.freeList ++ d.blocksOf q.address))) ∨
    (h.newArena i d = some (false, h) ∧ h.pages.Full false 1) := by
  rw [newArena, pallocGetPage]
  rcases Palloc.pallocGetMultiple_cases hinv.exact noFlags 1 with
    ⟨pages, s, page, hget, hgot⟩ | ⟨hfull, hget⟩
  · have hne : pages ≠ 0 := hgot.address ▸ address_ne_zero hgot.positive
    have hmemory : s.memory = h.pages.memory := hgot.memory
    obtain ⟨hinv', hkeeps⟩ := hinv.addArena ((({ h with pages := s } : Heap).setHeader
        (page * pgsize) (some i) d.blocksPerArena).setFreeList i
          (d.freeList ++ d.blocksOf (page * pgsize))) page hd
      (hgot.exact.setMemory _) (by
        simp only [setHeader, memory_setMemory, memory_setFreeList, memory_setPages, hmemory]
        rfl) rfl
    refine Or.inl ⟨⟨page, i⟩, _, ?_, rfl, hinv', hkeeps, descs_setFreeList_self hd _⟩
    rw [hget]
    change (if pages = 0 then _ else _) = _
    rw [if_neg hne, hgot.address]
  · refine Or.inr ⟨?_, hfull.resolve_left (by decide)⟩
    rw [hget, if_neg (fun hassert => Bool.false_ne_true hassert.2)]
    rfl

theorem Inv.malloc_cases (hinv : h.Inv l) (hbusy : Busy l) (size : Nat) :
    (∃ b l' h', h.malloc size = some (b.addr, h') ∧ Granted h h' l l' b ∧
      Room size b.room) ∨
    (h.malloc size = some (0, h) ∧
      (size = 0 ∨ pageCount size = 0 ∨ h.pages.Full false (pageCount size))) := by
  rw [malloc]
  split
  case isTrue hzero => exact Or.inr ⟨rfl, Or.inl hzero⟩
  case isFalse hsize =>
    cases hfind : h.descs.findIdx? fun d => decide (size ≤ d.blockSize) with
    | none =>
        rcases hinv.mallocPages_cases hbusy size with hsome | ⟨hnone, hfull⟩
        · exact Or.inl hsome
        · exact Or.inr ⟨hnone, Or.inr hfull⟩
    | some i =>
        obtain ⟨hi, hle, _⟩ := List.findIdx?_eq_some_iff_getElem.mp hfind
        have hd := List.getElem?_eq_getElem hi
        generalize h.descs[i] = d at hd hle
        have hroom : size ≤ d.blockSize := of_decide_eq_true hle
        simp only [hd, Option.bind_eq_bind, Option.bind_some]
        cases hfree : d.freeList with
        | cons a rest =>
            obtain ⟨h', hpop, hinv', hkeeps⟩ := hinv.exists_popBlock hd hfree
            refine Or.inl ⟨⟨a, d.blockSize, some i⟩, _, h', ?_, ⟨hinv', ?_, rfl, rfl, hkeeps⟩,
              room_blockSize hroom⟩
            · rw [if_neg (List.cons_ne_nil a rest)]
              exact hpop
            · intro q hq
              obtain ⟨b, hb, hin⟩ := hbusy q hq
              exact ⟨b, List.mem_cons_of_mem _ hb, hin⟩
        | nil =>
            rw [if_pos rfl]
            rcases hinv.newArena_cases hd with
              ⟨q, h₁, hnew, rfl, hinv₁, hkeeps₁, hd₁⟩ | ⟨hnew, hfull⟩
            · rw [hfree, List.nil_append] at hd₁
              obtain ⟨a, rest, hblocks⟩ := List.exists_cons_of_ne_nil
                (show d.blocksOf q.address ≠ [] from fun hnil => by
                  have hlength := congrArg List.length hnil
                  rw [Desc.blocksOf, List.length_map, List.length_range] at hlength
                  exact Nat.ne_of_gt d.blocks_pos hlength)
              obtain ⟨h', hpop, hinv', hkeeps'⟩ := hinv₁.exists_popBlock hd₁ hblocks
              refine Or.inl ⟨⟨a, d.blockSize, some q.desc⟩, _, h', ?_,
                ⟨hinv', ?_, rfl, rfl,
                  hkeeps₁.trans (hkeeps'.mono (fun _ hb => hb) fun _ hc => hc)⟩,
                room_blockSize hroom⟩
              · rw [hnew]
                exact hpop
              · intro q' hq'
                rcases List.mem_cons.mp hq' with rfl | hq'
                · have hin := Desc.inPage_of_mem (hblocks ▸ List.mem_cons_self)
                  exact ⟨_, List.mem_cons_self, rfl, hin.pgNo_eq⟩
                · obtain ⟨b, hb, hin⟩ := hbusy q' hq'
                  exact ⟨b, List.mem_cons_of_mem _ hb, hin⟩
            · refine Or.inr ⟨by rw [hnew]; rfl, Or.inr (Or.inr ?_)⟩
              rw [pageCount_small hsize hroom]
              exact hfull

end Heap

end Malloc

end PintosLabs
