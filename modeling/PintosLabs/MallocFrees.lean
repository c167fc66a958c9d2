/-
Blocks that come back to `malloc`, blocks that are resized, and the pages that
others hold: every call succeeds, and what stays in use is left alone.
-/
import PintosLabs.MallocSteps

namespace PintosLabs

open Exec (pgsize)

namespace Malloc

open Palloc (Chunk apart_addresses pallocFreeMultiple)

namespace Heap

variable {h h' : Heap} {l l' : Layout} {b : Block} {d : Desc} {q : Arena} {i : Nat}

/-! `free` -/

theorem Inv.perm_live (hinv : h.Inv l) {live : List Block} (hperm : l.live.Perm live) :
    h.Inv { l with live := live } where
  exact := hinv.exact
  few := hinv.few
  arena := hinv.arena
  big := hinv.big
  blocks i d hd := by
    refine List.Perm.trans (List.Perm.append_left _ ?_) (hinv.blocks i d hd)
    exact ((hperm.filter _).map _).symm
  rooms b hb := hinv.rooms b (hperm.mem_iff.mpr hb)
  bigBlocks := (hperm.filter _).symm.trans hinv.bigBlocks

/-- The blocks of an arena are free or in use. -/
theorem Inv.inPage_total (hinv : h.Inv l) (hq : q ∈ l.arenas) (hd : h.descs[q.desc]? = some d) :
    inPage q.page d.freeList + inPage q.page (l.liveIn q.desc) = d.blocksPerArena := by
  have hmem : q ∈ l.arenasOf q.desc := List.mem_filter.mpr ⟨hq, decide_eq_true rfl⟩
  have hperm := (hinv.blocks _ d hd).trans ((List.perm_cons_erase hmem).flatMap_right _)
  have hcount := hperm.countP_eq fun a => pgNo a = q.page
  rw [List.countP_append, List.flatMap_cons, List.countP_append] at hcount
  have hrest : inPage q.page (((l.arenasOf q.desc).erase q).flatMap fun q =>
      d.blocksOf q.address) = 0 := by
    rw [inPage, List.countP_eq_zero]
    intro a ha hpage
    obtain ⟨q', hq', ha'⟩ := List.mem_flatMap.mp ha
    have hnodup : (l.arenasOf q.desc).Nodup := hinv.nodup_arenas.of_map.filter _
    obtain ⟨hne, hq'⟩ := (hnodup.mem_erase_iff).mp hq'
    refine hne (hinv.arena_eq_of_page (List.mem_of_mem_filter hq') hq ?_)
    exact (Desc.inPage_of_mem ha').pgNo_eq.symm.trans (of_decide_eq_true hpage)
  have hall := inPage_blocksOf d q.page
  rw [inPage] at hrest hall
  rw [show q.address = q.page * pgsize from rfl, hall, hrest, Nat.add_zero] at hcount
  exact hcount

theorem removeBlocks_eq {blocks freeList rest : List Nat}
    (hperm : freeList.Perm (blocks ++ rest)) :
    ∃ freeList', removeBlocks blocks freeList = some freeList' ∧
      freeList.Perm (blocks ++ freeList') := by
  induction blocks generalizing freeList with
  | nil => exact ⟨freeList, rfl, List.Perm.refl _⟩
  | cons a blocks ih =>
      have hmem : a ∈ freeList := hperm.mem_iff.mpr List.mem_cons_self
      have herase := List.perm_cons_erase hmem
      obtain ⟨freeList', hremove, hperm'⟩ := ih ((herase.symm.trans hperm).cons_inv)
      refine ⟨freeList', ?_, herase.trans (hperm'.cons a)⟩
      rw [removeBlocks, List.foldlM_cons, if_pos hmem]
      exact hremove

/-- Pages that have been filled are nobody's. -/
theorem Inv.keeps_filled (hinv : h'.Inv l) {c : Chunk} (happart : ∀ c' ∈ l.held, c.Apart c')
    (hmemory : h'.memory = h.memory.fill c.address (pgsize * c.cnt) 0xcc) : h.Keeps h' l where
  live b hb := by
    obtain ⟨c', hc', hin⟩ := hinv.within hb
    have haddresses := apart_addresses (happart c' (List.mem_append_left _ hc'))
    have hlow := hin.low
    have hhigh := hin.high
    rw [hmemory]
    exact (ByteMemory.agree_fill (by omega)).symm
  others c' hc' := by
    have haddresses := apart_addresses (happart c' (List.mem_append_right _ hc'))
    rw [hmemory]
    exact (ByteMemory.agree_fill (by omega)).symm

/-- An arena whose blocks are all free is given up. -/
theorem Inv.dropArena (hinv : h.Inv l) (h' : Heap) {arenas : List Arena} (harenas : l.arenas.Perm (q :: arenas))
    (hd : h.descs[q.desc]? = some d) {freeList : List Nat}
    (hfree : d.freeList.Perm (d.blocksOf q.address ++ freeList))
    (hexact : h'.pages.Exact { l with arenas := arenas }.held)
    (hheaders : ∀ c ∈ { l with arenas := arenas }.own,
      h.memory.Agree h'.memory c.address arenaSize)
    (hdescs : h'.descs = (h.setFreeList q.desc freeList).descs) :
    h'.Inv { l with arenas := arenas } where
  exact := hexact
  few := by
    rw [hdescs, length_setFreeList]
    exact hinv.few
  arena q' hq' := by
    have hmem : q' ∈ l.arenas := harenas.mem_iff.mpr (List.mem_cons_of_mem q hq')
    obtain ⟨d', hd', hheader⟩ := hinv.arena q' hmem
    have hkept := hheader.of_agree
      (hheaders q'.chunk (List.mem_append_left _ (List.mem_map_of_mem hq')))
    by_cases hdesc : q'.desc = q.desc
    · rw [hdesc] at hd' hkept ⊢
      obtain rfl := Option.some.inj (hd.symm.trans hd')
      refine ⟨_, by rw [hdescs, descs_setFreeList_self hd], ?_⟩
      have hpage : q'.page ≠ q.page := by
        intro hpage
        have hq : q ∈ l.arenas := harenas.mem_iff.mpr List.mem_cons_self
        have hnodup : (q :: arenas).Nodup := (harenas.nodup_iff).mp hinv.nodup_arenas.of_map
        exact (List.nodup_cons.mp hnodup).1 (hinv.arena_eq_of_page hmem hq hpage ▸ hq')
      have hcount : inPage q'.page d.freeList = inPage q'.page freeList := by
        rw [inPage, hfree.countP_eq]
        have happend := inPage_append q'.page (d.blocksOf q.address) freeList
        rw [show q.address = q.page * pgsize from rfl, inPage_blocksOf_of_ne d hpage,
          Nat.zero_add] at happend
        exact happend
      rw [Desc.setFreeList, ← hcount]
      exact hkept
    · exact ⟨d', by rw [hdescs, descs_setFreeList_of_ne hdesc, hd'], hkept⟩
  big q' hq' := (hinv.big q' hq').of_agree
    (hheaders q'.chunk (List.mem_append_right _ (List.mem_map_of_mem hq')))
  blocks j e he := by
    rw [hdescs] at he
    have hfilter := harenas.filter fun q => q.desc = j
    by_cases hj : j = q.desc
    · subst hj
      rw [descs_setFreeList_self hd] at he
      obtain rfl := Option.some.inj he
      rw [List.filter_cons_of_pos (by exact decide_eq_true rfl)] at hfilter
      have hall := (hinv.blocks _ d hd).trans (hfilter.flatMap_right _)
      rw [List.flatMap_cons] at hall
      have hsplit := (hfree.append_right (l.liveIn q.desc)).symm.trans hall
      rw [List.append_assoc] at hsplit
      exact (List.perm_append_left_iff _).mp hsplit
    · rw [descs_setFreeList_of_ne hj] at he
      rw [List.filter_cons_of_neg (by simpa using Ne.symm hj)] at hfilter
      exact (hinv.blocks j e he).trans (hfilter.flatMap_right _)
  rooms b hb j hhome := by
    obtain ⟨e, he, hroom⟩ := hinv.rooms b hb j hhome
    rw [hdescs]
    by_cases hj : j = q.desc
    · subst hj
      obtain rfl := Option.some.inj (hd.symm.trans he)
      exact ⟨_, descs_setFreeList_self hd _, hroom⟩
    · exact ⟨e, by rw [descs_setFreeList_of_ne hj, he], hroom⟩
  bigBlocks := hinv.bigBlocks

/-- A big block and its pages are given up. -/
theorem Inv.dropBig (hinv : h.Inv l) {q : Big} {bigs : List Big} {live : List Block}
    (hbigs : l.bigs.Perm (q :: bigs)) (hlive : l.live.Perm (q.block :: live))
    (hexact : h'.pages.Exact { l with live := live, bigs := bigs }.held)
    (hheaders : ∀ c ∈ { l with live := live, bigs := bigs }.own,
      h.memory.Agree h'.memory c.address arenaSize)
    (hdescs : h'.descs = h.descs) : h'.Inv { l with live := live, bigs := bigs } where
  exact := hexact
  few := hdescs ▸ hinv.few
  arena q' hq' := by
    obtain ⟨d, hd, hheader⟩ := hinv.arena q' hq'
    exact ⟨d, by rw [hdescs, hd], hheader.of_agree
      (hheaders q'.chunk (List.mem_append_left _ (List.mem_map_of_mem hq')))⟩
  big q' hq' := (hinv.big q' (hbigs.mem_iff.mpr (List.mem_cons_of_mem q hq'))).of_agree
    (hheaders q'.chunk (List.mem_append_right _ (List.mem_map_of_mem hq')))
  blocks j e he := by
    have hfilter := (hlive.filter fun b => b.home = some j).map Block.addr
    rw [List.filter_cons_of_neg (by simp [Big.block])] at hfilter
    exact (hfilter.symm.append_left _).trans (hinv.blocks j e (hdescs ▸ he))
  rooms b hb j hhome := by
    rw [hdescs]
    exact hinv.rooms b (hlive.mem_iff.mpr (List.mem_cons_of_mem _ hb)) j hhome
  bigBlocks := by
    have hfilter := hlive.filter fun b => b.home = none
    rw [List.filter_cons_of_pos (by exact decide_eq_true rfl)] at hfilter
    have hall := hfilter.symm.trans (hinv.bigBlocks.trans (hbigs.map _))
    rw [List.map_cons] at hall
    exact hall.cons_inv

/-- A block has come back. -/
structure Freed (h h' : Heap) (l l' : Layout) (rest : List Block) : Prop where
  inv : h'.Inv l'
  busy : Busy l'
  live : l'.live = rest
  others : l'.others = l.others
  keeps : h.Keeps h' l'

theorem Inv.apart_of_perm (hinv : h.Inv l) {rest : List Block} (hlive : l.live.Perm (b :: rest))
    {b' : Block} (hb' : b' ∈ rest) : ApartBlocks b b' :=
  (List.pairwise_cons.mp (hlive.pairwise hinv.pairwise_live Or.symm)).1 b' hb'

/-- Filling a block and changing the header in front of it leaves alone what else is
in use. -/
theorem Inv.keeps_block (hinv : h.Inv l) {rest : List Block} (hlive : l.live.Perm (b :: rest))
    {c : Chunk} (hc : c ∈ l.own) (hin : In b c)
    (hagree : ∀ ofs n, (ofs + n ≤ c.address ∨ c.address + arenaSize ≤ ofs) →
      (ofs + n ≤ b.addr ∨ b.addr + b.room ≤ ofs) → h.memory.Agree h'.memory ofs n) :
    h.Keeps h' { l with live := rest } ∧
      ∀ c' ∈ l.own, c' ≠ c → h.memory.Agree h'.memory c'.address arenaSize := by
  have hlow := hin.low
  have hhigh := hin.high
  have hmem : ∀ b' ∈ rest, b' ∈ l.live := fun b' hb' =>
    hlive.mem_iff.mpr (List.mem_cons_of_mem b hb')
  refine ⟨⟨fun b' hb' => ?_, fun c' hc' => ?_⟩, fun c' hc' hne => ?_⟩
  · refine hagree _ _ (hinv.live_off_header (hmem b' hb') hc) ?_
    exact Or.symm (hinv.apart_of_perm hlive hb')
  · have haddresses := apart_addresses (hinv.others_apart hc hc')
    refine hagree _ _ ?_ ?_
    · have hroom := hinv.room_pos (hlive.mem_iff.mpr List.mem_cons_self)
      omega
    · omega
  · have haddresses := apart_addresses (hinv.exact.apart_of_ne (List.mem_append_left _ hc')
      (List.mem_append_left _ hc) hne)
    have hpos := hinv.own_inside hc'
    simp only [pgsize, arenaSize] at haddresses hlow hhigh
    refine hagree _ _ ?_ ?_
    · simp only [arenaSize]
      omega
    · simp only [arenaSize]
      omega

theorem Inv.liveIn_perm {rest : List Block} (hlive : l.live.Perm (b :: rest))
    (hhome : b.home = some i) :
    (l.liveIn i).Perm (b.addr :: { l with live := rest }.liveIn i) := by
  have hfilter := (hlive.filter fun b => b.home = some i).map Block.addr
  rwa [List.filter_cons_of_pos (by exact decide_eq_true hhome), List.map_cons] at hfilter

theorem header_pushBlock {cnt : Nat} (hheader : h.Header q.page (some q.desc) cnt)
    (hin : d.InPage q.page b.addr) :
    (h.pushBlock b.addr q.desc d).Header q.page (some q.desc) cnt :=
  hheader.of_agree (ByteMemory.agree_fill (Or.inl hin.low)).symm

/-- A block of an arena is put on the free list and counted in the header. -/
theorem Inv.putBack (hinv : h.Inv l) {rest : List Block} (hlive : l.live.Perm (b :: rest))
    (hq : q ∈ l.arenas) (hd : h.descs[q.desc]? = some d) (hhome : b.home = some q.desc)
    (hroom : b.room = d.blockSize) (hin : d.InPage q.page b.addr) {cnt : BitVec 32}
    (hcnt : cnt.toNat = inPage q.page d.freeList + 1) :
    ((h.pushBlock b.addr q.desc d).setFreeCnt q.address cnt).Inv { l with live := rest } ∧
    h.Keeps ((h.pushBlock b.addr q.desc d).setFreeCnt q.address cnt) { l with live := rest } := by
  obtain ⟨d', hd', hheader⟩ := hinv.arena q hq
  obtain rfl := Option.some.inj (hd.symm.trans hd')
  have hagree : ∀ ofs n, (ofs + n ≤ q.chunk.address ∨ q.chunk.address + arenaSize ≤ ofs) →
      (ofs + n ≤ b.addr ∨ b.addr + b.room ≤ ofs) →
      h.memory.Agree ((h.pushBlock b.addr q.desc d).setFreeCnt q.address cnt).memory ofs n := by
    intro ofs n hout hblock
    rw [hroom] at hblock
    have hfill : h.memory.Agree (h.pushBlock b.addr q.desc d).memory ofs n :=
      (ByteMemory.agree_fill hblock).symm
    exact hfill.trans (agree_setFreeCnt hout)
  obtain ⟨hkeeps, hheaders⟩ := hinv.keeps_block hlive (hinv.arena_held hq)
    (In.of_inPage hin hroom) hagree
  refine ⟨hinv.reblock hq hd ?_ ?_ ?_ ?_ rfl ?_ ?_ hheaders, hkeeps⟩
  · have hperm := Inv.liveIn_perm hlive hhome
    exact List.perm_middle.symm.trans (hperm.symm.append_left d.freeList)
  · intro home hne
    have hfilter := hlive.filter fun b => b.home = home
    rw [List.filter_cons_of_neg] at hfilter
    · exact hfilter.symm
    · rw [decide_eq_true_eq, hhome]
      exact Ne.symm hne
  · intro b' hb' hhome'
    obtain ⟨d', hd', hroom'⟩ := hinv.rooms b' (hlive.mem_iff.mpr (List.mem_cons_of_mem b hb')) _
      hhome'
    obtain rfl := Option.some.inj (hd.symm.trans hd')
    exact hroom'
  · intro page hne
    rw [inPage, inPage, List.countP_cons_of_neg]
    rw [decide_eq_true_eq, hin.pgNo_eq]
    exact Ne.symm hne
  · exact (hinv.exact.setMemory _).setMemory _
  · have hcount : inPage q.page (b.addr :: d.freeList) = cnt.toNat := by
      rw [hcnt, inPage, List.countP_cons_of_pos (by exact decide_eq_true hin.pgNo_eq), inPage]
    rw [hcount]
    exact header_setFreeCnt (header_pushBlock hheader hin) cnt

theorem Inv.exists_freeBlock (hinv : h.Inv l) (hbusy : Busy l) {rest : List Block}
    (hlive : l.live.Perm (b :: rest)) (hq : q ∈ l.arenas) (hd : h.descs[q.desc]? = some d)
    (hhome : b.home = some q.desc) (hroom : b.room = d.blockSize)
    (hin : d.InPage q.page b.addr) :
    ∃ l' h', h.freeBlock b.addr q.address q.desc d = some h' ∧ Freed h h' l l' rest := by
  obtain ⟨d', hd', hheader⟩ := hinv.arena q hq
  obtain rfl := Option.some.inj (hd.symm.trans hd')
  have htotal := hinv.inPage_total hq hd
  have hliveIn := Inv.liveIn_perm hlive hhome
  have hcountLive : inPage q.page (l.liveIn q.desc) =
      inPage q.page ({ l with live := rest }.liveIn q.desc) + 1 := by
    rw [inPage, hliveIn.countP_eq,
      List.countP_cons_of_pos (by exact decide_eq_true hin.pgNo_eq), inPage]
  have hlt := Desc.blocksPerArena_lt d
  have hcnt : ((h.pushBlock b.addr q.desc d).freeCnt q.address + 1).toNat =
      inPage q.page d.freeList + 1 := by
    rw [BitVec.toNat_add, show q.address = q.page * pgsize from rfl,
      (header_pushBlock hheader hin).freeCnt]
    exact Nat.mod_eq_of_lt (by
      change inPage q.page d.freeList + 1 < 2 ^ 32
      omega)
  obtain ⟨hinv₂, hkeeps₂⟩ := hinv.putBack hlive hq hd hhome hroom hin hcnt
  have hothers : ∀ q' ∈ l.arenas, q' ≠ q → ∃ b' ∈ rest, b'.home = some q'.desc ∧
      pgNo b'.addr = q'.page := by
    intro q' hq' hne
    obtain ⟨b', hb', hhome', hpage'⟩ := hbusy q' hq'
    rcases List.mem_cons.mp (hlive.mem_iff.mp hb') with rfl | hb'
    · exact absurd (hinv.arena_eq_of_page hq' hq (hpage'.symm.trans hin.pgNo_eq)) hne
    · exact ⟨b', hb', hhome', hpage'⟩
  rw [freeBlock]
  generalize (h.pushBlock b.addr q.desc d).freeCnt q.address + 1 = cnt at hcnt hinv₂ hkeeps₂ ⊢
  have hd₂ : ((h.pushBlock b.addr q.desc d).setFreeCnt q.address cnt).descs[q.desc]? =
      some (d.setFreeList (b.addr :: d.freeList)) := descs_setFreeList_self hd _
  have hnodup₂ := hinv₂.nodup_blocks hd₂
  split
  case isTrue hall =>
    have hnone : inPage q.page ({ l with live := rest }.liveIn q.desc) = 0 := by omega
    have heq : cnt.toNat = d.blocksPerArena := by omega
    rw [if_pos heq]
    have hmem : ∀ a ∈ d.blocksOf q.address, a ∈ b.addr :: d.freeList := by
      intro a ha
      have hin' := Desc.inPage_of_mem ha
      have hblock := (hinv₂.blocks _ _ hd₂).mem_iff.mpr
        (List.mem_flatMap.mpr ⟨q, List.mem_filter.mpr ⟨hq, decide_eq_true rfl⟩, ha⟩)
      rcases List.mem_append.mp hblock with hfree | hin''
      · exact hfree
      · exact absurd (decide_eq_true hin'.pgNo_eq) (List.countP_eq_zero.mp hnone a hin'')
    obtain ⟨blocks, hblocks, hsub⟩ := (d.nodup_blocksOf _).subperm hmem
    obtain ⟨others, hperm⟩ := hsub.exists_perm_append
    obtain ⟨freeList, hremove, hperm'⟩ :=
      removeBlocks_eq (hperm.trans (hblocks.append_right others))
    have harenas : l.arenas.Perm (q :: l.arenas.erase q) := List.perm_cons_erase hq
    have hheld : l.held.Perm (q.chunk ::
        { l with live := rest, arenas := l.arenas.erase q }.held) :=
      ((harenas.map Arena.chunk).append_right _).append_right _
    obtain ⟨s, hfreed, hexact, _, hmemory⟩ :=
      Palloc.exists_pallocFreeMultiple (hinv₂.exact.perm hheld)
    have happart := (List.pairwise_cons.mp (hinv₂.exact.perm hheld).apart).1
    have hinv₃ := hinv₂.dropArena (Heap.setFreeList
        { (h.pushBlock b.addr q.desc d).setFreeCnt q.address cnt with pages := s }
        q.desc freeList) harenas hd₂ hperm' hexact (by
      intro c hc
      have haddresses := apart_addresses (happart c (List.mem_append_left _ hc))
      have hpos := hinv.own_inside (hinv.arena_held hq)
      have hposc := (hexact.inside c (List.mem_append_left _ hc)).1
      refine ByteMemory.Agree.symm ?_
      change s.memory.Agree _ _ _
      rw [hmemory]
      refine ByteMemory.agree_fill ?_
      simp only [pgsize, arenaSize] at *
      omega) rfl
    refine ⟨_, _, ?_, hinv₃, ?_, rfl, rfl, ?_⟩
    · rw [hremove]
      change (Palloc.pallocFreePage q.address _).bind _ = _
      rw [show Palloc.pallocFreePage q.address
        ((h.pushBlock b.addr q.desc d).setFreeCnt q.address cnt).pages = some s from hfreed]
      rfl
    · intro q' hq'
      have hnodup : l.arenas.Nodup := hinv.nodup_arenas.of_map
      obtain ⟨hne, hq'⟩ := hnodup.mem_erase_iff.mp hq'
      exact hothers q' hq' hne
    · refine Keeps.trans (hkeeps₂.mono (fun _ hb => hb) fun _ hc => hc) ?_
      exact hinv₃.keeps_filled happart hmemory
  case isFalse hsome =>
    refine ⟨_, _, rfl, hinv₂, ?_, rfl, rfl, hkeeps₂⟩
    intro q' hq'
    by_cases hne : q' = q
    · subst hne
      have hpos : 0 < inPage q'.page ({ l with live := rest }.liveIn q'.desc) := by omega
      obtain ⟨a, ha, hpage⟩ := List.countP_pos_iff.mp hpos
      obtain ⟨b', hb', rfl⟩ := List.mem_map.mp ha
      obtain ⟨hb', hhome'⟩ := List.mem_filter.mp hb'
      exact ⟨b', hb', of_decide_eq_true hhome', of_decide_eq_true hpage⟩
    · exact hothers q' hq' hne

/-- A big block gives its pages back. -/
theorem Inv.exists_freePages (hinv : h.Inv l) (hbusy : Busy l) {q : Big} {rest : List Block}
    (hlive : l.live.Perm (q.block :: rest)) (hq : q ∈ l.bigs) :
    ∃ l' s, pallocFreeMultiple (q.page * pgsize) q.cnt h.pages = some s ∧
      Freed h { h with pages := s } l l' rest := by
  have hbigs : l.bigs.Perm (q :: l.bigs.erase q) := List.perm_cons_erase hq
  have hheld : l.held.Perm (q.chunk ::
      { l with live := rest, bigs := l.bigs.erase q }.held) := by
    refine (((hbigs.map Big.chunk).append_left _).append_right _).trans ?_
    rw [List.map_cons]
    exact (List.perm_middle.append_right _)
  obtain ⟨s, hfreed, hexact, _, hmemory⟩ :=
    Palloc.exists_pallocFreeMultiple (hinv.exact.perm hheld)
  have happart := (List.pairwise_cons.mp (hinv.exact.perm hheld).apart).1
  have hinv' : ({ h with pages := s } : Heap).Inv { l with
      live := rest, bigs := l.bigs.erase q } := by
    refine hinv.dropBig hbigs hlive hexact (fun c hc => ?_) rfl
    have haddresses := apart_addresses (happart c (List.mem_append_left _ hc))
    have hposc := (hexact.inside c (List.mem_append_left _ hc)).1
    refine ByteMemory.Agree.symm ?_
    change s.memory.Agree _ _ _
    rw [hmemory]
    refine ByteMemory.agree_fill ?_
    simp only [pgsize, arenaSize] at *
    omega
  refine ⟨_, s, hfreed, hinv', ?_, rfl, rfl, hinv'.keeps_filled happart hmemory⟩
  intro q' hq'
  obtain ⟨b, hb, hhome, hpage⟩ := hbusy q' hq'
  rcases List.mem_cons.mp (hlive.mem_iff.mp hb) with rfl | hb
  · cases hhome
  · exact ⟨b, hb, hhome, hpage⟩

/-- A block in use can be freed. -/
theorem Inv.exists_free (hinv : h.Inv l) (hbusy : Busy l) {rest : List Block}
    (hlive : l.live.Perm (b :: rest)) :
    ∃ l' h', h.free b.addr = some h' ∧ Freed h h' l l' rest := by
  have hb : b ∈ l.live := hlive.mem_iff.mpr List.mem_cons_self
  rw [free, if_neg (hinv.addr_ne_zero hb)]
  cases hhome : b.home with
  | some i =>
      obtain ⟨d, hd, hroom, q, hq, rfl, hin⟩ := hinv.live_mem hb hhome
      obtain ⟨d', hd', hheader⟩ := hinv.arena q hq
      have harena := blockToArena_of_inPage hheader hd hin (hinv.page_pos (hinv.arena_held hq))
      obtain ⟨l', h', hfree, hfreed⟩ := hinv.exists_freeBlock hbusy hlive hq hd hhome hroom hin
      refine ⟨l', h', ?_, hfreed⟩
      rw [harena]
      simp only [Option.bind_eq_bind, Option.bind_some,
        show h.desc q.address = some q.desc from hheader.desc]
      change (h.descs[q.desc]?).bind _ = _
      rw [hd]
      exact hfree
  | none =>
      obtain ⟨q, hq, rfl⟩ := hinv.big_mem hb hhome
      have hheader := hinv.big q hq
      obtain ⟨l', s, hfree, hfreed⟩ := hinv.exists_freePages hbusy hlive hq
      refine ⟨l', _, ?_, hfreed⟩
      rw [show h.blockToArena q.block.addr = some (q.page * pgsize) from
        blockToArena_big hheader (hinv.page_pos (hinv.big_held hq))]
      simp only [Option.bind_eq_bind, Option.bind_some, hheader.desc]
      change (pallocFreeMultiple _ (h.freeCnt (q.page * pgsize)).toNat _).bind _ = _
      rw [hheader.freeCnt, hfree]
      rfl

/-! `block_size`, `calloc` and `realloc` -/

theorem Inv.blockSize_eq (hinv : h.Inv l) (hb : b ∈ l.live) : h.blockSize b.addr = some b.room := by
  rw [blockSize]
  cases hhome : b.home with
  | some i =>
      obtain ⟨d, hd, hroom, q, hq, rfl, hin⟩ := hinv.live_mem hb hhome
      obtain ⟨d', hd', hheader⟩ := hinv.arena q hq
      rw [blockToArena_of_inPage hheader hd hin (hinv.page_pos (hinv.arena_held hq))]
      simp only [Option.bind_eq_bind, Option.bind_some,
        show h.desc q.address = some q.desc from hheader.desc]
      change (h.descs[q.desc]?).bind _ = _
      rw [hd, hroom]
      rfl
  | none =>
      obtain ⟨q, hq, rfl⟩ := hinv.big_mem hb hhome
      have hheader := hinv.big q hq
      have hofs : pgOfs q.block.addr = arenaSize := by
        simp only [pgOfs, Big.block, pgsize, arenaSize]
        omega
      rw [show h.blockToArena q.block.addr = some (q.page * pgsize) from
        blockToArena_big hheader (hinv.page_pos (hinv.big_held hq))]
      simp only [Option.bind_eq_bind, Option.bind_some, hheader.desc]
      change some (pgsize * (h.freeCnt (q.page * pgsize)).toNat - pgOfs q.block.addr) = _
      rw [hheader.freeCnt, hofs]
      rfl

/-- Writing inside of a block leaves the others alone. -/
theorem Inv.write (hinv : h.Inv l) {rest : List Block} (hlive : l.live.Perm (b :: rest))
    {m : ByteMemory} (hagree : ∀ ofs n, ofs + n ≤ b.addr ∨ b.addr + b.room ≤ ofs →
      h.memory.Agree m ofs n) :
    (h.setMemory m).Inv l ∧ h.Keeps (h.setMemory m) { l with live := rest } := by
  have hb : b ∈ l.live := hlive.mem_iff.mpr List.mem_cons_self
  obtain ⟨c, hc, hin⟩ := hinv.within hb
  have hheaders : ∀ c' ∈ l.own, h.memory.Agree (h.setMemory m).memory c'.address arenaSize := by
    intro c' hc'
    exact hagree _ _ (Or.symm (hinv.live_off_header hb hc'))
  refine ⟨⟨hinv.exact.setMemory m, hinv.few, ?_, ?_, hinv.blocks, hinv.rooms, hinv.bigBlocks⟩,
    fun b' hb' => ?_, fun c' hc' => ?_⟩
  · intro q hq
    obtain ⟨d, hd, hheader⟩ := hinv.arena q hq
    exact ⟨d, hd, hheader.of_agree (hheaders q.chunk (hinv.arena_held hq))⟩
  · exact fun q hq => (hinv.big q hq).of_agree (hheaders q.chunk (hinv.big_held hq))
  · exact hagree _ _ (Or.symm (hinv.apart_of_perm hlive hb'))
  · have haddresses := apart_addresses (hinv.others_apart hc hc')
    have hlow := hin.low
    have hhigh := hin.high
    exact hagree _ _ (by omega)

/-- A block that has just been handed out is written to. -/
theorem Granted.write {m : ByteMemory} (hgranted : Granted h h' l l' b)
    (hagree : ∀ ofs n, ofs + n ≤ b.addr ∨ b.addr + b.room ≤ ofs →
      h'.memory.Agree m ofs n) : Granted h (h'.setMemory m) l l' b := by
  have hlive : l'.live.Perm (b :: l.live) := hgranted.live ▸ List.Perm.refl _
  obtain ⟨hinv, hkeeps⟩ := hgranted.inv.write hlive hagree
  exact ⟨hinv, hgranted.busy, hgranted.live, hgranted.others,
    hgranted.keeps.trans (hkeeps.mono (fun _ hb => hb) fun _ hc => hgranted.others ▸ hc)⟩

theorem Inv.calloc_cases (hinv : h.Inv l) (hbusy : Busy l) {m n : Nat}
    (hsize : m * n + arenaSize < 2 ^ 32) :
    (∃ b l' h', h.calloc m n = some (b.addr, h') ∧ Granted h h' l l' b ∧ m * n ≤ b.room ∧
      ∀ k < m * n, h'.memory (b.addr + k) = 0) ∨ h.calloc m n = some (0, h) := by
  have hmod : m * n % 2 ^ 32 = m * n :=
    Nat.mod_eq_of_lt (Nat.lt_of_le_of_lt (Nat.le_add_right _ _) hsize)
  rw [calloc, hmod]
  by_cases hsmall : m * n < m ∨ m * n < n
  · exact Or.inr (if_pos hsmall)
  · rw [if_neg hsmall]
    rcases hinv.malloc_cases hbusy (m * n) with
      ⟨b, l', h', hmalloc, hgranted, hroom⟩ | ⟨hmalloc, _⟩
    · refine Or.inl ⟨b, l', _, ?_, hgranted.write (m := h'.memory.fill b.addr (m * n) 0)
        fun ofs n' hout => ?_, hroom.enough hsize, fun k hk => ?_⟩
      · rw [hmalloc]
        change some (b.addr, if b.addr = 0 then h' else _) = _
        rw [if_neg hgranted.addr_ne_zero]
      · have hle := hroom.enough hsize
        exact (ByteMemory.agree_fill (by omega)).symm
      · exact ByteMemory.fill_inside (Nat.le_add_right _ _) (Nat.add_lt_add_left hk _)
    · refine Or.inr ?_
      rw [hmalloc]
      rfl

/-- Copying what a block holds into one that has just been handed out. -/
theorem Inv.realloc_cases (hinv : h.Inv l) (hbusy : Busy l) {rest : List Block}
    (hlive : l.live.Perm (b :: rest)) {newSize : Nat} (hpos : newSize ≠ 0)
    (hsize : newSize + arenaSize < 2 ^ 32) :
    (∃ new l' h', h.realloc b.addr newSize = some (new.addr, h') ∧ h'.Inv l' ∧ Busy l' ∧
      l'.live = new :: rest ∧ l'.others = l.others ∧ newSize ≤ new.room ∧
      h.Keeps h' { l with live := rest } ∧
      ∀ k < min newSize b.room, h'.memory (new.addr + k) = h.memory (b.addr + k)) ∨
    (h.realloc b.addr newSize = some (0, h) ∧
      (newSize = 0 ∨ pageCount newSize = 0 ∨ h.pages.Full false (pageCount newSize))) := by
  have hb : b ∈ l.live := hlive.mem_iff.mpr List.mem_cons_self
  have haddr := hinv.addr_ne_zero hb
  rw [realloc, if_neg hpos]
  rcases hinv.malloc_cases hbusy newSize with
    ⟨new, l₁, h₁, hmalloc, hgranted, hroom⟩ | ⟨hmalloc, hfull⟩
  · have hnew := hgranted.addr_ne_zero
    have hlive₁ : l₁.live.Perm (b :: new :: rest) := by
      rw [hgranted.live]
      exact (hlive.cons new).trans (List.Perm.swap b new rest)
    have hlive₁' : l₁.live.Perm (new :: b :: rest) := hlive₁.trans (List.Perm.swap new b rest)
    have hb₁ : b ∈ l₁.live := hlive₁.mem_iff.mpr List.mem_cons_self
    have hblockSize := hgranted.inv.blockSize_eq hb₁
    have hle : min newSize b.room ≤ new.room := le_trans (Nat.min_le_left _ _) (hroom.enough hsize)
    obtain ⟨hinv₂, hkeeps₂⟩ := hgranted.inv.write hlive₁'
      (m := h₁.memory.copy new.addr b.addr (min newSize b.room)) (fun ofs n hout =>
        (ByteMemory.agree_copy (by omega)).symm)
    obtain ⟨l', h', hfree, hfreed⟩ := hinv₂.exists_free hgranted.busy hlive₁
    refine Or.inl ⟨new, l', h', ?_, hfreed.inv, hfreed.busy, hfreed.live,
      hfreed.others.trans hgranted.others, hroom.enough hsize, ?_, ?_⟩
    · rw [hmalloc]
      change (if b.addr ≠ 0 ∧ new.addr ≠ 0 then _ else _) = _
      rw [if_pos ⟨haddr, hnew⟩]
      change (h₁.blockSize b.addr).bind _ = _
      rw [hblockSize]
      change ((h₁.setMemory _).free b.addr).bind _ = _
      rw [hfree]
      rfl
    · refine ⟨fun b' hb' => ?_, fun c hc => ?_⟩
      · refine (hgranted.keeps.live b' (hlive.mem_iff.mpr (List.mem_cons_of_mem b hb'))).trans ?_
        refine (hkeeps₂.live b' (List.mem_cons_of_mem b hb')).trans ?_
        exact hfreed.keeps.live b' (hfreed.live ▸ List.mem_cons_of_mem new hb')
      · refine (hgranted.keeps.others c hc).trans ?_
        refine (hkeeps₂.others c (hgranted.others ▸ hc)).trans ?_
        exact hfreed.keeps.others c (hfreed.others.trans hgranted.others ▸ hc)
    · intro k hk
      have hkept := hfreed.keeps.live new (hfreed.live ▸ List.mem_cons_self) (new.addr + k)
        (Nat.le_add_right _ _) (by omega)
      have hold := hgranted.keeps.live b hb (b.addr + k) (Nat.le_add_right _ _) (by omega)
      rw [← hkept, memory_setMemory, ByteMemory.copy_inside hk, hold]
  · refine Or.inr ⟨?_, hfull⟩
    rw [hmalloc]
    change (if b.addr ≠ 0 ∧ 0 ≠ 0 then _ else _) = _
    rw [if_neg (fun hne => hne.2 rfl)]

/-! The pages of others. -/

/-- Pages that nobody holds may change. -/
theorem Inv.keeps_elsewhere (hinv : h.Inv l) {c : Chunk} (happart : ∀ c' ∈ l.held, c.Apart c')
    (hagree : ∀ ofs n, ofs + n ≤ c.address ∨ c.address + pgsize * c.cnt ≤ ofs →
      h.memory.Agree h'.memory ofs n) :
    h.Keeps h' l ∧ ∀ c' ∈ l.own, h.memory.Agree h'.memory c'.address arenaSize := by
  refine ⟨⟨fun b hb => ?_, fun c' hc' => ?_⟩, fun c' hc' => ?_⟩
  · obtain ⟨c', hc', hin⟩ := hinv.within hb
    have haddresses := apart_addresses (happart c' (List.mem_append_left _ hc'))
    have hlow := hin.low
    have hhigh := hin.high
    exact hagree _ _ (by omega)
  · exact hagree _ _ (Or.symm (apart_addresses (happart c' (List.mem_append_right _ hc'))))
  · have hpos' := hinv.own_inside hc'
    have haddresses := apart_addresses (happart c' (List.mem_append_left _ hc'))
    simp only [pgsize] at hagree haddresses
    exact hagree _ _ (by rw [arenaSize]; omega)

/-- The heap does not notice what changes in the pages of others. -/
theorem Inv.setOthers (hinv : h.Inv l) {others : List Chunk}
    (hexact : h'.pages.Exact { l with others := others }.held)
    (hheaders : ∀ c ∈ l.own, h.memory.Agree h'.memory c.address arenaSize)
    (hdescs : h'.descs = h.descs) : h'.Inv { l with others := others } where
  exact := hexact
  few := hdescs ▸ hinv.few
  arena q hq := by
    obtain ⟨d, hd, hheader⟩ := hinv.arena q hq
    exact ⟨d, by rw [hdescs, hd], hheader.of_agree (hheaders q.chunk (hinv.arena_held hq))⟩
  big q hq := (hinv.big q hq).of_agree (hheaders q.chunk (hinv.big_held hq))
  blocks j e he := hinv.blocks j e (hdescs ▸ he)
  rooms b hb j hhome := by
    rw [hdescs]
    exact hinv.rooms b hb j hhome
  bigBlocks := hinv.bigBlocks

theorem Inv.addOther (hinv : h.Inv l) (h' : Heap) {c : Chunk} (hexact : h'.pages.Exact (c :: l.held))
    (hagree : ∀ ofs n, ofs + n ≤ c.address ∨ c.address + pgsize * c.cnt ≤ ofs →
      h.memory.Agree h'.memory ofs n) (hdescs : h'.descs = h.descs) :
    h'.Inv { l with others := c :: l.others } ∧ h.Keeps h' l := by
  obtain ⟨hkeeps, hheaders⟩ :=
    hinv.keeps_elsewhere (List.pairwise_cons.mp hexact.apart).1 hagree
  exact ⟨hinv.setOthers (hexact.perm List.perm_middle.symm) hheaders hdescs, hkeeps⟩

theorem Inv.exists_dropOther (hinv : h.Inv l) {c : Chunk} {others : List Chunk}
    (hothers : l.others.Perm (c :: others)) :
    ∃ s, pallocFreeMultiple c.address c.cnt h.pages = some s ∧
      ({ h with pages := s } : Heap).Inv { l with others := others } ∧
      h.Keeps { h with pages := s } { l with others := others } := by
  have hheld : l.held.Perm (c :: { l with others := others }.held) :=
    (hothers.append_left _).trans List.perm_middle
  obtain ⟨s, hfreed, hexact, _, hmemory⟩ :=
    Palloc.exists_pallocFreeMultiple (hinv.exact.perm hheld)
  have happart := (List.pairwise_cons.mp (hinv.exact.perm hheld).apart).1
  have hheaders : ∀ c' ∈ l.own,
      h.memory.Agree ({ h with pages := s } : Heap).memory c'.address arenaSize := by
    intro c' hc'
    have haddresses := apart_addresses (happart c' (List.mem_append_left _ hc'))
    have hpos := hinv.own_inside hc'
    refine ByteMemory.Agree.symm ?_
    change s.memory.Agree _ _ _
    rw [hmemory]
    refine ByteMemory.agree_fill ?_
    simp only [pgsize, arenaSize] at *
    omega
  have hinv' := hinv.setOthers hexact hheaders rfl
  exact ⟨s, hfreed, hinv', hinv'.keeps_filled happart hmemory⟩

/-- Writing into the pages of others. -/
theorem Inv.writeOther (hinv : h.Inv l) {c : Chunk} {others : List Chunk}
    (hothers : l.others.Perm (c :: others)) {m : ByteMemory}
    (hagree : ∀ ofs n, ofs + n ≤ c.address ∨ c.address + pgsize * c.cnt ≤ ofs →
      h.memory.Agree m ofs n) :
    (h.setMemory m).Inv l ∧ h.Keeps (h.setMemory m) { l with others := others } := by
  have hheld : l.held.Perm (c :: { l with others := others }.held) :=
    (hothers.append_left _).trans List.perm_middle
  have happart := (List.pairwise_cons.mp (hinv.exact.perm hheld).apart).1
  have hheaders : ∀ c' ∈ l.own,
      h.memory.Agree (h.setMemory m).memory c'.address arenaSize := by
    intro c' hc'
    have haddresses := apart_addresses (happart c' (List.mem_append_left _ hc'))
    have hpos := hinv.own_inside hc'
    simp only [pgsize] at hagree haddresses
    exact hagree _ _ (by rw [arenaSize]; omega)
  refine ⟨hinv.setOthers (hinv.exact.setMemory m) hheaders rfl,
    fun b hb => ?_, fun c' hc' => ?_⟩
  · obtain ⟨c', hc', hin⟩ := hinv.within hb
    have haddresses := apart_addresses (happart c' (List.mem_append_left _ hc'))
    have hlow := hin.low
    have hhigh := hin.high
    exact hagree _ _ (by omega)
  · exact hagree _ _ (Or.symm (apart_addresses (happart c' (List.mem_append_right _ hc'))))

/-! The heap when the kernel has started. -/

theorem initLoop_spec {room blockSize : Nat} {hpos : 0 < blockSize} {descs descs' : List Desc}
    (hinit : initLoop room blockSize hpos descs = some descs')
    (hfree : ∀ d ∈ descs, d.freeList = []) :
    (∀ d ∈ descs', d.freeList = []) ∧ descs'.length ≤ descs.length + room := by
  induction room generalizing blockSize descs with
  | zero =>
      rw [initLoop] at hinit
      split at hinit
      case isTrue => cases hinit
      case isFalse =>
        obtain rfl := Option.some.inj hinit
        exact ⟨hfree, Nat.le_refl _⟩
  | succ room ih =>
      rw [initLoop] at hinit
      split at hinit
      case isTrue hsize =>
        obtain ⟨hfree', hlength⟩ := ih hinit (by
          intro d hd
          rcases List.mem_append.mp hd with hd | hd
          · exact hfree d hd
          · rw [List.mem_singleton.mp hd])
        rw [List.length_append, List.length_singleton] at hlength
        exact ⟨hfree', by omega⟩
      case isFalse =>
        obtain rfl := Option.some.inj hinit
        exact ⟨hfree, Nat.le_add_right _ _⟩

theorem inv_mallocInit {s : Palloc.State} (hexact : s.Exact []) (hinit : mallocInit s = some h) :
    h.Inv ⟨[], [], [], []⟩ := by
  obtain ⟨descs, hloop, rfl⟩ := Option.map_eq_some_iff.mp hinit
  obtain ⟨hfree, hlength⟩ := initLoop_spec hloop fun d hd => absurd hd List.not_mem_nil
  refine ⟨hexact, ?_, fun q hq => absurd hq List.not_mem_nil,
    fun q hq => absurd hq List.not_mem_nil, fun i d hd => ?_,
    fun b hb => absurd hb List.not_mem_nil, List.Perm.refl _⟩
  · change descs.length < 2 ^ 32 - 1
    rw [List.length_nil, maxDescs] at hlength
    omega
  · rw [hfree d (List.mem_of_getElem? hd)]
    exact List.Perm.refl _

end Heap

end Malloc

end PintosLabs
