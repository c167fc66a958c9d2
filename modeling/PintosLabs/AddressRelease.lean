/-
`pagedir_destroy`: the frames of an address space, its page tables and its directory
are given back, one by one, while the tables are still being read.
-/
import PintosLabs.AddressCalls

namespace PintosLabs

open Exec (pgsize physBase)

namespace PageTables

open Palloc (Chunk State pallocFreePage apart_addresses)

variable {m m' : ByteMemory} {pd pt i j n : Nat} {k k' : Kernel} {initPage : Nat}
  {spaces : List Nat} {others rest : List Chunk} {s s' : State}

/-- What is still held is what it was, and where it was. -/
structure Frees (s s' : State) (rest : List Chunk) : Prop where
  exact : s'.Exact rest
  shape : s.SameShape s'
  agree : ∀ c ∈ rest, s.memory.Agree s'.memory c.address (pgsize * c.cnt)

theorem SameShape.trans {s'' : State} (h : s.SameShape s') (h' : s'.SameShape s'') :
    s.SameShape s'' := fun user =>
  ⟨(h' user).1.trans (h user).1, (h' user).2.1.trans (h user).2.1,
    (h' user).2.2.trans (h user).2.2⟩

theorem Frees.trans {s'' : State} {rest' : List Chunk} (h : Frees s s' rest)
    (h' : Frees s' s'' rest') (hsub : ∀ c ∈ rest', c ∈ rest) : Frees s s'' rest' where
  exact := h'.exact
  shape := SameShape.trans h.shape h'.shape
  agree c hc := (h.agree c (hsub c hc)).trans (h'.agree c hc)

theorem exists_freePage {c : Chunk} (hcnt : c.cnt = 1) (hexact : s.Exact (c :: rest)) :
    ∃ s', pallocFreePage (c.page * pgsize) s = some s' ∧ Frees s s' rest := by
  obtain ⟨s', hfree, hexact', hshape, hmemory⟩ := Palloc.exists_pallocFreeMultiple hexact
  rw [hcnt] at hfree
  refine ⟨s', hfree, hexact', hshape, fun d hd => ?_⟩
  have happart := apart_addresses ((List.pairwise_cons.mp hexact.apart).1 d hd)
  rw [hmemory]
  exact (ByteMemory.agree_fill (Or.symm happart)).symm

/-- Page numbers are small enough for `ptov`. -/
def Bounded (s : State) : Prop := ∀ user, (s.pool user).stop ≤ 2 ^ 20

theorem Bounded.of_shape (h : Bounded s) (hshape : s.SameShape s') : Bounded s' :=
  fun user => (hshape user).2.1.symm ▸ h user

theorem Bounded.page_lt (h : Bounded s) {c : Chunk} (hexact : s.Exact rest) (hc : c ∈ rest) :
    c.page < 2 * pgNo physBase := by
  have hin := hexact.inside c hc
  have hstop := h c.user
  have hbase : 2 ^ 20 < 2 * pgNo physBase := by decide
  simp only [Chunk.Inside] at hin
  omega

/-- The frames of some entries of a table. -/
def framesOf (m : ByteMemory) (pt : Nat) (js : List Nat) : List Chunk :=
  (js.filterMap fun j => frame (entryAt m pt j)).map frameChunk

theorem framesOf_cons_none {js : List Nat} (hn : frame (entryAt m pt j) = none) :
    framesOf m pt (j :: js) = framesOf m pt js := by
  rw [framesOf, List.filterMap_cons_none (f := fun j => frame (entryAt m pt j)) hn, framesOf]

theorem framesOf_cons_some {js : List Nat} (hn : frame (entryAt m pt j) = some n) :
    framesOf m pt (j :: js) = frameChunk n :: framesOf m pt js := by
  rw [framesOf, List.filterMap_cons_some (f := fun j => frame (entryAt m pt j)) hn, framesOf]
  rfl

theorem framesOf_congr {js : List Nat} (hjs : ∀ j ∈ js, j < entryCnt)
    (hagree : m.Agree m' (pt * pgsize) pgsize) : framesOf m' pt js = framesOf m pt js := by
  rw [framesOf, framesOf]
  refine congrArg (List.map frameChunk) (List.filterMap_congr fun j hj => ?_)
  rw [entryAt_congr hagree (hjs j hj)]

theorem freeEntries_spec {js : List Nat} (hjs : ∀ j ∈ js, j < entryCnt) (hbound : Bounded s)
    (hpt : pageChunk pt ∈ rest) (hexact : s.Exact (framesOf s.memory pt js ++ rest)) :
    ∃ s', Kernel.freeEntries (pt * pgsize) s js = some s' ∧
      Frees s s' rest := by
  induction js generalizing s with
  | nil => exact ⟨s, rfl, hexact, fun _ => ⟨rfl, rfl, rfl⟩, fun _ _ => ByteMemory.Agree.refl _ _ _⟩
  | cons j js ih =>
      have hjs' : ∀ j' ∈ js, j' < entryCnt := fun j' hj' => hjs j' (List.mem_cons_of_mem j hj')
      rw [Kernel.freeEntries, List.foldlM_cons]
      cases hn : frame (entryAt s.memory pt j) with
      | none =>
          have hstep : Kernel.freeEntry (pt * pgsize) j s = some s :=
            if_neg (absent_of_frame hn)
          rw [framesOf_cons_none hn] at hexact
          obtain ⟨s', hloop, hfrees⟩ := ih hjs' hbound hexact
          exact ⟨s', by rw [hstep]; exact hloop, hfrees⟩
      | some n =>
          rw [framesOf_cons_some hn] at hexact
          obtain ⟨s₁, hfree, hfrees⟩ := exists_freePage (c := frameChunk n) rfl hexact
          have hlt : n < 2 * pgNo physBase :=
            hbound.page_lt (c := frameChunk n) hexact List.mem_cons_self
          have hstep : Kernel.freeEntry (pt * pgsize) j s = some s₁ := by
            rw [Kernel.freeEntry]
            change (if entryAt s.memory pt j &&& pteP ≠ 0 then
              (pteGetPage (entryAt s.memory pt j)).bind _ else _) = _
            rw [if_pos (present_of_frame hn), pteGetPage_eq hn hlt]
            exact hfree
          have hagree := hfrees.agree (pageChunk pt) (List.mem_append_right _ hpt)
          have hsame : framesOf s₁.memory pt js = framesOf s.memory pt js :=
            framesOf_congr hjs' hagree
          obtain ⟨s', hloop, hfrees'⟩ := ih hjs' (hbound.of_shape hfrees.shape)
            (hsame.symm ▸ hfrees.exact)
          exact ⟨s', by rw [hstep]; exact hloop,
            hfrees.trans hfrees' fun c hc => List.mem_append_right _ hc⟩

theorem freeTable_spec {is : List Nat} (hi : i < userEntryCnt)
    (his : ∀ i' ∈ is, i' < userEntryCnt) (hbound : Bounded s) (hpd : pageChunk pd ∈ rest)
    (hexact : s.Exact (tableChunks s.memory pd i ++
      (is.flatMap (tableChunks s.memory pd) ++ rest))) :
    ∃ s', Kernel.freeTable (pd * pgsize) i s = some s' ∧
      Frees s s' (is.flatMap (tableChunks s.memory pd) ++ rest) := by
  rw [Kernel.freeTable]
  change ∃ s', (if entryAt s.memory pd i &&& pteP ≠ 0 then
    (pdeGetPt (entryAt s.memory pd i)).bind _ else _) = some s' ∧ _
  cases hpt : frame (entryAt s.memory pd i) with
  | none =>
      rw [tableChunks, hpt, List.nil_append] at hexact
      refine ⟨s, if_neg (absent_of_frame hpt), hexact, fun _ => ⟨rfl, rfl, rfl⟩,
        fun _ _ => ByteMemory.Agree.refl _ _ _⟩
  | some pt =>
      rw [tableChunks, hpt] at hexact
      have hlt : pt < 2 * pgNo physBase :=
        hbound.page_lt (c := pageChunk pt) hexact (List.mem_append_left _ List.mem_cons_self)
      have hperm : (pageChunk pt :: (tableFrames s.memory pt).map frameChunk ++
          (is.flatMap (tableChunks s.memory pd) ++ rest)).Perm
          (framesOf s.memory pt (List.range entryCnt) ++
            pageChunk pt :: (is.flatMap (tableChunks s.memory pd) ++ rest)) :=
        List.perm_middle.symm
      obtain ⟨s₁, hloop, hfrees⟩ := freeEntries_spec (fun j hj => List.mem_range.mp hj) hbound
        List.mem_cons_self (hexact.perm hperm)
      obtain ⟨s', hfree, hfrees'⟩ := exists_freePage (c := pageChunk pt) rfl hfrees.exact
      refine ⟨s', ?_, hfrees.trans hfrees' fun c hc => List.mem_cons_of_mem _ hc⟩
      rw [if_pos (present_of_frame hpt), pdeGetPt_eq hpt hlt]
      exact Option.bind_eq_some_iff.mpr ⟨_, rfl, Option.bind_eq_some_iff.mpr ⟨s₁, hloop, hfree⟩⟩

theorem freeTables_spec {is : List Nat} (his : ∀ i ∈ is, i < userEntryCnt) (hbound : Bounded s)
    (hpd : pageChunk pd ∈ rest)
    (hexact : s.Exact (is.flatMap (tableChunks s.memory pd) ++ rest)) :
    ∃ s', Kernel.freeTables (pd * pgsize) s is = some s' ∧
      Frees s s' rest := by
  induction is generalizing s with
  | nil => exact ⟨s, rfl, hexact, fun _ => ⟨rfl, rfl, rfl⟩, fun _ _ => ByteMemory.Agree.refl _ _ _⟩
  | cons i is ih =>
      have his' : ∀ i' ∈ is, i' < userEntryCnt := fun i' hi' => his i' (List.mem_cons_of_mem i hi')
      rw [List.flatMap_cons, List.append_assoc] at hexact
      obtain ⟨s₁, hstep, hfrees⟩ :=
        freeTable_spec (his i List.mem_cons_self) his' hbound hpd hexact
      have hpages : ∀ page, pageChunk page ∈ is.flatMap (tableChunks s.memory pd) ++ rest →
          s.memory.Agree s₁.memory (page * pgsize) pgsize :=
        fun page hpage => hfrees.agree (pageChunk page) hpage
      have hsame : is.flatMap (tableChunks s₁.memory pd) = is.flatMap (tableChunks s.memory pd) := by
        refine List.flatMap_congr fun i' hi' => ?_
        refine tableChunks_congr ?_ fun pt hpt => hpages pt (List.mem_append_left _ ?_)
        · exact entryAt_congr (hpages pd (List.mem_append_right _ hpd)) (lt_entryCnt (his' i' hi'))
        · refine List.mem_flatMap.mpr ⟨i', hi', ?_⟩
          rw [tableChunks, hpt]
          exact List.mem_cons_self
      obtain ⟨s', hloop, hfrees'⟩ := ih his' (hbound.of_shape hfrees.shape)
        (hsame.symm ▸ hfrees.exact)
      refine ⟨s', ?_, hfrees.trans hfrees' fun c hc => List.mem_append_right _ hc⟩
      rw [Kernel.freeTables, List.foldlM_cons, hstep]
      exact hloop

namespace Kernel

/-- An address space is given back, with all its pages; the others are what they were. -/
theorem Inv.exists_destroy {left : List Nat} (hinv : k.Inv initPage spaces others)
    (hperm : spaces.Perm (pd :: left)) :
    ∃ k', k.pagedirDestroy (pd * pgsize) = some k' ∧ k'.Inv initPage left others ∧
      (∀ pd' ∈ left, ∀ va < physBase, pteAt k'.memory pd' va = pteAt k.memory pd' va) ∧
      k.Keeps k' left others := by
  have hpd : pd ∈ spaces := hperm.mem_iff.mpr List.mem_cons_self
  have hleft : ∀ pd' ∈ left, pd' ∈ spaces :=
    fun pd' hpd' => hperm.mem_iff.mpr (List.mem_cons_of_mem pd hpd')
  have hheld : (k.held spaces others).Perm
      ((List.range userEntryCnt).flatMap (tableChunks k.memory pd) ++
        pageChunk pd :: k.held left others) := by
    have hflat := (hperm.flatMap_right (spaceChunks k.memory)).append_right others
    rw [List.flatMap_cons, List.append_assoc] at hflat
    exact hflat.trans List.perm_middle.symm
  have hbound : Bounded k.pages := fun user => by
    have hstop := (hinv.inside user).2
    have hram := hinv.ram
    have hbase : pgNo physBase + 2 ^ 18 = 2 ^ 20 := by decide
    omega
  obtain ⟨s₁, hloop, hfrees⟩ := freeTables_spec (fun i hi => List.mem_range.mp hi) hbound
    List.mem_cons_self (hinv.exact.perm hheld)
  obtain ⟨s, hfree, hfrees'⟩ := exists_freePage (c := pageChunk pd) rfl hfrees.exact
  have hall := hfrees.trans hfrees' fun c hc => List.mem_cons_of_mem _ hc
  have hkept : ∀ pd' ∈ left, Kept k.memory s.memory pd' :=
    fun pd' hpd' => Inv.kept_of_agree hpd' hall.agree
  refine ⟨k.setPages s, ?_, ?_, fun pd' hpd' va hva => (hkept pd' hpd').pteAt_eq hva,
    Inv.keeps_of_agree hall.agree⟩
  · rw [pagedirDestroy, if_neg (hinv.pd_ne_zero hpd), if_neg (hinv.dir_ne_init hpd)]
    change (freeTables (pd * pgsize) k.pages (List.range userEntryCnt)).bind _ = _
    rw [hloop]
    change (pallocFreePage (pd * pgsize) s₁).bind _ = _
    rw [show pallocFreePage (pd * pgsize) s₁ = some s from hfree]
    rfl
  · refine hinv.change hleft hkept ?_ hall.exact hall.shape hinv.init.2
    exact hall.agree (pageChunk initPage) (List.mem_append_right _ hinv.init.2)

end Kernel

end PageTables

end PintosLabs
