/-
The functions of userprog/pagedir.c on address spaces that are as they should be: none
of their assertions fails, and each does to the map of pages what its name says.
-/
import PintosLabs.AddressSteps

namespace PintosLabs

open Exec (pgsize physBase)

namespace PageTables

open Palloc (Chunk State Flags noFlags pallocGetPage pallocFreePage apart_addresses)

variable {m m' : ByteMemory} {pd pt va i j n : Nat} {k k' : Kernel} {initPage : Nat}
  {spaces : List Nat} {others : List Chunk} {w : BitVec 32}

theorem present_iff {w : BitVec 32} : w &&& pteP ≠ 0 ↔ (frame w).isSome = true := by
  rw [frame]
  split
  case isTrue h => exact ⟨fun _ => rfl, fun _ => h⟩
  case isFalse h => exact ⟨fun hne => absurd hne h, fun hsome => absurd hsome Bool.false_ne_true⟩

theorem present_of_frame {w : BitVec 32} (h : frame w = some n) : w &&& pteP ≠ 0 :=
  present_iff.mpr (h ▸ rfl)

theorem absent_of_frame {w : BitVec 32} (h : frame w = none) : ¬ w &&& pteP ≠ 0 := by
  rw [present_iff, h]
  exact Bool.false_ne_true

theorem isUserVaddr_of_lt (hva : va < physBase) : isUserVaddr va = true := decide_eq_true hva

namespace Kernel

/-! `lookup_page` -/

theorem Inv.table_bounds (hinv : k.Inv initPage spaces others) (hpd : pd ∈ spaces)
    (hi : i < userEntryCnt) (hpt : frame (entryAt k.memory pd i) = some pt) :
    pgNo physBase ≤ pt ∧ pt < 2 ^ 20 :=
  hinv.bounds_page (Inv.mem_held hpd (mem_spaceChunks_table hi hpt))

theorem Inv.frame_bounds (hinv : k.Inv initPage spaces others) (hpd : pd ∈ spaces)
    (hva : va < physBase) (hn : mapped k.memory pd va = some n) :
    pgNo physBase ≤ n ∧ n < 2 ^ 20 :=
  hinv.bounds_frame (Inv.mem_held hpd (mem_spaceChunks_frame hva hn))

/-- Where there is a page table, nothing is created. -/
theorem Inv.lookupPage_some (hinv : k.Inv initPage spaces others) (hpd : pd ∈ spaces)
    (hva : va < physBase) (hpt : frame (entryAt k.memory pd (pdNo va)) = some pt)
    (create : Bool) :
    k.lookupPage (pd * pgsize) va create = some (some (pt * pgsize + 4 * ptNo va), k) := by
  have hassert : ¬(pd * pgsize = 0 ∨ create = true ∧ isUserVaddr va = false) := by
    rintro (hzero | ⟨_, huser⟩)
    · exact hinv.pd_ne_zero hpd hzero
    · rw [isUserVaddr, decide_eq_true hva] at huser
      cases huser
  have hne : k.memory.loadWord (pd * pgsize + 4 * pdNo va) ≠ 0 := by
    intro hzero
    rw [entryAt, hzero, frame_zero] at hpt
    cases hpt
  have hget : pdeGetPt (k.memory.loadWord (pd * pgsize + 4 * pdNo va)) = some (pt * pgsize) :=
    pdeGetPt_eq hpt (lt_twice (hinv.table_bounds hpd (pdNo_lt hva) hpt).2)
  rw [lookupPage, if_neg hassert]
  simp only [if_neg hne, hget]
  rfl

theorem Inv.entry_zero (hinv : k.Inv initPage spaces others) (hpd : pd ∈ spaces)
    (hi : i < userEntryCnt) (hnone : frame (entryAt k.memory pd i) = none) :
    entryAt k.memory pd i = 0 := by
  rcases (hinv.space pd hpd).zero i hi with hzero | hsome
  · exact hzero
  · rw [hnone] at hsome
    cases hsome

theorem Inv.lookupPage_none (hinv : k.Inv initPage spaces others) (hpd : pd ∈ spaces)
    (hva : va < physBase) (hnone : frame (entryAt k.memory pd (pdNo va)) = none) :
    k.lookupPage (pd * pgsize) va false = some (none, k) := by
  have hassert : ¬(pd * pgsize = 0 ∨ false = true ∧ isUserVaddr va = false) := by
    rintro (hzero | ⟨hfalse, _⟩)
    · exact hinv.pd_ne_zero hpd hzero
    · cases hfalse
  have hzero : k.memory.loadWord (pd * pgsize + 4 * pdNo va) = 0 :=
    hinv.entry_zero hpd (pdNo_lt hva) hnone
  rw [lookupPage, if_neg hassert]
  simp only [if_pos hzero]
  rfl

/-- Without creating anything, `lookup_page` finds the entry if there is a page table. -/
theorem Inv.lookupPage_false (hinv : k.Inv initPage spaces others) (hpd : pd ∈ spaces)
    (hva : va < physBase) :
    k.lookupPage (pd * pgsize) va false = some (pteOf k.memory pd va, k) := by
  rw [pteOf]
  cases hpt : frame (entryAt k.memory pd (pdNo va)) with
  | none => exact hinv.lookupPage_none hpd hva hpt
  | some pt => exact hinv.lookupPage_some hpd hva hpt false

/-- A page table for the directory entry `i`, all of it zero. -/
structure NewTable (k k' : Kernel) (initPage : Nat) (spaces : List Nat) (others : List Chunk)
    (pd i pt : Nat) : Prop where
  inv : k'.Inv initPage spaces others
  entry : frame (entryAt k'.memory pd i) = some pt
  pteAt_eq : ∀ pd' ∈ spaces, ∀ va < physBase, pteAt k'.memory pd' va = pteAt k.memory pd' va
  keeps : k.Keeps k' spaces others

theorem entryAt_zero {t : Nat} (hmemory : m' = m.fill (t * pgsize) pgsize 0) (hj : j < entryCnt) :
    entryAt m' t j = 0 := by
  obtain ⟨hlow, hhigh⟩ := entry_inside t hj
  rw [entryAt, ByteMemory.loadWord, hmemory]
  rw [ByteMemory.fill_inside (by omega) (by omega), ByteMemory.fill_inside (by omega) (by omega),
    ByteMemory.fill_inside (by omega) (by omega), ByteMemory.fill_inside (by omega) (by omega)]
  decide

/-- The page that has been taken becomes a page table of the directory. -/
theorem Inv.addTable {t : Nat} (hinv : k.Inv initPage spaces (pageChunk t :: others))
    (hpd : pd ∈ spaces) (hi : i < userEntryCnt) (hzero : frame (entryAt k.memory pd i) = none)
    (htable : ∀ j < entryCnt, entryAt k.memory t j = 0) (hw : frame w = some t)
    (hinit : pageChunk initPage ∈ others) :
    NewTable k (k.storeWord (pd * pgsize + 4 * i) w) initPage spaces others pd i t := by
  have hdir : pageChunk pd ∈ spaceChunks k.memory pd := List.mem_cons_self
  have hbound := lt_entryCnt hi
  have hne : t ≠ pd := by
    rintro rfl
    exact (List.nodup_append.mp hinv.exact.nodup).2.2 _
      (List.mem_flatMap.mpr ⟨t, hpd, hdir⟩) _ List.mem_cons_self rfl
  have hkept : ∀ pd' ∈ spaces, pd' ≠ pd →
      Kept k.memory (k.memory.storeWord (pd * pgsize + 4 * i) w) pd' :=
    fun pd' hpd' hpdne => hinv.kept_store hpd hpd' hpdne hdir hbound
  have hentry : ∀ i', i' ≠ i → entryAt (k.memory.storeWord (pd * pgsize + 4 * i) w) pd i' =
      entryAt k.memory pd i' := fun i' hne' => entryAt_storeWord_of_ne hne'
  have hself : entryAt (k.memory.storeWord (pd * pgsize + 4 * i) w) pd i = w :=
    entryAt_storeWord_self k.memory pd i w
  have htables : ∀ i' < userEntryCnt, ∀ pt', frame (entryAt k.memory pd i') = some pt' →
      k.memory.Agree (k.memory.storeWord (pd * pgsize + 4 * i) w) (pt' * pgsize) pgsize :=
    fun i' hi' pt' hpt' => agree_storeEntry_page hbound (hinv.table_ne_dir hpd hi' hpt')
  have hnew : ∀ j < entryCnt, entryAt (k.memory.storeWord (pd * pgsize + 4 * i) w) t j = 0 :=
    fun j hj => (entryAt_congr (agree_storeEntry_page hbound hne) hj).trans (htable j hj)
  have hframes : tableFrames (k.memory.storeWord (pd * pgsize + 4 * i) w) t = [] := by
    refine List.filterMap_eq_nil_iff.mpr fun j hj => ?_
    rw [hnew j (List.mem_range.mp hj), frame_zero]
  have hperm : (spaces.flatMap
      (spaceChunks (k.memory.storeWord (pd * pgsize + 4 * i) w))).Perm
      ([pageChunk t] ++ spaces.flatMap (spaceChunks k.memory)) := by
    refine spaces_perm [pageChunk t] hinv.nodup_spaces hpd hi
      (fun pd' hpd' hpdne => (hkept pd' hpd' hpdne).spaceChunks_eq) (fun i' hi' hine => ?_) ?_
    · exact tableChunks_congr (hentry i' hine) (htables i' hi')
    · rw [tableChunks, tableChunks, hself, hw, hzero]
      change (pageChunk t :: (tableFrames _ t).map frameChunk).Perm _
      rw [hframes]
      exact List.Perm.refl _
  have hkeeps := hinv.keeps_store (w := w) hpd hdir hbound
  have hinitAgree : k.memory.Agree (k.memory.storeWord (pd * pgsize + 4 * i) w)
      (initPage * pgsize) pgsize :=
    hkeeps.others (pageChunk initPage) (List.mem_cons_of_mem _ hinit)
  refine ⟨⟨?_, hinv.inside, hinv.ram, fun pd' hpd' => ?_, ⟨hinv.init.1, hinit⟩,
      fun i' hi' => ?_⟩, ?_, fun pd' hpd' va hva => ?_,
    ⟨hkeeps.frames, fun c hc => hkeeps.others c (List.mem_cons_of_mem _ hc)⟩⟩
  · refine (hinv.exact.setMemory _).perm (List.Perm.trans ?_ (hperm.append_right others).symm)
    exact List.perm_middle
  · by_cases hpdne : pd' = pd
    · subst hpdne
      have hspace := hinv.space pd' hpd
      refine ⟨fun i' hi' => ?_, fun i' hlow hhigh => ?_⟩
      · change entryAt (k.memory.storeWord _ w) _ _ = 0 ∨
          (frame (entryAt (k.memory.storeWord _ w) _ _)).isSome = true
        by_cases hine : i' = i
        · rw [hine, hself, hw]
          exact Or.inr rfl
        · rw [hentry i' hine]
          exact hspace.zero i' hi'
      · change entryAt (k.memory.storeWord _ w) _ _ = entryAt (k.memory.storeWord _ w) _ _
        rw [hentry i' (by omega), entryAt_congr hinitAgree hhigh]
        exact hspace.kernel i' hlow hhigh
    · exact (hkept pd' hpd' hpdne).space hinitAgree (hinv.space pd' hpd')
  · exact (entryAt_congr hinitAgree (lt_entryCnt hi')).trans (hinv.user i' hi')
  · change frame (entryAt (k.memory.storeWord _ w) pd i) = _
    rw [hself]
    exact hw
  · change pteAt (k.memory.storeWord _ w) pd' va = _
    by_cases hpdne : pd' = pd
    · subst hpdne
      rw [pteAt, pteAt]
      by_cases hine : pdNo va = i
      · rw [hine, hself, hw, hzero]
        exact hnew _ (ptNo_lt va)
      · rw [hentry _ hine]
        cases hpt : frame (entryAt k.memory pd' (pdNo va)) with
        | none => rfl
        | some pt' => exact entryAt_congr (htables _ (pdNo_lt hva) pt' hpt) (ptNo_lt va)
    · exact (hkept pd' hpd' hpdne).pteAt_eq hva

/-- Where there is no page table, one is created unless the kernel pool is full. -/
theorem Inv.lookupPage_create (hinv : k.Inv initPage spaces others) (hpd : pd ∈ spaces)
    (hva : va < physBase) (hnone : frame (entryAt k.memory pd (pdNo va)) = none) :
    (∃ k' pt, k.lookupPage (pd * pgsize) va true = some (some (pt * pgsize + 4 * ptNo va), k') ∧
      NewTable k k' initPage spaces others pd (pdNo va) pt) ∨
    (k.lookupPage (pd * pgsize) va true = some (none, k) ∧ k.pages.Full false 1) := by
  have hassert : ¬(pd * pgsize = 0 ∨ true = true ∧ isUserVaddr va = false) := by
    rintro (hzero | ⟨_, huser⟩)
    · exact hinv.pd_ne_zero hpd hzero
    · rw [isUserVaddr, decide_eq_true hva] at huser
      cases huser
  have hzero : k.memory.loadWord (pd * pgsize + 4 * pdNo va) = 0 :=
    hinv.entry_zero hpd (pdNo_lt hva) hnone
  rw [lookupPage, if_neg hassert]
  simp only [if_pos hzero, if_true, pallocGetPage]
  rcases Palloc.pallocGetMultiple_cases hinv.exact { noFlags with zero := true } 1 with
    ⟨pages, s, t, hget, hgot⟩ | ⟨hfull, hget⟩
  · obtain ⟨hinv', hagree⟩ := hinv.get hgot
    have hne : t * pgsize ≠ 0 := Nat.mul_ne_zero (Nat.ne_of_gt hgot.positive) (by decide)
    have hmemory : s.memory = k.memory.fill (t * pgsize) pgsize 0 := hgot.address ▸ hgot.memory
    obtain ⟨hlow, hhigh⟩ := hinv'.bounds_page (n := t)
      (List.mem_append_right _ List.mem_cons_self)
    obtain ⟨w, hw, hframe⟩ := exists_pdeCreate hlow hhigh
    have hkept : Kept k.memory s.memory pd := Inv.kept_of_agree hpd hagree
    have hentry : entryAt s.memory pd (pdNo va) = entryAt k.memory pd (pdNo va) :=
      hkept.entryAt_eq (lt_entryCnt (pdNo_lt hva))
    have htable := Inv.addTable (k := k.setPages s) hinv' hpd (pdNo_lt hva)
      ((congrArg frame hentry).trans hnone) (fun j hj => entryAt_zero hmemory hj) hframe
      hinv.init.2
    refine Or.inl ⟨_, t, ?_, ⟨htable.inv, htable.entry, fun pd' hpd' va' hva' => ?_, ?_⟩⟩
    · have hload : ((k.setPages s).storeWord (pd * pgsize + 4 * pdNo va) w).memory.loadWord
          (pd * pgsize + 4 * pdNo va) = w := ByteMemory.loadWord_storeWord w
      rw [hget]
      simp only [Option.bind_eq_bind, Option.bind_some, if_neg hne, hgot.address, hw, hload,
        pdeGetPt_eq hframe (lt_twice hhigh)]
    · rw [htable.pteAt_eq pd' hpd' va' hva']
      exact (Inv.kept_of_agree hpd' hagree).pteAt_eq hva'
    · refine ⟨fun pd' hpd' va' hva' n hn => ?_, fun c hc => ?_⟩
      · refine (hagree (frameChunk n) (Inv.mem_held hpd' (mem_spaceChunks_frame hva' hn))).trans ?_
        refine htable.keeps.frames pd' hpd' va' hva' n ?_
        exact (congrArg frame ((Inv.kept_of_agree hpd' hagree).pteAt_eq hva')).trans hn
      · exact (hagree c (List.mem_append_right _ hc)).trans (htable.keeps.others c hc)
  · refine Or.inr ⟨?_, hfull.resolve_left (by decide)⟩
    rw [hget, if_neg fun hassert => Bool.false_ne_true hassert.2]
    rfl

/-! Entries of page tables -/

/-- One page of one address space has a new entry. -/
structure Entry (k k' : Kernel) (spaces : List Nat) (pd va : Nat) (w : BitVec 32) : Prop where
  here : ∀ va' < physBase, pgNo va' = pgNo va → pteAt k'.memory pd va' = w
  elsewhere : ∀ pd' ∈ spaces, ∀ va' < physBase, pd' ≠ pd ∨ pgNo va' ≠ pgNo va →
    pteAt k'.memory pd' va' = pteAt k.memory pd' va'

theorem Inv.entry_setEntry (hinv : k.Inv initPage spaces others) (hpd : pd ∈ spaces)
    (hva : va < physBase) (hpt : frame (entryAt k.memory pd (pdNo va)) = some pt) :
    Entry k (k.storeWord (pt * pgsize + 4 * ptNo va) w) spaces pd va w where
  here va' hva' hpg := by
    rw [hinv.pteAt_setEntry hpd (pdNo_lt hva) hpt (ptNo_lt va) hva',
      if_pos ⟨pdNo_eq_of_pgNo hpg, ptNo_eq_of_pgNo hpg⟩]
  elsewhere pd' hpd' va' hva' hne := by
    by_cases hpdne : pd' = pd
    · subst hpdne
      rw [hinv.pteAt_setEntry hpd (pdNo_lt hva) hpt (ptNo_lt va) hva', if_neg]
      rintro ⟨hi, hj⟩
      exact hne.elim (fun h => h rfl) fun h => h (pgNo_eq_of_entries hi hj)
    · exact (hinv.kept_store hpd hpd' hpdne (mem_spaceChunks_table (pdNo_lt hva) hpt)
        (ptNo_lt va)).pteAt_eq hva'

theorem pteAt_of_table (hpt : frame (entryAt m pd (pdNo va)) = some pt) :
    pteAt m pd va = entryAt m pt (ptNo va) := by
  rw [pteAt, hpt]

theorem mapped_of_no_table (hnone : frame (entryAt m pd (pdNo va)) = none) :
    mapped m pd va = none := by
  rw [mapped, pteAt, hnone]
  exact frame_zero

theorem exists_table_of_mapped (hn : mapped m pd va = some n) :
    ∃ pt, frame (entryAt m pd (pdNo va)) = some pt ∧
      frame (entryAt m pt (ptNo va)) = some n := by
  cases hpt : frame (entryAt m pd (pdNo va)) with
  | none =>
      rw [mapped_of_no_table hpt] at hn
      cases hn
  | some pt => exact ⟨pt, rfl, (congrArg frame (pteAt_of_table hpt)).symm.trans hn⟩

/-! `pagedir_get_page` -/

/-- The kernel address that a user address is mapped to, or the null pointer. -/
theorem Inv.getPage_eq (hinv : k.Inv initPage spaces others) (hpd : pd ∈ spaces)
    (hva : va < physBase) :
    k.pagedirGetPage (pd * pgsize) va = some (match mapped k.memory pd va with
      | none => 0
      | some n => n * pgsize + pgOfs va) := by
  rw [pagedirGetPage, if_pos (isUserVaddr_of_lt hva), hinv.lookupPage_false hpd hva, pteOf]
  cases hpt : frame (entryAt k.memory pd (pdNo va)) with
  | none =>
      rw [mapped_of_no_table hpt]
      rfl
  | some pt =>
      have hpte := pteAt_of_table hpt
      cases hn : mapped k.memory pd va with
      | none =>
          rw [mapped, hpte] at hn
          exact if_neg (absent_of_frame hn)
      | some n =>
          have hbounds := hinv.frame_bounds hpd hva hn
          rw [mapped, hpte] at hn
          change (if entryAt k.memory pt (ptNo va) &&& pteP ≠ 0 then
            (pteGetPage (entryAt k.memory pt (ptNo va))).bind _ else _) = _
          rw [if_pos (present_of_frame hn), pteGetPage_eq hn (lt_twice hbounds.2)]
          rfl

/-! `pagedir_set_page` -/

/-- The page `n` has been mapped at an address. -/
structure Maps (k k' : Kernel) (initPage : Nat) (spaces : List Nat) (others : List Chunk)
    (pd va n : Nat) (writable : Bool) : Prop where
  inv : k'.Inv initPage spaces others
  entry : ∃ w, Entry k k' spaces pd va w ∧ frame w = some n ∧
    w &&& pteW = if writable then pteW else 0
  keeps : k.Keeps k' spaces (frameChunk n :: others)

theorem Inv.storeFrame (hinv : k.Inv initPage spaces (frameChunk n :: others)) (hpd : pd ∈ spaces)
    (hva : va < physBase) (hpt : frame (entryAt k.memory pd (pdNo va)) = some pt)
    (hnone : mapped k.memory pd va = none) (hw : frame w = some n) :
    (k.storeWord (pt * pgsize + 4 * ptNo va) w).Inv initPage spaces others := by
  have hinit : pageChunk initPage ∈ others := by
    rcases List.mem_cons.mp hinv.init.2 with heq | hmem
    · exact absurd heq.symm (frameChunk_ne_pageChunk n initPage)
    · exact hmem
  refine hinv.setEntry hpd (pdNo_lt hva) hpt (ptNo_lt va) ?_ hinit
  rw [mapped, pteAt_of_table hpt] at hnone
  have hframes := tableFrames_set (ptNo_lt va) hnone hw
  rw [← List.singleton_append] at hframes
  have hchunks := hinv.chunks_setEntry hpd (pdNo_lt hva) hpt (ptNo_lt va) hframes
  exact List.perm_middle.trans (hchunks.append_right others).symm

theorem Inv.dir_ne_init (hinv : k.Inv initPage spaces others) (hpd : pd ∈ spaces) :
    pd * pgsize ≠ k.initPageDir := by
  rw [hinv.init.1]
  intro heq
  obtain rfl := Nat.eq_of_mul_eq_mul_right (by decide) heq
  exact (List.nodup_append.mp hinv.exact.nodup).2.2 _
    (List.mem_flatMap.mpr ⟨pd, hpd, List.mem_cons_self⟩) _ hinv.init.2 rfl

/-- What `pagedir_set_page` does with the entry that it has looked up. -/
def setFound (kpage : Nat) (writable : Bool) (found : Option Nat × Kernel) :
    Option (Bool × Kernel) :=
  match found.1 with
  | none => some (false, found.2)
  | some pte =>
      if found.2.memory.loadWord pte &&& pteP = 0 then
        (pteCreateUser kpage writable).bind fun w => some (true, found.2.storeWord pte w)
      else none

theorem Inv.setPage_eq (hinv : k.Inv initPage spaces (frameChunk n :: others))
    (hpd : pd ∈ spaces) (hva : va < physBase) (hofs : pgOfs va = 0) (writable : Bool) :
    k.pagedirSetPage (pd * pgsize) va (n * pgsize) writable =
      (k.lookupPage (pd * pgsize) va true).bind (setFound (n * pgsize) writable) := by
  have hmem : frameChunk n ∈ k.held spaces (frameChunk n :: others) :=
    List.mem_append_right _ List.mem_cons_self
  have hlow := (hinv.bounds_frame hmem).1
  have hram : n - pgNo physBase < k.initRamPages := by
    have hstop := (hinv.inside true).2
    have hpage : n + 1 ≤ (k.pages.pool true).stop := (hinv.exact.inside _ hmem).2.2
    omega
  have hpage : pgNo ((n - pgNo physBase) * pgsize) = n - pgNo physBase :=
    Nat.mul_div_cancel _ (by decide)
  have hkofs : pgOfs (n * pgsize) = 0 := Nat.mul_mod_left n pgsize
  have hassert : pgOfs va = 0 ∧ pgOfs (n * pgsize) = 0 ∧ isUserVaddr va = true ∧
      pgNo ((n - pgNo physBase) * pgsize) < k.initRamPages ∧ pd * pgsize ≠ k.initPageDir :=
    ⟨hofs, hkofs, isUserVaddr_of_lt hva, hpage.symm ▸ hram, hinv.dir_ne_init hpd⟩
  rw [pagedirSetPage, vtop_page hlow]
  exact if_pos hassert

theorem setFound_some (hlow : pgNo physBase ≤ n) (hhigh : n < 2 ^ 20)
    (hnone : frame (entryAt k.memory pt j) = none) (writable : Bool) :
    ∃ w, setFound (n * pgsize) writable (some (pt * pgsize + 4 * j), k) =
        some (true, k.storeWord (pt * pgsize + 4 * j) w) ∧
      frame w = some n ∧ w &&& pteW = if writable then pteW else 0 := by
  obtain ⟨w, hcreate, hw, hwritable⟩ := exists_pteCreateUser hlow hhigh writable
  have hzero : k.memory.loadWord (pt * pgsize + 4 * j) &&& pteP = 0 := by
    by_contra hne
    exact absent_of_frame hnone hne
  refine ⟨w, ?_, hw, hwritable⟩
  change (if _ then (pteCreateUser (n * pgsize) writable).bind _ else _) = _
  rw [if_pos hzero, hcreate]
  rfl

/-- The entry is set where there is a page table. -/
theorem Inv.setFound_maps (hinv : k.Inv initPage spaces (frameChunk n :: others))
    (hpd : pd ∈ spaces) (hva : va < physBase)
    (hpt : frame (entryAt k.memory pd (pdNo va)) = some pt)
    (hnone : mapped k.memory pd va = none) (writable : Bool) :
    ∃ k', setFound (n * pgsize) writable (some (pt * pgsize + 4 * ptNo va), k) = some (true, k') ∧
      Maps k k' initPage spaces others pd va n writable := by
  obtain ⟨hlow, hhigh⟩ := hinv.bounds_frame
    (show frameChunk n ∈ k.held spaces (frameChunk n :: others) from
      List.mem_append_right _ List.mem_cons_self)
  have hentry := hnone
  rw [mapped, pteAt_of_table hpt] at hentry
  obtain ⟨w, hset, hw, hwritable⟩ := setFound_some hlow hhigh hentry writable
  exact ⟨_, hset, hinv.storeFrame hpd hva hpt hnone hw,
    ⟨w, hinv.entry_setEntry hpd hva hpt, hw, hwritable⟩,
    hinv.keeps_store hpd (mem_spaceChunks_table (pdNo_lt hva) hpt) (ptNo_lt va)⟩

theorem Inv.setPage_cases (hinv : k.Inv initPage spaces (frameChunk n :: others))
    (hpd : pd ∈ spaces) (hva : va < physBase) (hofs : pgOfs va = 0)
    (hnone : mapped k.memory pd va = none) (writable : Bool) :
    (∃ k', k.pagedirSetPage (pd * pgsize) va (n * pgsize) writable = some (true, k') ∧
      Maps k k' initPage spaces others pd va n writable) ∨
    (k.pagedirSetPage (pd * pgsize) va (n * pgsize) writable = some (false, k) ∧
      k.pages.Full false 1) := by
  rw [hinv.setPage_eq hpd hva hofs]
  cases hpt : frame (entryAt k.memory pd (pdNo va)) with
  | some pt =>
      rw [hinv.lookupPage_some hpd hva hpt]
      exact Or.inl (hinv.setFound_maps hpd hva hpt hnone writable)
  | none =>
      rcases hinv.lookupPage_create hpd hva hpt with
        ⟨k₁, pt, hlookup, htable⟩ | ⟨hlookup, hfull⟩
      · have hnone₁ : mapped k₁.memory pd va = none := by
          rw [mapped, htable.pteAt_eq pd hpd va hva]
          exact hnone
        obtain ⟨k', hset, hinv', ⟨w, hentry, hw⟩, hkeeps⟩ :=
          htable.inv.setFound_maps hpd hva htable.entry hnone₁ writable
        rw [hlookup]
        refine Or.inl ⟨k', hset, hinv', ⟨w, ⟨hentry.here, fun pd' hpd' va' hva' hne => ?_⟩, hw⟩, ?_⟩
        · rw [hentry.elsewhere pd' hpd' va' hva' hne, htable.pteAt_eq pd' hpd' va' hva']
        · refine ⟨fun pd' hpd' va' hva' n' hn => ?_, fun c hc => ?_⟩
          · refine (htable.keeps.frames pd' hpd' va' hva' n' hn).trans
              (hkeeps.frames pd' hpd' va' hva' n' ?_)
            exact (congrArg frame (htable.pteAt_eq pd' hpd' va' hva')).trans hn
          · exact (htable.keeps.others c hc).trans (hkeeps.others c hc)
      · rw [hlookup]
        exact Or.inr ⟨rfl, hfull⟩

/-! `pagedir_clear_page`, and the marks of an entry -/

/-- The page that is cleared is nobody's afterwards. -/
theorem Inv.clearPage_cases (hinv : k.Inv initPage spaces others) (hpd : pd ∈ spaces)
    (hva : va < physBase) (hofs : pgOfs va = 0) :
    (mapped k.memory pd va = none ∧ k.pagedirClearPage (pd * pgsize) va = some k) ∨
    ∃ n k' w, mapped k.memory pd va = some n ∧
      k.pagedirClearPage (pd * pgsize) va = some k' ∧
      k'.Inv initPage spaces (frameChunk n :: others) ∧ Entry k k' spaces pd va w ∧
      frame w = none ∧ k.Keeps k' spaces others := by
  rw [pagedirClearPage, if_pos ⟨hofs, isUserVaddr_of_lt hva⟩, hinv.lookupPage_false hpd hva, pteOf]
  cases hn : mapped k.memory pd va with
  | none =>
      refine Or.inl ⟨rfl, ?_⟩
      cases hpt : frame (entryAt k.memory pd (pdNo va)) with
      | none => rfl
      | some pt =>
          rw [mapped, pteAt_of_table hpt] at hn
          exact if_neg (absent_of_frame hn)
  | some n =>
      obtain ⟨pt, hpt, hentry⟩ := exists_table_of_mapped hn
      have hclear := frame_clear (entryAt k.memory pt (ptNo va))
      refine Or.inr ⟨n, _, _, rfl, ?_, ?_, hinv.entry_setEntry hpd hva hpt, hclear,
        hinv.keeps_store hpd (mem_spaceChunks_table (pdNo_lt hva) hpt) (ptNo_lt va)⟩
      · rw [hpt]
        exact if_pos (present_of_frame hentry)
      · refine hinv.setEntry hpd (pdNo_lt hva) hpt (ptNo_lt va) ?_
          (List.mem_cons_of_mem _ hinv.init.2)
        have hchunks := hinv.chunks_clearEntry hpd (pdNo_lt hva) hpt (ptNo_lt va) hentry hclear
        exact (hchunks.append_right others).trans List.perm_middle.symm

/-- The entry with a mark set or cleared. -/
def marked (bit : BitVec 32) (value : Bool) (w : BitVec 32) : BitVec 32 :=
  if value then w ||| bit else w &&& ~~~ bit

theorem frame_marked {bit : BitVec 32} (hbit : Mark bit) (value : Bool) (w : BitVec 32) :
    frame (marked bit value w) = frame w := by
  cases value with
  | true => exact frame_or hbit w
  | false => exact frame_and_not hbit w

/-- Marks do not change where pages are. -/
theorem Inv.set_cases {bit : BitVec 32} (hbit : Mark bit) (hinv : k.Inv initPage spaces others)
    (hpd : pd ∈ spaces) (hva : va < physBase) (value : Bool) :
    (mapped k.memory pd va = none ∧ k.pagedirSet bit (pd * pgsize) va value = some k) ∨
    ∃ k', k.pagedirSet bit (pd * pgsize) va value = some k' ∧ k'.Inv initPage spaces others ∧
      Entry k k' spaces pd va (marked bit value (pteAt k.memory pd va)) ∧
      k.Keeps k' spaces others := by
  rw [pagedirSet, hinv.lookupPage_false hpd hva, pteOf]
  cases hpt : frame (entryAt k.memory pd (pdNo va)) with
  | none => exact Or.inl ⟨mapped_of_no_table hpt, rfl⟩
  | some pt =>
      have hmarked := frame_marked hbit value (entryAt k.memory pt (ptNo va))
      refine Or.inr ⟨k.storeWord (pt * pgsize + 4 * ptNo va)
        (marked bit value (entryAt k.memory pt (ptNo va))), rfl, ?_, ?_,
        hinv.keeps_store hpd (mem_spaceChunks_table (pdNo_lt hva) hpt) (ptNo_lt va)⟩
      · refine hinv.setEntry hpd (pdNo_lt hva) hpt (ptNo_lt va) ?_ hinv.init.2
        have hframes := List.Perm.of_eq (tableFrames_mark (j := ptNo va) hmarked)
        rw [← List.nil_append (tableFrames k.memory pt)] at hframes
        have hchunks := hinv.chunks_setEntry hpd (pdNo_lt hva) hpt (ptNo_lt va) hframes
        exact (hchunks.append_right others).symm
      · rw [pteAt_of_table hpt]
        exact hinv.entry_setEntry hpd hva hpt

/-! `pagedir_create` -/

/-- A directory of its own for a new address space, in which no user address is mapped. -/
structure Created (k k' : Kernel) (initPage : Nat) (spaces : List Nat) (others : List Chunk)
    (pd : Nat) : Prop where
  inv : k'.Inv initPage (pd :: spaces) others
  fresh : pd ∉ spaces
  empty : ∀ va < physBase, pteAt k'.memory pd va = 0
  pteAt_eq : ∀ pd' ∈ spaces, ∀ va < physBase, pteAt k'.memory pd' va = pteAt k.memory pd' va
  keeps : k.Keeps k' spaces others

theorem entryAt_copy {page i : Nat} (hmemory : m' = m.copy (pd * pgsize) (page * pgsize) pgsize)
    (hi : i < entryCnt) : entryAt m' pd i = entryAt m page i := by
  obtain ⟨_, hhigh⟩ := entry_inside pd hi
  have hbyte : ∀ b < 4, m' (pd * pgsize + 4 * i + b) = m (page * pgsize + 4 * i + b) := by
    intro b hb
    rw [hmemory, Nat.add_assoc, Nat.add_assoc (page * pgsize)]
    exact ByteMemory.copy_inside (by omega)
  have hfirst := hbyte 0 (by decide)
  rw [Nat.add_zero, Nat.add_zero] at hfirst
  rw [entryAt, entryAt, ByteMemory.loadWord, ByteMemory.loadWord, hbyte 3 (by decide),
    hbyte 2 (by decide), hbyte 1 (by decide), hfirst]

/-- A page that nobody has, with the kernel's directory copied into it. -/
theorem Inv.addSpace {t : Nat} (hinv : k.Inv initPage spaces (pageChunk t :: others))
    (hinit : pageChunk initPage ∈ others) :
    Created k (k.setMemory (k.memory.copy (t * pgsize) (initPage * pgsize) pgsize)) initPage
      spaces others t := by
  have hcopy : ∀ i < entryCnt,
      entryAt (k.memory.copy (t * pgsize) (initPage * pgsize) pgsize) t i =
        entryAt k.memory initPage i := fun i hi => entryAt_copy rfl hi
  have hnot : pageChunk t ∉ k.held spaces others := by
    have hperm : (k.held spaces (pageChunk t :: others)).Perm
        (pageChunk t :: k.held spaces others) := List.perm_middle
    exact (List.nodup_cons.mp (hperm.nodup_iff.mp hinv.exact.nodup)).1
  have hagree : ∀ c ∈ k.held spaces others, k.memory.Agree
      (k.memory.copy (t * pgsize) (initPage * pgsize) pgsize) c.address (pgsize * c.cnt) := by
    intro c hc
    have hmem : c ∈ k.held spaces (pageChunk t :: others) :=
      List.perm_middle.symm.subset (List.mem_cons_of_mem _ hc)
    have hne : c ≠ pageChunk t := by
      rintro rfl
      exact hnot hc
    have happart := apart_addresses (hinv.exact.apart_of_ne hmem
      (List.mem_append_right _ List.mem_cons_self) hne)
    exact (ByteMemory.agree_copy happart).symm
  have hkept : ∀ pd ∈ spaces, Kept k.memory
      (k.memory.copy (t * pgsize) (initPage * pgsize) pgsize) pd :=
    fun pd hpd => Inv.kept_of_agree hpd hagree
  have hzero : ∀ i < userEntryCnt,
      entryAt (k.memory.copy (t * pgsize) (initPage * pgsize) pgsize) t i = 0 :=
    fun i hi => (hcopy i (lt_entryCnt hi)).trans (hinv.user i hi)
  have hinitAgree : k.memory.Agree (k.memory.copy (t * pgsize) (initPage * pgsize) pgsize)
      (initPage * pgsize) pgsize :=
    hagree (pageChunk initPage) (List.mem_append_right _ hinit)
  have hchunks : spaceChunks (k.memory.copy (t * pgsize) (initPage * pgsize) pgsize) t =
      [pageChunk t] := by
    have hnil : (List.range userEntryCnt).flatMap
        (tableChunks (k.memory.copy (t * pgsize) (initPage * pgsize) pgsize) t) = [] := by
      refine List.flatMap_eq_nil_iff.mpr fun i hi => ?_
      rw [tableChunks, hzero i (List.mem_range.mp hi), frame_zero]
    rw [spaceChunks, hnil]
  have hsame : spaces.flatMap (spaceChunks
      (k.memory.copy (t * pgsize) (initPage * pgsize) pgsize)) =
      spaces.flatMap (spaceChunks k.memory) :=
    List.flatMap_congr fun pd hpd => (hkept pd hpd).spaceChunks_eq
  refine ⟨⟨?_, hinv.inside, hinv.ram, fun pd hpd => ?_, ⟨hinv.init.1, hinit⟩, fun i hi => ?_⟩,
    fun ht => ?_, fun va hva => ?_, fun pd hpd va hva => (hkept pd hpd).pteAt_eq hva,
    Inv.keeps_of_agree hagree⟩
  · refine (hinv.exact.setMemory _).perm ?_
    rw [List.flatMap_cons]
    change (spaces.flatMap _ ++ _).Perm (spaceChunks (k.memory.copy _ _ _) t ++
      spaces.flatMap (spaceChunks (k.memory.copy _ _ _)) ++ others)
    rw [hchunks, hsame]
    exact List.perm_middle
  · rcases List.mem_cons.mp hpd with rfl | hpd
    · refine ⟨fun i hi => Or.inl (hzero i hi), fun i _ hhigh => ?_⟩
      exact (hcopy i hhigh).trans (entryAt_congr hinitAgree hhigh).symm
    · exact (hkept pd hpd).space hinitAgree (hinv.space pd (hpd))
  · exact (entryAt_congr hinitAgree (lt_entryCnt hi)).trans (hinv.user i hi)
  · exact hnot (Inv.mem_held ht List.mem_cons_self)
  · change pteAt (k.memory.copy _ _ _) t va = 0
    rw [pteAt, hzero _ (pdNo_lt hva), frame_zero]

theorem Inv.create_cases (hinv : k.Inv initPage spaces others) :
    (∃ pd k', k.pagedirCreate = some (pd * pgsize, k') ∧ pd * pgsize ≠ 0 ∧
      Created k k' initPage spaces others pd) ∨
    (k.pagedirCreate = some (0, k) ∧ k.pages.Full false 1) := by
  rw [pagedirCreate, pallocGetPage]
  rcases Palloc.pallocGetMultiple_cases hinv.exact noFlags 1 with
    ⟨pages, s, t, hget, hgot⟩ | ⟨hfull, hget⟩
  · obtain ⟨hinv', hagree⟩ := hinv.get hgot
    have hne : t * pgsize ≠ 0 := Nat.mul_ne_zero (Nat.ne_of_gt hgot.positive) (by decide)
    have hcreated := Inv.addSpace (k := k.setPages s) hinv' hinv.init.2
    refine Or.inl ⟨t, _, ?_, hne, hcreated.inv, hcreated.fresh, hcreated.empty,
      fun pd hpd va hva => ?_, fun pd hpd va hva n hn => ?_, fun c hc => ?_⟩
    · rw [hget, hgot.address, ← hinv.init.1]
      change (if t * pgsize ≠ 0 then _ else _) = _
      rw [if_pos hne]
      rfl
    · rw [hcreated.pteAt_eq pd hpd va hva]
      exact (Inv.kept_of_agree hpd hagree).pteAt_eq hva
    · refine (hagree (frameChunk n) (Inv.mem_held hpd (mem_spaceChunks_frame hva hn))).trans ?_
      refine hcreated.keeps.frames pd hpd va hva n ?_
      exact (congrArg frame ((Inv.kept_of_agree hpd hagree).pteAt_eq hva)).trans hn
    · exact (hagree c (List.mem_append_right _ hc)).trans (hcreated.keeps.others c hc)
  · refine Or.inr ⟨?_, hfull.resolve_left (by decide)⟩
    rw [hget, if_neg fun hassert => Bool.false_ne_true hassert.2]
    rfl

end Kernel

end PageTables

end PintosLabs
