/-
What the functions of userprog/pagedir.c do to the address spaces: which pages they
take and give back, and what the other address spaces see of it.
-/
import PintosLabs.AddressSpaces

namespace PintosLabs

open Exec (pgsize physBase)

namespace PageTables

open Palloc (Chunk State Flags noFlags pallocGetPage pallocFreePage apart_addresses)

variable {m m' : ByteMemory} {pd pt va i j n : Nat} {k k' : Kernel} {initPage : Nat}
  {spaces : List Nat} {others : List Chunk} {w : BitVec 32}

/-! Storing an entry. -/

theorem entryAt_storeWord_self (m : ByteMemory) (page i : Nat) (w : BitVec 32) :
    entryAt (m.storeWord (page * pgsize + 4 * i) w) page i = w :=
  ByteMemory.loadWord_storeWord w

theorem entryAt_storeWord_of_ne {page i' : Nat} (hne : i' ≠ i) :
    entryAt (m.storeWord (page * pgsize + 4 * i) w) page i' = entryAt m page i' :=
  ByteMemory.loadWord_storeWord_of_apart (by omega)

theorem agree_storeEntry {page a size : Nat} (hi : i < entryCnt)
    (hout : a + size ≤ page * pgsize ∨ page * pgsize + pgsize ≤ a) :
    m.Agree (m.storeWord (page * pgsize + 4 * i) w) a size := by
  obtain ⟨hlow, hhigh⟩ := entry_inside page hi
  exact (ByteMemory.agree_storeWord (by omega)).symm

/-- Entries of tables that are not in this page are what they were. -/
theorem agree_storeEntry_page {page page' : Nat} (hi : i < entryCnt) (hne : page' ≠ page) :
    m.Agree (m.storeWord (page * pgsize + 4 * i) w) (page' * pgsize) pgsize := by
  refine agree_storeEntry hi ?_
  rw [pgsize]
  omega

/-! The pages that are held. -/

namespace Kernel

/-- The frames of the address spaces and the pages of others hold what they held. -/
structure Keeps (k k' : Kernel) (spaces : List Nat) (others : List Chunk) : Prop where
  frames : ∀ pd ∈ spaces, ∀ va < physBase, ∀ n, mapped k.memory pd va = some n →
    k.memory.Agree k'.memory (n * pgsize) pgsize
  others : ∀ c ∈ others, k.memory.Agree k'.memory c.address (pgsize * c.cnt)

/-- All pages that are held. -/
def held (k : Kernel) (spaces : List Nat) (others : List Chunk) : List Chunk :=
  spaces.flatMap (spaceChunks k.memory) ++ others

theorem Inv.mem_held (hpd : pd ∈ spaces) {c : Chunk} (hc : c ∈ spaceChunks k.memory pd) :
    c ∈ k.held spaces others :=
  List.mem_append_left _ (List.mem_flatMap.mpr ⟨pd, hpd, hc⟩)

theorem Inv.bounds (hinv : k.Inv initPage spaces others) {c : Chunk}
    (hc : c ∈ k.held spaces others) : pgNo physBase ≤ c.page ∧ c.page + c.cnt ≤ 2 ^ 20 := by
  obtain ⟨_, hlow, hhigh⟩ := hinv.exact.inside c hc
  obtain ⟨hstart, hstop⟩ := hinv.inside c.user
  have hram := hinv.ram
  have hbase : pgNo physBase + 2 ^ 18 = 2 ^ 20 := by decide
  omega

theorem Inv.bounds_page (hinv : k.Inv initPage spaces others)
    (hc : pageChunk n ∈ k.held spaces others) : pgNo physBase ≤ n ∧ n < 2 ^ 20 := by
  obtain ⟨hlow, hhigh⟩ := hinv.bounds hc
  exact ⟨hlow, hhigh⟩

theorem Inv.bounds_frame (hinv : k.Inv initPage spaces others)
    (hc : frameChunk n ∈ k.held spaces others) : pgNo physBase ≤ n ∧ n < 2 ^ 20 := by
  obtain ⟨hlow, hhigh⟩ := hinv.bounds hc
  exact ⟨hlow, hhigh⟩

theorem lt_twice (hn : n < 2 ^ 20) : n < 2 * pgNo physBase :=
  Nat.lt_trans hn (by decide)

theorem Inv.pd_ne_zero (hinv : k.Inv initPage spaces others) (hpd : pd ∈ spaces) :
    pd * pgsize ≠ 0 := by
  have hlow := (hinv.bounds_page (Inv.mem_held hpd List.mem_cons_self)).1
  have hbase : 0 < pgNo physBase := by decide
  exact Nat.mul_ne_zero (by omega) (by decide)

theorem Inv.nodup_flat (hinv : k.Inv initPage spaces others) :
    (spaces.flatMap (spaceChunks k.memory)).Nodup :=
  (List.nodup_append.mp hinv.exact.nodup).1

theorem Inv.nodup_spaces (hinv : k.Inv initPage spaces others) : spaces.Nodup := by
  have hflat := hinv.nodup_flat
  rw [List.nodup_flatMap] at hflat
  refine hflat.2.imp fun {pd pd'} hdisjoint heq => ?_
  subst heq
  exact hdisjoint List.mem_cons_self List.mem_cons_self

/-- A page belongs to one address space. -/
theorem Inv.space_unique (hinv : k.Inv initPage spaces others) {pd' : Nat} {c : Chunk}
    (hpd : pd ∈ spaces) (hpd' : pd' ∈ spaces) (hc : c ∈ spaceChunks k.memory pd)
    (hc' : c ∈ spaceChunks k.memory pd') : pd = pd' :=
  eq_of_flatMap_nodup hinv.nodup_flat hpd hpd' hc hc'

theorem Inv.nodup_space (hinv : k.Inv initPage spaces others) (hpd : pd ∈ spaces) :
    (spaceChunks k.memory pd).Nodup :=
  (List.nodup_flatMap.mp hinv.nodup_flat).1 pd hpd

/-- Two addresses of an address space that are mapped to one page are on one page. -/
theorem Inv.mapped_inj (hinv : k.Inv initPage spaces others) {pd' va' : Nat} (hpd : pd ∈ spaces)
    (hpd' : pd' ∈ spaces) (hva : va < physBase) (hva' : va' < physBase)
    (hn : mapped k.memory pd va = some n) (hn' : mapped k.memory pd' va' = some n) :
    pd = pd' ∧ pgNo va = pgNo va' := by
  have heq := hinv.space_unique hpd hpd' (mem_spaceChunks_frame hva hn)
    (mem_spaceChunks_frame hva' hn')
  subst heq
  refine ⟨rfl, ?_⟩
  have hnodup := (List.nodup_cons.mp (hinv.nodup_space hpd)).2
  rw [mapped, pteAt] at hn hn'
  cases hpt : frame (entryAt k.memory pd (pdNo va)) with
  | none =>
      rw [hpt, frame_zero] at hn
      cases hn
  | some pt =>
      cases hpt' : frame (entryAt k.memory pd (pdNo va')) with
      | none =>
          rw [hpt', frame_zero] at hn'
          cases hn'
      | some pt' =>
          rw [hpt] at hn
          rw [hpt'] at hn'
          have hi : pdNo va = pdNo va' := eq_of_flatMap_nodup hnodup
            (List.mem_range.mpr (pdNo_lt hva)) (List.mem_range.mpr (pdNo_lt hva'))
            (mem_tableChunks_frame (ptNo_lt va) hpt hn)
            (mem_tableChunks_frame (ptNo_lt va') hpt' hn')
          rw [← hi, hpt] at hpt'
          obtain rfl := Option.some.inj hpt'
          have htable := (List.nodup_flatMap.mp hnodup).1 (pdNo va)
            (List.mem_range.mpr (pdNo_lt hva))
          rw [tableChunks, hpt] at htable
          have hframes := (List.nodup_cons.mp htable).2.of_map
          have hj : ptNo va = ptNo va' := eq_of_filterMap_nodup hframes
            (List.mem_range.mpr (ptNo_lt va)) (List.mem_range.mpr (ptNo_lt va')) hn hn'
          exact pgNo_eq_of_entries hi hj

theorem Inv.table_ne_dir (hinv : k.Inv initPage spaces others) (hpd : pd ∈ spaces)
    (hi : i < userEntryCnt) (hpt : frame (entryAt k.memory pd i) = some pt) : pt ≠ pd := by
  rintro rfl
  refine (List.nodup_cons.mp (hinv.nodup_space hpd)).1 ?_
  refine List.mem_flatMap.mpr ⟨i, List.mem_range.mpr hi, ?_⟩
  rw [tableChunks, hpt]
  exact List.mem_cons_self

theorem Inv.table_inj (hinv : k.Inv initPage spaces others) (hpd : pd ∈ spaces) {i' : Nat}
    (hi : i < userEntryCnt) (hi' : i' < userEntryCnt)
    (hpt : frame (entryAt k.memory pd i) = some pt)
    (hpt' : frame (entryAt k.memory pd i') = some pt) : i = i' := by
  refine eq_of_flatMap_nodup (b := pageChunk pt) (List.nodup_cons.mp (hinv.nodup_space hpd)).2
    (List.mem_range.mpr hi) (List.mem_range.mpr hi') ?_ ?_
  · rw [tableChunks, hpt]
    exact List.mem_cons_self
  · rw [tableChunks, hpt']
    exact List.mem_cons_self

/-- Another address space does not see what is stored into a page of this one. -/
theorem Inv.kept_store (hinv : k.Inv initPage spaces others) (hpd : pd ∈ spaces) {pd' page : Nat}
    (hpd' : pd' ∈ spaces) (hne : pd' ≠ pd) (hpage : pageChunk page ∈ spaceChunks k.memory pd)
    (hj : j < entryCnt) : Kept k.memory (k.memory.storeWord (page * pgsize + 4 * j) w) pd' := by
  have hother : ∀ page', pageChunk page' ∈ spaceChunks k.memory pd' → page' ≠ page := by
    rintro page' hpage' rfl
    exact hne (hinv.space_unique hpd' hpd hpage' hpage)
  refine ⟨agree_storeEntry_page hj (hother _ List.mem_cons_self), fun i hi pt hpt => ?_⟩
  exact agree_storeEntry_page hj (hother _ (mem_spaceChunks_table hi hpt))

/-- Nor does a frame, or a page of others. -/
theorem Inv.agree_store (hinv : k.Inv initPage spaces others) (hpd : pd ∈ spaces) {page : Nat}
    (hpage : pageChunk page ∈ spaceChunks k.memory pd) (hj : j < entryCnt) {c : Chunk}
    (hc : c ∈ k.held spaces others) (hne : c ≠ pageChunk page) :
    k.memory.Agree (k.memory.storeWord (page * pgsize + 4 * j) w) c.address
      (pgsize * c.cnt) := by
  have happart := apart_addresses (hinv.exact.apart_of_ne hc (Inv.mem_held hpd hpage) hne)
  exact agree_storeEntry hj happart

theorem frameChunk_ne_pageChunk (n page : Nat) : frameChunk n ≠ pageChunk page := by
  intro heq
  cases congrArg Chunk.user heq

theorem Inv.keeps_store (hinv : k.Inv initPage spaces others) (hpd : pd ∈ spaces) {page : Nat}
    (hpage : pageChunk page ∈ spaceChunks k.memory pd) (hj : j < entryCnt) :
    k.Keeps (k.storeWord (page * pgsize + 4 * j) w) spaces others where
  frames pd' hpd' va hva n hn :=
    hinv.agree_store (c := frameChunk n) hpd hpage hj
      (Inv.mem_held hpd' (mem_spaceChunks_frame hva hn)) (frameChunk_ne_pageChunk n page)
  others c hc := by
    refine hinv.agree_store hpd hpage hj (List.mem_append_right _ hc) ?_
    rintro rfl
    exact (List.nodup_append.mp hinv.exact.nodup).2.2 _
      (List.mem_flatMap.mpr ⟨pd, hpd, hpage⟩) _ hc rfl

/-- The pages of the address spaces when those of one directory entry have changed. -/
theorem spaces_perm (more : List Chunk) (hnodup : spaces.Nodup) (hpd : pd ∈ spaces)
    (hi : i < userEntryCnt)
    (hother : ∀ pd' ∈ spaces, pd' ≠ pd → spaceChunks m' pd' = spaceChunks m pd')
    (htables : ∀ i' < userEntryCnt, i' ≠ i → tableChunks m' pd i' = tableChunks m pd i')
    (htable : (tableChunks m' pd i).Perm (more ++ tableChunks m pd i)) :
    (spaces.flatMap (spaceChunks m')).Perm (more ++ spaces.flatMap (spaceChunks m)) := by
  refine flatMap_perm hnodup hpd ?_ hother
  have hflat := flatMap_perm List.nodup_range (List.mem_range.mpr hi) htable
    fun i' hi' hne => htables i' (List.mem_range.mp hi') hne
  exact (hflat.cons (pageChunk pd)).trans List.perm_middle.symm

/-! An entry of a page table is set. -/

section SetEntry

variable (hinv : k.Inv initPage spaces others) (hpd : pd ∈ spaces) (hi : i < userEntryCnt)
  (hpt : frame (entryAt k.memory pd i) = some pt) (hj : j < entryCnt)

include hinv hpd hi hpt hj

theorem Inv.dir_agree :
    k.memory.Agree (k.memory.storeWord (pt * pgsize + 4 * j) w) (pd * pgsize) pgsize :=
  agree_storeEntry_page hj (hinv.table_ne_dir hpd hi hpt).symm

theorem Inv.tables_agree {i' pt' : Nat} (hi' : i' < userEntryCnt) (hne : i' ≠ i)
    (hpt' : frame (entryAt k.memory pd i') = some pt') :
    k.memory.Agree (k.memory.storeWord (pt * pgsize + 4 * j) w) (pt' * pgsize) pgsize := by
  refine agree_storeEntry_page hj ?_
  rintro rfl
  exact hne (hinv.table_inj hpd hi' hi hpt' hpt)

theorem Inv.pteAt_setEntry {va : Nat} (hva : va < physBase) :
    pteAt (k.storeWord (pt * pgsize + 4 * j) w).memory pd va =
      if pdNo va = i ∧ ptNo va = j then w else pteAt k.memory pd va := by
  have hentry := entryAt_congr (hinv.dir_agree (w := w) hpd hi hpt hj) (lt_entryCnt (pdNo_lt hva))
  change pteAt (k.memory.storeWord _ w) pd va = _
  rw [pteAt, hentry]
  by_cases hpdNo : pdNo va = i
  · rw [hpdNo, hpt]
    by_cases hptNo : ptNo va = j
    · rw [if_pos ⟨rfl, hptNo⟩, hptNo]
      exact entryAt_storeWord_self k.memory pt j w
    · rw [if_neg fun hboth => hptNo hboth.2, pteAt, hpdNo, hpt]
      exact entryAt_storeWord_of_ne hptNo
  · rw [if_neg fun hboth => hpdNo hboth.1, pteAt]
    cases hpt' : frame (entryAt k.memory pd (pdNo va)) with
    | none => rfl
    | some pt' =>
        exact entryAt_congr (hinv.tables_agree hpd hi hpt hj (pdNo_lt hva) hpdNo hpt') (ptNo_lt va)

/-- What the invariant needs when an entry of a page table is set: the pages are the
same, whoever they belong to. -/
theorem Inv.setEntry {others' : List Chunk}
    (hheld : (k.held spaces others).Perm
      ((k.storeWord (pt * pgsize + 4 * j) w).held spaces others'))
    (hothers : pageChunk initPage ∈ others') :
    (k.storeWord (pt * pgsize + 4 * j) w).Inv initPage spaces others' := by
  have hpage := mem_spaceChunks_table hi hpt
  have hinit := (hinv.keeps_store (w := w) hpd hpage hj).others _ hinv.init.2
  have hinit' : k.memory.Agree (k.memory.storeWord (pt * pgsize + 4 * j) w) (initPage * pgsize)
      pgsize := hinit
  refine ⟨(hinv.exact.setMemory _).perm hheld, hinv.inside, hinv.ram, fun pd' hpd' => ?_,
    ⟨hinv.init.1, hothers⟩, fun i' hi' => ?_⟩
  · by_cases hne : pd' = pd
    · subst hne
      have hdir := hinv.dir_agree (w := w) hpd hi hpt hj
      have hspace := hinv.space pd' hpd
      refine ⟨fun i' hi' => ?_, fun i' hlow hhigh => ?_⟩
      · change entryAt (k.memory.storeWord _ w) _ _ = 0 ∨
          (frame (entryAt (k.memory.storeWord _ w) _ _)).isSome = true
        rw [entryAt_congr hdir (lt_entryCnt hi')]
        exact hspace.zero i' hi'
      · change entryAt (k.memory.storeWord _ w) _ _ = entryAt (k.memory.storeWord _ w) _ _
        rw [entryAt_congr hdir hhigh, entryAt_congr hinit' hhigh]
        exact hspace.kernel i' hlow hhigh
    · exact (hinv.kept_store hpd hpd' hne hpage hj).space hinit' (hinv.space pd' hpd')
  · exact (entryAt_congr hinit' (lt_entryCnt hi')).trans (hinv.user i' hi')

theorem Inv.tableChunks_setEntry (b : BitVec 32) :
    tableChunks (k.memory.storeWord (pt * pgsize + 4 * j) b) pd i =
      pageChunk pt ::
        (tableFrames (k.memory.storeWord (pt * pgsize + 4 * j) b) pt).map frameChunk := by
  rw [tableChunks, entryAt_congr (hinv.dir_agree hpd hi hpt hj) (lt_entryCnt hi), hpt]

/-- The chunks of the address spaces when an entry of a page table is set. -/
theorem Inv.chunks_setEntry {more : List Nat}
    (hframes : (tableFrames (k.memory.storeWord (pt * pgsize + 4 * j) w) pt).Perm
      (more ++ tableFrames k.memory pt)) :
    (spaces.flatMap (spaceChunks (k.memory.storeWord (pt * pgsize + 4 * j) w))).Perm
      (more.map frameChunk ++ spaces.flatMap (spaceChunks k.memory)) := by
  refine spaces_perm (more.map frameChunk) hinv.nodup_spaces hpd hi (fun pd' hpd' hne => ?_)
    (fun i' hi' hne => ?_) ?_
  · exact (hinv.kept_store hpd hpd' hne (mem_spaceChunks_table hi hpt) hj).spaceChunks_eq
  · refine tableChunks_congr ?_ fun pt' hpt' => hinv.tables_agree hpd hi hpt hj hi' hne hpt'
    exact entryAt_congr (hinv.dir_agree hpd hi hpt hj) (lt_entryCnt hi')
  · rw [hinv.tableChunks_setEntry hpd hi hpt hj, tableChunks, hpt]
    have hmap := (hframes.map frameChunk).cons (pageChunk pt)
    rw [List.map_append] at hmap
    exact hmap.trans List.perm_middle.symm

end SetEntry

/-! Which frames a table has when an entry of it is set. -/

theorem frame_entryAt_storeWord {j' : Nat} (m : ByteMemory) (hne : j' ≠ j) :
    frame (entryAt (m.storeWord (pt * pgsize + 4 * j) w) pt j') = frame (entryAt m pt j') := by
  rw [entryAt_storeWord_of_ne hne]

theorem tableFrames_set (hj : j < entryCnt) (hold : frame (entryAt m pt j) = none)
    (hw : frame w = some n) :
    (tableFrames (m.storeWord (pt * pgsize + 4 * j) w) pt).Perm (n :: tableFrames m pt) := by
  refine filterMap_perm_cons List.nodup_range (List.mem_range.mpr hj) ?_ hold
    fun j' _ hne => frame_entryAt_storeWord m hne
  rw [entryAt_storeWord_self]
  exact hw

theorem tableFrames_clear (hj : j < entryCnt) (hold : frame (entryAt m pt j) = some n)
    (hw : frame w = none) :
    (tableFrames m pt).Perm (n :: tableFrames (m.storeWord (pt * pgsize + 4 * j) w) pt) := by
  refine filterMap_perm_cons List.nodup_range (List.mem_range.mpr hj) hold ?_
    fun j' _ hne => (frame_entryAt_storeWord m hne).symm
  rw [entryAt_storeWord_self]
  exact hw

theorem tableFrames_mark (hw : frame w = frame (entryAt m pt j)) :
    tableFrames (m.storeWord (pt * pgsize + 4 * j) w) pt = tableFrames m pt := by
  refine List.filterMap_congr fun j' _ => ?_
  by_cases hne : j' = j
  · rw [hne, entryAt_storeWord_self]
    exact hw
  · exact frame_entryAt_storeWord m hne

/-- The chunks when an entry is cleared. -/
theorem Inv.chunks_clearEntry (hinv : k.Inv initPage spaces others) (hpd : pd ∈ spaces)
    (hi : i < userEntryCnt) (hpt : frame (entryAt k.memory pd i) = some pt) (hj : j < entryCnt)
    (hold : frame (entryAt k.memory pt j) = some n) (hw : frame w = none) :
    (spaces.flatMap (spaceChunks k.memory)).Perm (frameChunk n ::
      spaces.flatMap (spaceChunks (k.memory.storeWord (pt * pgsize + 4 * j) w))) := by
  refine spaces_perm [frameChunk n] hinv.nodup_spaces hpd hi
    (fun pd' hpd' hne => ?_) (fun i' hi' hne => ?_) ?_
  · exact (hinv.kept_store hpd hpd' hne (mem_spaceChunks_table hi hpt) hj).spaceChunks_eq.symm
  · refine (tableChunks_congr ?_ fun pt' hpt' =>
      hinv.tables_agree hpd hi hpt hj hi' hne hpt').symm
    exact entryAt_congr (hinv.dir_agree hpd hi hpt hj) (lt_entryCnt hi')
  · rw [hinv.tableChunks_setEntry hpd hi hpt hj, tableChunks, hpt]
    have hmap := ((tableFrames_clear hj hold hw).map frameChunk).cons (pageChunk pt)
    exact hmap.trans (List.Perm.swap _ _ _)

/-! Pages that are taken and given back. -/

/-- The invariant when memory changes that belongs to none of the address spaces that
are left. -/
theorem Inv.change (hinv : k.Inv initPage spaces others) {left : List Nat} {s : State}
    {others' : List Chunk} (hleft : ∀ pd ∈ left, pd ∈ spaces)
    (hkept : ∀ pd ∈ left, Kept k.memory s.memory pd)
    (hinit : k.memory.Agree s.memory (initPage * pgsize) pgsize)
    (hexact : s.Exact (left.flatMap (spaceChunks k.memory) ++ others'))
    (hshape : k.pages.SameShape s) (hothers : pageChunk initPage ∈ others') :
    (k.setPages s).Inv initPage left others' where
  exact := by
    have hsame : left.flatMap (spaceChunks s.memory) = left.flatMap (spaceChunks k.memory) :=
      List.flatMap_congr fun pd hpd => (hkept pd hpd).spaceChunks_eq
    change s.Exact (left.flatMap (spaceChunks s.memory) ++ others')
    rw [hsame]
    exact hexact
  inside user := by
    change pgNo physBase ≤ (s.pool user).start ∧ (s.pool user).stop ≤ _
    rw [(hshape user).1, (hshape user).2.1]
    exact hinv.inside user
  ram := hinv.ram
  space pd hpd := (hkept pd hpd).space hinit (hinv.space pd (hleft pd hpd))
  init := ⟨hinv.init.1, hothers⟩
  user i hi := (entryAt_congr hinit (lt_entryCnt hi)).trans (hinv.user i hi)

theorem Inv.kept_of_agree (hpd : pd ∈ spaces)
    (hagree : ∀ c ∈ k.held spaces others, k.memory.Agree m' c.address (pgsize * c.cnt)) :
    Kept k.memory m' pd := by
  have hpages : ∀ page, pageChunk page ∈ spaceChunks k.memory pd →
      k.memory.Agree m' (page * pgsize) pgsize :=
    fun page hpage => hagree (pageChunk page) (Inv.mem_held hpd hpage)
  exact ⟨hpages pd List.mem_cons_self, fun i hi pt hpt => hpages pt (mem_spaceChunks_table hi hpt)⟩

theorem Inv.keeps_of_agree
    (hagree : ∀ c ∈ k.held spaces others, k.memory.Agree k'.memory c.address (pgsize * c.cnt)) :
    k.Keeps k' spaces others where
  frames pd hpd va hva n hn :=
    hagree (frameChunk n) (Inv.mem_held hpd (mem_spaceChunks_frame hva hn))
  others c hc := hagree c (List.mem_append_right _ hc)

/-- A page is taken. -/
theorem Inv.get (hinv : k.Inv initPage spaces others) {flags : Flags} {pages page : Nat}
    {s : State} (hgot : Palloc.Got flags 1 (k.held spaces others) k.pages pages s page) :
    (k.setPages s).Inv initPage spaces (⟨page, 1, flags.user⟩ :: others) ∧
      (∀ c ∈ k.held spaces others, k.memory.Agree s.memory c.address (pgsize * c.cnt)) := by
  have hagree : ∀ c ∈ k.held spaces others,
      k.memory.Agree s.memory c.address (pgsize * c.cnt) := by
    intro c hc
    have happart := apart_addresses ((List.pairwise_cons.mp hgot.exact.apart).1 c hc)
    rw [hgot.memory, hgot.address]
    split
    · exact (ByteMemory.agree_fill (Or.symm happart)).symm
    · exact ByteMemory.Agree.refl _ _ _
  refine ⟨hinv.change (fun _ hpd => hpd)
    (fun pd hpd => Inv.kept_of_agree hpd hagree) ?_ ?_ hgot.shape ?_, hagree⟩
  · exact hagree (pageChunk initPage) (List.mem_append_right _ hinv.init.2)
  · exact hgot.exact.perm List.perm_middle.symm
  · exact List.mem_cons_of_mem _ hinv.init.2

/-- A page of others is given back. -/
theorem Inv.exists_free (hinv : k.Inv initPage spaces (⟨n, 1, true⟩ :: others)) :
    ∃ s, pallocFreePage (n * pgsize) k.pages = some s ∧
      (k.setPages s).Inv initPage spaces others ∧
      ∀ c ∈ k.held spaces others, k.memory.Agree s.memory c.address (pgsize * c.cnt) := by
  have hperm : (k.held spaces (⟨n, 1, true⟩ :: others)).Perm
      (⟨n, 1, true⟩ :: k.held spaces others) := List.perm_middle
  obtain ⟨s, hfree, hexact, hshape, hmemory⟩ :=
    Palloc.exists_pallocFreeMultiple (hinv.exact.perm hperm)
  have hagree : ∀ c ∈ k.held spaces others,
      k.memory.Agree s.memory c.address (pgsize * c.cnt) := by
    intro c hc
    have happart := apart_addresses
      ((List.pairwise_cons.mp (hinv.exact.perm hperm).apart).1 c hc)
    rw [hmemory]
    exact (ByteMemory.agree_fill (Or.symm happart)).symm
  have hinit : pageChunk initPage ∈ others := by
    rcases List.mem_cons.mp hinv.init.2 with heq | hmem
    · cases congrArg Chunk.user heq
    · exact hmem
  refine ⟨s, hfree, hinv.change (fun _ hpd => hpd)
    (fun pd hpd => Inv.kept_of_agree hpd hagree) ?_ hexact hshape
    hinit, hagree⟩
  exact hagree (pageChunk initPage) (List.mem_append_right _ hinit)

end Kernel

end PageTables

end PintosLabs
