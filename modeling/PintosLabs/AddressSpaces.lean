/-
The pages of an address space: its page directory, the page tables that the
directory points to, and the frames that those point to.  Which pages these are is
read from memory; nothing else says it.
-/
import Mathlib.Data.List.Flatten
import PintosLabs.PageTables

namespace PintosLabs

open Exec (pgsize physBase)

/-! Lists whose elements come from positions. -/

section Positions

variable {α β : Type*} {l : List α} {a : α}

/-- A position that gives one element more. -/
theorem filterMap_perm_cons {f g : α → Option β} {b : β} (hnodup : l.Nodup) (ha : a ∈ l)
    (hf : f a = some b) (hg : g a = none) (hsame : ∀ a' ∈ l, a' ≠ a → f a' = g a') :
    (l.filterMap f).Perm (b :: l.filterMap g) := by
  classical
  have hperm := List.perm_cons_erase ha
  have herase : (l.erase a).filterMap f = (l.erase a).filterMap g :=
    List.filterMap_congr fun a' ha' =>
      hsame a' (List.mem_of_mem_erase ha') ((List.Nodup.mem_erase_iff hnodup).mp ha').1
  calc (l.filterMap f).Perm ((a :: l.erase a).filterMap f) := hperm.filterMap f
    _ = b :: (l.erase a).filterMap g := by rw [List.filterMap_cons_some hf, herase]
    _ = b :: (a :: l.erase a).filterMap g := by rw [List.filterMap_cons_none hg]
    List.Perm _ (b :: l.filterMap g) := (hperm.filterMap g).symm.cons b

theorem flatMap_perm {f g : α → List β} {more : List β} (hnodup : l.Nodup) (ha : a ∈ l)
    (hf : (f a).Perm (more ++ g a)) (hsame : ∀ a' ∈ l, a' ≠ a → f a' = g a') :
    (l.flatMap f).Perm (more ++ l.flatMap g) := by
  classical
  have hperm := List.perm_cons_erase ha
  have herase : (l.erase a).flatMap f = (l.erase a).flatMap g :=
    List.flatMap_congr fun a' ha' =>
      hsame a' (List.mem_of_mem_erase ha') ((List.Nodup.mem_erase_iff hnodup).mp ha').1
  have hgperm : (g a ++ (l.erase a).flatMap g).Perm (l.flatMap g) :=
    (hperm.flatMap_right g).symm
  calc (l.flatMap f).Perm (f a ++ (l.erase a).flatMap f) := hperm.flatMap_right f
    _ = f a ++ (l.erase a).flatMap g := by rw [herase]
    List.Perm _ (more ++ g a ++ (l.erase a).flatMap g) := hf.append_right _
    List.Perm _ (more ++ l.flatMap g) := by
      rw [List.append_assoc]
      exact hgperm.append_left more

/-- Where no element occurs twice, it comes from one position only. -/
theorem eq_of_filterMap_nodup {f : α → Option β} {b : β} {a' : α}
    (hnodup : (l.filterMap f).Nodup) (ha : a ∈ l) (ha' : a' ∈ l) (hf : f a = some b)
    (hf' : f a' = some b) : a = a' := by
  classical
  by_contra hne
  have hperm := (List.perm_cons_erase ha).filterMap f
  rw [List.filterMap_cons_some hf] at hperm
  refine (List.nodup_cons.mp (hperm.nodup_iff.mp hnodup)).1 ?_
  exact List.mem_filterMap.mpr ⟨a', (List.mem_erase_of_ne (Ne.symm hne)).mpr ha', hf'⟩

theorem eq_of_flatMap_nodup {f : α → List β} {b : β} {a' : α} (hnodup : (l.flatMap f).Nodup)
    (ha : a ∈ l) (ha' : a' ∈ l) (hf : b ∈ f a) (hf' : b ∈ f a') : a = a' := by
  classical
  by_contra hne
  have hperm := (List.perm_cons_erase ha).flatMap_right f
  rw [List.flatMap_cons] at hperm
  refine (List.nodup_append.mp (hperm.nodup_iff.mp hnodup)).2.2 b hf b ?_ rfl
  exact List.mem_flatMap.mpr ⟨a', (List.mem_erase_of_ne (Ne.symm hne)).mpr ha', hf'⟩

end Positions

namespace PageTables

open Palloc (Chunk State)

/-- A page that the kernel uses for itself. -/
def pageChunk (page : Nat) : Chunk := ⟨page, 1, false⟩

/-- A page of user memory. -/
def frameChunk (page : Nat) : Chunk := ⟨page, 1, true⟩

/-- An entry of the table, or directory, in a page. -/
def entryAt (m : ByteMemory) (page i : Nat) : BitVec 32 := m.loadWord (page * pgsize + 4 * i)

def tableFrames (m : ByteMemory) (pt : Nat) : List Nat :=
  (List.range entryCnt).filterMap fun j => frame (entryAt m pt j)

/-- The page table of a directory entry, and its frames. -/
def tableChunks (m : ByteMemory) (pd i : Nat) : List Chunk :=
  match frame (entryAt m pd i) with
  | none => []
  | some pt => pageChunk pt :: (tableFrames m pt).map frameChunk

/-- The pages of an address space. -/
def spaceChunks (m : ByteMemory) (pd : Nat) : List Chunk :=
  pageChunk pd :: (List.range userEntryCnt).flatMap (tableChunks m pd)

/-- Where the page table entry of an address is, if there is a page table. -/
def pteOf (m : ByteMemory) (pd va : Nat) : Option Nat :=
  (frame (entryAt m pd (pdNo va))).map fun pt => pt * pgsize + 4 * ptNo va

/-- The page table entry of an address. -/
def pteAt (m : ByteMemory) (pd va : Nat) : BitVec 32 :=
  match frame (entryAt m pd (pdNo va)) with
  | none => 0
  | some pt => entryAt m pt (ptNo va)

/-- The page that an address is mapped to. -/
def mapped (m : ByteMemory) (pd va : Nat) : Option Nat := frame (pteAt m pd va)

/-- What holds of a page directory beside its pages: entries that are not present are
zero, and kernel memory is where it is for everybody. -/
structure Space (m : ByteMemory) (initPage pd : Nat) : Prop where
  zero : ∀ i < userEntryCnt, entryAt m pd i = 0 ∨ (frame (entryAt m pd i)).isSome = true
  kernel : ∀ i, userEntryCnt ≤ i → i < entryCnt → entryAt m pd i = entryAt m initPage i

/-- The pages in use are those of the address spaces, and others. -/
structure Kernel.Inv (k : Kernel) (initPage : Nat) (spaces : List Nat) (others : List Chunk) :
    Prop where
  exact : k.pages.Exact (spaces.flatMap (spaceChunks k.memory) ++ others)
  inside : ∀ user, pgNo physBase ≤ (k.pages.pool user).start ∧
    (k.pages.pool user).stop ≤ pgNo physBase + k.initRamPages
  ram : k.initRamPages ≤ 2 ^ 18
  space : ∀ pd ∈ spaces, Space k.memory initPage pd
  init : k.initPageDir = initPage * pgsize ∧ pageChunk initPage ∈ others
  user : ∀ i < userEntryCnt, entryAt k.memory initPage i = 0

variable {m m' : ByteMemory} {pd pt va i : Nat} {k k' : Kernel} {initPage : Nat}
  {spaces : List Nat} {others : List Chunk}

@[simp] theorem address_pageChunk (page : Nat) : (pageChunk page).address = page * pgsize := rfl

@[simp] theorem address_frameChunk (page : Nat) : (frameChunk page).address = page * pgsize := rfl

/-! Numbers of entries. -/

theorem ptNo_lt (va : Nat) : ptNo va < entryCnt := Nat.mod_lt _ (by decide)

theorem pdNo_lt (hva : va < physBase) : pdNo va < userEntryCnt := by
  rw [userEntryCnt, pdNo, pdNo]
  refine (Nat.div_lt_iff_lt_mul (by decide)).mpr (Nat.lt_of_lt_of_le hva ?_)
  decide

theorem userEntryCnt_lt : userEntryCnt < entryCnt := by decide

/-- Two addresses that share both numbers are on one page. -/
theorem pgNo_eq_of_entries {va va' : Nat} (hpd : pdNo va = pdNo va') (hpt : ptNo va = ptNo va') :
    pgNo va = pgNo va' := by
  rw [pdNo, pdNo, ← Nat.div_div_eq_div_mul, ← Nat.div_div_eq_div_mul] at hpd
  rw [ptNo, ptNo] at hpt
  rw [pgNo, pgNo, ← Nat.div_add_mod (va / pgsize) entryCnt, hpd, hpt, Nat.div_add_mod]

theorem pdNo_eq_of_pgNo {va va' : Nat} (h : pgNo va = pgNo va') : pdNo va = pdNo va' := by
  rw [pgNo, pgNo] at h
  rw [pdNo, pdNo, ← Nat.div_div_eq_div_mul, ← Nat.div_div_eq_div_mul, h]

theorem ptNo_eq_of_pgNo {va va' : Nat} (h : pgNo va = pgNo va') : ptNo va = ptNo va' := by
  rw [pgNo, pgNo] at h
  rw [ptNo, ptNo, h]

/-! What the entries say when memory changes. -/

theorem entry_inside (page : Nat) {i : Nat} (hi : i < entryCnt) :
    page * pgsize ≤ page * pgsize + 4 * i ∧
      page * pgsize + 4 * i + 4 ≤ page * pgsize + pgsize := by
  rw [entryCnt] at hi
  rw [pgsize]
  omega

theorem entryAt_congr {page : Nat} (h : m.Agree m' (page * pgsize) pgsize) (hi : i < entryCnt) :
    entryAt m' page i = entryAt m page i := by
  obtain ⟨hlow, hhigh⟩ := entry_inside page hi
  exact (h.mono hlow hhigh).symm.loadWord

theorem tableFrames_congr (h : m.Agree m' (pt * pgsize) pgsize) :
    tableFrames m' pt = tableFrames m pt :=
  List.filterMap_congr fun j hj => by rw [entryAt_congr h (List.mem_range.mp hj)]

theorem tableChunks_congr (hentry : entryAt m' pd i = entryAt m pd i)
    (htable : ∀ pt, frame (entryAt m pd i) = some pt → m.Agree m' (pt * pgsize) pgsize) :
    tableChunks m' pd i = tableChunks m pd i := by
  rw [tableChunks, tableChunks, hentry]
  cases hframe : frame (entryAt m pd i) with
  | none => rfl
  | some pt => simp only [tableFrames_congr (htable pt hframe)]

theorem mem_spaceChunks_table (hi : i < userEntryCnt) (hpt : frame (entryAt m pd i) = some pt) :
    pageChunk pt ∈ spaceChunks m pd := by
  refine List.mem_cons_of_mem _ (List.mem_flatMap.mpr ⟨i, List.mem_range.mpr hi, ?_⟩)
  rw [tableChunks, hpt]
  exact List.mem_cons_self

theorem mem_tableChunks_frame {j n : Nat} (hj : j < entryCnt)
    (hpt : frame (entryAt m pd i) = some pt) (hn : frame (entryAt m pt j) = some n) :
    frameChunk n ∈ tableChunks m pd i := by
  rw [tableChunks, hpt]
  refine List.mem_cons_of_mem _ (List.mem_map_of_mem ?_)
  exact List.mem_filterMap.mpr ⟨j, List.mem_range.mpr hj, hn⟩

theorem mem_spaceChunks_frame {n : Nat} (hva : va < physBase) (hn : mapped m pd va = some n) :
    frameChunk n ∈ spaceChunks m pd := by
  refine List.mem_cons_of_mem _
    (List.mem_flatMap.mpr ⟨pdNo va, List.mem_range.mpr (pdNo_lt hva), ?_⟩)
  rw [mapped, pteAt] at hn
  cases hpt : frame (entryAt m pd (pdNo va)) with
  | none =>
      rw [hpt, frame_zero] at hn
      cases hn
  | some pt =>
      rw [hpt] at hn
      exact mem_tableChunks_frame (ptNo_lt va) hpt hn

/-- An address space is what it was when its directory and its tables are. -/
structure Kept (m m' : ByteMemory) (pd : Nat) : Prop where
  dir : m.Agree m' (pd * pgsize) pgsize
  table : ∀ i < userEntryCnt, ∀ pt, frame (entryAt m pd i) = some pt →
    m.Agree m' (pt * pgsize) pgsize

theorem Kept.of_agree
    (h : ∀ c ∈ spaceChunks m pd, c.user = false → m.Agree m' c.address pgsize) :
    Kept m m' pd where
  dir := address_pageChunk pd ▸ h (pageChunk pd) List.mem_cons_self rfl
  table i hi pt hpt := address_pageChunk pt ▸ h (pageChunk pt) (mem_spaceChunks_table hi hpt) rfl

theorem lt_entryCnt (hi : i < userEntryCnt) : i < entryCnt :=
  Nat.lt_trans hi userEntryCnt_lt

theorem Kept.entryAt_eq (h : Kept m m' pd) (hi : i < entryCnt) :
    entryAt m' pd i = entryAt m pd i := entryAt_congr h.dir hi

theorem Kept.tableChunks_eq (h : Kept m m' pd) (hi : i < userEntryCnt) :
    tableChunks m' pd i = tableChunks m pd i := by
  have hentry := h.entryAt_eq (lt_entryCnt hi)
  exact tableChunks_congr hentry (h.table i hi)

theorem Kept.spaceChunks_eq (h : Kept m m' pd) : spaceChunks m' pd = spaceChunks m pd := by
  have htables : (List.range userEntryCnt).flatMap (tableChunks m' pd) =
      (List.range userEntryCnt).flatMap (tableChunks m pd) :=
    List.flatMap_congr fun i hi => h.tableChunks_eq (List.mem_range.mp hi)
  rw [spaceChunks, spaceChunks, htables]

theorem Kept.pteAt_eq (h : Kept m m' pd) (hva : va < physBase) : pteAt m' pd va = pteAt m pd va := by
  have hi := pdNo_lt hva
  rw [pteAt, pteAt, h.entryAt_eq (lt_entryCnt hi)]
  cases hpt : frame (entryAt m pd (pdNo va)) with
  | none => rfl
  | some pt => exact entryAt_congr (h.table _ hi pt hpt) (ptNo_lt va)

theorem Kept.space (h : Kept m m' pd) (hinit : m.Agree m' (initPage * pgsize) pgsize)
    (hspace : Space m initPage pd) : Space m' initPage pd where
  zero i hi := by
    rw [h.entryAt_eq (lt_entryCnt hi)]
    exact hspace.zero i hi
  kernel i hlow hhigh := by
    rw [h.entryAt_eq hhigh, entryAt_congr hinit hhigh]
    exact hspace.kernel i hlow hhigh

end PageTables

end PintosLabs
