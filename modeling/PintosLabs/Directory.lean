/-
The root directory (filesys/directory.c) and `filesys_create`
(filesys/filesys.c): a directory is a file of entries of twenty bytes, which
is searched from its start.
-/
import PintosLabs.GrowingFile

namespace PintosLabs.Directory

/-- The bytes of a `struct dir_entry`: the sector of the inode, fifteen bytes
of name, and whether the entry is in use. -/
abbrev DirEntry := Fin 20 → UInt8

/-- `NAME_MAX`. -/
def nameMax : Nat := 14

/-- The answers of the calls of `malloc` and `calloc`: for the inode of the
directory, if it is not open yet, for the directory itself, for the new inode,
and one for each time an entry is read or written.  These succeed once the list
is used up. -/
structure Answers where
  inode : Bool
  dir : Bool
  diskInode : Bool
  bounce : List Bool

namespace DirEntry

def inodeSector (e : DirEntry) : BlockSector :=
  UInt32.ofNat ((e 0).toNat + 256 * (e 1).toNat + 256 ^ 2 * (e 2).toNat +
    256 ^ 3 * (e 3).toNat)

def inUse (e : DirEntry) : Bool := e 19 != 0

/-- `!strcmp (name, e.name)`, for a name without its final zero. -/
def named (name : List UInt8) (e : DirEntry) : Bool :=
  (name ++ [0]).isPrefixOf ((List.ofFn e).drop 4)

/-- The entry with the bytes read copied into it. -/
def overlay (e : DirEntry) (bytes : List UInt8) : DirEntry :=
  fun i => (bytes[i.val]?).getD (e i)

/-- The entry as `dir_add` writes it: `strlcpy` leaves what stands behind the
final zero of the name. -/
def fill (e : DirEntry) (name : List UInt8) (inodeSector : BlockSector)
    (i : Nat) : UInt8 :=
  if i < 4 then UInt8.ofNat (inodeSector.toNat / 256 ^ i)
  else if i = 19 then 1
  else if i - 4 = name.length then 0
  else (name[i - 4]?).getD (if h : i < 20 then e ⟨i, h⟩ else 0)

end DirEntry

variable {σ : Type} [SectorStore σ BlockSector Block]

/-- The loop over the entries in `lookup` and in `dir_add`, from `ofs` on:
whether it has found an entry, where it has stopped, what it has read last, and
the answers left. -/
def entryLoop (dir : BlockSector) (found : DirEntry → Bool) :
    Nat → Int32 → DirEntry → List Bool → FileSys σ →
      Option (Bool × Int32 × DirEntry × List Bool × FileSys σ)
  | 0, _, _, _, _ => none
  | fuel + 1, ofs, e, bounce, fs => do
      let (bytes, fs) ← inodeReadAt dir 20 ofs (bounce.headD true) fs
      let e := e.overlay bytes
      if bytes.length = 20 then
        if found e then some (true, ofs, e, bounce.tail, fs)
        else entryLoop dir found fuel (ofs + 20) e bounce.tail fs
      else some (false, ofs, e, bounce.tail, fs)

/-- The loop from the start of the directory.  It reads each entry once, and
once more behind the last. -/
def searchEntries (dir : BlockSector) (found : DirEntry → Bool) (e : DirEntry)
    (bounce : List Bool) (fs : FileSys σ) :
    Option (Bool × Int32 × DirEntry × List Bool × FileSys σ) := do
  let inode ← fs.openInodes dir
  entryLoop dir found (inode.data.length.toInt.toNat / 20 + 1) 0 e bounce fs

/-- The test of `lookup`. -/
def isNamed (name : List UInt8) (e : DirEntry) : Bool := e.inUse && e.named name

/-- The test of `dir_add` for a free slot. -/
def isFree (e : DirEntry) : Bool := !e.inUse

/-- `dir_add`.  The entry `e` is what stands in the local variable before it
is given a value. -/
def dirAdd (dir : BlockSector) (name : List UInt8) (inodeSector : BlockSector)
    (e : DirEntry) (bounce : List Bool) (fs : FileSys σ) :
    Option (Bool × FileSys σ) :=
  if name = [] ∨ nameMax < name.length then some (false, fs)
  else do
    let (found, _, _, bounce, fs) ← searchEntries dir (isNamed name) e bounce fs
    if found then some (false, fs)
    else
      let (_, ofs, e, bounce, fs) ← searchEntries dir isFree e bounce fs
      let (written, fs) ← inodeWriteAt dir (e.fill name inodeSector) 20 ofs
        (bounce.headD true) fs
      some (written == 20, fs)

/-- `dir_open_root`: whether there is a directory. -/
def dirOpenRoot (answers : Answers) (fs : FileSys σ) :
    Option (Bool × FileSys σ) :=
  let (opened, fs) := inodeOpen rootDirSector answers.inode fs
  if opened && answers.dir then some (true, fs)
  else if opened then do
    let fs ← inodeClose rootDirSector fs
    some (false, fs)
  else some (false, fs)

/-- `filesys_create`. -/
def filesysCreate (name : List UInt8) (initialSize : Int32) (e : DirEntry)
    (answers : Answers) (fs : FileSys σ) : Option (Bool × FileSys σ) := do
  let (opened, fs) ← dirOpenRoot answers fs
  if opened then
    let (allocated, inodeSector, fs) ← freeMapAllocate bitmapWrite 1 0 fs
    let (created, fs) ←
      (if allocated then inodeCreate inodeSector initialSize answers.diskInode fs
      else some (false, fs))
    let (success, fs) ←
      (if created then
        dirAdd rootDirSector name inodeSector e answers.bounce fs
      else some (false, fs))
    let fs ←
      (if success = false ∧ inodeSector ≠ 0 then
        freeMapRelease bitmapWrite inodeSector 1 fs
      else some fs)
    let fs ← inodeClose rootDirSector fs
    some (success, fs)
  else some (false, fs)

/-! Directories as arrays of bytes. -/

/-- What a file holds, by its inode. -/
def contents (fs : FileSys σ) (id : InodeDisk) : ByteFile where
  length := id.length.toInt.toNat
  byte p :=
    if p < id.length.toInt.toNat then fileByte fs.view id p else 0

/-- What an entry is read as; nothing when there is no bounce buffer. -/
def readEntry (f : ByteFile) (ofs : Nat) (bounce : List Bool) : List UInt8 :=
  if bounce.headD true then f.read ofs 20 else []

/-- The loop over the entries of an array of bytes: whether it has found one,
where it has stopped, and the answers left. -/
def scanEntries (f : ByteFile) (found : DirEntry → Bool) :
    Nat → Nat → List Bool → Bool × Nat × List Bool
  | 0, ofs, bounce => (false, ofs, bounce)
  | fuel + 1, ofs, bounce =>
      let bytes := readEntry f ofs bounce
      if bytes.length = 20 then
        if found (DirEntry.overlay (fun _ => 0) bytes) then
          (true, ofs, bounce.tail)
        else scanEntries f found fuel (ofs + 20) bounce.tail
      else (false, ofs, bounce.tail)

def scanAll (f : ByteFile) (found : DirEntry → Bool) (bounce : List Bool) :
    Bool × Nat × List Bool :=
  scanEntries f found (f.length / 20 + 1) 0 bounce

omit [SectorStore σ BlockSector Block] in
theorem readEntry_length (f : ByteFile) {ofs : Nat} {bounce : List Bool} :
    (readEntry f ofs bounce).length = 20 ↔
      bounce.headD true = true ∧ ofs + 20 ≤ f.length := by
  unfold readEntry
  split
  case isTrue h =>
    rw [ByteFile.read, List.length_map, List.length_range]
    simp only [h, true_and]
    omega
  case isFalse h => exact iff_of_false (by simp) fun hboth => h hboth.1

/-- A whole entry leaves nothing of what was there before. -/
theorem DirEntry.overlay_full (e e' : DirEntry) {bytes : List UInt8}
    (hbytes : bytes.length = 20) : e.overlay bytes = e'.overlay bytes := by
  funext i
  have hi : i.val < bytes.length := by omega
  rw [overlay, overlay, List.getElem?_eq_getElem hi]
  rfl

/-- What a file holds is found on its sectors. -/
theorem contents_congr {fs fs' : FileSys σ} {id : InodeDisk}
    (hview : fs'.view = fs.view) : contents fs' id = contents fs id := by
  rw [contents, contents, hview]

/-- A file whose sectors are left alone holds what it held. -/
theorem contents_kept {file : FreeMapFile} {fs fs' : FileSys σ}
    {live : List BlockSector} (h : FilesOk file fs live) {s : BlockSector}
    (hs : s ∈ live) (hne : s ≠ freeMapSector)
    (hview : ∀ x ∈ fs.sectorsOf s, x ∉ file.data → fs'.view x = fs.view x) :
    fs'.inodeAt s = fs.inodeAt s ∧
      contents fs' (fs'.inodeAt s) = contents fs (fs.inodeAt s) := by
  have hforeign : ∀ x ∈ fs.sectorsOf s, fs'.view x = fs.view x := fun x hx =>
    hview x hx fun hdata => h.not_mem_own hs hne hx (file.data_subset hdata)
  have hsame : fs'.inodeAt s = fs.inodeAt s := by
    rw [FileSys.inodeAt, hforeign s List.mem_cons_self, FileSys.inodeAt]
  refine ⟨hsame, ?_⟩
  have hfile := h.files s hs hne
  rw [hsame, contents, contents]
  congr 1
  funext p
  split
  case isFalse => rfl
  case isTrue hp =>
    refine fileByte_congr (fun x hx => hforeign x (List.mem_cons_of_mem _ hx))
      hfile.blocks_le ?_
    have hle := (fs.inodeAt s).length_le_blocks
    have hle' : ((fs.inodeAt s).length.toInt.toNat : Int) ≤
        (fs.inodeAt s).blocks * blockSectorSize := by
      rw [Int.toNat_of_nonneg hfile.length_nonneg]
      exact hle
    exact hp.trans_le (by exact_mod_cast hle')

theorem int32_ofNat_add (ofs : Nat) :
    (Int32.ofNat ofs + 20 : Int32) = Int32.ofNat (ofs + 20) :=
  (Int32.ofNat_add ofs 20).symm

section Search

variable {dir : BlockSector} {fs : FileSys σ} {inode : Inode}

/-- An entry read with `inode_read_at`. -/
theorem readLoop_entry (hlength : 0 ≤ inode.data.length.toInt)
    (hfits : inode.data.Fits) {ofs : Nat} (hofs : ofs < 2 ^ 31)
    (bounce : List Bool) :
    (readLoop fs.store inode.data (bounce.headD true) 20 (Int32.ofNat ofs) []).1 =
      readEntry (contents fs inode.data) ofs bounce := by
  have hoffset : (Int32.ofNat ofs).toInt = ofs := Int32.toInt_ofNat_of_lt hofs
  have hsize : (20 : Int32).toInt = 20 := rfl
  unfold readEntry
  cases bounce.headD true with
  | true =>
      have hread := (readLoop_spec fs.store inode.data 20 (Int32.ofNat ofs) []
        hlength hfits (by omega)).1
      rw [hread, if_pos rfl, List.nil_append, ByteFile.read, hoffset, hsize]
      have hcount : (min 20 (inode.data.length.toInt - (ofs : Int))).toNat =
          min 20 ((contents fs inode.data).length - ofs) := by
        change _ = min 20 (inode.data.length.toInt.toNat - ofs)
        omega
      rw [hcount]
      apply List.map_congr_left
      intro i hi
      have hi := List.mem_range.mp hi
      change _ = ite _ _ _
      rw [if_pos]
      · rfl
      · change i < min 20 (inode.data.length.toInt.toNat - ofs) at hi
        omega
  | false =>
      rw [if_neg Bool.false_ne_true, readLoop]
      have hchunk := chunkSize_toInt 20 hlength
        (by omega : 0 ≤ (Int32.ofNat ofs).toInt)
      have hpart : chunkSize inode.data.length 20 (Int32.ofNat ofs) ≠ 512 := by
        intro h
        rw [h, hsize] at hchunk
        have hfull : (512 : Int32).toInt = 512 := rfl
        omega
      simp only [hpart, and_false, Bool.false_eq_true, ↓reduceIte, ite_self]
      split <;> rfl

/-- The loop over the entries of an open directory finds what a scan of its
bytes finds, and stops. -/
theorem entryLoop_eq (hopen : fs.openInodes dir = some inode)
    (hlength : 0 ≤ inode.data.length.toInt) (hfits : inode.data.Fits)
    (found : DirEntry → Bool) {fuel ofs : Nat} (e : DirEntry)
    (bounce : List Bool) (hofs : ofs ≤ inode.data.length.toInt.toNat)
    (hfuel : inode.data.length.toInt.toNat < ofs + 20 * fuel) :
    ∃ found' ofs' e' bounce' st,
      scanEntries (contents fs inode.data) found fuel ofs bounce =
        (found', ofs', bounce') ∧
      entryLoop dir found fuel (Int32.ofNat ofs) e bounce fs =
        some (found', Int32.ofNat ofs', e', bounce', { fs with store := st }) ∧
      ofs' ≤ inode.data.length.toInt.toNat ∧ SectorStore.view st = fs.view ∧
      (found' = true → e' = DirEntry.overlay (fun _ => 0)
        ((contents fs inode.data).read ofs' 20)) := by
  induction fuel generalizing ofs e bounce fs with
  | zero => omega
  | succ fuel ih =>
      have hmax := inode.data.length.toInt_lt
      have hbytes : (readLoop fs.store inode.data (bounce.headD true) 20
          (Int32.ofNat ofs) []).1 = readEntry (contents fs inode.data) ofs bounce :=
        readLoop_entry hlength hfits (by omega) bounce
      have hview := readLoop_view fs.store inode.data (bounce.headD true) 20
        (Int32.ofNat ofs) []
      generalize hread : readLoop fs.store inode.data (bounce.headD true) 20
        (Int32.ofNat ofs) [] = result at hbytes hview
      have hrun : inodeReadAt dir 20 (Int32.ofNat ofs) (bounce.headD true) fs =
          some (result.1, { fs with store := result.2 }) := by
        simp only [inodeReadAt, hopen, hread, Option.bind_eq_bind,
          Option.bind_some]
      have hsame : contents { fs with store := result.2 } inode.data =
          contents fs inode.data := contents_congr hview
      simp only [entryLoop, scanEntries, hrun, ← hbytes, Option.bind_eq_bind,
        Option.bind_some]
      by_cases hwhole : result.1.length = 20
      · have hend := ((readEntry_length _).mp (hbytes ▸ hwhole)).2
        change ofs + 20 ≤ inode.data.length.toInt.toNat at hend
        rw [if_pos hwhole, if_pos hwhole,
          DirEntry.overlay_full e (fun _ => 0) hwhole]
        by_cases hfound : found (DirEntry.overlay (fun _ => 0) result.1) = true
        · rw [if_pos hfound, if_pos hfound]
          refine ⟨_, _, _, _, _, rfl, rfl, hofs, hview, fun _ => ?_⟩
          have hbounce := ((readEntry_length _).mp (hbytes ▸ hwhole)).1
          rw [hbytes, readEntry, if_pos hbounce]
        · rw [if_neg hfound, if_neg hfound, int32_ofNat_add]
          have hopen' : ({ fs with store := result.2 } : FileSys σ).openInodes
              dir = some inode := hopen
          obtain ⟨found', ofs', e', bounce', st, hscan, hloop, hle, hst, hentry⟩ :=
            ih hopen' (DirEntry.overlay (fun _ => 0) result.1) bounce.tail hend
              (by omega)
          rw [hsame] at hscan hentry
          exact ⟨found', ofs', e', bounce', st, hscan, hloop, hle,
            hst.trans hview, hentry⟩
      · rw [if_neg hwhole, if_neg hwhole]
        exact ⟨_, _, _, _, _, rfl, rfl, hofs, hview,
          fun hfound => absurd hfound Bool.false_ne_true⟩

/-- The loop from the start of an open directory. -/
theorem searchEntries_eq (hopen : fs.openInodes dir = some inode)
    (hlength : 0 ≤ inode.data.length.toInt) (hfits : inode.data.Fits)
    (found : DirEntry → Bool) (e : DirEntry) (bounce : List Bool) :
    ∃ found' ofs' e' bounce' st,
      scanAll (contents fs inode.data) found bounce = (found', ofs', bounce') ∧
      searchEntries dir found e bounce fs =
        some (found', Int32.ofNat ofs', e', bounce', { fs with store := st }) ∧
      ofs' ≤ inode.data.length.toInt.toNat ∧ SectorStore.view st = fs.view ∧
      (found' = true → e' = DirEntry.overlay (fun _ => 0)
        ((contents fs inode.data).read ofs' 20)) := by
  obtain ⟨found', ofs', e', bounce', st, hscan, hloop, hrest⟩ :=
    entryLoop_eq hopen hlength hfits found e bounce (Nat.zero_le _)
      (show inode.data.length.toInt.toNat <
        0 + 20 * (inode.data.length.toInt.toNat / 20 + 1) by omega)
  refine ⟨found', ofs', e', bounce', st, hscan, ?_, hrest⟩
  simp only [searchEntries, hopen, Option.bind_eq_bind, Option.bind_some]
  exact hloop

end Search

/-- The state as the loops over the entries leave it. -/
theorem reread {file : FreeMapFile} {fs : FileSys σ} {st : σ}
    (hready : AllocReady file.Ready file.own fs)
    (hview : SectorStore.view st = fs.view) :
    Allocated file.Ready file.Synced file.own file.data fs
      { fs with store := st } [] [] :=
  file.flushSpec.rewrite hready (by simp) fun s _ => congrFun hview s

end PintosLabs.Directory
