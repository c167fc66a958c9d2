/-
The system call `open` (userprog/syscall.c, with `add_file` of
userprog/process.c), in which the calling thread holds `filesys_lock`: what it
leaves of the open inodes when it fails, and when it does not.
-/
import PintosLabs.FailedCreate
import PintosLabs.SystemCalls

namespace PintosLabs.SystemCalls

open Directory

variable {σ : Type} [SectorStore σ BlockSector Block]

/-- The files of the calling thread, and whether it holds `filesys_lock`. -/
structure Locked (σ : Type) where
  system : System σ
  held : Bool

namespace Locked

/-- `lock_acquire (&filesys_lock)`, which asserts that the thread does not hold
the lock. -/
def lockAcquire (k : Locked σ) : Option (Locked σ) :=
  if k.held then none else some { k with held := true }

/-- `lock_release (&filesys_lock)` -/
def lockRelease (k : Locked σ) : Option (Locked σ) :=
  if k.held then some { k with held := false } else none

def setFs (k : Locked σ) (fs : FileSys σ) : Locked σ :=
  { k with system := { k.system with fs := fs } }

/-- `add_file`; `page` says whether there is a page for the descriptor. -/
def addFile (k : Locked σ) (f : OpenFile) (page : Bool) : Int32 × Locked σ :=
  if page then
    (Int32.ofNat k.system.fd,
      { k with
        system := { k.system with
          files := Function.update k.system.files k.system.fd (some f)
          fd := k.system.fd + 1 } })
  else (-1, k)

/-- `open`, for a pointer to a string; `name` is the name of the thread. -/
def openCall (name file : List UInt8) (answers : OpenAnswers) (k : Locked σ) :
    Option (Int32 × Locked σ) := do
  let k ← k.lockAcquire
  let (f, fs) ← filesysOpen file answers k.system.fs
  let (f, fs) ← (if file = name then fileDenyWrite f fs else some (f, fs))
  let k := k.setFs fs
  match f with
  | none => do
      let k ← k.lockRelease
      some (-1, k)
  | some f => do
      let (fd, k) := k.addFile f answers.page
      let k ← k.lockRelease
      some (fd, k)

/-- Apart from the lock it is the step of the system calls. -/
theorem openCall_eq (name file : List UInt8) (answers : OpenAnswers) (k : Locked σ)
    (hheld : k.held = false) : k.openCall name file answers =
      (k.system.step (.openFile name file answers)).map fun result =>
        (result.1, ⟨result.2, false⟩) := by
  have hacquire : k.lockAcquire = some { k with held := true } := by
    rw [lockAcquire, hheld]
    rfl
  simp only [openCall, System.step, hacquire, Option.bind_eq_bind, Option.bind_some]
  cases filesysOpen file answers k.system.fs with
  | none => rfl
  | some opened =>
      simp only [Option.bind_some]
      cases (if file = name then fileDenyWrite opened.1 opened.2 else some opened) with
      | none => rfl
      | some denied =>
          simp only [Option.bind_some]
          cases denied.1 with
          | none => rfl
          | some f =>
              simp only [addFile]
              split <;> rfl

end Locked

/-! What is opened. -/

/-- The entry that `lookup` finds for a name in the root directory.  An entry that
cannot be read for want of a buffer ends the search. -/
def rootEntry (file : List UInt8) (bounce : List Bool) (fs : FileSys σ) :
    Option DirEntry :=
  let root := contents fs (fs.inodeAt rootDirSector)
  let (found, ofs, _) := scanAll root (isNamed file) bounce
  if found then some (DirEntry.overlay (fun _ => 0) (root.read ofs 20)) else none

/-- The file exists, by the entry `e`, and every allocation up to that of its
`struct file` succeeds.  An inode that is open needs no memory. -/
structure Opens (file : List UInt8) (answers : OpenAnswers) (fs : FileSys σ)
    (e : DirEntry) : Prop where
  rootInode : answers.dir.inode = true ∨ fs.openInodes rootDirSector ≠ none
  dir : answers.dir.dir = true
  entry : rootEntry file answers.dir.bounce fs = some e
  inode : answers.inode = true ∨ fs.openInodes e.inodeSector ≠ none ∨
    e.inodeSector = rootDirSector
  file : answers.file = true

/-- `open` has failed, and nothing of it is left. -/
structure Refused (k k' : Locked σ) : Prop where
  released : k'.held = false
  files : k'.system.files = k.system.files
  fd : k'.system.fd = k.system.fd
  openCount : k'.system.fs.openCount = k.system.fs.openCount
  denyCount : k'.system.fs.denyCount = k.system.fs.denyCount

/-- `open` has made a descriptor of a file on the inode of `s`. -/
structure Opened (k k' : Locked σ) (s : BlockSector) : Prop where
  released : k'.held = false
  files : ∃ f : OpenFile, f.sector = s ∧ f.pos = 0 ∧
    k'.system.files = Function.update k.system.files k.system.fd (some f)
  fd : k'.system.fd = k.system.fd + 1
  openCount : k'.system.fs.openCount =
    Function.update k.system.fs.openCount s (k.system.fs.openCount s + 1)

/-- Where the file does not exist or an allocation fails, `open` returns -1 and
nothing is left; otherwise it returns the new descriptor. -/
def OpensCleanly (name file : List UInt8) (answers : OpenAnswers) (k : Locked σ) :
    Prop :=
  (¬ ((∃ e, Opens file answers k.system.fs e) ∧ answers.page = true) →
    ∃ k', k.openCall name file answers = some (-1, k') ∧ Refused k k') ∧
  ∀ e, Opens file answers k.system.fs e → answers.page = true →
    ∃ k', k.openCall name file answers = some (Int32.ofNat k.system.fd, k') ∧
      Opened k k' e.inodeSector

/-- The file system as `open` finds it: the counters of the inodes that are open,
and the inode of the root directory, on the disk and in memory. -/
structure OpenReady (fs : FileSys σ) : Prop where
  opened : ∀ s inode, fs.openInodes s = some inode → 0 < inode.openCnt
  denied : ∀ s inode, fs.openInodes s = some inode → inode.denyWriteCnt ≤ inode.openCnt
  rootData : ∀ inode, fs.openInodes rootDirSector = some inode →
    inode.data = fs.inodeAt rootDirSector
  length : 0 ≤ (fs.inodeAt rootDirSector).length.toInt
  fits : (fs.inodeAt rootDirSector).Fits

theorem OpenReady.of_mounted {file : FreeMapFile} {fs : FileSys σ}
    {live : List BlockSector} (h : Mounted file fs live)
    (hdenied : ∀ s inode, fs.openInodes s = some inode →
      inode.denyWriteCnt ≤ inode.openCnt) : OpenReady fs where
  opened s inode hopen := (h.files.proper s inode hopen).opened
  denied := hdenied
  rootData inode hopen := (h.files.proper _ inode hopen).data
  length := (h.files.files _ h.root (by decide)).length_nonneg
  fits := InodeDisk.fits_of_blocks_le (h.files.files _ h.root (by decide)).blocks_le

/-! The counters of the open inodes. -/

section Counts

variable {fs fs' : FileSys σ} {s : BlockSector} {inode : Option Inode}

omit [SectorStore σ BlockSector Block]

theorem openCount_update (h : fs'.openInodes = Function.update fs.openInodes s inode) :
    fs'.openCount = Function.update fs.openCount s (inode.elim 0 Inode.openCnt) := by
  funext t
  rw [FileSys.openCount, h]
  exact Function.apply_update (fun _ i => Option.elim i 0 Inode.openCnt) _ _ _ _

theorem denyCount_update (h : fs'.openInodes = Function.update fs.openInodes s inode) :
    fs'.denyCount = Function.update fs.denyCount s (inode.elim 0 Inode.denyWriteCnt) := by
  funext t
  rw [FileSys.denyCount, h]
  exact Function.apply_update (fun _ i => Option.elim i 0 Inode.denyWriteCnt) _ _ _ _

theorem openCount_congr (h : fs'.openInodes = fs.openInodes) :
    fs'.openCount = fs.openCount := by
  funext t
  rw [FileSys.openCount, h, FileSys.openCount]

theorem denyCount_congr (h : fs'.openInodes = fs.openInodes) :
    fs'.denyCount = fs.denyCount := by
  funext t
  rw [FileSys.denyCount, h, FileSys.denyCount]

end Counts

/-! An inode that is opened once more, and closed again. -/

/-- The inode `i` is the one of the entry `o` of the open inodes, opened once
more; to close it gives back what was there. -/
structure OneMore (o : Option Inode) (i : Inode) : Prop where
  openCnt : i.openCnt = o.elim 0 Inode.openCnt + 1
  denyWriteCnt : i.denyWriteCnt = o.elim 0 Inode.denyWriteCnt
  close : (if i.openCnt - 1 = 0 then none
    else some { i with openCnt := i.openCnt - 1 }) = o
  kept : i.openCnt - 1 = 0 → i.removed = false

section OneMore

variable {fs fs' : FileSys σ} {s : BlockSector} {o : Option Inode} {i : Inode}

theorem inodeOpen_oneMore (hopened : ∀ inode, fs.openInodes s = some inode →
      0 < inode.openCnt) (memory : Bool) :
    (inodeOpen s memory fs = (false, fs) ∧ ¬ (memory = true ∨ fs.openInodes s ≠ none)) ∨
    ∃ st i, inodeOpen s memory fs =
        (true, { fs with
          store := st
          openInodes := Function.update fs.openInodes s (some i) }) ∧
      SectorStore.view st = fs.view ∧ OneMore (fs.openInodes s) i ∧
      i.data = (fs.openInodes s).elim (fs.inodeAt s) Inode.data ∧
      (memory = true ∨ fs.openInodes s ≠ none) := by
  unfold inodeOpen
  cases hopen : fs.openInodes s with
  | some inode =>
      have hpos := hopened inode hopen
      refine Or.inr ⟨fs.store, { inode with openCnt := inode.openCnt + 1 }, rfl, rfl,
        ⟨rfl, rfl, ?_, fun hlast => ?_⟩, rfl, Or.inr (Option.some_ne_none inode)⟩
      · exact if_neg (Nat.ne_of_gt hpos)
      · exact absurd hlast (Nat.ne_of_gt hpos)
  | none =>
      cases memory with
      | false => exact Or.inl ⟨rfl, by simp⟩
      | true =>
          refine Or.inr ⟨_, _, rfl, SectorStore.view_read fs.store s,
            ⟨rfl, rfl, rfl, fun _ => rfl⟩, ?_, Or.inl rfl⟩
          change InodeDisk.ofBlock (fs.cacheRead s).1 = _
          rw [FileSys.cacheRead_fst]
          rfl

theorem inodeClose_oneMore (hopen : fs.openInodes s = some i) (h : OneMore o i) :
    inodeClose s fs =
      some { fs with openInodes := Function.update fs.openInodes s o } := by
  simp only [inodeClose, hopen, Option.bind_eq_bind, Option.bind_some]
  rw [← h.close]
  split
  case isTrue hlast =>
    rw [h.kept hlast, if_neg Bool.false_ne_true]
    rfl
  case isFalse => rfl

end OneMore

/-! The way through `filesys_open`. -/

section FilesysOpen

variable {fs fs₁ : FileSys σ} {file : List UInt8} {answers : OpenAnswers} {root : Inode}

/-- The root directory is open once more. -/
structure RootOpen (fs fs₁ : FileSys σ) (root : Inode) : Prop where
  view : fs₁.view = fs.view
  openInodes : fs₁.openInodes = Function.update fs.openInodes rootDirSector (some root)
  oneMore : OneMore (fs.openInodes rootDirSector) root
  data : root.data = fs.inodeAt rootDirSector

theorem RootOpen.open_root (h : RootOpen fs fs₁ root) :
    fs₁.openInodes rootDirSector = some root := by
  rw [h.openInodes, Function.update_self]

theorem RootOpen.close (h : RootOpen fs fs₁ root) {fs₂ : FileSys σ}
    (hopen : fs₂.openInodes = fs₁.openInodes) :
    inodeClose rootDirSector fs₂ = some { fs₂ with openInodes := fs.openInodes } := by
  rw [inodeClose_oneMore (hopen ▸ h.open_root) h.oneMore, hopen, h.openInodes,
    Function.update_idem, Function.update_eq_self]

theorem OpenReady.dirOpenRoot (h : OpenReady fs) (answers : Answers) :
    (∃ fs₁ root, Directory.dirOpenRoot answers fs = some (true, fs₁) ∧
      RootOpen fs fs₁ root ∧ answers.dir = true ∧
        (answers.inode = true ∨ fs.openInodes rootDirSector ≠ none)) ∨
    ∃ fs₁, Directory.dirOpenRoot answers fs = some (false, fs₁) ∧
      fs₁.openInodes = fs.openInodes ∧
        ¬ (answers.dir = true ∧
          (answers.inode = true ∨ fs.openInodes rootDirSector ≠ none)) := by
  rcases inodeOpen_oneMore (h.opened rootDirSector) answers.inode with
    ⟨hopen, hnot⟩ | ⟨st, root, hopen, hview, hmore, hdata, hmemory⟩
  · refine Or.inr ⟨fs, ?_, rfl, fun hboth => hnot hboth.2⟩
    simp only [Directory.dirOpenRoot, hopen, Bool.false_and, Bool.false_eq_true, if_false]
  · have hroot : RootOpen fs { fs with
        store := st
        openInodes := Function.update fs.openInodes rootDirSector (some root) } root := by
      refine ⟨hview, rfl, hmore, hdata.trans ?_⟩
      cases hentry : fs.openInodes rootDirSector with
      | none => rfl
      | some inode => exact h.rootData inode hentry
    cases hdir : answers.dir with
    | true =>
        refine Or.inl ⟨_, root, ?_, hroot, rfl, hmemory⟩
        simp only [Directory.dirOpenRoot, hopen, hdir, Bool.and_self, if_true]
    | false =>
        refine Or.inr ⟨{ fs with store := st }, ?_, rfl, fun hboth => (by cases hboth.1)⟩
        simp only [Directory.dirOpenRoot, hopen, hdir, Bool.and_false, Bool.false_eq_true,
          if_false, if_true, hroot.close rfl, Option.bind_eq_bind, Option.bind_some]

/-- `lookup` in the open root directory. -/
theorem RootOpen.search (h : RootOpen fs fs₁ root) (hready : OpenReady fs)
    (bounce : List Bool) : ∃ found ofs e bounce' st,
      searchEntries rootDirSector (isNamed file) (fun _ => 0) bounce fs₁ =
        some (found, ofs, e, bounce', { fs₁ with store := st }) ∧
      SectorStore.view st = fs.view ∧
      rootEntry file bounce fs = if found then some e else none := by
  have hlength : 0 ≤ root.data.length.toInt := h.data ▸ hready.length
  have hfits : root.data.Fits := h.data ▸ hready.fits
  obtain ⟨found, ofs, e, bounce', st, hscan, hsearch, -, hview, hentry⟩ :=
    searchEntries_eq h.open_root hlength hfits (isNamed file) (fun _ => 0) bounce
  have hsame : contents fs₁ root.data = contents fs (fs.inodeAt rootDirSector) := by
    rw [contents_congr h.view, h.data]
  rw [hsame] at hscan hentry
  refine ⟨found, _, e, bounce', st, hsearch, hview.trans h.view, ?_⟩
  simp only [rootEntry, hscan]
  cases found with
  | true => rw [if_pos rfl, if_pos rfl, hentry rfl]
  | false => rfl

/-- The root directory is closed behind the opening of an inode, which may be its
own. -/
theorem RootOpen.close_behind (h : RootOpen fs fs₁ root) {fs₂ : FileSys σ}
    {t : BlockSector} {i : Inode} (hmore : OneMore (fs₁.openInodes t) i)
    (hopen : fs₂.openInodes = Function.update fs₁.openInodes t (some i)) :
    ∃ i', OneMore (fs.openInodes t) i' ∧ inodeClose rootDirSector fs₂ =
      some { fs₂ with openInodes := Function.update fs.openInodes t (some i') } := by
  by_cases ht : t = rootDirSector
  · subst ht
    have hself : fs₂.openInodes rootDirSector = some i := by
      rw [hopen, Function.update_self]
    refine ⟨root, h.oneMore, ?_⟩
    rw [inodeClose_oneMore hself hmore, h.open_root, hopen, Function.update_idem,
      h.openInodes, Function.update_idem]
  · have hself : fs₂.openInodes rootDirSector = some root := by
      rw [hopen, Function.update_of_ne (Ne.symm ht), h.open_root]
    have hother : fs₁.openInodes t = fs.openInodes t := by
      rw [h.openInodes, Function.update_of_ne ht]
    refine ⟨i, hother ▸ hmore, ?_⟩
    rw [inodeClose_oneMore hself h.oneMore, hopen, h.openInodes,
      Function.update_comm (Ne.symm ht), Function.update_idem,
      Function.update_comm ht, Function.update_eq_self]

/-- The file is opened, or what was opened on the way is closed again. -/
theorem OpenReady.filesysOpen (h : OpenReady fs) (file : List UInt8)
    (answers : OpenAnswers) :
    (∃ e fs' i, Opens file answers fs e ∧
      SystemCalls.filesysOpen file answers fs =
        some (some ⟨e.inodeSector, 0, false⟩, fs') ∧
      fs'.openInodes = Function.update fs.openInodes e.inodeSector (some i) ∧
      OneMore (fs.openInodes e.inodeSector) i) ∨
    ∃ fs', (¬ ∃ e, Opens file answers fs e) ∧
      SystemCalls.filesysOpen file answers fs = some (none, fs') ∧
      fs'.openInodes = fs.openInodes := by
  rcases h.dirOpenRoot answers.dir with
    ⟨fs₁, root, hopen, hroot, hdir, hinode⟩ | ⟨fs₁, hopen, hsame, hnot⟩
  case inr =>
    refine Or.inr ⟨fs₁, fun hopens => ?_, ?_, hsame⟩
    · obtain ⟨e, hopens⟩ := hopens
      exact hnot ⟨hopens.dir, hopens.rootInode⟩
    · simp only [SystemCalls.filesysOpen, hopen, Option.bind_eq_bind, Option.bind_some,
        Bool.false_eq_true, if_false, fileOpen]
  obtain ⟨found, ofs, e, bounce, st, hsearch, hview, hentry⟩ :=
    @RootOpen.search _ _ fs fs₁ file root hroot h answers.dir.bounce
  cases found with
  | false =>
      refine Or.inr ⟨{ fs₁ with store := st, openInodes := fs.openInodes },
        fun hopens => ?_, ?_, rfl⟩
      · obtain ⟨e', hopens⟩ := hopens
        cases hentry.symm.trans hopens.entry
      · have hclose : inodeClose rootDirSector { fs₁ with store := st } = _ :=
          hroot.close rfl
        simp only [SystemCalls.filesysOpen, hopen, dirLookup, hsearch, hclose,
          Option.bind_eq_bind, Option.bind_some, Bool.false_eq_true, if_false, if_true,
          fileOpen]
  | true =>
      have hentry' : rootEntry file answers.dir.bounce fs = some e := hentry
      have hopened : ∀ inode, fs₁.openInodes e.inodeSector = some inode →
          0 < inode.openCnt := by
        intro inode hinode
        by_cases ht : e.inodeSector = rootDirSector
        · rw [ht, hroot.open_root] at hinode
          rw [← Option.some.inj hinode, hroot.oneMore.openCnt]
          exact Nat.succ_pos _
        · rw [hroot.openInodes, Function.update_of_ne ht] at hinode
          exact h.opened _ inode hinode
      have hmemory : answers.inode = true ∨ fs₁.openInodes e.inodeSector ≠ none ↔
          answers.inode = true ∨ fs.openInodes e.inodeSector ≠ none ∨
            e.inodeSector = rootDirSector := by
        by_cases ht : e.inodeSector = rootDirSector
        · rw [ht, hroot.open_root]
          simp
        · rw [hroot.openInodes, Function.update_of_ne ht]
          simp [ht]
      have hlookup : SystemCalls.filesysOpen file answers fs =
          (inodeClose rootDirSector (inodeOpen e.inodeSector answers.inode
            { fs₁ with store := st }).2).bind (fileOpen
              (if (inodeOpen e.inodeSector answers.inode { fs₁ with store := st }).1
                then some e.inodeSector else none) answers.file) := by
        simp only [SystemCalls.filesysOpen, hopen, dirLookup, hsearch, Option.bind_eq_bind,
          Option.bind_some, if_true]
      rcases @inodeOpen_oneMore _ _ { fs₁ with store := st } _ hopened answers.inode with
        ⟨hfailed, hnot⟩ | ⟨st', i, hdone, -, hmore, -, hinode'⟩
      · have hclose : inodeClose rootDirSector { fs₁ with store := st } = _ :=
          hroot.close rfl
        refine Or.inr ⟨{ fs₁ with store := st, openInodes := fs.openInodes },
          fun hopens => hnot ?_, ?_, rfl⟩
        · obtain ⟨e', hopens⟩ := hopens
          obtain rfl := Option.some.inj (hentry'.symm.trans hopens.entry)
          exact hmemory.mpr hopens.inode
        · rw [hlookup, hfailed]
          simp only [hclose, Option.bind_some, Bool.false_eq_true, if_false, fileOpen]
      · obtain ⟨i', hmore', hclose⟩ := @RootOpen.close_behind _ _ fs fs₁ root hroot
          { fs₁ with
            store := st'
            openInodes := Function.update fs₁.openInodes e.inodeSector (some i) }
          e.inodeSector i hmore rfl
        cases hfile : answers.file with
        | true =>
            refine Or.inl ⟨e, { fs₁ with
                store := st'
                openInodes := Function.update fs.openInodes e.inodeSector (some i') }, i',
              ⟨hinode, hdir, hentry', hmemory.mp hinode', hfile⟩, ?_, rfl, hmore'⟩
            rw [hlookup, hdone, hfile]
            simp only [hclose, Option.bind_some, if_true, fileOpen]
        | false =>
            refine Or.inr ⟨{ fs₁ with store := st', openInodes := fs.openInodes },
              fun hopens => ?_, ?_, rfl⟩
            · obtain ⟨e', hopens⟩ := hopens
              cases hfile.symm.trans hopens.file
            · rw [hlookup, hdone, hfile]
              simp only [hclose, Option.bind_some, if_true, fileOpen, Bool.false_eq_true,
                if_false]
              rw [inodeClose_oneMore (Function.update_self _ _ _) hmore']
              simp only [Function.update_idem, Function.update_eq_self, Option.bind_eq_bind,
                Option.bind_some]

end FilesysOpen

/-! The call. -/

section Call

variable {fs : FileSys σ} {k : Locked σ} {name file : List UInt8} {answers : OpenAnswers}

/-- Writes are denied once more than before, which the inode allows: it has just
been opened. -/
theorem fileDenyWrite_opened (h : OpenReady fs) {fs' : FileSys σ} {s : BlockSector}
    {i : Inode} (hopen : fs'.openInodes = Function.update fs.openInodes s (some i))
    (hmore : OneMore (fs.openInodes s) i) :
    ∃ i', fileDenyWrite (some ⟨s, 0, false⟩) fs' =
        some (some ⟨s, 0, true⟩, { fs' with
          openInodes := Function.update fs.openInodes s (some i') }) ∧
      i'.openCnt = i.openCnt := by
  have hself : fs'.openInodes s = some i := by
    rw [hopen, Function.update_self]
  have hle : i.denyWriteCnt + 1 ≤ i.openCnt := by
    rw [hmore.denyWriteCnt, hmore.openCnt]
    refine Nat.succ_le_succ ?_
    cases hentry : fs.openInodes s with
    | none => exact Nat.le_refl _
    | some inode => exact h.denied s inode hentry
  refine ⟨{ i with denyWriteCnt := i.denyWriteCnt + 1 }, ?_, rfl⟩
  simp only [fileDenyWrite, inodeDenyWrite, hself, if_pos hle, Bool.false_eq_true, if_false,
    Option.bind_eq_bind, Option.bind_some, FileSys.setInode]
  rw [hopen, Function.update_idem]

/-- What `open` comes to, by what there is for it. -/
inductive OpenResult (name file : List UInt8) (answers : OpenAnswers) (k : Locked σ) :
    Prop
  | opened {e : DirEntry} {k' : Locked σ} (found : Opens file answers k.system.fs e)
      (page : answers.page = true)
      (result : k.openCall name file answers = some (Int32.ofNat k.system.fd, k'))
      (leaves : Opened k k' e.inodeSector)
  /-- There is no page for the descriptor, and the inode stays open. -/
  | lost {e : DirEntry} {k' : Locked σ} (found : Opens file answers k.system.fs e)
      (page : answers.page = false)
      (result : k.openCall name file answers = some (-1, k'))
      (leaves : k'.system.fs.openCount = Function.update k.system.fs.openCount
        e.inodeSector (k.system.fs.openCount e.inodeSector + 1))
  | refused {k' : Locked σ} (found : ¬ ∃ e, Opens file answers k.system.fs e)
      (other : file ≠ name) (result : k.openCall name file answers = some (-1, k'))
      (leaves : Refused k k')
  /-- `file_deny_write (NULL)` -/
  | panicked (found : ¬ ∃ e, Opens file answers k.system.fs e) (own : file = name)
      (result : k.openCall name file answers = none)

theorem openResult (h : OpenReady k.system.fs) (hheld : k.held = false) :
    OpenResult name file answers k := by
  have hcall := k.openCall_eq name file answers hheld
  rcases h.filesysOpen file answers with
    ⟨e, fs', i, hfound, hrun, hopen, hmore⟩ | ⟨fs', hfound, hrun, hopen⟩
  · obtain ⟨f, fs'', i', hdeny, hsector, hpos, hopen', hcnt⟩ : ∃ f fs'' i',
        (if file = name then fileDenyWrite (some ⟨e.inodeSector, 0, false⟩) fs'
          else some (some ⟨e.inodeSector, 0, false⟩, fs')) = some (some f, fs'') ∧
        f.sector = e.inodeSector ∧ f.pos = 0 ∧
          fs''.openInodes =
            Function.update k.system.fs.openInodes e.inodeSector (some i') ∧
              i'.openCnt = i.openCnt := by
      by_cases hname : file = name
      · obtain ⟨i', hdeny, hcnt⟩ := fileDenyWrite_opened h hopen hmore
        exact ⟨_, _, i', (if_pos hname).trans hdeny, rfl, rfl, rfl, hcnt⟩
      · exact ⟨_, _, i, if_neg hname, rfl, rfl, hopen, rfl⟩
    have hcount : fs''.openCount = Function.update k.system.fs.openCount e.inodeSector
        (k.system.fs.openCount e.inodeSector + 1) := by
      rw [openCount_update hopen']
      exact congrArg _ (hcnt.trans hmore.openCnt)
    simp only [System.step, hrun, hdeny, Option.bind_eq_bind, Option.bind_some] at hcall
    cases hpage : answers.page with
    | true =>
        rw [hpage, if_pos rfl] at hcall
        exact .opened hfound hpage hcall ⟨rfl, ⟨f, hsector, hpos, rfl⟩, rfl, hcount⟩
    | false =>
        rw [hpage, if_neg Bool.false_ne_true] at hcall
        exact .lost hfound hpage hcall hcount
  · by_cases hname : file = name
    · refine .panicked hfound hname ?_
      simp only [System.step, hrun, if_pos hname, fileDenyWrite, Option.bind_eq_bind,
        Option.bind_some, Option.bind_none] at hcall
      exact hcall
    · simp only [System.step, hrun, if_neg hname, Option.bind_eq_bind,
        Option.bind_some] at hcall
      exact .refused hfound hname hcall
        ⟨rfl, rfl, rfl, openCount_congr hopen, denyCount_congr hopen⟩

/-- `open` fails cleanly exactly if there is a page for the descriptor of a file
that it opens, and a file that it does not open is not named as the thread. -/
theorem open_fails_cleanly_iff (h : OpenReady k.system.fs) (hheld : k.held = false)
    (name file : List UInt8) (answers : OpenAnswers) :
    OpensCleanly name file answers k ↔
      ((∃ e, Opens file answers k.system.fs e) → answers.page = true) ∧
        ((¬ ∃ e, Opens file answers k.system.fs e) → file ≠ name) := by
  cases @openResult _ _ k name file answers h hheld with
  | @opened e k' found page result leaves =>
      refine iff_of_true ⟨fun hnot => absurd ⟨⟨e, found⟩, page⟩ hnot,
        fun e' found' _ => ⟨k', result, ?_⟩⟩ ⟨fun _ => page, fun hnot => absurd ⟨e, found⟩ hnot⟩
      obtain rfl := Option.some.inj (found.entry.symm.trans found'.entry)
      exact leaves
  | @lost e k' found page result leaves =>
      refine iff_of_false (fun hclean => ?_) fun hcond => ?_
      · obtain ⟨k₁, hresult, hrefused⟩ :=
          hclean.1 fun hboth => (by cases page.symm.trans hboth.2)
        obtain rfl := (Prod.mk.inj (Option.some.inj (result.symm.trans hresult))).2
        have hsame := congrFun (hrefused.openCount.symm.trans leaves) e.inodeSector
        rw [Function.update_self] at hsame
        omega
      · cases page.symm.trans (hcond.1 ⟨e, found⟩)
  | refused found other result leaves =>
      exact iff_of_true ⟨fun _ => ⟨_, result, leaves⟩,
        fun e found' _ => absurd ⟨e, found'⟩ found⟩
        ⟨fun hsome => absurd hsome found, fun _ => other⟩
  | panicked found own result =>
      refine iff_of_false (fun hclean => ?_) fun hcond => hcond.2 found own
      obtain ⟨k₁, hresult, -⟩ := hclean.1 fun hboth => found hboth.1
      cases result.symm.trans hresult

end Call

namespace OpenCallWitness

/-- No directory can be allocated. -/
def noDirectory : OpenAnswers := ⟨⟨true, false, true, []⟩, true, true, true⟩

/-- A formatted disk, its root directory closed. -/
theorem exists_openReady : ∃ fs : FileSys (BlockSector → Block), OpenReady fs := by
  obtain ⟨file, fs, hformat, hinv, -, hcount, hmemory⟩ := formatted_disk
  have hclosed := hinv.setInode (by decide : rootDirSector ≠ freeMapSector)
    (by simp : ∀ i, none = some i → _)
  have hroot : ∀ inode, (fs.setInode rootDirSector none).openInodes rootDirSector ≠
      some inode := by
    intro inode hopen
    rw [FileSys.setInode_openInodes, Function.update_self] at hopen
    contradiction
  refine ⟨_, OpenReady.of_mounted (World.mounted hclosed (by simp [World.formatted])
    fun inode hopen => absurd hopen (hroot inode)) ?_⟩
  intro s inode hopen
  have hlive : s ∈ [freeMapSector, rootDirSector] := (hclosed.proper s inode hopen).live
  rcases List.mem_pair.mp hlive with rfl | rfl
  · obtain rfl := Option.some.inj (hclosed.ready.ready.opened.symm.trans hopen)
    rw [file.writable]
    exact Nat.zero_le _
  · exact absurd hopen (hroot inode)

/-- A thread that opens the file of its own name. -/
theorem open_own_name : ∃ k : Locked (BlockSector → Block), OpenReady k.system.fs ∧
    k.held = false ∧ ¬ OpensCleanly [97] [97] noDirectory k := by
  obtain ⟨fs, hready⟩ := exists_openReady
  refine ⟨⟨⟨fs, fun _ => none, 2⟩, false⟩, hready, rfl, ?_⟩
  rw [open_fails_cleanly_iff hready rfl]
  rintro ⟨-, hother⟩
  refine hother (fun hopens => ?_) rfl
  obtain ⟨e, hopens⟩ := hopens
  cases hopens.dir

/-- The file is not opened, and writes are denied to a null pointer. -/
theorem open_own_name_panics :
    ¬ ∀ (k : Locked (BlockSector → Block)) (name file : List UInt8)
      (answers : OpenAnswers), OpenReady k.system.fs → k.held = false →
      OpensCleanly name file answers k := by
  intro hclaim
  obtain ⟨fs, hready⟩ := exists_openReady
  have hnot : ¬ ∃ e, Opens [97] noDirectory fs e := by
    rintro ⟨e, hopens⟩
    cases hopens.dir
  have hready' : OpenReady (Locked.mk ⟨fs, fun _ => none, 2⟩ false).system.fs := hready
  obtain ⟨k', hresult, -⟩ :=
    (hclaim _ [97] [97] noDirectory hready' rfl).1 fun hboth => hnot hboth.1
  cases @openResult _ _ _ [97] [97] noDirectory hready' rfl with
  | opened found page result leaves => exact hnot ⟨_, found⟩
  | lost found page result leaves => exact hnot ⟨_, found⟩
  | refused found other result leaves => exact other rfl
  | panicked found own result => cases result.symm.trans hresult

end OpenCallWitness

end PintosLabs.SystemCalls
