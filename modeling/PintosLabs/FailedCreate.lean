/-
What a call of `filesys_create` that returns false leaves behind.  Only the
sector of the inode is given back, so that a name that is refused costs the
sectors of the file that has been built for it.
-/
import PintosLabs.Directory

namespace PintosLabs.Directory

variable {σ : Type} [SectorStore σ BlockSector Block] {file : FreeMapFile}

/-! Entries that could not be made. -/

section Add

variable {dir inodeSector : BlockSector} {fs fs' : FileSys σ} {inode : Inode}
  {name : List UInt8} {bounce : List Bool}

end Add

/-! The root directory, opened and closed. -/

/-- The file system as `filesys_create` finds it: its files are in order, and
the root directory is one of them that nobody removes. -/
structure Mounted (file : FreeMapFile) (fs : FileSys σ)
    (live : List BlockSector) : Prop where
  files : FilesOk file fs live
  root : rootDirSector ∈ live
  kept : ∀ inode, fs.openInodes rootDirSector = some inode →
    inode.removed = false

/-- The root directory has been opened once more. -/
structure RootOpened (fs fs₁ : FileSys σ) (inode : Inode) : Prop where
  state : ∃ st, fs₁ = ({ fs with store := st } : FileSys σ).setInode
    rootDirSector (some inode) ∧ SectorStore.view st = fs.view
  sector : inode.sector = rootDirSector
  data : inode.data = fs.inodeAt rootDirSector
  kept : inode.removed = false
  opened : 0 < inode.openCnt
  denied : inode.denyWriteCnt = 0 ↔ ∀ inode₀,
    fs.openInodes rootDirSector = some inode₀ → inode₀.denyWriteCnt = 0
  close : (if inode.openCnt - 1 = 0 then none
    else some { inode with openCnt := inode.openCnt - 1 }) =
      fs.openInodes rootDirSector

section Root

variable {fs fs₁ : FileSys σ} {live : List BlockSector} {inode : Inode}

theorem Mounted.inodeOpen_root (h : Mounted file fs live) (memory : Bool) :
    (∃ fs₁ inode, inodeOpen rootDirSector memory fs = (true, fs₁) ∧
      RootOpened fs fs₁ inode) ∨
    (inodeOpen rootDirSector memory fs = (false, fs) ∧
      fs.openInodes rootDirSector = none ∧ memory = false) := by
  unfold inodeOpen
  cases hopen : fs.openInodes rootDirSector with
  | some inode₀ =>
      have hproper := h.files.proper _ _ hopen
      refine Or.inl ⟨_, _, rfl, ⟨fs.store, rfl, rfl⟩, hproper.sector,
        hproper.data, h.kept inode₀ hopen, Nat.succ_pos _, ?_, ?_⟩
      · simp [hopen]
      · rw [hopen]
        exact if_neg hproper.opened.ne'
  | none =>
      cases memory with
      | false => exact Or.inr ⟨rfl, rfl, rfl⟩
      | true =>
          refine Or.inl ⟨_, _, rfl, ⟨_, rfl, SectorStore.view_read fs.store _⟩,
            rfl, ?_, rfl, Nat.one_pos, by simp [hopen], by simp [hopen]⟩
          change InodeDisk.ofBlock (fs.cacheRead rootDirSector).1 = _
          rw [FileSys.cacheRead_fst, FileSys.inodeAt]

theorem RootOpened.openInodes (h : RootOpened fs fs₁ inode) :
    fs₁.openInodes rootDirSector = some inode := by
  obtain ⟨st, rfl, -⟩ := h.state
  rw [FileSys.setInode_openInodes, Function.update_self]

theorem RootOpened.view_eq (h : RootOpened fs fs₁ inode) : fs₁.view = fs.view := by
  obtain ⟨st, rfl, hview⟩ := h.state
  exact hview

theorem RootOpened.inodeAt_eq (h : RootOpened fs fs₁ inode) (s : BlockSector) :
    fs₁.inodeAt s = fs.inodeAt s := by
  rw [FileSys.inodeAt, h.view_eq, FileSys.inodeAt]

/-- The files are in order with the root directory open, too. -/
theorem RootOpened.filesOk (h : RootOpened fs fs₁ inode)
    (hmount : Mounted file fs live) : FilesOk file fs₁ live := by
  have hfiles := hmount.files
  have hinodes := h.inodeAt_eq
  have hview := h.view_eq
  have hdata := h.data
  obtain ⟨st, rfl, hst⟩ := h.state
  have hne : rootDirSector ≠ freeMapSector := by decide
  have hready := (reread hfiles.ready hst).ready.setInode hne (some inode)
  have hother := fun t (ht : t ∈ live) =>
    hfiles.other hready.ready ht (fun x _ _ => congrFun hview x) fun x hx =>
      hfiles.used_of_mem ht hx
  have hflat : live.flatMap (({ fs with store := st } : FileSys σ).setInode
      rootDirSector (some inode)).sectorsOf = live.flatMap fs.sectorsOf :=
    List.flatMap_congr fun t ht => (hother t ht).2.1
  refine ⟨hready, hfiles.mapFile_live, (hinodes _).trans hfiles.mapFile,
    fun t ht => (hother t ht).2.2, hflat ▸ hfiles.nodup,
    fun t ht => hfiles.used t (hflat ▸ ht), fun t inode' ht => ?_⟩
  change Function.update fs.openInodes _ _ t = _ at ht
  by_cases hroot : t = rootDirSector
  · rw [hroot, Function.update_self, Option.some.injEq] at ht
    subst hroot ht
    exact ⟨hmount.root, h.sector, hdata.trans (hinodes _).symm, h.opened⟩
  · rw [Function.update_of_ne hroot] at ht
    obtain ⟨hlive, hsector, hsame, hcnt⟩ := hfiles.proper t inode' ht
    exact ⟨hlive, hsector, hsame.trans (hinodes t).symm, hcnt⟩

end Root

/-! What has changed when the call is over. -/

section Changes

variable {fs fs' fs₁ fs₂ fs₃ : FileSys σ} {live : List BlockSector}

end Changes

/-! The count of failed allocations. -/

section Mono

variable {dir s : BlockSector} {name : List UInt8} {e e' : DirEntry}
  {bounce bounce' : List Bool} {fs fs' : FileSys σ}

end Mono

/-! The call as a whole. -/

section Failed

variable {fs fs' : FileSys σ} {live : List BlockSector} {name : List UInt8}
  {initialSize : Int32} {e : DirEntry} {answers : Answers}

section Opened

variable {fs₁ fs₂ fs₃ fs₄ fs₅ : FileSys σ} {inode : Inode} {s : BlockSector}
  {new touched : List BlockSector}

end Opened

end Failed

/-- The states that runs of the file system reach are such file systems. -/
theorem World.mounted {w : World σ} (h : w.Inv file)
    (hroot : rootDirSector ∈ w.live)
    (hkept : ∀ inode, w.fs.openInodes rootDirSector = some inode →
      inode.removed = false) : Mounted file w.fs w.live :=
  ⟨h.filesOk, hroot, hkept⟩

namespace FailedCreateWitness

def answers : Answers := ⟨true, true, true, []⟩

end FailedCreateWitness

end PintosLabs.Directory
