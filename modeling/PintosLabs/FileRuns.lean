/-
What runs of the file system keep: as long as no allocation fails, the sectors
in use are those of the live inodes, no two of which share one.
-/
import PintosLabs.SectorOwners

namespace PintosLabs

variable {σ : Type} [SectorStore σ BlockSector Block] {file : FreeMapFile}

/-! A new file. -/

/-- `filesys_create`: the new file is all zeros on sectors of its own, or an
allocation fails for want of room. -/
theorem filesysCreate_spec {fs : FileSys σ}
    (hfs : AllocReady file.Ready file.own fs) {length : Int32}
    (hlength : 0 ≤ length.toInt)
    (hmax : bytesToSectors length.toInt.toNat blockSectorSize ≤ maxBlocks) :
    (∃ s fs' new, filesysCreate length true fs = some (some s, fs') ∧
      (fs'.inodeAt s).length = length ∧
      new.length = 1 + sectorsFor (fs'.inodeAt s).blocks ∧
      FileReady file.own fs' s (fs'.inodeAt s) ∧
      Allocated file.Ready file.Synced file.own file.data fs fs' new
        (fs'.sectorsOf s) ∧
      (fs'.sectorsOf s).Perm new ∧
      ∀ p < (fs'.inodeAt s).blocks * blockSectorSize,
        fileByte fs'.view (fs'.inodeAt s) p = 0) ∨
    (¬ fs.Room 0 (1 + sectorsFor
        (bytesToSectors length.toInt.toNat blockSectorSize)) ∧
      FailsMore fs (filesysCreate length true fs)) := by
  unfold filesysCreate
  rcases file.flushSpec.freeMapAllocate_spec hfs 0 with
    ⟨s, fs₁, hrun, halloc⟩ | ⟨fs₁, hrun, hfail, hfull⟩
  · have hfree := halloc.free s (List.mem_singleton_self s)
    have hused : fs₁.Used s := (halloc.used s).mpr (Or.inr List.mem_cons_self)
    have hforeign : s ∉ file.own := fun hs => hfree (hfs.own_used s hs)
    have hcount := halloc.count
    rw [List.length_singleton] at hcount
    rcases file.flushSpec.inodeCreate_spec halloc.ready hused hforeign hlength
      hmax (fun _ => 0) with
      ⟨id', fs', new, hcreate, hid, hsize, hview, hwritten⟩ | ⟨hfull, hfail⟩
    · have hid' : fs'.inodeAt s = id' := by
        rw [FileSys.inodeAt, hview, InodeDisk.ofBlock_toBlock]
      have hperm := hwritten.perm
      rw [emptyInode_sectors, List.nil_append] at hperm
      refine Or.inl ⟨s, fs', [s] ++ new, ?_⟩
      rw [hid']
      refine ⟨?_, hid, ?_, hwritten.file, ?_, ?_, ?_⟩
      · rw [hrun]
        simp only [Option.bind_eq_bind, Option.bind_some, ↓reduceIte, hcreate]
      · rw [List.length_append, List.length_singleton, hsize]
      · rw [FileSys.sectorsOf, hid']
        exact halloc.trans hwritten.alloc
      · rw [FileSys.sectorsOf, hid']
        exact hperm.cons s
      · intro p hp
        rw [hwritten.bytes p hp, emptyInode_blocks]
        simp
    · refine Or.inr ⟨fun hroom => hfull ⟨?_, halloc.memory hroom.2⟩,
        fun created fs' h => ?_⟩
      · have hroom := hroom.1
        omega
      · rw [← halloc.allocFailures]
        simp only [hrun, Option.bind_eq_bind, Option.bind_some, ↓reduceIte,
          Option.bind_eq_some_iff] at h
        obtain ⟨⟨success, fs₂⟩, hcreate, h⟩ := h
        have hlt := hfail _ _ hcreate
        split at h
        · simp only [Option.some.injEq, Prod.mk.injEq] at h
          rw [← h.2]
          exact hlt
        · split at h
          · simp only [Option.bind_eq_some_iff, Option.some.injEq,
              Prod.mk.injEq] at h
            obtain ⟨fs₃, hrelease, -, rfl⟩ := h
            have hle := freeMapRelease_mono file.flushSpec.mono hrelease
            exact hlt.trans_le hle
          · simp only [Option.some.injEq, Prod.mk.injEq] at h
            rw [← h.2]
            exact hlt
  · refine Or.inr ⟨fun hroom => hfull ⟨?_, hroom.2⟩, fun created fs' h => ?_⟩
    · have hroom := hroom.1
      omega
    · rw [hrun] at h
      simp only [Option.bind_eq_bind, Option.bind_some, Bool.false_eq_true,
        ↓reduceIte, Option.some.injEq, Prod.mk.injEq] at h
      rw [← h.2]
      exact hfail

/-- A file of more than the largest size cannot be created. -/
theorem inodeCreate_none {fs : FileSys σ} {sector : BlockSector}
    {length : Int32} (hlength : 0 ≤ length.toInt)
    (hblocks : maxBlocks < bytesToSectors length.toInt.toNat blockSectorSize) :
    inodeCreate sector length true fs = none := by
  have hneg : ¬ length < 0 := by
    rw [Int32.lt_iff_toInt_lt]
    exact Int.not_lt.mpr hlength
  have hnonneg : 0 ≤ length := Int32.le_iff_toInt_le.mpr hlength
  have hsame : ({ emptyInode with length := length } : InodeDisk).blocks =
      bytesToSectors length.toInt.toNat blockSectorSize := rfl
  rw [← hsame] at hblocks
  rw [inodeCreate, if_neg hneg, if_pos rfl]
  change (inodeAllocate bitmapWrite { emptyInode with length := length } fs).bind
    _ = none
  rw [inodeAllocate_none hnonneg hblocks, Option.bind_none]

theorem filesysCreate_max {fs fs' : FileSys σ} {length : Int32}
    {s : BlockSector} (hlength : 0 ≤ length.toInt)
    (hrun : filesysCreate length true fs = some (some s, fs')) :
    bytesToSectors length.toInt.toNat blockSectorSize ≤ maxBlocks := by
  refine Nat.le_of_not_lt fun hblocks => ?_
  simp only [filesysCreate, inodeCreate_none hlength hblocks,
    Option.bind_eq_bind, Option.bind_eq_some_iff] at hrun
  obtain ⟨⟨allocated, sector, fs₁⟩, -, hrun⟩ := hrun
  cases allocated <;> simp at hrun

/-- The sector of a file that could not be created is given back. -/
theorem filesysCreate_undone {fs fs' : FileSys σ}
    (hfs : AllocReady file.Ready file.own fs) {length : Int32} {memory : Bool}
    {created : Option BlockSector}
    (hrun : filesysCreate length memory fs = some (created, fs'))
    (hcase : memory = true → 0 ≤ length.toInt →
      maxBlocks < bytesToSectors length.toInt.toNat blockSectorSize) :
    fs.allocFailures < fs'.allocFailures ∨
      created = none ∧ Released file fs fs' [] := by
  unfold filesysCreate at hrun
  rcases file.flushSpec.freeMapAllocate_spec hfs 0 with
    ⟨s, fs₁, halloc, hspec⟩ | ⟨fs₁, halloc, hfail, -⟩
  · have hfree := hspec.free s (List.mem_singleton_self s)
    have hused : fs₁.Used s := (hspec.used s).mpr (Or.inr List.mem_cons_self)
    have hforeign : s ∉ file.own := fun hs => hfree (hfs.own_used s hs)
    have hne : s ≠ 0 := fun hzero => hfree (hzero ▸ hfs.zero_used)
    obtain ⟨fs₂, hrelease, hrel⟩ := freeMapRelease_spec hspec.ready hused hforeign
    have hcreate : ∀ success fs₃,
        inodeCreate s length memory fs₁ = some (success, fs₃) →
          success = false ∧ fs₃ = fs₁ := by
      intro success fs₃ hcreate
      by_cases hneg : length < 0
      · rw [inodeCreate, if_pos hneg] at hcreate
        contradiction
      · rw [Int32.lt_iff_toInt_lt, Int32.toInt_zero, Int.not_lt] at hneg
        cases memory with
        | true =>
            rw [inodeCreate_none hneg (hcase rfl hneg)] at hcreate
            contradiction
        | false =>
            rw [inodeCreate, if_neg (by simpa [Int32.lt_iff_toInt_lt] using hneg),
              if_neg Bool.false_ne_true, Option.some.injEq,
              Prod.mk.injEq] at hcreate
            exact ⟨hcreate.1.symm, hcreate.2.symm⟩
    simp only [halloc, Option.bind_eq_bind, Option.bind_some, ↓reduceIte,
      Option.bind_eq_some_iff] at hrun
    obtain ⟨⟨success, fs₃⟩, hinode, hrun⟩ := hrun
    obtain ⟨rfl, rfl⟩ := hcreate _ _ hinode
    simp only [Bool.false_eq_true, ↓reduceIte, ne_eq, hne, not_false_eq_true,
      hrelease, Option.bind_some, Option.some.injEq, Prod.mk.injEq] at hrun
    obtain ⟨rfl, rfl⟩ := hrun
    exact Or.inr ⟨rfl, hspec.undone hrel⟩
  · simp only [halloc, Option.bind_eq_bind, Option.bind_some,
      Bool.false_eq_true, ↓reduceIte, Option.some.injEq, Prod.mk.injEq] at hrun
    rw [← hrun.2]
    exact Or.inl hfail

/-- A write that would end beyond the largest size stops the kernel. -/
theorem FileReady.inodeWriteAt_none {own : List BlockSector} {fs : FileSys σ}
    {s : BlockSector} {inode : Inode} (hfile : FileReady own fs s inode.data)
    (hopen : fs.openInodes s = some inode) (hdeny : inode.denyWriteCnt = 0)
    {buffer : Nat → UInt8} {size offset : Int32} {memory : Bool}
    (hsize : 0 < size.toInt) (hoffset : 0 ≤ offset.toInt)
    (hwrap : offset.toInt + size.toInt < 2 ^ 31)
    (hmax : maxBlocks * blockSectorSize < offset.toInt + size.toInt) :
    inodeWriteAt s buffer size offset memory fs = none := by
  obtain ⟨hsum, hlast⟩ := writeEnd_toInt (Int.le_of_lt hsize) hoffset hwrap
  rw [maxBlocks_mul] at hmax
  have hbound : inode.data.length.toInt ≤ 8517632 := by
    rw [← maxBlocks_mul]
    refine inode.data.length_le_blocks.trans (Int.mul_le_mul_of_nonneg_right ?_ ?_)
    · exact_mod_cast hfile.blocks_le
    · decide
  have hprobe := (byteToSector_spec fs.store inode.data (offset + size - 1)).2.2
    fun hholds => by
      have hlt := hholds.2.1
      omega
  rw [inodeWriteAt, inodeWriteAtWith_grow hopen hdeny hprobe]
  generalize hid : ({ inode.data with length := offset + size } : InodeDisk) = id'
  have hlength : id'.length.toInt = offset.toInt + size.toInt := by
    rw [← hid, ← hsum]
  have hnonneg : 0 ≤ id'.length := by
    rw [Int32.le_iff_toInt_le, hlength, Int32.toInt_zero]
    omega
  have hblocks : maxBlocks < id'.blocks := by
    refine Nat.lt_of_not_le fun hle => ?_
    have hfits : id'.length.toInt ≤ maxBlocks * blockSectorSize :=
      InodeDisk.fits_of_blocks_le hle
    rw [maxBlocks_mul] at hfits
    omega
  rw [inodeAllocate_none hnonneg hblocks, Option.bind_none]

/-- How often an inode is open. -/
def FileSys.openCount (fs : FileSys σ) (s : BlockSector) : Nat :=
  (fs.openInodes s).elim 0 Inode.openCnt

/-- How often writes to an inode are denied. -/
def FileSys.denyCount (fs : FileSys σ) (s : BlockSector) : Nat :=
  (fs.openInodes s).elim 0 Inode.denyWriteCnt

namespace FilesOk

variable {fs fs' : FileSys σ} {live : List BlockSector} {s : BlockSector}
  {inode : Inode} (h : FilesOk file fs live)
include h

/-- The last close of a removed inode gives back all it was given, and no
assertion fails on the way. -/
theorem inodeClose_removed (hne : s ≠ freeMapSector)
    (hopen : fs.openInodes s = some inode) (hlast : inode.openCnt - 1 = 0)
    (hremoved : inode.removed = true) :
    ∃ fs', inodeClose s fs = some fs' ∧
      Released file (fs.setInode s none) fs' (fs.sectorsOf s) := by
  obtain ⟨hlive, hsector, hdata, -⟩ := h.proper s inode hopen
  have hfile := h.openFile hne hopen
  obtain ⟨fs₁, hrun₁, hrel₁⟩ := freeMapRelease_spec
    (h.ready.setInode hne none) hfile.used hfile.foreign
  have hkids : ∀ x ∈ inode.data.indexSectors fs.kids inode.data.blocks,
      fs₁.kids x = fs.kids x := fun x hx =>
    congrArg wordsOf (hrel₁.view_eq
      (hfile.parts.foreign x (InodeDisk.indexSectors_subset hx)))
  have hparts := hfile.parts.congr hkids fun x hx =>
    (hrel₁.used x).mpr ⟨hfile.parts.used x hx, fun hmem =>
      hfile.apart (List.mem_singleton.mp hmem ▸ hx)⟩
  obtain ⟨fs₂, hrun₂, hrel₂⟩ := inodeDeallocate_spec hrel₁.ready hparts
    hfile.length_nonneg hfile.blocks_le
  rw [InodeDisk.sectors_congr hkids, hdata] at hrel₂
  refine ⟨fs₂, ?_, hrel₁.trans hrel₂⟩
  simp only [inodeClose, hopen, hlast, hremoved, hsector, hrun₁, hrun₂,
    Option.bind_eq_bind, Option.bind_some, ↓reduceIte]

omit h in
/-- A call of `filesys_create`: no sector was free, or nothing has been
created and the sectors are as they were, or there is a new file. -/
theorem filesysCreate_cases (hready : AllocReady file.Ready file.own fs)
    {length : Int32} {memory : Bool} {created : Option BlockSector}
    (hrun : filesysCreate length memory fs = some (created, fs')) :
    fs.allocFailures < fs'.allocFailures ∨
    (created = none ∧ Released file fs fs' []) ∨
    ∃ s new, created = some s ∧ FileReady file.own fs' s (fs'.inodeAt s) ∧
      Allocated file.Ready file.Synced file.own file.data fs fs' new
        (fs'.sectorsOf s) ∧ (fs'.sectorsOf s).Perm new := by
  by_cases hcase : memory = true ∧ 0 ≤ length.toInt ∧
      bytesToSectors length.toInt.toNat blockSectorSize ≤ maxBlocks
  · obtain ⟨rfl, hlength, hmax⟩ := hcase
    rcases filesysCreate_spec hready hlength hmax with
      ⟨s, fs₁, new, hmade, -, -, hfile, halloc, hperm, -⟩ | ⟨-, hfail⟩
    · rw [hrun, Option.some.injEq, Prod.mk.injEq] at hmade
      obtain ⟨rfl, rfl⟩ := hmade
      exact Or.inr (Or.inr ⟨s, new, rfl, hfile, halloc, hperm⟩)
    · exact Or.inl (hfail _ _ hrun)
  · rcases filesysCreate_undone hready hrun fun hmemory hlength =>
        Nat.lt_of_not_le fun hmax => hcase ⟨hmemory, hlength, hmax⟩ with
      hlt | hundone
    · exact Or.inl hlt
    · exact Or.inr (Or.inl hundone)

/-- An inode is opened once more, or there was no memory for it. -/
theorem inodeOpen_cases (hs : s ∈ live) (hne : s ≠ freeMapSector)
    (memory : Bool) :
    inodeOpen s memory fs = (false, fs) ∨
    ∃ st inode, SectorStore.view st = fs.view ∧
      inodeOpen s memory fs =
        (true, ({ fs with store := st } : FileSys σ).setInode s (some inode)) ∧
      FilesOk file (({ fs with store := st } : FileSys σ).setInode s (some inode))
        live ∧
      inode.openCnt = fs.openCount s + 1 ∧ inode.denyWriteCnt = fs.denyCount s ∧
      (inode.removed = true → ∃ i, fs.openInodes s = some i ∧ i.removed = true) := by
  unfold inodeOpen FileSys.openCount FileSys.denyCount
  cases hopen : fs.openInodes s with
  | some inode =>
      refine Or.inr ⟨fs.store, _, rfl, rfl, h.setInode hne
        (h.proper_modify hopen rfl rfl (Nat.succ_pos _)), rfl, rfl, fun hremoved => ?_⟩
      exact ⟨inode, rfl, hremoved⟩
  | none =>
      cases memory with
      | false => exact Or.inl rfl
      | true =>
          have hread := h.setStore (SectorStore.view_read fs.store s)
          refine Or.inr ⟨_, _, SectorStore.view_read fs.store s, rfl,
            hread.setInode hne fun i hi => ?_, rfl, rfl, fun hremoved =>
              absurd hremoved Bool.false_ne_true⟩
          rw [← Option.some.inj hi]
          refine ⟨hs, rfl, ?_, Nat.one_pos⟩
          change InodeDisk.ofBlock (fs.cacheRead s).1 =
            InodeDisk.ofBlock ((fs.cacheRead s).2.view s)
          rw [FileSys.cacheRead_fst, FileSys.cacheRead_view]

/-- A write to an open inode: no sector was free, or nothing but the state of
the store has changed, or the file has been written. -/
theorem inodeWriteAt_cases (hne : s ≠ freeMapSector)
    (hopen : fs.openInodes s = some inode) {buffer : Nat → UInt8}
    {size offset : Int32} {memory : Bool}
    (hallowed : inode.denyWriteCnt = 0 →
      WriteAllowed inode.data.length.toInt size.toInt offset.toInt)
    {written : Int32}
    (hrun : inodeWriteAt s buffer size offset memory fs = some (written, fs')) :
    fs.allocFailures < fs'.allocFailures ∨
    (∃ st, fs' = { fs with store := st } ∧ SectorStore.view st = fs.view) ∨
    inode.denyWriteCnt = 0 ∧ ∃ mid id' offset n new,
      fs' = mid.setInode s (some { inode with data := id' }) ∧
        FileWritten file.Ready file.Synced file.own file.data fs mid s
          inode.data id' offset n buffer new := by
  have hproper := h.proper s inode hopen
  have hfile := h.openFile hne hopen
  by_cases hdeny : inode.denyWriteCnt = 0
  case neg =>
    rw [inodeWriteAt, inodeWriteAtWith_denied hopen hdeny, Option.some.injEq,
      Prod.mk.injEq] at hrun
    exact Or.inr (Or.inl ⟨fs.store, hrun.2.symm, rfl⟩)
  obtain ⟨hoffset, hwrap, hcase⟩ := hallowed hdeny
  rcases hcase with hsize | ⟨hsize, hempty⟩
  · by_cases hmax : offset.toInt + size.toInt ≤ maxBlocks * blockSectorSize
    · rcases file.flushSpec.inodeWriteAtWith_spec h.ready hopen
        hproper.sector hdeny hfile buffer memory hsize hoffset hmax with
        ⟨_, mid, id', n, new, hgrown, -, -, -, -, -, hwritten⟩ | ⟨-, hfail⟩
      · rw [inodeWriteAt, hgrown, Option.some.injEq, Prod.mk.injEq] at hrun
        exact Or.inr (Or.inr ⟨hdeny, mid, id', _, n, new, hrun.2.symm, hwritten⟩)
      · exact Or.inl (hfail _ _ hrun)
    · rw [hfile.inodeWriteAt_none hopen hdeny hsize hoffset hwrap
        (Int.not_le.mp hmax)] at hrun
      contradiction
  · have hprobe : 1 ≤ offset.toInt ∧
          offset.toInt ≤ inode.data.length.toInt →
        (byteToSector fs.store inode.data (offset + size - 1)).1 ≠
          noSector := fun hinside => by
      obtain ⟨-, hlast⟩ := writeEnd_toInt hsize.ge hoffset hwrap
      exact hfile.probe_ne h.ready.length_lt (by omega) (by omega)
    obtain ⟨st, hempty', hview⟩ := inodeWriteAtWith_empty hopen hproper.sector
      hdeny (h.view_eq hopen) hsize (hempty.imp_right fun hinside =>
        ⟨hoffset, hfile.length_nonneg, hprobe hinside⟩)
    rw [inodeWriteAt, hempty', Option.some.injEq, Prod.mk.injEq] at hrun
    exact Or.inr (Or.inl ⟨st, hrun.2.symm, hview⟩)

end FilesOk

namespace World.Inv

variable {w w' : World σ} (h : w.Inv file)
include h

/-- The counters and marks of an open inode change. -/
theorem modifyInode {s : BlockSector} (hne : s ≠ freeMapSector)
    {inode inode' : Inode} (hopen : w.fs.openInodes s = some inode)
    (hsector : inode'.sector = inode.sector) (hdata : inode'.data = inode.data)
    (hcnt : 0 < inode'.openCnt) :
    ({ w with fs := w.fs.setInode s (some inode') } : World σ).Inv file :=
  h.setInode hne (h.filesOk.proper_modify hopen hsector hdata hcnt)

/-! The steps. -/

theorem openAt_step {s : BlockSector} {memory : Bool}
    (hok : FileOp.Ok w (.openAt s memory))
    (hstep : worldStep w (.openAt s memory) = some w') : w'.Inv file := by
  obtain ⟨⟨hlive, hne⟩, -⟩ := hok
  simp only [worldStep, Option.some.injEq] at hstep
  subst hstep
  rcases h.filesOk.inodeOpen_cases hlive hne memory with
    hopen | ⟨st, inode, hview, hopen, hfiles, -⟩
  · rw [hopen]
    exact h
  · rw [hopen]
    exact h.of_same hfiles rfl hview

theorem reopen_step {s : BlockSector} (hok : FileOp.Ok w (.reopen s))
    (hstep : worldStep w (.reopen s) = some w') : w'.Inv file := by
  simp only [worldStep, inodeReopen, Option.bind_eq_bind,
    Option.bind_eq_some_iff, Option.some.injEq] at hstep
  obtain ⟨_, ⟨inode, hopen, rfl⟩, rfl⟩ := hstep
  exact h.modifyInode hok.1 hopen rfl rfl (Nat.succ_pos _)

theorem remove_step {s : BlockSector} (hok : FileOp.Ok w (.remove s))
    (hstep : worldStep w (.remove s) = some w') : w'.Inv file := by
  simp only [worldStep, inodeRemove, Option.bind_eq_bind,
    Option.bind_eq_some_iff, Option.some.injEq] at hstep
  obtain ⟨_, ⟨inode, hopen, rfl⟩, rfl⟩ := hstep
  exact h.modifyInode hok.1 hopen rfl rfl (h.proper s inode hopen).opened

theorem denyWrite_step {s : BlockSector} (hok : FileOp.Ok w (.denyWrite s))
    (hstep : worldStep w (.denyWrite s) = some w') : w'.Inv file := by
  simp only [worldStep, inodeDenyWrite, Option.bind_eq_bind,
    Option.bind_eq_some_iff, Option.some.injEq] at hstep
  obtain ⟨fs, ⟨inode, hopen, hdeny⟩, rfl⟩ := hstep
  split at hdeny
  · rw [← Option.some.inj hdeny]
    exact h.modifyInode hok.1 hopen rfl rfl (h.proper s inode hopen).opened
  · contradiction

theorem allowWrite_step {s : BlockSector} (hok : FileOp.Ok w (.allowWrite s))
    (hstep : worldStep w (.allowWrite s) = some w') : w'.Inv file := by
  simp only [worldStep, inodeAllowWrite, Option.bind_eq_bind,
    Option.bind_eq_some_iff, Option.some.injEq] at hstep
  obtain ⟨fs, ⟨inode, hopen, hallow⟩, rfl⟩ := hstep
  split at hallow
  · rw [← Option.some.inj hallow]
    exact h.modifyInode hok.1 hopen rfl rfl (h.proper s inode hopen).opened
  · contradiction

theorem readAt_step {s : BlockSector} {size offset : Int32} {memory : Bool}
    (hstep : worldStep w (.readAt s size offset memory) = some w') :
    w'.Inv file := by
  simp only [worldStep, inodeReadAt, Option.bind_eq_bind,
    Option.bind_eq_some_iff, Option.some.injEq] at hstep
  obtain ⟨_, ⟨inode, hopen, rfl⟩, rfl⟩ := hstep
  exact h.setStore (readLoop_view _ _ _ _ _ _)

theorem close_step {s : BlockSector} (hok : FileOp.Ok w (.close s))
    (hstep : worldStep w (.close s) = some w') : w'.Inv file := by
  have hne : s ≠ freeMapSector := hok.1
  simp only [worldStep, Option.bind_eq_bind, Option.bind_eq_some_iff] at hstep
  obtain ⟨inode, hopen, fs, hclose, hstep⟩ := hstep
  by_cases hlast : inode.openCnt - 1 = 0
  · by_cases hremoved : inode.removed = true
    · rw [if_pos ⟨hlast, hremoved⟩, Option.some.injEq] at hstep
      obtain ⟨fs', hrun, hrel⟩ := h.filesOk.inodeClose_removed hne hopen hlast hremoved
      rw [hrun, Option.some.injEq] at hclose
      rw [← hstep, ← hclose]
      exact h.release (h.proper s inode hopen).live hne hrel
    · rw [if_neg fun hboth => hremoved hboth.2, Option.some.injEq] at hstep
      simp only [inodeClose, hopen, hlast, hremoved, Option.bind_eq_bind,
        Option.bind_some, Bool.false_eq_true, ↓reduceIte,
        Option.some.injEq] at hclose
      rw [← hstep, ← hclose]
      exact h.setInode hne (by simp)
  · rw [if_neg fun hboth => hlast hboth.1, Option.some.injEq] at hstep
    simp only [inodeClose, hopen, hlast, Option.bind_eq_bind, Option.bind_some,
      ↓reduceIte, Option.some.injEq] at hclose
    rw [← hstep, ← hclose]
    exact h.modifyInode hne hopen rfl rfl (Nat.pos_of_ne_zero hlast)

theorem create_step {length : Int32} {memory : Bool}
    (hok : FileOp.Ok w (.create length memory))
    (hstep : worldStep w (.create length memory) = some w') : w'.Inv file := by
  have hcount := hok.2 w' hstep
  simp only [worldStep, Option.bind_eq_bind, Option.bind_eq_some_iff,
    Option.some.injEq] at hstep
  obtain ⟨⟨created, fs⟩, hcreate, rfl⟩ := hstep
  have hcount : fs.allocFailures = w.fs.allocFailures := by
    cases created <;> exact hcount
  rcases FilesOk.filesysCreate_cases h.ready hcreate with
    hlt | ⟨rfl, hrel⟩ | ⟨s, new, rfl, hfile, halloc, hperm⟩
  · omega
  · refine h.restate hrel.ready (fun x => ?_) hrel.frame fun s inode hs => ?_
    · simp [hrel.used]
    · rw [hrel.openInodes] at hs
      exact h.proper s inode hs
  · exact h.create hfile halloc hperm

omit h in
/-- Nothing has been acquired while the free map stands still. -/
theorem acquire_nothing {fs : FileSys σ}
    (hinv : ({ w with fs := fs } : World σ).Inv file)
    (hmap : fs.freeMap = w.fs.freeMap) (s : BlockSector) :
    ({ w with
        fs := fs
        acquired := Function.update w.acquired s
          (w.acquired s ++ w.fs.gained fs) } : World σ).Inv file := by
  rw [FileSys.gained_nil hmap, List.append_nil, Function.update_eq_self]
  exact hinv

theorem writeAt_step {s : BlockSector} {buffer : Nat → UInt8}
    {size offset : Int32} {memory : Bool}
    (hok : FileOp.Ok w (.writeAt s buffer size offset memory))
    (hstep : worldStep w (.writeAt s buffer size offset memory) = some w') :
    w'.Inv file := by
  have hcount := hok.2 w' hstep
  obtain ⟨hne, hallowed⟩ := hok.1
  simp only [worldStep, Option.bind_eq_bind, Option.bind_eq_some_iff,
    Option.some.injEq] at hstep
  obtain ⟨⟨written, fs⟩, hwrite, rfl⟩ := hstep
  cases hopen : w.fs.openInodes s with
  | none =>
      rw [inodeWriteAt, inodeWriteAtWith, hopen] at hwrite
      contradiction
  | some inode =>
      rcases h.filesOk.inodeWriteAt_cases hne hopen (hallowed inode hopen)
          hwrite with
        hfail | ⟨st, rfl, hview⟩ | ⟨-, mid, id', _, n, new, rfl, hwritten⟩
      · exact absurd hcount (Nat.ne_of_gt hfail)
      · exact acquire_nothing (w := w) (h.setStore hview) rfl s
      · exact h.write hne hopen hwritten

end World.Inv

/-- Every allowed step keeps the owners of the sectors straight. -/
theorem worldStep_inv {w w' : World σ} {op : FileOp} (h : w.Inv file)
    (hok : op.Ok w) (hstep : worldStep w op = some w') : w'.Inv file := by
  cases op with
  | create length memory => exact h.create_step hok hstep
  | openAt s memory => exact h.openAt_step hok hstep
  | reopen s => exact h.reopen_step hok hstep
  | close s => exact h.close_step hok hstep
  | readAt s size offset memory => exact h.readAt_step hstep
  | writeAt s buffer size offset memory => exact h.writeAt_step hok hstep
  | remove s => exact h.remove_step hok hstep
  | denyWrite s => exact h.denyWrite_step hok hstep
  | allowWrite s => exact h.allowWrite_step hok hstep

/-- A run goes on by an allowed step in which no allocation fails. -/
theorem worldRun_snoc {w w₁ w₂ : World σ} {ops : List FileOp} {op : FileOp}
    (hrun : Run worldStep (fun w op => op.Ok w) w ops w₁)
    (hstep : worldStep w₁ op = some w₂) (hallowed : op.Allowed w₁)
    (hsame : w₂.fs.allocFailures = w₁.fs.allocFailures) :
    Run worldStep (fun w op => op.Ok w) w (ops ++ [op]) w₂ := by
  refine hrun.snoc ⟨hallowed, fun w' h => ?_⟩ hstep
  rw [hstep, Option.some.injEq] at h
  rw [← h, hsame]

theorem worldRun_inv {w w' : World σ} {ops : List FileOp} (h : w.Inv file)
    (hrun : Run worldStep (fun w op => op.Ok w) w ops w') : w'.Inv file :=
  hrun.invariant _ worldStep_inv h

end PintosLabs
