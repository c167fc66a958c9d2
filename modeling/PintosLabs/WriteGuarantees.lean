/-
What a call of `inode_write_at` may do to the length of a file: when it never
shrinks the file, and when a call that writes nothing leaves it as it was.
-/
import PintosLabs.DiskFormat

namespace PintosLabs

variable {σ : Type} [SectorStore σ BlockSector Block]

/-- What is promised of a write: the file does not shrink, and nothing at all
changes if there is nothing to write. -/
structure NeverShrinks (fs fs' : FileSys σ) (sector : BlockSector)
    (size : Int32) : Prop where
  length : ∀ inode inode', fs.openInodes sector = some inode →
    fs'.openInodes sector = some inode' →
      inode.data.length.toInt ≤ inode'.data.length.toInt
  nothing : size.toInt = 0 → fs'.openInodes = fs.openInodes ∧
    fs'.view = fs.view ∧ fs'.freeMap = fs.freeMap

/-- What is promised of a write that returns zero: the inode, in memory and on
its sector, and all that can be read of the file are what they were. -/
structure FileUnchanged (fs fs' : FileSys σ) (sector : BlockSector) : Prop where
  inode : ∀ inode inode', fs.openInodes sector = some inode →
    fs'.openInodes sector = some inode' → inode'.data = inode.data
  stored : fs'.view sector = fs.view sector
  reads : ∀ size offset memory,
    (inodeReadAt sector size offset memory fs').map Prod.fst =
      (inodeReadAt sector size offset memory fs).map Prod.fst

section Branches

variable {sector : BlockSector} {buffer : Nat → UInt8}
  {size offset written : Int32} {memory : Bool} {fs fs' : FileSys σ}
  {inode : Inode}

/-- A state that is seen alike and has the same open inodes. -/
theorem FileUnchanged.of_view (hview : fs'.view = fs.view)
    (hopen : fs'.openInodes = fs.openInodes) : FileUnchanged fs fs' sector := by
  refine ⟨fun inode inode' h h' => ?_, congrFun hview sector,
    fun size offset memory => ?_⟩
  · rw [hopen, h, Option.some.injEq] at h'
    rw [h']
  · unfold inodeReadAt
    rw [hopen]
    cases fs.openInodes sector with
    | none => rfl
    | some inode =>
        simp only [Option.bind_eq_bind, Option.bind_some, Option.map_some]
        rw [readLoop_congr hview]

/-- A write that makes the file grow sets the length to where it ends, or
fails at once if that is negative. -/
theorem inodeWriteAt_grown (hopen : fs.openInodes sector = some inode)
    (hdeny : inode.denyWriteCnt = 0)
    (hprobe : (byteToSector fs.store inode.data (offset + size - 1)).1 =
      noSector)
    (hrun : inodeWriteAt sector buffer size offset memory fs =
      some (written, fs')) :
    ∃ id', fs'.openInodes sector = some { inode with data := id' } ∧
      id'.length = offset + size ∧
      (0 ≤ (offset + size).toInt → ∃ st, written =
        (writeLoop (σ := σ) st id' buffer memory size offset 0).1) ∧
      ((offset + size).toInt < 0 → written = 0) := by
  rw [inodeWriteAt, inodeWriteAtWith_grow hopen hdeny hprobe,
    Option.bind_eq_some_iff] at hrun
  obtain ⟨⟨success, id', fs₁⟩, halloc, hrun⟩ := hrun
  obtain ⟨hlength, hsuccess⟩ := inodeAllocate_returns halloc
  cases success with
  | true =>
      simp only [↓reduceIte, Option.some.injEq, Prod.mk.injEq] at hrun
      rw [← hrun.2, ← hrun.1]
      refine ⟨_, Function.update_self _ _ _, rfl, fun _ => ⟨_, rfl⟩, fun h => ?_⟩
      exact absurd (hsuccess.mp rfl) (Int.not_le.mpr h)
  | false =>
      simp only [Bool.false_eq_true, ↓reduceIte, Option.some.injEq,
        Prod.mk.injEq] at hrun
      rw [← hrun.2, ← hrun.1]
      refine ⟨id', Function.update_self _ _ _, hlength, fun h => ?_, fun _ => rfl⟩
      exact absurd (hsuccess.mpr h) Bool.false_ne_true

end Branches

/-- The probe of `inode_write_at` finds a sector for a last byte within the
file and none for one beyond its end, or before its start. -/
theorem World.Inv.probe_iff {file : FreeMapFile} {w : World σ} (h : w.Inv file)
    {s : BlockSector} {inode : Inode} (hne : s ≠ freeMapSector)
    (hopen : w.fs.openInodes s = some inode) (pos : Int32) :
    (byteToSector w.fs.store inode.data pos).1 = noSector ↔
      pos.toInt < 0 ∨ inode.data.length.toInt ≤ pos.toInt := by
  have hfile := h.filesOk.openFile hne hopen
  constructor
  · intro hprobe
    by_contra hinside
    rw [not_or, Int.not_lt, Int.not_le] at hinside
    exact hfile.probe_ne h.ready.length_lt hinside.1 hinside.2 hprobe
  · intro houtside
    refine (byteToSector_spec w.fs.store inode.data pos).2.2 fun hholds => ?_
    obtain ⟨hlow, hhigh, -⟩ := hholds
    omega

section Shrinks

variable {cnt : BlockSector} {store : σ} {memory : List Bool} {fs : FileSys σ}
  {ops : List FileOp} {w : World σ} {s : BlockSector} {inode : Inode}
  {buffer : Nat → UInt8} {size offset written : Int32} {bounce : Bool}
  {fs' : FileSys σ}

/-- In every run in which no allocation fails: a call of `inode_write_at` that
ends within the largest size keeps the file from shrinking, and a call with
nothing to write changes nothing, exactly if writes are denied, or there is
something to write, or the file is empty and written at its start, or the call
starts behind a byte of the file. -/
theorem write_never_shrinks_iff
    (hformat : filesysInit true cnt store memory = some fs)
    (hnofail : fs.allocFailures = 0)
    (hrun : Run worldStep (fun w op => op.Ok w) (World.formatted fs) ops w)
    (hne : s ≠ freeMapSector) (hopen : w.fs.openInodes s = some inode)
    (hsize : 0 ≤ size.toInt) (hoffset : 0 ≤ offset.toInt)
    (hmax : offset.toInt + size.toInt ≤ maxBlocks * blockSectorSize)
    (hwrite : inodeWriteAt s buffer size offset bounce w.fs =
      some (written, fs')) :
    NeverShrinks w.fs fs' s size ↔ inode.denyWriteCnt ≠ 0 ∨ 0 < size.toInt ∨
      offset.toInt = 0 ∧ inode.data.length.toInt = 0 ∨
      1 ≤ offset.toInt ∧ offset.toInt ≤ inode.data.length.toInt := by
  obtain ⟨file, hformatted⟩ := filesysInit_inv hformat hnofail
  have hinv := worldRun_inv hformatted hrun
  have hfile := hinv.filesOk.openFile hne hopen
  have hlength := hfile.length_nonneg
  rw [maxBlocks_mul] at hmax
  by_cases hdeny : inode.denyWriteCnt = 0
  case neg =>
    rw [inodeWriteAt, inodeWriteAtWith_denied hopen hdeny, Option.some.injEq,
      Prod.mk.injEq] at hwrite
    refine iff_of_true ⟨fun i i' hi hi' => ?_, fun _ => ?_⟩ (Or.inl hdeny)
    · rw [← hwrite.2, hi, Option.some.injEq] at hi'
      rw [hi']
    · rw [← hwrite.2]
      exact ⟨rfl, rfl, rfl⟩
  obtain ⟨hsum, hlast⟩ := writeEnd_toInt hsize hoffset (by omega)
  have hprobe := hinv.probe_iff hne hopen (offset + size - 1)
  rw [hlast] at hprobe
  by_cases hpos : 0 < size.toInt
  case pos =>
    refine iff_of_true ⟨fun i i' hi hi' => ?_, fun hzero => ?_⟩
      (Or.inr (Or.inl hpos))
    · rw [hopen, Option.some.injEq] at hi
      subst hi
      by_cases hinside : offset.toInt + size.toInt ≤ inode.data.length.toInt
      · rw [inodeWriteAt, inodeWriteAtWith_inside hopen hdeny
          (hprobe.not.mpr (by omega)), Option.some.injEq, Prod.mk.injEq] at hwrite
        rw [← hwrite.2, hopen, Option.some.injEq] at hi'
        rw [hi']
      · obtain ⟨id', hopen', hlength', -⟩ := inodeWriteAt_grown hopen hdeny
          (hprobe.mpr (by omega)) hwrite
        rw [hopen', Option.some.injEq] at hi'
        rw [← hi', hlength', hsum]
        omega
    · omega
  case neg =>
    have hzero : size.toInt = 0 := by omega
    by_cases hcase : offset.toInt = 0 ∧ inode.data.length.toInt = 0 ∨
        1 ≤ offset.toInt ∧ offset.toInt ≤ inode.data.length.toInt
    · obtain ⟨st, hempty, hview⟩ := inodeWriteAtWith_empty hopen
        (hinv.proper s inode hopen).sector hdeny (hinv.filesOk.view_eq hopen) hzero
        (hcase.imp_right fun hinside =>
          ⟨hoffset, hlength, hprobe.not.mpr (by omega)⟩)
      rw [inodeWriteAt, hempty, Option.some.injEq, Prod.mk.injEq] at hwrite
      refine iff_of_true ⟨fun i i' hi hi' => ?_, fun _ => ?_⟩
        (Or.inr (Or.inr hcase))
      · rw [← hwrite.2, hi, Option.some.injEq] at hi'
        rw [hi']
      · rw [← hwrite.2]
        exact ⟨rfl, hview, rfl⟩
    · obtain ⟨id', hopen', hlength', -⟩ := inodeWriteAt_grown hopen hdeny
        (hprobe.mpr (by omega)) hwrite
      refine iff_of_false (fun hkeeps => ?_) fun hor => ?_
      · have hsame := congrFun (hkeeps.nothing hzero).1 s
        rw [hopen', hopen, Option.some.injEq] at hsame
        have hdata : id' = inode.data := congrArg Inode.data hsame
        rw [hdata] at hlength'
        rw [hlength', hsum] at hcase
        omega
      · exact hor.elim (absurd hdeny) fun hor =>
          hor.elim (absurd · hpos) hcase

/-- In every run in which no allocation fails: a call of `inode_write_at` that
returns zero has left the file as it was exactly if writes are denied, or the
end of the write is a number and either it lies within the file, or there is
memory for a bounce buffer, or the write begins with a whole sector. -/
theorem write_zero_unchanged_iff
    (hformat : filesysInit true cnt store memory = some fs)
    (hnofail : fs.allocFailures = 0)
    (hrun : Run worldStep (fun w op => op.Ok w) (World.formatted fs) ops w)
    (hne : s ≠ freeMapSector) (hopen : w.fs.openInodes s = some inode)
    (hsize : 0 < size.toInt) (hoffset : 0 ≤ offset.toInt)
    (hwrite : inodeWriteAt s buffer size offset bounce w.fs =
      some (written, fs')) :
    (written = 0 → FileUnchanged w.fs fs' s) ↔
      inode.denyWriteCnt ≠ 0 ∨ offset.toInt + size.toInt < 2 ^ 31 ∧
        (offset.toInt + size.toInt ≤ inode.data.length.toInt ∨ bounce = true ∨
          offset.toInt % 512 = 0 ∧ 512 ≤ size.toInt) := by
  obtain ⟨file, hformatted⟩ := filesysInit_inv hformat hnofail
  have hinv := worldRun_inv hformatted hrun
  have hfile := hinv.filesOk.openFile hne hopen
  have hlength := hfile.length_nonneg
  by_cases hdeny : inode.denyWriteCnt = 0
  case neg =>
    rw [inodeWriteAt, inodeWriteAtWith_denied hopen hdeny, Option.some.injEq,
      Prod.mk.injEq] at hwrite
    rw [← hwrite.2]
    exact iff_of_true (fun _ => FileUnchanged.of_view rfl rfl) (Or.inl hdeny)
  have hprobe := hinv.probe_iff hne hopen (offset + size - 1)
  by_cases hwrap : offset.toInt + size.toInt < 2 ^ 31
  case neg =>
    obtain ⟨hneg, hlast⟩ := writeEnd_wrap hsize hoffset (Int.not_lt.mp hwrap)
    have hfits : inode.data.length.toInt ≤ maxBlocks * blockSectorSize :=
      hfile.fits
    rw [maxBlocks_mul] at hfits
    obtain ⟨id', hopen', hlength', -, hzero⟩ := inodeWriteAt_grown hopen hdeny
      (hprobe.mpr (by omega)) hwrite
    refine iff_of_false (fun hkeeps => ?_) fun hor =>
      hor.elim (absurd hdeny) fun h => hwrap h.1
    have hsame := (hkeeps (hzero hneg)).inode _ _ hopen hopen'
    change id' = inode.data at hsame
    rw [hsame] at hlength'
    rw [hlength'] at hlength
    exact absurd hlength (Int.not_le.mpr hneg)
  obtain ⟨hsum, hlast⟩ := writeEnd_toInt hsize.le hoffset hwrap
  rw [hlast] at hprobe
  by_cases hinside : offset.toInt + size.toInt ≤ inode.data.length.toInt
  case pos =>
    have hview := (byteToSector_spec w.fs.store inode.data (offset + size - 1)).1
    rw [inodeWriteAt, inodeWriteAtWith_inside hopen hdeny
      (hprobe.not.mpr (by omega)), Option.some.injEq, Prod.mk.injEq] at hwrite
    obtain ⟨hwritten, rfl⟩ := hwrite
    refine iff_of_true (fun hzero => ?_) (Or.inr ⟨hwrap, Or.inl hinside⟩)
    generalize (byteToSector w.fs.store inode.data (offset + size - 1)).2 = st
      at hview hwritten ⊢
    obtain ⟨n, -, -, hn, hres, -⟩ := writeLoop_spec st inode.data buffer bounce
      size offset 0 hsize.le hoffset hinside hfile.fits (by simp) (by simp; omega)
    rw [hwritten, hzero] at hres
    have hstop := (hn.mp (by simp at hres; omega)).resolve_left hsize.ne'
    exact FileUnchanged.of_view ((writeLoop_stop st inode.data buffer bounce 0
      hlength hoffset (Or.inr (Or.inr hstop))).2.trans hview) rfl
  case neg =>
    obtain ⟨id', hopen', hlength', hloop, -⟩ := inodeWriteAt_grown hopen hdeny
      (hprobe.mpr (by omega)) hwrite
    obtain ⟨st, rfl⟩ := hloop (by omega)
    have hfits : id'.Fits := by
      rw [InodeDisk.Fits, hlength', hsum]
      refine Int.not_lt.mp fun hmax => ?_
      rw [hfile.inodeWriteAt_none hopen hdeny hsize hoffset hwrap hmax] at hwrite
      contradiction
    obtain ⟨n, -, -, hn, hres, -⟩ := writeLoop_spec st id' buffer bounce
      size offset 0 hsize.le hoffset (by rw [hlength', hsum]) hfits (by simp)
      (by simp; omega)
    have hchunk : (chunkSize id'.length size offset).toInt = 512 ↔
        offset.toInt % 512 = 0 ∧ 512 ≤ size.toInt := by
      have hnonneg : 0 ≤ id'.length.toInt := by
        rw [hlength', hsum]
        omega
      rw [chunkSize_toInt size hnonneg hoffset, hlength', hsum]
      omega
    by_cases hcase : bounce = true ∨ offset.toInt % 512 = 0 ∧ 512 ≤ size.toInt
    · refine iff_of_true (fun hzero => ?_) (Or.inr ⟨hwrap, Or.inr hcase⟩)
      rw [hzero] at hres
      obtain ⟨hmemory, hpart⟩ := (hn.mp (by simp at hres; omega)).resolve_left
        hsize.ne'
      exact hcase.elim (absurd · (by simp [hmemory]))
        fun hwhole => absurd (hchunk.mpr hwhole) hpart
    · rw [not_or, Bool.not_eq_true] at hcase
      refine iff_of_false (fun hkeeps => ?_) fun hor => ?_
      · have hzero : n = 0 := hn.mpr (Or.inr ⟨hcase.1, hchunk.not.mpr hcase.2⟩)
        rw [hzero] at hres
        have hsame := (hkeeps (int32_eq_zero (by simpa using hres))).inode _ _
          hopen hopen'
        change id' = inode.data at hsame
        rw [← hsame, hlength', hsum] at hinside
        exact hinside (Int.le_refl _)
      · rcases hor with h | ⟨-, h | h | h⟩
        · exact h hdeny
        · exact hinside h
        · exact Bool.false_ne_true (hcase.1.symm.trans h)
        · exact hcase.2 h

end Shrinks

namespace WriteGuaranteesWitness

/-- Writing nothing at the start of an empty file changes nothing. -/
theorem write_never_shrinks_empty :
    ∃ (w : World (BlockSector → Block)) (s : BlockSector)
      (fs' : FileSys (BlockSector → Block)),
      inodeWriteAt s (fun _ => 0) 0 0 true w.fs = some (0, fs') ∧
        NeverShrinks w.fs fs' s 0 := by
  obtain ⟨fs, ops, w, s, id, hfile⟩ : ∃ fs ops w s id,
    OpenedFile 0 fs ops w s id := opened_file (by decide) (by decide)
  obtain ⟨file, hformatted⟩ := filesysInit_inv hfile.format hfile.nofail
  have hinv := worldRun_inv hformatted hfile.run
  have hlength : id.length.toInt = 0 := by
    rw [hfile.length_eq]
    rfl
  obtain ⟨st, hwrite⟩ : ∃ st, inodeWriteAt s (fun _ => 0) 0 0 true w.fs =
      some (0, { w.fs with store := st }) :=
    (inodeWriteAtWith_empty hfile.opened rfl rfl (hinv.filesOk.view_eq hfile.opened) rfl
      (Or.inl ⟨rfl, hlength⟩)).imp fun _ h => h.1
  refine ⟨w, s, _, hwrite, ?_⟩
  exact (write_never_shrinks_iff hfile.format hfile.nofail hfile.run hfile.foreign
    hfile.opened (by decide) (by decide) (by decide) hwrite).mpr
      (Or.inr (Or.inr (Or.inl ⟨rfl, hlength⟩)))

/-- Writing nothing at the start of a file of one byte leaves it empty. -/
theorem write_nothing_shrinks :
    ∃ (fs : FileSys (BlockSector → Block)) (ops : List FileOp)
      (w : World (BlockSector → Block)) (s : BlockSector)
      (inode inode' : Inode) (fs' : FileSys (BlockSector → Block)),
      filesysInit true 64 (fun _ => zeros) [] = some fs ∧
        Run worldStep (fun w op => op.Ok w) (World.formatted fs) ops w ∧
        w.fs.openInodes s = some inode ∧ inode.denyWriteCnt = 0 ∧
        inode.data.length = 1 ∧
        inodeWriteAt s (fun _ => 0) 0 0 true w.fs = some (0, fs') ∧
        fs'.openInodes s = some inode' ∧ inode'.data.length = 0 ∧
        ¬ NeverShrinks w.fs fs' s 0 := by
  obtain ⟨fs, ops, w, s, id, hfile⟩ : ∃ fs ops w s id,
    OpenedFile 1 fs ops w s id := opened_file (by decide) (by decide)
  have hprobe : (byteToSector w.fs.store (openedInode s id).data (0 + 0 - 1)).1 =
      noSector := rfl
  obtain ⟨⟨written, fs'⟩, hwrite⟩ : ∃ result,
      inodeWriteAt s (fun _ => 0) 0 0 true w.fs = some result := by
    rw [inodeWriteAt, inodeWriteAtWith_grow hfile.opened rfl hprobe,
      inodeAllocate_zero _ rfl]
    exact ⟨_, rfl⟩
  obtain ⟨id', hopen', hlength', hwritten, -⟩ :=
    inodeWriteAt_grown hfile.opened rfl hprobe hwrite
  have hzero : id'.length = 0 := hlength'
  obtain ⟨st, rfl⟩ := hwritten (by decide)
  have hnothing : (0 : Int32).toInt = 0 := rfl
  have hstop := writeLoop_stop st id' (fun _ => 0) true 0
    (by rw [hzero]; exact hnothing.ge) hnothing.ge (Or.inl hnothing.le)
  rw [hstop.1] at hwrite
  refine ⟨fs, ops, w, s, _, _, fs', hfile.format, hfile.run, hfile.opened, rfl,
    hfile.length_eq, hwrite, hopen', hzero, fun hkeeps => ?_⟩
  have hle := hkeeps.length _ _ hfile.opened hopen'
  change id.length.toInt ≤ id'.length.toInt at hle
  rw [hfile.length_eq, hzero] at hle
  exact absurd hle (by decide)

/-- A byte within a file is not written without memory for a bounce buffer,
and the file is as it was. -/
theorem write_zero_unchanged_bounce :
    ∃ (w : World (BlockSector → Block)) (s : BlockSector)
      (fs' : FileSys (BlockSector → Block)),
      inodeWriteAt s (fun _ => 7) 1 0 false w.fs = some (0, fs') ∧
        FileUnchanged w.fs fs' s := by
  obtain ⟨fs, ops, w, s, id, hfile⟩ : ∃ fs ops w s id,
    OpenedFile 1 fs ops w s id := opened_file (by decide) (by decide)
  obtain ⟨file, hformatted⟩ := filesysInit_inv hfile.format hfile.nofail
  have hinv := worldRun_inv hformatted hfile.run
  have hlength : id.length.toInt = 1 := by
    rw [hfile.length_eq]
    rfl
  have hprobe := hinv.probe_iff hfile.foreign hfile.opened (0 + 1 - 1)
  change _ ↔ _ ∨ id.length.toInt ≤ 0 at hprobe
  have hchunk : (chunkSize id.length 1 0).toInt ≠ 512 := by
    rw [hfile.length_eq]
    decide
  obtain ⟨fs', hwrite⟩ : ∃ fs',
      inodeWriteAt s (fun _ => 7) 1 0 false w.fs = some (0, fs') := by
    rw [inodeWriteAt, inodeWriteAtWith_inside hfile.opened rfl
      (hprobe.not.mpr (by rw [hlength]; decide)),
      (writeLoop_stop _ (openedInode s id).data _ _ _
        (by change 0 ≤ id.length.toInt; rw [hlength]; decide) (by decide)
        (Or.inr (Or.inr ⟨rfl, hchunk⟩))).1]
    exact ⟨_, rfl⟩
  refine ⟨w, s, fs', hwrite, ?_⟩
  exact (write_zero_unchanged_iff hfile.format hfile.nofail hfile.run hfile.foreign
    hfile.opened (by decide) (by decide) hwrite).mpr
      (Or.inr ⟨by decide, Or.inl hlength.ge⟩) rfl

/-- A write whose end wraps around writes nothing and leaves a negative
length behind. -/
theorem write_wrapped_changes :
    ∃ (fs : FileSys (BlockSector → Block)) (ops : List FileOp)
      (w : World (BlockSector → Block)) (s : BlockSector)
      (inode inode' : Inode) (fs' : FileSys (BlockSector → Block)),
      filesysInit true 64 (fun _ => zeros) [] = some fs ∧
        Run worldStep (fun w op => op.Ok w) (World.formatted fs) ops w ∧
        w.fs.openInodes s = some inode ∧ inode.denyWriteCnt = 0 ∧
        inode.data.length = 1 ∧
        inodeWriteAt s (fun _ => 7) 1 2147483647 true w.fs = some (0, fs') ∧
        fs'.openInodes s = some inode' ∧ inode'.data.length = -2147483648 ∧
        ¬ FileUnchanged w.fs fs' s := by
  obtain ⟨fs, ops, w, s, id, hfile⟩ : ∃ fs ops w s id,
    OpenedFile 1 fs ops w s id := opened_file (by decide) (by decide)
  obtain ⟨file, hformatted⟩ := filesysInit_inv hfile.format hfile.nofail
  have hinv := worldRun_inv hformatted hfile.run
  have hprobe := (hinv.probe_iff hfile.foreign hfile.opened
    (2147483647 + 1 - 1)).mpr (Or.inr (by
      change id.length.toInt ≤ _
      rw [hfile.length_eq]
      decide))
  obtain ⟨⟨written, fs'⟩, hwrite⟩ : ∃ result,
      inodeWriteAt s (fun _ => 7) 1 2147483647 true w.fs = some result := by
    rw [inodeWriteAt, inodeWriteAtWith_grow hfile.opened rfl hprobe]
    exact ⟨_, rfl⟩
  obtain ⟨id', hopen', hlength', -, hzero⟩ :=
    inodeWriteAt_grown hfile.opened rfl hprobe hwrite
  have hwritten : written = 0 := hzero (by decide)
  subst hwritten
  refine ⟨fs, ops, w, s, _, _, fs', hfile.format, hfile.run, hfile.opened, rfl,
    hfile.length_eq, hwrite, hopen', hlength', fun hkeeps => ?_⟩
  have hsame := hkeeps.inode _ _ hfile.opened hopen'
  change id' = id at hsame
  rw [hsame, hfile.length_eq] at hlength'
  exact absurd hlength' (by decide)

end WriteGuaranteesWitness

end PintosLabs
