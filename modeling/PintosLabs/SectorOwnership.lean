/-
Whose the sectors are: in every run from a formatted disk no two live files
share a sector, the sectors in use are those of the live files, and a removed
file gives back what it was given.
-/
import PintosLabs.DiskFormat

namespace PintosLabs

variable {σ : Type} [SectorStore σ BlockSector Block]

/-- The owners of the sectors in every run in which no allocation fails: the
sectors of the live inodes are pairwise distinct, they are the sectors in use,
and the last close of a removed inode frees, each once and without a failed
assertion, the sectors that the file acquired while it grew. -/
theorem sectors_owned {cnt : BlockSector} {store : σ} {memory : List Bool}
    {fs : FileSys σ} (hformat : filesysInit true cnt store memory = some fs)
    (hnofail : fs.allocFailures = 0) {ops : List FileOp} {w : World σ}
    (hrun : Run worldStep (fun w op => op.Ok w) (World.formatted fs) ops w) :
    (w.live.flatMap w.fs.sectorsOf).Nodup ∧
    (∀ t, w.fs.Used t ↔ t ∈ w.live.flatMap w.fs.sectorsOf) ∧
    ∀ s inode, s ≠ freeMapSector → w.fs.openInodes s = some inode →
      inode.openCnt = 1 → inode.removed = true →
      ∃ fs', inodeClose s w.fs = some fs' ∧ (w.acquired s).Nodup ∧
        fs'.freeCount = w.fs.freeCount + (w.acquired s).length ∧
        ∀ t, (t ∈ w.acquired s → w.fs.Used t) ∧
          (fs'.Used t ↔ w.fs.Used t ∧ t ∉ w.acquired s) := by
  obtain ⟨file, hformatted⟩ := filesysInit_inv hformat hnofail
  have hinv := worldRun_inv hformatted hrun
  refine ⟨hinv.nodup, hinv.used, fun s inode hne hopen hlast hremoved => ?_⟩
  obtain ⟨fs', hclose, hrel⟩ :=
    hinv.filesOk.inodeClose_removed hne hopen (by rw [hlast]) hremoved
  have hlive := (hinv.proper s inode hopen).live
  have hperm := hinv.acquired s hlive
  have hnodup : (w.fs.sectorsOf s).Nodup :=
    (List.nodup_flatMap.mp hinv.nodup).1 s hlive
  refine ⟨fs', hclose, hperm.nodup_iff.mpr hnodup, ?_, fun t => ⟨fun ht => ?_, ?_⟩⟩
  · rw [hrel.count, hperm.length_eq]
    rfl
  · exact hinv.used_of_mem hlive (hperm.mem_iff.mp ht)
  · rw [hrel.used, hperm.mem_iff]
    rfl

namespace SectorOwnershipWitness

/-- A file of six hundred bytes is created, opened and removed; closing it
will free the three sectors it has. -/
theorem sectors_owned_removed :
    ∃ (w : World (BlockSector → Block)) (s : BlockSector)
      (fs' : FileSys (BlockSector → Block)),
      inodeClose s w.fs = some fs' ∧ fs'.freeCount = w.fs.freeCount + 3 := by
  obtain ⟨fs, ops, w, s, id, hfile⟩ : ∃ fs ops w s id,
    OpenedFile 600 fs ops w s id := opened_file (by decide) (by decide)
  obtain ⟨w', hw'⟩ : ∃ w' : World (BlockSector → Block), w' =
      { w with fs := w.fs.setInode s (some
        { openedInode s id with removed := true }) } := ⟨_, rfl⟩
  have hstep : worldStep w (.remove s) = some w' := by
    simp only [worldStep, inodeRemove, hfile.opened, Option.bind_eq_bind,
      Option.bind_some, hw']
  have hrun := worldRun_snoc hfile.run hstep hfile.foreign (by rw [hw']; rfl)
  have hremoved : w'.fs.openInodes s =
      some { openedInode s id with removed := true } := by
    rw [hw']
    exact Function.update_self _ _ _
  obtain ⟨fs', hclose, -, hfreed, -⟩ := (sectors_owned hfile.format
    hfile.nofail hrun).2.2 s _ hfile.foreign hremoved rfl rfl
  have hacquired : (w'.acquired s).length = 3 := by
    rw [hw']
    change (w.acquired s).length = 3
    rw [hfile.acquired, sectorsFor_direct (by decide)]
    rfl
  exact ⟨w', s, fs', hclose, hacquired ▸ hfreed⟩

end SectorOwnershipWitness

end PintosLabs
