/-
A relation between states that every step of the inode layer keeps is kept by
its functions: one rule for each of them.
-/
import PintosLabs.Inode

namespace PintosLabs

variable {σ : Type} [SectorStore σ BlockSector Block]

/-- A relation kept by each access to a sector and to the table of open
inodes. -/
structure StepRel (rel : FileSys σ → FileSys σ → Prop) : Prop where
  refl : ∀ fs, rel fs fs
  trans : ∀ {fs fs₁ fs₂}, rel fs fs₁ → rel fs₁ fs₂ → rel fs fs₂
  read : ∀ fs s, rel fs (fs.cacheRead s).2
  write : ∀ fs s b, rel fs (fs.cacheWrite s b)
  setInode : ∀ fs s inode, rel fs (fs.setInode s inode)

variable {rel : FileSys σ → FileSys σ → Prop} (hrel : StepRel rel)
include hrel

/-! Reading and writing through an index. -/

theorem StepRel.indexToSector_run (fs : FileSys σ) (id : InodeDisk) (k : Nat) :
    rel fs { fs with store := (indexToSector fs.store id k).2 } := by
  unfold indexToSector
  split
  · exact hrel.refl fs
  split
  · exact hrel.read fs _
  split
  · exact hrel.trans (hrel.read fs _) (hrel.read _ _)
  · exact hrel.refl fs

theorem StepRel.byteToSector_run (fs : FileSys σ) (id : InodeDisk) (pos : Int32) :
    rel fs { fs with store := (byteToSector fs.store id pos).2 } := by
  unfold byteToSector
  split
  · exact hrel.indexToSector_run fs id _
  · exact hrel.refl fs

theorem StepRel.of_byteToSector {fs : FileSys σ} {st st' : σ} {id : InodeDisk}
    {pos : Int32} {s : BlockSector} (hst : fs.store = st)
    (h : byteToSector st id pos = (s, st')) : rel fs { fs with store := st' } := by
  have hrun := hrel.byteToSector_run fs id pos
  rwa [hst, h] at hrun

theorem StepRel.writeLoop_run {st : σ} (id : InodeDisk) (buffer : Nat → UInt8)
    (memory : Bool) (size offset bytesWritten : Int32) {fs : FileSys σ}
    (hst : fs.store = st) :
    rel fs { fs with
      store := (writeLoop st id buffer memory size offset bytesWritten).2 } := by
  fun_induction writeLoop st id buffer memory size offset bytesWritten
    generalizing fs with
  | case1 st size offset n _ s st₁ hsector =>
      exact hrel.of_byteToSector hst hsector
  | case2 st size offset n _ s st₁ hsector =>
      rename_i ih
      have hprobe := hrel.of_byteToSector hst hsector
      exact hrel.trans hprobe (hrel.trans (hrel.write _ _ _) (ih rfl))
  | case3 st size offset n _ s st₁ hsector =>
      rename_i bounce st₂ hread _ ih
      have hprobe := hrel.of_byteToSector hst hsector
      have hbounce : rel { fs with store := st₁ } { fs with store := st₂ } := by
        split at hread
        · have hrun := hrel.read { fs with store := st₁ } s
          rw [FileSys.cacheRead, hread] at hrun
          exact hrun
        · rw [Prod.mk.injEq] at hread
          rw [hread.2]
          exact hrel.refl _
      exact hrel.trans hprobe
        (hrel.trans hbounce (hrel.trans (hrel.write _ _ _) (ih rfl)))
  | case4 st size offset n _ s st₁ hsector =>
      exact hrel.of_byteToSector hst hsector
  | case5 => exact hst ▸ hrel.refl fs

/-! Allocation. -/

section Allocate

variable {bitmapWrite : FileSys σ → Option (Bool × FileSys σ)}
  (hentry : ∀ {entry entry' fs fs'},
    allocateEntry bitmapWrite entry fs = some (entry', fs') → rel fs fs')

theorem StepRel.allocateEntries_run {m : Nat}
    {allocate : BlockSector → Nat → FileSys σ → Option (BlockSector × FileSys σ)}
    (hallocate : ∀ {entry n fs entry' fs'},
      allocate entry n fs = some (entry', fs') → rel fs fs')
    {unit numSectors : Nat} {indices : List (Fin m)}
    {entries entries' : Fin m → BlockSector} {fs fs' : FileSys σ}
    (hrun : allocateEntries allocate unit indices numSectors entries fs =
      some (entries', fs')) : rel fs fs' := by
  induction indices generalizing numSectors entries fs with
  | nil =>
      unfold allocateEntries at hrun
      split at hrun
      · simp only [Option.some.injEq, Prod.mk.injEq] at hrun
        exact hrun.2 ▸ hrel.refl fs
      · contradiction
  | cons i rest ih =>
      simp only [allocateEntries, Option.bind_eq_bind,
        Option.bind_eq_some_iff] at hrun
      obtain ⟨⟨entry, fs₁⟩, hfirst, hrest⟩ := hrun
      exact hrel.trans (hallocate hfirst) (ih hrest)

include hentry

theorem StepRel.inodeAllocateIndirect_run {level numSectors : Nat}
    {entry entry' : BlockSector} {fs fs' : FileSys σ}
    (hrun : inodeAllocateIndirect bitmapWrite level entry numSectors fs =
      some (entry', fs')) : rel fs fs' := by
  induction level generalizing numSectors entry entry' fs fs' with
  | zero => exact hentry hrun
  | succ level ih =>
      simp only [inodeAllocateIndirect, Option.bind_eq_bind,
        Option.bind_eq_some_iff] at hrun
      obtain ⟨⟨entry₁, fs₁⟩, hfirst, ⟨entries, fs₂⟩, hentries, hrun⟩ := hrun
      simp only [Option.some.injEq, Prod.mk.injEq] at hrun
      have hloop := hrel.allocateEntries_run (fun h => ih h) hentries
      rw [← hrun.2]
      exact hrel.trans (hentry hfirst)
        (hrel.trans (hrel.read _ _) (hrel.trans hloop (hrel.write _ _ _)))

theorem StepRel.allocateDoublyIndirect_run {id id' : InodeDisk} {n : Nat}
    {success : Bool} {fs fs' : FileSys σ}
    (hrun : allocateDoublyIndirect bitmapWrite id n fs =
      some (success, id', fs')) : rel fs fs' := by
  unfold allocateDoublyIndirect at hrun
  split at hrun
  · simp only [Option.some.injEq, Prod.mk.injEq] at hrun
    exact hrun.2.2 ▸ hrel.refl fs
  · simp only [Option.bind_eq_bind, Option.bind_eq_some_iff] at hrun
    obtain ⟨⟨entry, fs₁⟩, halloc, hrun⟩ := hrun
    have hindirect := hrel.inodeAllocateIndirect_run hentry halloc
    split at hrun
    · simp only [Option.some.injEq, Prod.mk.injEq] at hrun
      exact hrun.2.2 ▸ hindirect
    · contradiction

theorem StepRel.allocateIndirect_run {id id' : InodeDisk} {n : Nat}
    {success : Bool} {fs fs' : FileSys σ}
    (hrun : allocateIndirect bitmapWrite id n fs = some (success, id', fs')) :
    rel fs fs' := by
  unfold allocateIndirect at hrun
  split at hrun
  · simp only [Option.some.injEq, Prod.mk.injEq] at hrun
    exact hrun.2.2 ▸ hrel.refl fs
  · simp only [Option.bind_eq_bind, Option.bind_eq_some_iff] at hrun
    obtain ⟨⟨entry, fs₁⟩, halloc, hrun⟩ := hrun
    exact hrel.trans (hrel.inodeAllocateIndirect_run hentry halloc)
      (hrel.allocateDoublyIndirect_run hentry hrun)

theorem StepRel.inodeAllocate_run {id id' : InodeDisk} {success : Bool}
    {fs fs' : FileSys σ}
    (hrun : inodeAllocate bitmapWrite id fs = some (success, id', fs')) :
    rel fs fs' := by
  unfold inodeAllocate at hrun
  split at hrun
  · simp only [Option.some.injEq, Prod.mk.injEq] at hrun
    exact hrun.2.2 ▸ hrel.refl fs
  · simp only [Option.bind_eq_bind, Option.bind_eq_some_iff] at hrun
    obtain ⟨⟨entries, fs₁⟩, hdirect, hrun⟩ := hrun
    exact hrel.trans (hrel.allocateEntries_run (fun h => hentry h) hdirect)
      (hrel.allocateIndirect_run hentry hrun)

theorem StepRel.inodeGrow_run {inode inode' : Inode} {probe : BlockSector}
    {length : Int32} {success : Bool} {fs fs' : FileSys σ}
    (hrun : inodeGrow bitmapWrite inode probe length fs =
      some (success, inode', fs')) : rel fs fs' := by
  unfold inodeGrow at hrun
  split at hrun
  · simp only [Option.bind_eq_bind, Option.bind_eq_some_iff] at hrun
    obtain ⟨⟨success₁, data, fs₁⟩, halloc, hrun⟩ := hrun
    have hgrow := hrel.inodeAllocate_run hentry halloc
    split at hrun <;> simp only [Option.some.injEq, Prod.mk.injEq] at hrun <;>
      rw [← hrun.2.2]
    · exact hrel.trans hgrow (hrel.write _ _ _)
    · exact hgrow
  · simp only [Option.some.injEq, Prod.mk.injEq] at hrun
    exact hrun.2.2 ▸ hrel.refl fs

theorem StepRel.inodeWriteAtWith_run {sector : BlockSector}
    {buffer : Nat → UInt8} {size offset written : Int32} {memory : Bool}
    {fs fs' : FileSys σ}
    (hrun : inodeWriteAtWith bitmapWrite sector buffer size offset memory fs =
      some (written, fs')) : rel fs fs' := by
  simp only [inodeWriteAtWith, Option.bind_eq_bind,
    Option.bind_eq_some_iff] at hrun
  obtain ⟨inode, -, hrun⟩ := hrun
  split at hrun
  · simp only [Option.some.injEq, Prod.mk.injEq] at hrun
    exact hrun.2 ▸ hrel.refl fs
  simp only [Option.bind_eq_some_iff] at hrun
  obtain ⟨⟨success, inode', fs₁⟩, hgrow, hrun⟩ := hrun
  have hstart := hrel.trans (hrel.byteToSector_run fs inode.data _)
    (hrel.inodeGrow_run hentry hgrow)
  split at hrun <;> simp only [Option.some.injEq, Prod.mk.injEq] at hrun <;>
    rw [← hrun.2]
  · exact hrel.trans hstart (hrel.trans (hrel.setInode _ _ _)
      (hrel.writeLoop_run _ _ _ _ _ _ rfl))
  · exact hrel.trans hstart (hrel.setInode _ _ _)

end Allocate

theorem StepRel.inodeCreate_run
    (hentry : ∀ {entry entry' fs fs'},
      allocateEntry bitmapWrite entry fs = some (entry', fs') → rel fs fs')
    {sector : BlockSector} {length : Int32} {memory created : Bool}
    {fs fs' : FileSys σ}
    (hrun : inodeCreate sector length memory fs = some (created, fs')) :
    rel fs fs' := by
  unfold inodeCreate at hrun
  split at hrun
  · contradiction
  split at hrun
  · simp only [Option.bind_eq_bind, Option.bind_eq_some_iff] at hrun
    obtain ⟨⟨success, id, fs₁⟩, halloc, hrun⟩ := hrun
    have hgrow := hrel.inodeAllocate_run hentry halloc
    split at hrun <;> simp only [Option.some.injEq, Prod.mk.injEq] at hrun <;>
      rw [← hrun.2]
    · exact hrel.trans hgrow (hrel.write _ _ _)
    · exact hgrow
  · simp only [Option.some.injEq, Prod.mk.injEq] at hrun
    exact hrun.2 ▸ hrel.refl fs

/-! Release. -/

section Release

variable {bitmapWrite : FileSys σ → Option (Bool × FileSys σ)}
  (hrelease : ∀ {s fs fs'},
    freeMapRelease bitmapWrite s 1 fs = some fs' → rel fs fs')

theorem StepRel.deallocateEntries_run
    {deallocate : BlockSector → Nat → FileSys σ → Option (FileSys σ)}
    (hdeallocate : ∀ {entry n fs fs'},
      deallocate entry n fs = some fs' → rel fs fs')
    {unit numSectors : Nat} {entries : List BlockSector} {fs fs' : FileSys σ}
    (hrun : deallocateEntries deallocate unit entries numSectors fs = some fs') :
    rel fs fs' := by
  induction entries generalizing numSectors fs with
  | nil =>
      unfold deallocateEntries at hrun
      split at hrun
      · exact Option.some.inj hrun ▸ hrel.refl fs
      · contradiction
  | cons entry rest ih =>
      simp only [deallocateEntries, Option.bind_eq_bind,
        Option.bind_eq_some_iff] at hrun
      obtain ⟨fs₁, hfirst, hrest⟩ := hrun
      exact hrel.trans (hdeallocate hfirst) (ih hrest)

include hrelease

theorem StepRel.inodeDeallocateIndirect_run {level numSectors : Nat}
    {entry : BlockSector} {fs fs' : FileSys σ}
    (hrun : inodeDeallocateIndirect bitmapWrite level entry numSectors fs =
      some fs') : rel fs fs' := by
  induction level generalizing numSectors entry fs fs' with
  | zero => exact hrelease hrun
  | succ level ih =>
      simp only [inodeDeallocateIndirect, Option.bind_eq_bind,
        Option.bind_eq_some_iff] at hrun
      obtain ⟨fs₁, hentries, hrun⟩ := hrun
      exact hrel.trans (hrel.read fs entry) (hrel.trans
        (hrel.deallocateEntries_run (fun h => ih h) hentries) (hrelease hrun))

theorem StepRel.inodeDeallocate_run {id : InodeDisk} {fs fs' : FileSys σ}
    (hrun : inodeDeallocate bitmapWrite id fs = some fs') : rel fs fs' := by
  have hany : ∀ {level entry n fs fs'},
      inodeDeallocate.deallocateIfAny bitmapWrite level entry n fs = some fs' →
        rel fs fs' := by
    intro level entry n fs fs' h
    unfold inodeDeallocate.deallocateIfAny at h
    split at h
    · exact hrel.inodeDeallocateIndirect_run hrelease h
    · exact Option.some.inj h ▸ hrel.refl fs
  unfold inodeDeallocate at hrun
  split at hrun
  · exact Option.some.inj hrun ▸ hrel.refl fs
  · simp only [Option.bind_eq_bind, Option.bind_eq_some_iff] at hrun
    obtain ⟨fs₁, hdirect, fs₂, hindirect, fs₃, hdoubly, hrun⟩ := hrun
    split at hrun
    · exact Option.some.inj hrun ▸ hrel.trans
        (hrel.deallocateEntries_run (fun h => hrelease h) hdirect)
        (hrel.trans (hany hindirect) (hany hdoubly))
    · contradiction

end Release

theorem StepRel.inodeClose_run
    (hrelease : ∀ {s fs fs'},
      freeMapRelease bitmapWrite s 1 fs = some fs' → rel fs fs')
    {sector : BlockSector} {fs fs' : FileSys σ}
    (hrun : inodeClose sector fs = some fs') : rel fs fs' := by
  simp only [inodeClose, Option.bind_eq_bind, Option.bind_eq_some_iff] at hrun
  obtain ⟨inode, -, hrun⟩ := hrun
  split at hrun
  · split at hrun
    · simp only [Option.bind_eq_some_iff] at hrun
      obtain ⟨fs₁, hfirst, hrun⟩ := hrun
      exact hrel.trans (hrel.setInode _ _ _)
        (hrel.trans (hrelease hfirst) (hrel.inodeDeallocate_run hrelease hrun))
    · exact Option.some.inj hrun ▸ hrel.setInode _ _ _
  · exact Option.some.inj hrun ▸ hrel.setInode _ _ _

end PintosLabs
