/-
Runs of the file system.  Files are created, opened, read, written, removed
and closed in any order; beside the state stands the list of the inodes that
have been created and not given back, and what each of them was given.
-/
import PintosLabs.InodeRelease
import PintosLabs.Machine

namespace PintosLabs

variable {σ : Type} [SectorStore σ BlockSector Block]

/-- `filesys_create` without the entry in the directory: the sector of the new
inode, if there is one. -/
def filesysCreate (length : Int32) (memory : Bool) (fs : FileSys σ) :
    Option (Option BlockSector × FileSys σ) := do
  let (allocated, sector, fs) ← freeMapAllocate bitmapWrite 1 0 fs
  if allocated then
    let (created, fs) ← inodeCreate sector length memory fs
    if created then some (some sector, fs)
    else if sector ≠ 0 then do
      let fs ← freeMapRelease bitmapWrite sector 1 fs
      some (none, fs)
    else some (none, fs)
  else some (none, fs)

/-- What is done to files, each named by the sector of its inode. -/
inductive FileOp
  | create (length : Int32) (memory : Bool)
  | openAt (sector : BlockSector) (memory : Bool)
  | reopen (sector : BlockSector)
  | close (sector : BlockSector)
  | readAt (sector : BlockSector) (size offset : Int32) (memory : Bool)
  | writeAt (sector : BlockSector) (buffer : Nat → UInt8) (size offset : Int32)
      (memory : Bool)
  | remove (sector : BlockSector)
  | denyWrite (sector : BlockSector)
  | allowWrite (sector : BlockSector)

/-- The file system with what only the statements speak of: the inodes that
are live, and the sectors each has been given since it was created. -/
structure World (σ : Type) where
  fs : FileSys σ
  live : List BlockSector
  acquired : BlockSector → List BlockSector

namespace FileSys

/-- The inode on a sector. -/
def inodeAt (fs : FileSys σ) (s : BlockSector) : InodeDisk :=
  InodeDisk.ofBlock (fs.view s)

/-- The sectors of the file whose inode is on `s`: that sector, its data, its
index and its index of indexes with the indexes below it. -/
def sectorsOf (fs : FileSys σ) (s : BlockSector) : List BlockSector :=
  s :: (fs.inodeAt s).sectors fs.kids (fs.inodeAt s).blocks

omit [SectorStore σ BlockSector Block] in
/-- The sectors that have been taken from the free map between two states. -/
def gained (fs fs' : FileSys σ) : List BlockSector :=
  ((List.range fs'.freeMap.length).filter fun i =>
    fs.freeMap[i]? == some false && fs'.freeMap[i]? == some true).map
    UInt32.ofNat

end FileSys

omit [SectorStore σ BlockSector Block] in
/-- The new file, if there is one, is live and has what it was given. -/
def World.create (w : World σ) (created : Option BlockSector)
    (fs : FileSys σ) : World σ :=
  match created with
  | none => { w with fs := fs }
  | some s =>
      { fs := fs, live := s :: w.live
        acquired := Function.update w.acquired s (w.fs.gained fs) }

/-- The state after what is done to a file, `none` when the kernel stops. -/
def worldStep (w : World σ) : FileOp → Option (World σ)
  | .create length memory => do
      let (created, fs) ← filesysCreate length memory w.fs
      some (w.create created fs)
  | .openAt s memory => some { w with fs := (inodeOpen s memory w.fs).2 }
  | .reopen s => do some { w with fs := ← inodeReopen s w.fs }
  | .close s => do
      let inode ← w.fs.openInodes s
      let fs ← inodeClose s w.fs
      if inode.openCnt - 1 = 0 ∧ inode.removed then
        some { w with fs := fs, live := w.live.erase s }
      else some { w with fs := fs }
  | .readAt s size offset memory => do
      let (_, fs) ← inodeReadAt s size offset memory w.fs
      some { w with fs := fs }
  | .writeAt s buffer size offset memory => do
      let (_, fs) ← inodeWriteAt s buffer size offset memory w.fs
      some
        { w with
          fs := fs
          acquired := Function.update w.acquired s
            (w.acquired s ++ w.fs.gained fs) }
  | .remove s => do some { w with fs := ← inodeRemove s w.fs }
  | .denyWrite s => do some { w with fs := ← inodeDenyWrite s w.fs }
  | .allowWrite s => do some { w with fs := ← inodeAllowWrite s w.fs }

/-- The file system just after its disk has been formatted. -/
def World.formatted (fs : FileSys σ) : World σ :=
  { fs := fs, live := [freeMapSector, rootDirSector], acquired := fs.sectorsOf }

/-- A write that `inode_write_at` can be asked for without harm: the end of it
is no wrapped-around number and, if it is empty, it starts where no growth is
tried or where growth changes nothing. -/
def WriteAllowed (length size offset : Int) : Prop :=
  0 ≤ offset ∧ offset + size < 2 ^ 31 ∧
    (0 < size ∨ size = 0 ∧ (offset = 0 ∧ length = 0 ∨ 1 ≤ offset ∧ offset ≤ length))

/-- What the callers of the inode layer see to: only live inodes are opened,
and the inode of the free map is left to the free map. -/
def FileOp.Allowed (w : World σ) : FileOp → Prop
  | .create _ _ => True
  | .openAt s _ => s ∈ w.live ∧ s ≠ freeMapSector
  | .reopen s | .close s | .readAt s _ _ _ | .remove s | .denyWrite s
  | .allowWrite s => s ≠ freeMapSector
  | .writeAt s _ size offset _ => s ≠ freeMapSector ∧
      ∀ inode, w.fs.openInodes s = some inode → inode.denyWriteCnt = 0 →
        WriteAllowed inode.data.length.toInt size.toInt offset.toInt

/-- An allowed step in which `free_map_allocate` never fails. -/
def FileOp.Ok (w : World σ) (op : FileOp) : Prop :=
  op.Allowed w ∧ ∀ w', worldStep w op = some w' →
    w'.fs.allocFailures = w.fs.allocFailures

/-! The invariant of the runs. -/

/-- An open inode is a live one, and it is what its sector says. -/
structure Inode.Proper (fs : FileSys σ) (live : List BlockSector)
    (s : BlockSector) (inode : Inode) : Prop where
  live : s ∈ live
  sector : inode.sector = s
  data : inode.data = fs.inodeAt s
  opened : 0 < inode.openCnt

/-- Every live inode owns its sectors, the free map file included, and the
sectors in use are these. -/
structure World.Inv (file : FreeMapFile) (w : World σ) : Prop where
  ready : AllocReady file.Ready file.own w.fs
  live_nodup : w.live.Nodup
  mapFile_live : freeMapSector ∈ w.live
  mapFile : w.fs.inodeAt freeMapSector = file.inode.data
  files : ∀ s ∈ w.live, s ≠ freeMapSector →
    FileReady file.own w.fs s (w.fs.inodeAt s)
  nodup : (w.live.flatMap w.fs.sectorsOf).Nodup
  used : ∀ t, w.fs.Used t ↔ t ∈ w.live.flatMap w.fs.sectorsOf
  proper : ∀ s inode, w.fs.openInodes s = some inode →
    Inode.Proper w.fs w.live s inode
  acquired : ∀ s ∈ w.live, (w.acquired s).Perm (w.fs.sectorsOf s)

end PintosLabs
