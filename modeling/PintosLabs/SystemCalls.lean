/-
Open files (filesys/file.c) and the system calls on them (userprog/syscall.c),
on top of the inode layer and the root directory, with the conditions of the
assertions about sizes and positions that each call evaluates.
-/
import PintosLabs.Directory

namespace PintosLabs.SystemCalls

open Directory

/-- `struct file`. -/
structure OpenFile where
  sector : BlockSector
  pos : Int32
  denyWrite : Bool

/-- The file system and the open files, by their descriptors. -/
structure System (σ : Type) where
  fs : FileSys σ
  files : Nat → Option OpenFile
  fd : Nat

/-- The answers of the allocators in a call of `open`: for the directory, for
the inode of the file, for its `struct file` and for the page of its
descriptor. -/
structure OpenAnswers where
  dir : Answers
  inode : Bool
  file : Bool
  page : Bool

/-- The system calls on files with their arguments: what the entry of a
directory holds before it is written, and what `malloc` answers for a bounce
buffer, are among them.  `name` is the name of the calling thread. -/
inductive Call
  | create (file : List UInt8) (initialSize : UInt32) (e : DirEntry)
      (answers : Answers)
  | openFile (name file : List UInt8) (answers : OpenAnswers)
  | seek (fd : Nat) (position : UInt32)
  | tell (fd : Nat)
  | read (fd : Nat) (length : UInt32) (memory : Bool)
  | write (fd : Nat) (buffer : Nat → UInt8) (size : UInt32) (memory : Bool)

variable {σ : Type} [SectorStore σ BlockSector Block]

/-- `dir_lookup` in the open root directory: the sector of the inode, which is
open from then on. -/
def dirLookup (file : List UInt8) (bounce : List Bool) (memory : Bool)
    (fs : FileSys σ) : Option (Option BlockSector × FileSys σ) := do
  let (found, _, e, _, fs) ←
    searchEntries rootDirSector (isNamed file) (fun _ => 0) bounce fs
  if found then
    let (opened, fs) := inodeOpen e.inodeSector memory fs
    some (if opened then some e.inodeSector else none, fs)
  else some (none, fs)

/-- `file_open`. -/
def fileOpen (inode : Option BlockSector) (memory : Bool) (fs : FileSys σ) :
    Option (Option OpenFile × FileSys σ) :=
  match inode with
  | some s =>
      if memory then some (some ⟨s, 0, false⟩, fs)
      else do
        let fs ← inodeClose s fs
        some (none, fs)
  | none => some (none, fs)

/-- `filesys_open`. -/
def filesysOpen (file : List UInt8) (answers : OpenAnswers) (fs : FileSys σ) :
    Option (Option OpenFile × FileSys σ) := do
  let (opened, fs) ← dirOpenRoot answers.dir fs
  if opened then
    let (inode, fs) ← dirLookup file answers.dir.bounce answers.inode fs
    let fs ← inodeClose rootDirSector fs
    fileOpen inode answers.file fs
  else fileOpen none answers.file fs

/-- `file_deny_write`, which asserts that there is a file. -/
def fileDenyWrite (file : Option OpenFile) (fs : FileSys σ) :
    Option (Option OpenFile × FileSys σ) := do
  let f ← file
  if f.denyWrite then some (some f, fs)
  else
    let fs ← inodeDenyWrite f.sector fs
    some (some { f with denyWrite := true }, fs)

namespace System

/-- A system call: what it returns in `eax`, and the state it leaves, or `none`
where the kernel stops. -/
def step (s : System σ) : Call → Option (Int32 × System σ)
  | .create file initialSize e answers => do
      let (created, fs) ←
        Directory.filesysCreate file initialSize.toInt32 e answers s.fs
      some (if created then 1 else 0, { s with fs := fs })
  | .openFile name file answers => do
      let (f, fs) ← filesysOpen file answers s.fs
      let (f, fs) ← (if file = name then fileDenyWrite f fs else some (f, fs))
      match f with
      | none => some (-1, { s with fs := fs })
      | some f =>
          if answers.page then
            some (Int32.ofNat s.fd,
              { fs := fs
                files := Function.update s.files s.fd (some f)
                fd := s.fd + 1 })
          else some (-1, { s with fs := fs })
  | .seek fd position =>
      match s.files fd with
      | none => some (-1, s)
      | some f =>
          if 0 ≤ position.toInt32 then
            some (0,
              { s with
                files := Function.update s.files fd
                  (some { f with pos := position.toInt32 }) })
          else none
  | .tell fd =>
      match s.files fd with
      | none => some (-1, s)
      | some f => some (f.pos, s)
  | .read fd length memory =>
      if fd = 1 then some (length.toInt32, s)
      else
        match s.files fd with
        | none => some (-1, s)
        | some f => do
            let (bytes, fs) ←
              inodeReadAt f.sector length.toInt32 f.pos memory s.fs
            let bytesRead := Int32.ofNat bytes.length
            some (bytesRead,
              { s with
                fs := fs
                files := Function.update s.files fd
                  (some { f with pos := f.pos + bytesRead }) })
  | .write fd buffer size memory =>
      if fd = 1 then some (size.toInt32, s)
      else if fd = 0 then some (-1, s)
      else
        match s.files fd with
        | none => some (-1, s)
        | some f =>
            if f.denyWrite then some (0, s)
            else do
              let (written, fs) ←
                inodeWriteAt f.sector buffer size.toInt32 f.pos memory s.fs
              some (written,
                { s with
                  fs := fs
                  files := Function.update s.files fd
                    (some { f with pos := f.pos + written }) })

end System

/-! The conditions of the assertions that are evaluated, in their order. -/

/-- What is evaluated when a function has returned. -/
def afterwards {α : Type} (run : Option α) (asserts : α → List Bool) :
    List Bool :=
  run.elim [] asserts

/-- The loop of `inode_allocate_indirect` over `l` entries, and the assertion
behind it. -/
def entriesAsserts (asserts : Nat → List Bool) (unit : Nat) :
    Nat → Nat → List Bool
  | 0, numSectors => [numSectors == 0]
  | l + 1, numSectors =>
      asserts (min numSectors unit) ++
        entriesAsserts asserts unit l (numSectors - min numSectors unit)

/-- `inode_allocate_indirect`. -/
def indirectAsserts : Nat → Nat → List Bool
  | 0, _ => [decide (0 ≤ 2)]
  | level + 1, numSectors =>
      let unit := if level = 0 then 1 else 128
      decide (level + 1 ≤ 2) :: entriesAsserts (indirectAsserts level) unit
        (bytesToSectors numSectors unit) numSectors

/-- `inode_allocate`, for an inode of that length. -/
def allocateAsserts (length : Int32) : List Bool :=
  if length < 0 then []
  else
    let numSectors := bytesToSectors length.toInt.toNat blockSectorSize
    let left := numSectors - min numSectors 124
    if left = 0 then []
    else
      let left' := left - min left 128
      indirectAsserts 1 (min left 128) ++
        if left' = 0 then []
        else
          let left'' := left' - min left' (128 * 128)
          indirectAsserts 2 (min left' (128 * 128)) ++
            if left'' = 0 then [] else [left'' == 0]

/-- `inode_create`.  Its second assertion is about the size of the inode. -/
def createAsserts (length : Int32) (memory : Bool) : List Bool :=
  if 0 ≤ length then
    true :: (4 + 4 * 124 + 4 + 4 + 4 == blockSectorSize) ::
      if memory then allocateAsserts length else []
  else [false]

/-- `inode_write_at` on an open inode. -/
def writeAsserts (sector : BlockSector) (size offset : Int32)
    (fs : FileSys σ) : List Bool :=
  afterwards (fs.openInodes sector) fun inode =>
    if inode.denyWriteCnt ≠ 0 then []
    else if (byteToSector fs.store inode.data (offset + size - 1)).1 =
        noSector then
      allocateAsserts (offset + size)
    else []

/-- `dir_add`. -/
def addAsserts (dir : BlockSector) (name : List UInt8) (e : DirEntry)
    (bounce : List Bool) (fs : FileSys σ) : List Bool :=
  if name = [] ∨ nameMax < name.length then []
  else
    afterwards (searchEntries dir (isNamed name) e bounce fs)
      fun (found, _, _, bounce, fs) =>
        if found then []
        else
          afterwards (searchEntries dir isFree e bounce fs)
            fun (_, ofs, _, _, fs) => writeAsserts dir 20 ofs fs

/-- `filesys_create`. -/
def filesysCreateAsserts (name : List UInt8) (initialSize : Int32)
    (e : DirEntry) (answers : Answers) (fs : FileSys σ) : List Bool :=
  afterwards (dirOpenRoot answers fs) fun (opened, fs) =>
    if opened then
      afterwards (freeMapAllocate bitmapWrite 1 0 fs)
        fun (allocated, sector, fs) =>
          if allocated then
            createAsserts initialSize answers.diskInode ++
              afterwards (inodeCreate sector initialSize answers.diskInode fs)
                fun (created, fs) =>
                  if created then
                    addAsserts rootDirSector name e answers.bounce fs
                  else []
          else []
    else []

namespace System

/-- The conditions of the assertions in `inode_create`, `file_seek`,
`inode_allocate` and `inode_allocate_indirect` that a call evaluates. -/
def asserts (s : System σ) : Call → List Bool
  | .create file initialSize e answers =>
      filesysCreateAsserts file initialSize.toInt32 e answers s.fs
  | .seek fd position =>
      afterwards (s.files fd) fun _ => [decide (0 ≤ position.toInt32)]
  | .write fd _ size _ =>
      if fd = 1 ∨ fd = 0 then []
      else
        afterwards (s.files fd) fun f =>
          if f.denyWrite then []
          else writeAsserts f.sector size.toInt32 f.pos s.fs
  | .openFile _ _ _ | .tell _ | .read _ _ _ => []

/-- The conditions that a sequence of calls evaluates, until the kernel
stops. -/
def runAsserts : System σ → List Call → List Bool
  | _, [] => []
  | s, call :: rest =>
      s.asserts call ++
        afterwards (s.step call) fun (_, s) => s.runAsserts rest

end System

end PintosLabs.SystemCalls
