/-
Processes and the executables they run (userprog/syscall.c,
userprog/process.c): `exec` with `load`, the system calls on files and `exit`.
The open files of all processes stand in one list, each with its process, and
the root directory is a map from the names in it to the sectors of their
inodes.
-/
import PintosLabs.SystemCalls

namespace PintosLabs.Executables

open SystemCalls (OpenFile fileDenyWrite)
open Directory (nameMax)

/-- A `struct file_control_block` in the file list of a process. -/
structure ControlBlock where
  owner : Nat
  fd : Nat
  file : OpenFile

/-- A process.  `executable` is spoken of in the statements only: the inode it
was loaded from, as long as there is that inode. -/
structure Process where
  name : List UInt8
  executable : Option BlockSector
  fd : Nat

/-- The processes, by their thread identifiers, and the files. -/
structure Machine (σ : Type) where
  fs : FileSys σ
  live : List BlockSector
  names : List UInt8 → Option BlockSector
  processes : Nat → Option Process
  files : List ControlBlock

/-- What happens, with what the allocators answer.  What `load` reads from the
file, and whether it is content with it, are arguments of `exec`; whether the
entry of the directory is written, of `create` and `remove`. -/
inductive Call
  | exec (child : Nat) (cmdline : List UInt8) (inode file : Bool)
      (reads : List (Int32 × Int32)) (success : Bool)
  | create (file : List UInt8) (initialSize : UInt32) (memory added : Bool)
  | remove (file : List UInt8) (inode erased : Bool)
  | openFile (pid : Nat) (file : List UInt8) (inode memory page : Bool)
  | read (pid fd : Nat) (length : UInt32) (memory : Bool)
  | write (pid fd : Nat) (buffer : Nat → UInt8) (size : UInt32) (memory : Bool)
  | seek (pid fd : Nat) (position : UInt32)
  | close (pid fd : Nat)
  | exit (pid : Nat)

/-! The names of a new process. -/

/-- A command line as it is copied to a page. -/
def copyToPage (cmdline : List UInt8) : List UInt8 := cmdline.take 4095

/-- What `strtok_r` with blanks finds first. -/
def firstToken (line : List UInt8) : List UInt8 :=
  (line.dropWhile (· == 32)).takeWhile (· != 32)

/-- The name of the thread, which has room for fifteen characters. -/
def threadName (cmdline : List UInt8) : List UInt8 :=
  (firstToken (copyToPage cmdline)).take 15

/-- The name `load` opens: `strtok_r` has put a zero behind the first token,
and left the blanks before it. -/
def loadName (cmdline : List UInt8) : List UInt8 :=
  (copyToPage cmdline).takeWhile (· == 32) ++ firstToken (copyToPage cmdline)

/-! The list of open files. -/

/-- The first element that fits is changed. -/
def modifyFirst (p : ControlBlock → Bool) (f : ControlBlock → ControlBlock) :
    List ControlBlock → List ControlBlock
  | [] => []
  | c :: rest => if p c then f c :: rest else c :: modifyFirst p f rest

/-- The test of `get_file` and `close_file`. -/
def isDescriptor (pid fd : Nat) (c : ControlBlock) : Bool :=
  c.owner == pid && c.fd == fd

def isOwnedBy (pid : Nat) (c : ControlBlock) : Bool := c.owner == pid

variable {σ : Type} [SectorStore σ BlockSector Block]

namespace Machine

/-- `get_file`. -/
def getFile (m : Machine σ) (pid fd : Nat) : Option OpenFile :=
  (m.files.find? (isDescriptor pid fd)).map ControlBlock.file

def setPos (m : Machine σ) (pid fd : Nat) (pos : Int32) : Machine σ :=
  { m with
    files := modifyFirst (isDescriptor pid fd)
      (fun c => { c with file := { c.file with pos := pos } }) m.files }

/-- `inode_close`.  An inode that is given back is nobody's executable any
more. -/
def inodeClose (m : Machine σ) (s : BlockSector) : Option (Machine σ) := do
  let inode ← m.fs.openInodes s
  let fs ← PintosLabs.inodeClose s m.fs
  if inode.openCnt - 1 = 0 ∧ inode.removed then
    some
      { m with
        fs := fs
        live := m.live.erase s
        processes := fun pid => (m.processes pid).map fun p =>
          if p.executable = some s then { p with executable := none } else p }
  else some { m with fs := fs }

/-- `filesys_open`. -/
def filesysOpen (m : Machine σ) (name : List UInt8) (inode memory : Bool) :
    Option (Option OpenFile × Machine σ) :=
  match m.names name with
  | none => some (none, m)
  | some s =>
      let (opened, fs) := inodeOpen s inode m.fs
      let m := { m with fs := fs }
      if opened then
        if memory then some (some ⟨s, 0, false⟩, m)
        else do
          let m ← m.inodeClose s
          some (none, m)
      else some (none, m)

/-- `file_close`. -/
def fileClose (m : Machine σ) (f : OpenFile) : Option (Machine σ) := do
  let fs ←
    (if f.denyWrite then inodeAllowWrite f.sector m.fs else some m.fs)
  ({ m with fs := fs }).inodeClose f.sector

/-- What `load` reads. -/
def readAll (s : BlockSector) :
    List (Int32 × Int32) → FileSys σ → Option (FileSys σ)
  | [], fs => some fs
  | (size, offset) :: rest, fs => do
      let (_, fs) ← inodeReadAt s size offset true fs
      readAll s rest fs

/-- `load`: the inode, if the program has been loaded. -/
def load (m : Machine σ) (name : List UInt8) (inode memory : Bool)
    (reads : List (Int32 × Int32)) (success : Bool) :
    Option (Option BlockSector × Machine σ) := do
  let (f, m) ← m.filesysOpen name inode memory
  match f with
  | none => some (none, m)
  | some f => do
      let fs ← readAll f.sector reads m.fs
      let m ← ({ m with fs := fs }).fileClose f
      some (if success then some f.sector else none, m)

/-- The loop of `thread_exit` that closes the files. -/
def closeFiles (pid : Nat) : Nat → Machine σ → Option (Machine σ)
  | 0, m => some m
  | n + 1, m =>
      match m.files.find? (isOwnedBy pid) with
      | none => some m
      | some c => do
          let m ← m.fileClose c.file
          closeFiles pid n { m with files := m.files.eraseP (isOwnedBy pid) }

/-- `exit`: the process is no more, and its files are closed. -/
def exit (m : Machine σ) (pid : Nat) : Option (Machine σ) :=
  closeFiles pid (m.files.countP (isOwnedBy pid))
    { m with processes := Function.update m.processes pid none }

/-- The process has used a descriptor. -/
def addFile (m : Machine σ) (pid fd : Nat) (f : OpenFile) : Machine σ :=
  { m with
    processes := fun q =>
      if q = pid then (m.processes q).map fun p => { p with fd := fd + 1 }
      else m.processes q
    files := m.files ++ [⟨pid, fd, f⟩] }

/-- What happens: what is returned in `eax`, and the state after it, or `none`
where the kernel stops. -/
def step (m : Machine σ) : Call → Option (Int32 × Machine σ)
  | .exec child cmdline inode memory reads success =>
      match m.processes child with
      | some _ => none
      | none =>
          if firstToken (copyToPage cmdline) = [] then some (-1, m)
          else do
            let (loaded, m) ←
              m.load (loadName cmdline) inode memory reads success
            match loaded with
            | none => some (-1, m)
            | some s =>
                some (Int32.ofNat child,
                  { m with
                    processes := Function.update m.processes child
                      (some ⟨threadName cmdline, some s, 2⟩) })
  | .create file initialSize memory added => do
      let (created, fs) ← filesysCreate initialSize.toInt32 memory m.fs
      match created with
      | none => some (0, { m with fs := fs })
      | some s =>
          if file ≠ [] ∧ file.length ≤ nameMax ∧ m.names file = none ∧ added then
            some (1,
              { m with
                fs := fs
                live := s :: m.live
                names := Function.update m.names file (some s) })
          else do
            let fs ← freeMapRelease bitmapWrite s 1 fs
            some (0, { m with fs := fs })
  | .remove file inode erased =>
      match m.names file with
      | none => some (0, m)
      | some s =>
          let (opened, fs) := inodeOpen s inode m.fs
          if opened then
            if erased then do
              let fs ← inodeRemove s fs
              let m ← ({ m with
                fs := fs
                names := Function.update m.names file none }).inodeClose s
              some (1, m)
            else do
              let m ← ({ m with fs := fs }).inodeClose s
              some (0, m)
          else some (0, { m with fs := fs })
  | .openFile pid file inode memory page => do
      let p ← m.processes pid
      let (f, m) ← m.filesysOpen file inode memory
      let (f, fs) ← (if file = p.name then fileDenyWrite f m.fs else some (f, m.fs))
      let m := { m with fs := fs }
      match f with
      | none => some (-1, m)
      | some f =>
          if page then some (Int32.ofNat p.fd, m.addFile pid p.fd f)
          else some (-1, m)
  | .read pid fd length memory =>
      if fd = 1 then some (length.toInt32, m)
      else
        match m.getFile pid fd with
        | none => some (-1, m)
        | some f => do
            let (bytes, fs) ←
              inodeReadAt f.sector length.toInt32 f.pos memory m.fs
            let bytesRead := Int32.ofNat bytes.length
            some (bytesRead,
              ({ m with fs := fs }).setPos pid fd (f.pos + bytesRead))
  | .write pid fd buffer size memory =>
      if fd = 1 then some (size.toInt32, m)
      else if fd = 0 then some (-1, m)
      else
        match m.getFile pid fd with
        | none => some (-1, m)
        | some f =>
            if f.denyWrite then some (0, m)
            else do
              let (written, fs) ←
                inodeWriteAt f.sector buffer size.toInt32 f.pos memory m.fs
              some (written,
                ({ m with fs := fs }).setPos pid fd (f.pos + written))
  | .seek pid fd position =>
      match m.getFile pid fd with
      | none => some (-1, m)
      | some _ =>
          if 0 ≤ position.toInt32 then
            some (0, m.setPos pid fd position.toInt32)
          else none
  | .close pid fd =>
      match m.files.find? (isDescriptor pid fd) with
      | none => do
          let m ← m.exit pid
          some (-1, m)
      | some c => do
          let m ← m.fileClose c.file
          some (0, { m with files := m.files.eraseP (isDescriptor pid fd) })
  | .exit pid => do
      let m ← m.exit pid
      some (0, m)

/-- The state after what happens. -/
def next (m : Machine σ) (call : Call) : Option (Machine σ) :=
  (m.step call).map Prod.snd

/-- The kernel when the disk has been formatted: nothing but the main thread,
which copies files to the disk. -/
def start (fs : FileSys σ) : Machine σ where
  fs := fs
  live := [freeMapSector, rootDirSector]
  names _ := none
  processes pid :=
    if pid = 1 then some ⟨"main".toUTF8.toList, none, 2⟩ else none
  files := []

/-- An inode that a running process was loaded from. -/
def Executable (m : Machine σ) (s : BlockSector) : Prop :=
  ∃ pid p, m.processes pid = some p ∧ p.executable = some s

/-- A process has the inode open under its own name. -/
def Protected (m : Machine σ) (s : BlockSector) : Prop :=
  ∃ c ∈ m.files, c.file.sector = s ∧ c.file.denyWrite = true

end Machine

/-- What `write` is asked for without harm: its range is one that
`inode_write_at` is given without harm, and it does not go, through a descriptor
that may write, to the executable of a running process that nobody has open
under its own name. -/
def Call.Allowed (m : Machine σ) : Call → Prop
  | .write pid fd _ size _ => ∀ f, m.getFile pid fd = some f →
      f.denyWrite = true ∨
      (∀ inode, m.fs.openInodes f.sector = some inode →
        inode.denyWriteCnt = 0 →
          WriteAllowed inode.data.length.toInt size.toInt32.toInt f.pos.toInt) ∧
      (m.Executable f.sector → m.Protected f.sector)
  | _ => True

/-- What happens is allowed, and no allocation of a sector fails. -/
def Call.Ok (m : Machine σ) (call : Call) : Prop :=
  call.Allowed m ∧ ∀ m', m.next call = some m' →
    m'.fs.allocFailures = m.fs.allocFailures

end PintosLabs.Executables
