/-
The pointers that a process gives to its system calls (userprog/syscall.c): which
bytes the kernel checks, and which it uses once it holds a lock.
-/
import Mathlib.Data.Nat.Find
import PintosLabs.UserMemory

namespace PintosLabs
namespace UserMemory

open Exec (physBase pgsize)

/-- `SYS_EXEC` and the other calls with a pointer. -/
def sysExec : Nat := 2
def sysCreate : Nat := 4
def sysRemove : Nat := 5
def sysOpen : Nat := 6
def sysRead : Nat := 8
def sysWrite : Nat := 9

/-- `NAME_MAX` -/
def nameMax : Nat := 14

/-- An open file: its position, how far its end is from there, and how many bytes a
write takes. -/
structure OpenFile where
  pos : Nat
  left : Int
  denyWrite : Bool
  taken : Nat

/-- What the calls get from the rest of the kernel: the pages of `process_execute`,
whether there is an inode before `dir_add`, whether the root directory opens, the
names in use in the order in which `lookup` reads them, the name of the thread,
the open files, and whether there is a bounce buffer. -/
structure Answers where
  fnCopy : Bool
  nameTmp : Bool
  inode : Bool
  root : Bool
  entries : List CString
  threadName : CString
  file : Nat → Option OpenFile
  bounce : Bool

/-- `strlen` from its byte `i` on; a string with no end leaves the memory. -/
def strlen (m : Pages) (string : Nat) : Nat → Nat → Run Nat
  | 0, _ => stop .fault
  | fuel + 1, i => do
      let byte ← load m (string + i)
      if byte = 0 then pure i else strlen m string fuel (i + 1)

/-- `strlcpy` of a string of the user. -/
def copyString (m : Pages) (src size : Nat) : Run Unit := do
  let srcLen ← strlen m src (2 ^ 32) 0
  forLoop (fun i => do
    let _ ← load m (src + i)
    pure ()) (min srcLen (size - 1)) 0

/-- Whether `strcmp` of a string of the user with one of the kernel is 0. -/
def sameString (m : Pages) (a : Nat) : Bytes → Run Bool
  | [] => do
      let byte ← load m a
      pure (byte == 0)
  | c :: b => do
      let byte ← load m a
      if byte = 0 ∨ byte ≠ c then pure false else sameString m (a + 1) b

def lookup (m : Pages) (name : Nat) : List CString → Run Bool
  | [] => pure false
  | e :: entries => do
      let same ← sameString m name e.bytes
      if same then pure true else lookup m name entries

def dirAdd (m : Pages) (name : Nat) (entries : List CString) : Run Unit := do
  let first ← load m name
  if first = 0 then pure ()
  else do
    let length ← strlen m name (2 ^ 32) 0
    if nameMax < length then pure ()
    else do
      let found ← lookup m name entries
      if found then pure () else copyString m name (nameMax + 1)

def processExecute (answers : Answers) (m : Pages) (fileName : Nat) : Run Unit :=
  if answers.fnCopy then do
    copyString m fileName pgsize
    if answers.nameTmp then copyString m fileName pgsize else pure ()
  else pure ()

def exec (answers : Answers) (m : Pages) (file : Nat) : Run Unit :=
  if file = 0 then stop .exit
  else do
    isValidPtr m file
    processExecute answers m file

def create (answers : Answers) (m : Pages) (file : Nat) : Run Unit :=
  if file = 0 then stop .exit
  else do
    isValidPtr m file
    acquire .filesys
    if answers.inode then dirAdd m file answers.entries else pure ()
    release .filesys

/-- `dir_lookup` and `dir_remove` in the root directory. -/
def lookupRoot (answers : Answers) (m : Pages) (file : Nat) : Run Unit :=
  if answers.root then do
    let _ ← lookup m file answers.entries
    pure ()
  else pure ()

def remove (answers : Answers) (m : Pages) (file : Nat) : Run Unit := do
  isValidPtr m file
  acquire .filesys
  lookupRoot answers m file
  release .filesys

def openFile (answers : Answers) (m : Pages) (file : Nat) : Run Unit :=
  if file = 0 then stop .exit
  else do
    isValidPtr m file
    acquire .filesys
    lookupRoot answers m file
    let _ ← sameString m file answers.threadName.bytes
    release .filesys

/-- The loop of `inode_read_at` into the buffer: a full sector is copied while the
cache is locked. -/
def readLoop (m : Pages) (bounce : Bool) (buffer : Nat) :
    Nat → Int → Int → Nat → Nat → Run Unit
  | 0, _, _, _, _ => pure ()
  | fuel + 1, size, left, offset, bytesRead =>
      let chunkSize := min size (min left (512 - (offset % 512 : Nat)))
      if chunkSize ≤ 0 then pure ()
      else if offset % 512 = 0 ∧ chunkSize = 512 then do
        acquire .cache
        forLoop (fun i => store m (buffer + i)) 512 bytesRead
        release .cache
        readLoop m bounce buffer fuel (size - 512) (left - 512) (offset + 512)
          (bytesRead + 512)
      else if bounce then do
        acquire .cache
        release .cache
        forLoop (fun i => store m (buffer + i)) chunkSize.toNat bytesRead
        readLoop m bounce buffer fuel (size - chunkSize) (left - chunkSize)
          (offset + chunkSize.toNat) (bytesRead + chunkSize.toNat)
      else pure ()

def read (answers : Answers) (m : Pages) (fd buffer length : Nat) : Run Unit :=
  if buffer = 0 then stop .exit
  else do
    isValidPtr m buffer
    if fd = 1 then pure ()
    else do
      acquire .filesys
      match answers.file fd with
      | none => pure ()
      | some f =>
          let size := (length : Int).bmod (2 ^ 32)
          readLoop m answers.bounce buffer size.toNat size f.left f.pos 0
      release .filesys

def write (answers : Answers) (m : Pages) (fd buffer size : Nat) : Run Unit :=
  if buffer = 0 then stop .exit
  else do
    forLoop (fun i => isValidPtr m (buffer + i)) size 0
    let use := forLoop fun i => do
      let _ ← load m (buffer + i)
      pure ()
    if fd = 1 then use size 0
    else if fd = 0 then pure ()
    else do
      acquire .filesys
      match answers.file fd with
      | none => pure ()
      | some f => if f.denyWrite then pure () else use (min f.taken size) 0
      release .filesys

/-- A turn of the loop of `read_args`. -/
def readArg (m : Pages) (esp i : Nat) : Run Nat := do
  isValidPtr m (esp + 4 * (1 + i))
  loadWord m (esp + 4 * (1 + i))

/-- `syscall_handler`; the other calls take no pointer. -/
def syscallHandler (answers : Answers) (m : Pages) (esp : Nat) : Run Unit := do
  isValidPtr m esp
  let number ← loadWord m esp
  if number = sysExec then do
    let file ← readArg m esp 0
    let ptr ← loadWord m (esp + 4)
    isValidPtr m ptr
    exec answers m file
  else if number = sysCreate then do
    let file ← readArg m esp 0
    let _ ← readArg m esp 1
    create answers m file
  else if number = sysRemove then do
    let file ← readArg m esp 0
    remove answers m file
  else if number = sysOpen then do
    let file ← readArg m esp 0
    openFile answers m file
  else if number = sysRead then do
    let fd ← readArg m esp 0
    let buffer ← readArg m esp 1
    let length ← readArg m esp 2
    read answers m fd buffer length
  else if number = sysWrite then do
    let fd ← readArg m esp 0
    let buffer ← readArg m esp 1
    let size ← readArg m esp 2
    write answers m fd buffer size
  else pure ()

/-- A string of the user. -/
def Pages.StringAt (m : Pages) (p length : Nat) : Prop :=
  m.byte (p + length) = 0 ∧ ∀ j < length, m.byte (p + j) ≠ 0

/-- The first `k` bytes at `p` are those of a string of the kernel. -/
def Pages.Matches (m : Pages) (p : Nat) (string : Bytes) (k : Nat) : Prop :=
  k ≤ string.length ∧ ∀ j < k, string[j]? = some (m.byte (p + j))

variable {β : Type} {m : Pages} {checked : Nat → Prop} {locked : Bool} {p fuel i : Nat}

theorem safe_strlen {f : Nat → Run β} (hchecked : Present m checked)
    (hfuel : physBase ≤ p + i + fuel) :
    Run.Safe checked locked (strlen m p fuel i >>= f) ↔
      ∃ length, i ≤ length ∧ m.byte (p + length) = 0 ∧
        (∀ j, i ≤ j → j < length → m.byte (p + j) ≠ 0) ∧
        (∀ j, i ≤ j → j ≤ length → checked (p + j)) ∧
        Run.Safe checked locked (f length) := by
  induction fuel generalizing i with
  | zero =>
      rw [strlen, stop_bind]
      refine ⟨fun h => absurd h not_safe_fault, ?_⟩
      rintro ⟨length, hle, -, -, hall, -⟩
      have := (hchecked _ (hall i (Nat.le_refl _) hle)).2.1
      omega
  | succ fuel ih =>
      rw [strlen, bind_assoc, safe_load hchecked]
      split
      case isTrue hzero =>
        rw [pure_bind]
        constructor
        · rintro ⟨hi, hsafe⟩
          refine ⟨i, Nat.le_refl _, hzero, fun j hle hlt => absurd hlt (by omega),
            fun j hle hle' => ?_, hsafe⟩
          rwa [show j = i by omega]
        · rintro ⟨length, hle, hnul, hbytes, hall, hsafe⟩
          rcases Nat.eq_or_lt_of_le hle with rfl | hlt
          · exact ⟨hall i (Nat.le_refl _) (Nat.le_refl _), hsafe⟩
          · exact absurd hzero (hbytes i (Nat.le_refl _) hlt)
      case isFalse hne =>
        rw [ih (by omega)]
        constructor
        · rintro ⟨hi, length, hle, hnul, hbytes, hall, hsafe⟩
          refine ⟨length, by omega, hnul, fun j hle' hlt => ?_, fun j hle' hlt => ?_, hsafe⟩
          · rcases Nat.eq_or_lt_of_le hle' with rfl | hlt'
            · exact hne
            · exact hbytes j hlt' hlt
          · rcases Nat.eq_or_lt_of_le hle' with rfl | hlt'
            · exact hi
            · exact hall j hlt' hlt
        · rintro ⟨length, hle, hnul, hbytes, hall, hsafe⟩
          have hlt : i < length := by
            rcases Nat.eq_or_lt_of_le hle with rfl | hlt
            · exact absurd hnul hne
            · exact hlt
          exact ⟨hall i (Nat.le_refl _) hle, length, hlt, hnul,
            fun j hle' => hbytes j (by omega), fun j hle' => hall j (by omega), hsafe⟩

/-- A string that is checked up to its NUL. -/
def Pages.StringChecked (m : Pages) (checked : Nat → Prop) (p : Nat) : Prop :=
  ∃ length, m.StringAt p length ∧ ∀ j ≤ length, checked (p + j)

theorem stringChecked_iff (hchecked : Present m checked) :
    m.StringChecked checked p ↔ ∀ k, (∀ j < k, m.byte (p + j) ≠ 0) → checked (p + k) := by
  constructor
  · rintro ⟨length, ⟨hnul, -⟩, hall⟩ k hk
    refine hall k (Nat.le_of_not_lt fun hlt => ?_)
    exact hk length hlt hnul
  · intro hall
    have hend : ∃ length, m.byte (p + length) = 0 := by
      by_contra hnone
      have := (hchecked _ (hall physBase fun j _ hzero => hnone ⟨j, hzero⟩)).2.1
      omega
    refine ⟨Nat.find hend, ⟨Nat.find_spec hend, fun j => Nat.find_min hend⟩, fun j hj => ?_⟩
    exact hall j fun k hk => Nat.find_min hend (by omega)

theorem safe_strlen_start {f : Nat → Run β} (hchecked : Present m checked) :
    Run.Safe checked locked (strlen m p (2 ^ 32) 0 >>= f) ↔
      ∃ length, m.StringAt p length ∧ (∀ j ≤ length, checked (p + j)) ∧
        Run.Safe checked locked (f length) := by
  have hfuel : physBase ≤ p + 0 + 2 ^ 32 := by
    have : physBase ≤ 2 ^ 32 := by decide
    omega
  rw [safe_strlen hchecked hfuel]
  constructor
  · rintro ⟨length, -, hnul, hbytes, hall, hsafe⟩
    exact ⟨length, ⟨hnul, fun j => hbytes j (Nat.zero_le j)⟩,
      fun j => hall j (Nat.zero_le j), hsafe⟩
  · rintro ⟨length, ⟨hnul, hbytes⟩, hall, hsafe⟩
    exact ⟨length, Nat.zero_le _, hnul, fun j _ => hbytes j, fun j _ => hall j, hsafe⟩

theorem safe_loads {f : Unit → Run β} {n : Nat} (hchecked : Present m checked) :
    Run.Safe checked locked ((forLoop (fun i => do
        let _ ← load m (p + i)
        pure ()) n i) >>= f) ↔
      (∀ j, i ≤ j → j < i + n → checked (p + j)) ∧ Run.Safe checked locked (f ()) :=
  safe_forLoop fun j f => by rw [bind_assoc, safe_load hchecked]; rfl

theorem safe_copyString {f : Unit → Run β} {size : Nat} (hchecked : Present m checked) :
    Run.Safe checked locked (copyString m p size >>= f) ↔
      m.StringChecked checked p ∧ Run.Safe checked locked (f ()) := by
  rw [copyString, bind_assoc, safe_strlen_start hchecked]
  constructor
  · rintro ⟨length, hstring, hall, hsafe⟩
    exact ⟨⟨length, hstring, hall⟩, ((safe_loads hchecked).mp hsafe).2⟩
  · rintro ⟨⟨length, hstring, hall⟩, hsafe⟩
    refine ⟨length, hstring, hall, (safe_loads hchecked).mpr ⟨fun j _ hlt => ?_, hsafe⟩⟩
    exact hall j (by omega)

/-- What `sameString` returns. -/
def Pages.named (m : Pages) (p : Nat) : Bytes → Bool
  | [] => m.byte p == 0
  | c :: string => !(m.byte p == 0 || m.byte p != c) && m.named (p + 1) string

theorem matches_zero {string : Bytes} : m.Matches p string 0 :=
  ⟨Nat.zero_le _, fun j hj => absurd hj (Nat.not_lt_zero j)⟩

theorem matches_cons {c : UInt8} {string : Bytes} {k : Nat} :
    m.Matches p (c :: string) (k + 1) ↔ m.byte p = c ∧ m.Matches (p + 1) string k := by
  constructor
  · rintro ⟨hle, hall⟩
    refine ⟨(Option.some.inj (hall 0 (Nat.succ_pos k))).symm,
      Nat.le_of_succ_le_succ hle, fun j hj => ?_⟩
    have := hall (j + 1) (Nat.succ_lt_succ hj)
    rwa [List.getElem?_cons_succ, Nat.add_comm j, ← Nat.add_assoc] at this
  · rintro ⟨hc, hle, hall⟩
    refine ⟨Nat.succ_le_succ hle, fun j hj => ?_⟩
    cases j with
    | zero => exact congrArg some hc.symm
    | succ j =>
        rw [List.getElem?_cons_succ, Nat.add_comm j, ← Nat.add_assoc]
        exact hall j (Nat.lt_of_succ_lt_succ hj)

theorem named_iff {string : Bytes} (hnul : (0 : UInt8) ∉ string) :
    m.named p string = true ↔
      m.Matches p string string.length ∧ m.byte (p + string.length) = 0 := by
  induction string generalizing p with
  | nil => simp [Pages.named, matches_zero]
  | cons c string ih =>
      have hc : c ≠ 0 := fun h => hnul (h ▸ List.mem_cons_self)
      rw [List.length_cons, matches_cons, Pages.named, Bool.and_eq_true,
        ih fun h => hnul (List.mem_cons_of_mem _ h), Nat.add_comm string.length,
        ← Nat.add_assoc]
      constructor
      · rintro ⟨hfirst, hrest, hlast⟩
        simp only [Bool.not_eq_true', Bool.or_eq_false_iff, bne_eq_false_iff_eq] at hfirst
        exact ⟨⟨hfirst.2, hrest⟩, hlast⟩
      · rintro ⟨⟨hfirst, hrest⟩, hlast⟩
        refine ⟨?_, hrest, hlast⟩
        simp [hfirst, hc]

theorem safe_sameString {f : Bool → Run β} {string : Bytes} (hchecked : Present m checked)
    (hnul : (0 : UInt8) ∉ string) :
    Run.Safe checked locked (sameString m p string >>= f) ↔
      (∀ k, m.Matches p string k → checked (p + k)) ∧
        Run.Safe checked locked (f (m.named p string)) := by
  induction string generalizing p with
  | nil =>
      rw [sameString, bind_assoc, safe_load hchecked, pure_bind]
      constructor
      · rintro ⟨hp, hsafe⟩
        refine ⟨fun k hk => ?_, hsafe⟩
        rwa [Nat.le_zero.mp hk.1]
      · rintro ⟨hall, hsafe⟩
        exact ⟨hall 0 matches_zero, hsafe⟩
  | cons c string ih =>
      have hc : c ≠ 0 := fun h => hnul (h ▸ List.mem_cons_self)
      rw [sameString, bind_assoc, safe_load hchecked, Pages.named]
      split
      case isTrue hstop =>
        have hne : m.byte p ≠ c := fun heq => hstop.elim (fun h => hc (heq ▸ h)) fun h => h heq
        have hfalse : (!(m.byte p == 0 || m.byte p != c) && m.named (p + 1) string) = false := by
          simp [hne]
        rw [pure_bind, hfalse]
        refine and_congr_left fun _ => ⟨fun hp k hk => ?_, fun hall => hall 0 matches_zero⟩
        cases k with
        | zero => exact hp
        | succ k => exact absurd (matches_cons.mp hk).1 hne
      case isFalse hgo =>
        obtain ⟨hzero, heq⟩ := not_or.mp hgo
        have heq : m.byte p = c := not_not.mp heq
        have htrue : (!(m.byte p == 0 || m.byte p != c) && m.named (p + 1) string) =
            m.named (p + 1) string := by
          simp [heq, hc]
        rw [ih fun h => hnul (List.mem_cons_of_mem _ h), htrue, ← and_assoc]
        refine and_congr_left fun _ => ⟨fun h k hk => ?_, fun hall => ⟨hall 0 matches_zero,
          fun k hk => ?_⟩⟩
        · cases k with
          | zero => exact h.1
          | succ k =>
              have := h.2 k (matches_cons.mp hk).2
              rwa [Nat.add_comm k, ← Nat.add_assoc]
        · have := hall (k + 1) (matches_cons.mpr ⟨heq, hk⟩)
          rwa [Nat.add_comm k, ← Nat.add_assoc] at this

/-- After the name that is equal, `lookup` looks at no other: they do not go further. -/
theorem matches_of_named {string other : Bytes} {k : Nat} (hnul : (0 : UInt8) ∉ string)
    (hother : (0 : UInt8) ∉ other) (hnamed : m.named p string = true)
    (hk : m.Matches p other k) : m.Matches p string k := by
  obtain ⟨⟨-, hall⟩, hlast⟩ := (named_iff hnul).mp hnamed
  have hle : k ≤ string.length := by
    refine Nat.le_of_not_lt fun hlt => hother ?_
    have := hk.2 _ hlt
    rw [hlast] at this
    exact List.mem_of_getElem? this
  exact ⟨hle, fun j hj => hall j (by omega)⟩

theorem safe_lookup {f : Bool → Run β} {entries : List CString}
    (hchecked : Present m checked)
    (hf : ∀ b b', Run.Safe checked locked (f b) ↔ Run.Safe checked locked (f b')) :
    Run.Safe checked locked (lookup m p entries >>= f) ↔
      (∀ e ∈ entries, ∀ k, m.Matches p e.bytes k → checked (p + k)) ∧
        Run.Safe checked locked (f false) := by
  induction entries with
  | nil => simp [lookup]
  | cons e entries ih =>
      rw [lookup, bind_assoc, safe_sameString hchecked e.noNul, List.forall_mem_cons, and_assoc]
      refine and_congr_right fun he => ?_
      cases hnamed : m.named p e.bytes with
      | false =>
          rw [if_neg (by decide)]
          exact ih
      | true =>
          rw [if_pos rfl, pure_bind, hf true false]
          refine ⟨fun hsafe => ⟨fun e' _ k hk => ?_, hsafe⟩, fun h => h.2⟩
          exact he k (matches_of_named e.noNul e'.noNul hnamed hk)

/-- A name of the kernel does not go further than the NUL of the string. -/
theorem matches_le {string : Bytes} {length k : Nat} (hstring : m.StringAt p length)
    (hnul : (0 : UInt8) ∉ string) (hk : m.Matches p string k) : k ≤ length := by
  refine Nat.le_of_not_lt fun hlt => hnul ?_
  have := hk.2 _ hlt
  rw [hstring.1] at this
  exact List.mem_of_getElem? this

theorem safe_dirAdd {f : Unit → Run β} {entries : List CString}
    (hchecked : Present m checked) :
    Run.Safe checked locked (dirAdd m p entries >>= f) ↔
      m.StringChecked checked p ∧ Run.Safe checked locked (f ()) := by
  rw [dirAdd, bind_assoc, safe_load hchecked]
  split
  case isTrue hzero =>
    rw [pure_bind]
    refine and_congr_left fun _ => ⟨fun hp => ?_, ?_⟩
    · refine ⟨0, ⟨hzero, fun j hj => absurd hj (Nat.not_lt_zero j)⟩, fun j hj => ?_⟩
      rwa [Nat.le_zero.mp hj]
    · rintro ⟨length, -, hall⟩
      exact hall 0 (Nat.zero_le _)
  case isFalse hne =>
    rw [bind_assoc, safe_strlen_start hchecked]
    have hrest : ∀ length, m.StringAt p length → (∀ j ≤ length, checked (p + j)) →
        (Run.Safe checked locked ((if nameMax < length then pure () else do
            let found ← lookup m p entries
            if found then pure () else copyString m p (nameMax + 1)) >>= f) ↔
          Run.Safe checked locked (f ())) := by
      intro length hstring hall
      have hcopy : Run.Safe checked locked (copyString m p (nameMax + 1) >>= f) ↔
          Run.Safe checked locked (f ()) := by
        rw [safe_copyString hchecked]
        exact and_iff_right ⟨length, hstring, hall⟩
      split
      · rw [pure_bind]
      · rw [bind_assoc, safe_lookup hchecked]
        · rw [if_neg (by decide), hcopy]
          exact and_iff_right fun e _ k hk => hall k (matches_le hstring e.noNul hk)
        · intro b b'
          cases b <;> cases b' <;> simp [hcopy]
    constructor
    · rintro ⟨-, length, hstring, hall, hsafe⟩
      exact ⟨⟨length, hstring, hall⟩, (hrest length hstring hall).mp hsafe⟩
    · rintro ⟨⟨length, hstring, hall⟩, hsafe⟩
      exact ⟨hall 0 (Nat.zero_le _), length, hstring, hall,
        (hrest length hstring hall).mpr hsafe⟩

/-- How many bytes `inode_read_at` stores: without a bounce buffer whole sectors. -/
def readCount (bounce : Bool) (size left : Int) (offset : Nat) : Nat :=
  if bounce then (min size left).toNat
  else if offset % 512 = 0 then (min size left).toNat / 512 * 512
  else 0

/-- The byte is checked, and its page can be written. -/
def Pages.StoreChecked (m : Pages) (checked : Nat → Prop) (a : Nat) : Prop :=
  checked a ∧ m.writable (a / pgsize) = true

theorem safe_stores {f : Unit → Run β} {n : Nat} (hchecked : Present m checked) :
    Run.Safe checked locked (forLoop (fun j => store m (p + j)) n i >>= f) ↔
      (∀ j, i ≤ j → j < i + n → m.StoreChecked checked (p + j)) ∧
        Run.Safe checked locked (f ()) :=
  safe_forLoop fun _ _ => safe_store hchecked

theorem forall_stores_add {need : Nat → Prop} {n k : Nat} :
    ((∀ j, i ≤ j → j < i + n → need j) ∧ ∀ j, i + n ≤ j → j < i + n + k → need j) ↔
      ∀ j, i ≤ j → j < i + (n + k) → need j := by
  constructor
  · rintro ⟨hlow, hhigh⟩ j hle hlt
    rcases Nat.lt_or_ge j (i + n) with h | h
    · exact hlow j hle h
    · exact hhigh j h (by omega)
  · intro hall
    exact ⟨fun j hle hlt => hall j hle (by omega), fun j hle hlt => hall j (by omega) (by omega)⟩

theorem safe_readLoop {f : Unit → Run β} {bounce : Bool} {size left : Int} {offset : Nat}
    (hchecked : Present m checked) (hfuel : size ≤ fuel) :
    Run.Safe checked true (readLoop m bounce p fuel size left offset i >>= f) ↔
      (∀ j, i ≤ j → j < i + readCount bounce size left offset →
        m.StoreChecked checked (p + j)) ∧ Run.Safe checked true (f ()) := by
  induction fuel generalizing size left offset i with
  | zero =>
      have hcount : readCount bounce size left offset = 0 := by
        unfold readCount
        split <;> try split
        all_goals omega
      rw [readLoop, pure_bind, hcount]
      exact (and_iff_right fun j hle hlt => absurd hlt (by omega)).symm
  | succ fuel ih =>
      rw [readLoop]
      split
      case isTrue hend =>
        have hcount : readCount bounce size left offset = 0 := by
          unfold readCount
          split <;> try split
          all_goals omega
        rw [pure_bind, hcount]
        exact (and_iff_right fun j hle hlt => absurd hlt (by omega)).symm
      case isFalse hmore =>
        split
        case isTrue hfull =>
          have hcount : readCount bounce size left offset =
              512 + readCount bounce (size - 512) (left - 512) (offset + 512) := by
            unfold readCount
            split <;> try split
            all_goals try split
            all_goals omega
          simp only [bind_assoc, safe_acquire, safe_stores hchecked, safe_release]
          rw [ih (by omega), hcount, ← and_assoc, forall_stores_add]
        case isFalse hpart =>
          split
          case isTrue hbounce =>
            have hcount : readCount bounce size left offset =
                (min size (min left (512 - (offset % 512 : Nat)))).toNat +
                  readCount bounce (size - min size (min left (512 - (offset % 512 : Nat))))
                    (left - min size (min left (512 - (offset % 512 : Nat))))
                    (offset + (min size (min left (512 - (offset % 512 : Nat)))).toNat) := by
              unfold readCount
              rw [if_pos hbounce, if_pos hbounce]
              omega
            simp only [bind_assoc, safe_acquire, safe_stores hchecked, safe_release]
            rw [ih (by omega), hcount, ← and_assoc, forall_stores_add]
          case isFalse hbounce =>
            have hcount : readCount bounce size left offset = 0 := by
              unfold readCount
              rw [if_neg hbounce]
              split
              · omega
              · rfl
            rw [pure_bind, hcount]
            exact (and_iff_right fun j hle hlt => absurd hlt (by omega)).symm

/-! The system calls. -/

theorem Checked.again : Checked (Checked checked p) p = Checked checked p := by
  funext b
  exact propext ⟨fun h => h.elim id Or.inr, Or.inl⟩

theorem not_validWord_zero : ¬ m.ValidWord 0 := fun h => (h 0 (by omega)).1 rfl

/-- A call refuses a null pointer and checks the word at any other. -/
theorem safe_guarded {body : Run Unit} {C : Prop} (hchecked : Present m checked)
    (hbody : m.ValidWord p → Present m (Checked checked p) →
      (Run.Safe (Checked checked p) false body ↔ C)) :
    Run.Safe checked false (if p = 0 then stop .exit else isValidPtr m p >>= fun _ => body) ↔
      (m.ValidWord p → C) := by
  split
  case isTrue hnull =>
    subst hnull
    exact ⟨fun _ h => absurd h not_validWord_zero, fun _ => safe_exit⟩
  case isFalse =>
    rw [safe_isValidPtr]
    exact forall_congr' fun hvalid => hbody hvalid (Checked.present hchecked hvalid)

theorem safe_exec {answers : Answers} (hchecked : Present m checked) :
    Run.Safe checked false (exec answers m p) ↔
      (m.ValidWord p → answers.fnCopy = true → m.StringChecked (Checked checked p) p) := by
  rw [exec]
  refine safe_guarded hchecked fun _ hpresent => ?_
  rw [processExecute]
  split
  case isTrue hpage =>
    rw [safe_copyString hpresent]
    have hsecond : m.StringChecked (Checked checked p) p →
        Run.Safe (Checked checked p) false
          (if answers.nameTmp then copyString m p pgsize else pure ()) := by
      intro hstring
      split
      · have hsafe : Run.Safe (Checked checked p) false
            (copyString m p pgsize >>= (pure : Unit → Run Unit)) :=
          (safe_copyString hpresent).mpr ⟨hstring, safe_pure ()⟩
        rwa [bind_pure_run] at hsafe
      · exact safe_pure ()
    exact ⟨fun h _ => h.1, fun h => ⟨h hpage, hsecond (h hpage)⟩⟩
  case isFalse hpage =>
    exact ⟨fun _ h => absurd h hpage, fun _ => safe_pure ()⟩

theorem safe_create {answers : Answers} (hchecked : Present m checked) :
    Run.Safe checked false (create answers m p) ↔
      (m.ValidWord p → answers.inode = true → m.StringChecked (Checked checked p) p) := by
  rw [create]
  refine safe_guarded hchecked fun _ hpresent => ?_
  have hrelease : Run.Safe (Checked checked p) true (release .filesys) :=
    ⟨trivial, fun _ h => by cases h⟩
  rw [safe_acquire]
  split
  case isTrue hinode =>
    rw [safe_dirAdd hpresent]
    exact ⟨fun h _ => h.1, fun h => ⟨h hinode, hrelease⟩⟩
  case isFalse hinode =>
    exact ⟨fun _ h => absurd h hinode, fun _ => hrelease⟩

theorem safe_lookupRoot {answers : Answers} {f : Unit → Run β}
    (hchecked : Present m checked) :
    Run.Safe checked locked (lookupRoot answers m p >>= f) ↔
      (answers.root = true → ∀ e ∈ answers.entries, ∀ k, m.Matches p e.bytes k →
        checked (p + k)) ∧ Run.Safe checked locked (f ()) := by
  rw [lookupRoot]
  split
  case isTrue hroot =>
    rw [bind_assoc, safe_lookup hchecked fun _ _ => Iff.rfl]
    exact and_congr_left fun _ => ⟨fun h _ => h, fun h => h hroot⟩
  case isFalse hroot =>
    exact (and_iff_right fun h => absurd h hroot).symm

theorem safe_remove {answers : Answers} (hchecked : Present m checked) :
    Run.Safe checked false (remove answers m p) ↔
      (m.ValidWord p → answers.root = true → ∀ e ∈ answers.entries, ∀ k,
        m.Matches p e.bytes k → Checked checked p (p + k)) := by
  rw [remove, safe_isValidPtr]
  refine forall_congr' fun hvalid => ?_
  rw [safe_acquire, safe_lookupRoot (Checked.present hchecked hvalid)]
  exact and_iff_left ⟨trivial, fun _ h => by cases h⟩

theorem safe_openFile {answers : Answers} (hchecked : Present m checked) :
    Run.Safe checked false (openFile answers m p) ↔
      (m.ValidWord p → ∀ k,
        ((answers.root = true ∧ ∃ e ∈ answers.entries, m.Matches p e.bytes k) ∨
          m.Matches p answers.threadName.bytes k) → Checked checked p (p + k)) := by
  rw [openFile]
  refine safe_guarded hchecked fun _ hpresent => ?_
  rw [safe_acquire, safe_lookupRoot hpresent,
    safe_sameString hpresent answers.threadName.noNul]
  constructor
  · rintro ⟨hentries, hname, -⟩ k (⟨hroot, e, he, hk⟩ | hk)
    · exact hentries hroot e he k hk
    · exact hname k hk
  · intro hall
    exact ⟨fun hroot e he k hk => hall k (Or.inl ⟨hroot, e, he, hk⟩),
      fun k hk => hall k (Or.inr hk), trivial, fun _ h => by cases h⟩

/-- How many bytes a call to `read` stores, the open file and the length being those
of the call. -/
def Answers.stored (answers : Answers) (fd length : Nat) : Nat :=
  if fd = 1 then 0
  else
    match answers.file fd with
    | none => 0
    | some f => readCount answers.bounce ((length : Int).bmod (2 ^ 32)) f.left f.pos

theorem safe_read {answers : Answers} {fd length : Nat} (hchecked : Present m checked) :
    Run.Safe checked false (read answers m fd p length) ↔
      (m.ValidWord p → ∀ k < answers.stored fd length,
        m.StoreChecked (Checked checked p) (p + k)) := by
  rw [read, Answers.stored]
  refine safe_guarded hchecked fun _ hpresent => ?_
  have hrelease : Run.Safe (Checked checked p) true (release .filesys) :=
    ⟨trivial, fun _ h => by cases h⟩
  split
  · exact ⟨fun _ k hk => absurd hk (Nat.not_lt_zero k), fun _ => safe_pure ()⟩
  · rw [safe_acquire]
    cases hfile : answers.file fd with
    | none =>
        exact ⟨fun _ k hk => absurd hk (Nat.not_lt_zero k), fun _ => hrelease⟩
    | some f =>
        dsimp only
        rw [safe_readLoop hpresent (Int.self_le_toNat _)]
        constructor
        · rintro ⟨hall, -⟩ k hk
          exact hall k (Nat.zero_le k) (by omega)
        · intro hall
          exact ⟨fun j _ hj => hall j (by omega), hrelease⟩

theorem safe_checkAll {f : Unit → Run β} {n : Nat} (hchecked : Present m checked)
    (hf : ∀ all, Present m all → (∀ b, checked b → all b) →
      (∀ j, i ≤ j → j < i + n → all (p + j)) → Run.Safe all false (f ())) :
    Run.Safe checked false (forLoop (fun j => isValidPtr m (p + j)) n i >>= f) := by
  induction n generalizing i checked with
  | zero => exact hf checked hchecked (fun _ h => h) fun j hle hlt => absurd hlt (by omega)
  | succ n ih =>
      rw [forLoop, bind_assoc, safe_isValidPtr]
      intro hvalid
      refine ih (Checked.present hchecked hvalid) fun all hall hsub hcover => ?_
      refine hf all hall (fun b hb => hsub b (Or.inl hb)) fun j hle hlt => ?_
      rcases Nat.eq_or_lt_of_le hle with rfl | hlt'
      · exact hsub _ (Or.inr ⟨Nat.le_refl _, by omega⟩)
      · exact hcover j hlt' (by omega)

/-- Every byte that `write` uses has been checked. -/
theorem safe_write {answers : Answers} {fd size : Nat} (hchecked : Present m checked) :
    Run.Safe checked false (write answers m fd p size) := by
  rw [write]
  split
  case isTrue => exact safe_exit
  case isFalse =>
    refine safe_checkAll hchecked fun all hall _ hcover => ?_
    have huse : ∀ n ≤ size, ∀ locked (f : Unit → Run Unit), Run.Safe all locked (f ()) →
        Run.Safe all locked ((forLoop (fun i => do
          let _ ← load m (p + i)
          pure ()) n 0) >>= f) := by
      intro n hn locked f hsafe
      exact (safe_loads hall).mpr ⟨fun j hle hlt => hcover j hle (by omega), hsafe⟩
    have hrelease : Run.Safe all true (release .filesys) := ⟨trivial, fun _ h => by cases h⟩
    dsimp only
    split
    · have hsafe := huse size (Nat.le_refl _) false pure (safe_pure ())
      rwa [bind_pure_run] at hsafe
    · split
      · exact safe_pure ()
      · rw [safe_acquire]
        cases answers.file fd with
        | none => exact hrelease
        | some f =>
            dsimp only
            split
            · exact hrelease
            · exact huse _ (Nat.min_le_right _ _) true _ hrelease

/-- The words of a call with `n` arguments on the stack. -/
def CallWords (esp n : Nat) : Nat → Prop := fun b => esp ≤ b ∧ b < esp + 4 * (n + 1)

theorem checked_callWords (esp n : Nat) :
    Checked (CallWords esp n) (esp + 4 * (1 + n)) = CallWords esp (n + 1) := by
  funext b
  unfold Checked CallWords InWord
  exact propext ⟨fun h => by omega, fun h => by omega⟩

theorem safe_readArg {f : Nat → Run β} {esp n : Nat}
    (hchecked : Present m (CallWords esp n)) :
    Run.Safe (CallWords esp n) false (readArg m esp n >>= f) ↔
      (m.ValidWord (esp + 4 * (1 + n)) →
        Run.Safe (CallWords esp (n + 1)) false (f (m.word (esp + 4 * (1 + n))))) := by
  rw [readArg, bind_assoc, safe_isValidPtr]
  refine forall_congr' fun hvalid => ?_
  have hpresent := Checked.present hchecked hvalid
  rw [safe_loadWord hpresent fun b hb => Or.inr hb, checked_callWords]

theorem present_callWords {esp n : Nat} (hvalid : ∀ i ≤ n, m.ValidWord (esp + 4 * i)) :
    Present m (CallWords esp n) := by
  rintro b ⟨hle, hlt⟩
  have := hvalid ((b - esp) / 4) (by omega) ((b - esp) % 4) (by omega)
  rwa [show esp + 4 * ((b - esp) / 4) + (b - esp) % 4 = b by omega] at this

/-- How many arguments the handler reads. -/
def argCount (number : Nat) : Nat :=
  if number = sysCreate then 2
  else if number = sysRead ∨ number = sysWrite then 3
  else 1

/-- The pointer among the arguments. -/
def pointer (m : Pages) (esp : Nat) : Nat :=
  if m.word esp = sysRead ∨ m.word esp = sysWrite then m.word (esp + 8)
  else m.word (esp + 4)

/-- The words of the call and the first four bytes at its pointer pass the checks. -/
def Accepted (m : Pages) (esp : Nat) : Prop :=
  (∀ i ≤ argCount (m.word esp), m.ValidWord (esp + 4 * i)) ∧ m.ValidWord (pointer m esp)

/-- The call needs the byte `k` at its pointer: of a name it is given as far as its NUL
or as its first difference from a name it is compared with, or of the buffer it
fills.  What `write` takes from its buffer is not here. -/
def Needs (answers : Answers) (m : Pages) (esp k : Nat) : Prop :=
  let number := m.word esp
  let p := pointer m esp
  (number = sysExec ∧ answers.fnCopy = true ∨ number = sysCreate ∧ answers.inode = true) ∧
      (∀ j < k, m.byte (p + j) ≠ 0) ∨
    (number = sysRemove ∨ number = sysOpen) ∧ answers.root = true ∧
      (∃ e ∈ answers.entries, m.Matches p e.bytes k) ∨
    number = sysOpen ∧ m.Matches p answers.threadName.bytes k ∨
    number = sysRead ∧ k < answers.stored (m.word (esp + 4)) (m.word (esp + 12))

/-- The byte is in the words of the call or among the first four at its pointer. -/
def Covered (m : Pages) (esp a : Nat) : Prop :=
  CallWords esp (argCount (m.word esp)) a ∨ InWord (pointer m esp) a


/-- The byte `k` at the pointer is covered, and for `read` its page can be written. -/
def Usable (m : Pages) (esp k : Nat) : Prop :=
  Covered m esp (pointer m esp + k) ∧
    (m.word esp = sysRead → m.writable ((pointer m esp + k) / pgsize) = true)

section Calls

variable {answers : Answers} {esp k : Nat}

/-- The call stops at a check, or every byte it needs can be used. -/
theorem served_iff {n p : Nat} (hcount : argCount (m.word esp) = n)
    (hpointer : pointer m esp = p) :
    (Accepted m esp → ∀ k, Needs answers m esp k → Usable m esp k) ↔
      ((∀ i ≤ n, m.ValidWord (esp + 4 * i)) → m.ValidWord p →
        ∀ k, Needs answers m esp k → Checked (CallWords esp n) p (p + k) ∧
          (m.word esp = sysRead → m.writable ((p + k) / pgsize) = true)) := by
  subst hcount hpointer
  exact and_imp

theorem safe_readArg_next {f : Nat → Run β} {n : Nat}
    (hall : ∀ i ≤ n, m.ValidWord (esp + 4 * i)) :
    Run.Safe (CallWords esp n) false (readArg m esp n >>= f) ↔
      ((∀ i ≤ n + 1, m.ValidWord (esp + 4 * i)) →
        Run.Safe (CallWords esp (n + 1)) false (f (m.word (esp + 4 * (n + 1))))) := by
  rw [safe_readArg (present_callWords hall), Nat.add_comm 1 n]
  constructor
  · intro h hnext
    exact h (hnext (n + 1) (Nat.le_refl _))
  · intro h hlast
    refine h fun i hi => ?_
    rcases Nat.lt_or_ge n i with hlt | hle
    · rwa [show i = n + 1 by omega]
    · exact hall i hle

/-- The first argument of a call. -/
theorem safe_readArg_first {f : Nat → Run β} (hesp : m.ValidWord esp) :
    Run.Safe (CallWords esp 0) false (readArg m esp 0 >>= f) ↔
      ((∀ i ≤ 1, m.ValidWord (esp + 4 * i)) →
        Run.Safe (CallWords esp 1) false (f (m.word (esp + 4)))) :=
  safe_readArg_next fun i hi => by rwa [Nat.le_zero.mp hi]

theorem needs_exec (hnumber : m.word esp = sysExec) :
    Needs answers m esp k ↔
      answers.fnCopy = true ∧ ∀ j < k, m.byte (m.word (esp + 4) + j) ≠ 0 := by
  simp [Needs, pointer, hnumber, sysExec, sysCreate, sysRemove, sysOpen, sysRead, sysWrite]

theorem needs_create (hnumber : m.word esp = sysCreate) :
    Needs answers m esp k ↔
      answers.inode = true ∧ ∀ j < k, m.byte (m.word (esp + 4) + j) ≠ 0 := by
  simp [Needs, pointer, hnumber, sysExec, sysCreate, sysRemove, sysOpen, sysRead, sysWrite]

theorem needs_remove (hnumber : m.word esp = sysRemove) :
    Needs answers m esp k ↔ answers.root = true ∧
      ∃ e ∈ answers.entries, m.Matches (m.word (esp + 4)) e.bytes k := by
  simp [Needs, pointer, hnumber, sysExec, sysCreate, sysRemove, sysOpen, sysRead, sysWrite]

theorem needs_open (hnumber : m.word esp = sysOpen) :
    Needs answers m esp k ↔
      (answers.root = true ∧ ∃ e ∈ answers.entries, m.Matches (m.word (esp + 4)) e.bytes k) ∨
        m.Matches (m.word (esp + 4)) answers.threadName.bytes k := by
  simp [Needs, pointer, hnumber, sysExec, sysCreate, sysRemove, sysOpen, sysRead, sysWrite]

theorem needs_read (hnumber : m.word esp = sysRead) :
    Needs answers m esp k ↔
      k < answers.stored (m.word (esp + 4)) (m.word (esp + 12)) := by
  simp [Needs, pointer, hnumber, sysExec, sysCreate, sysRemove, sysOpen, sysRead, sysWrite]

/-- `write` and the calls with no pointer. -/
theorem not_needs (hexec : m.word esp ≠ sysExec) (hcreate : m.word esp ≠ sysCreate)
    (hremove : m.word esp ≠ sysRemove) (hopen : m.word esp ≠ sysOpen)
    (hread : m.word esp ≠ sysRead) : ¬ Needs answers m esp k := by
  simp [Needs, hexec, hcreate, hremove, hopen, hread]

theorem pointer_of_name (hread : m.word esp ≠ sysRead) (hwrite : m.word esp ≠ sysWrite) :
    pointer m esp = m.word (esp + 4) :=
  if_neg fun h => h.elim hread hwrite

theorem argCount_exec : argCount sysExec = 1 := rfl
theorem argCount_create : argCount sysCreate = 2 := rfl
theorem argCount_remove : argCount sysRemove = 1 := rfl
theorem argCount_open : argCount sysOpen = 1 := rfl
theorem argCount_read : argCount sysRead = 3 := rfl

theorem safe_callExec (hnumber : m.word esp = sysExec) (hesp : m.ValidWord esp) :
    Run.Safe (CallWords esp 0) false (do
        let file ← readArg m esp 0
        let ptr ← loadWord m (esp + 4)
        isValidPtr m ptr
        exec answers m file) ↔
      (Accepted m esp → ∀ k, Needs answers m esp k → Usable m esp k) := by
  have hne : m.word esp ≠ sysRead := by rw [hnumber]; decide
  rw [served_iff (hnumber ▸ argCount_exec)
    (pointer_of_name hne (by rw [hnumber]; decide)), safe_readArg_first hesp]
  refine forall_congr' fun hwords => ?_
  have hpresent := present_callWords hwords
  rw [safe_loadWord hpresent fun b hb => ⟨by have := hb.1; omega, by have := hb.2; omega⟩,
    safe_isValidPtr]
  refine forall_congr' fun hvalid => ?_
  have hchecked := Checked.present hpresent hvalid
  rw [safe_exec hchecked, Checked.again, stringChecked_iff hchecked]
  simp only [needs_exec hnumber, hne, false_implies, and_true]
  constructor
  · rintro h k ⟨hcopy, hbytes⟩
    exact h hvalid hcopy k hbytes
  · intro h _ hcopy k hbytes
    exact h k ⟨hcopy, hbytes⟩

theorem safe_callCreate (hnumber : m.word esp = sysCreate) (hesp : m.ValidWord esp) :
    Run.Safe (CallWords esp 0) false (do
        let file ← readArg m esp 0
        let _ ← readArg m esp 1
        create answers m file) ↔
      (Accepted m esp → ∀ k, Needs answers m esp k → Usable m esp k) := by
  have hne : m.word esp ≠ sysRead := by rw [hnumber]; decide
  rw [served_iff (hnumber ▸ argCount_create)
    (pointer_of_name hne (by rw [hnumber]; decide)), safe_readArg_first hesp]
  have hboth : ∀ hone : ∀ i ≤ 1, m.ValidWord (esp + 4 * i),
      (Run.Safe (CallWords esp 1) false
          (readArg m esp 1 >>= fun _ => create answers m (m.word (esp + 4))) ↔
        ((∀ i ≤ 2, m.ValidWord (esp + 4 * i)) → m.ValidWord (m.word (esp + 4)) →
          ∀ k, Needs answers m esp k →
            Checked (CallWords esp 2) (m.word (esp + 4)) (m.word (esp + 4) + k) ∧
              (m.word esp = sysRead →
                m.writable ((m.word (esp + 4) + k) / pgsize) = true))) := by
    intro hone
    rw [safe_readArg_next hone]
    refine forall_congr' fun hwords => ?_
    have hpresent := present_callWords hwords
    rw [safe_create hpresent]
    refine forall_congr' fun hvalid => ?_
    rw [stringChecked_iff (Checked.present hpresent hvalid)]
    simp only [needs_create hnumber, hne, false_implies, and_true]
    constructor
    · rintro h k ⟨hinode, hbytes⟩
      exact h hinode k hbytes
    · intro h hinode k hbytes
      exact h k ⟨hinode, hbytes⟩
  constructor
  · intro h hwords
    have hone : ∀ i ≤ 1, m.ValidWord (esp + 4 * i) := fun i hi => hwords i (by omega)
    exact (hboth hone).mp (h hone) hwords
  · intro h hone
    exact (hboth hone).mpr h

theorem safe_callRemove (hnumber : m.word esp = sysRemove) (hesp : m.ValidWord esp) :
    Run.Safe (CallWords esp 0) false (do
        let file ← readArg m esp 0
        remove answers m file) ↔
      (Accepted m esp → ∀ k, Needs answers m esp k → Usable m esp k) := by
  have hne : m.word esp ≠ sysRead := by rw [hnumber]; decide
  rw [served_iff (hnumber ▸ argCount_remove)
    (pointer_of_name hne (by rw [hnumber]; decide)), safe_readArg_first hesp]
  refine forall_congr' fun hwords => ?_
  rw [safe_remove (present_callWords hwords)]
  refine forall_congr' fun hvalid => ?_
  simp only [needs_remove hnumber, hne, false_implies, and_true]
  constructor
  · rintro h k ⟨hroot, e, he, hk⟩
    exact h hroot e he k hk
  · intro h hroot e he k hk
    exact h k ⟨hroot, e, he, hk⟩

theorem safe_callOpen (hnumber : m.word esp = sysOpen) (hesp : m.ValidWord esp) :
    Run.Safe (CallWords esp 0) false (do
        let file ← readArg m esp 0
        openFile answers m file) ↔
      (Accepted m esp → ∀ k, Needs answers m esp k → Usable m esp k) := by
  have hne : m.word esp ≠ sysRead := by rw [hnumber]; decide
  rw [served_iff (hnumber ▸ argCount_open)
    (pointer_of_name hne (by rw [hnumber]; decide)), safe_readArg_first hesp]
  refine forall_congr' fun hwords => ?_
  rw [safe_openFile (present_callWords hwords)]
  simp only [needs_open hnumber, hne, false_implies, and_true]

theorem safe_callRead (hnumber : m.word esp = sysRead) (hesp : m.ValidWord esp) :
    Run.Safe (CallWords esp 0) false (do
        let fd ← readArg m esp 0
        let buffer ← readArg m esp 1
        let length ← readArg m esp 2
        read answers m fd buffer length) ↔
      (Accepted m esp → ∀ k, Needs answers m esp k → Usable m esp k) := by
  have hpointer : pointer m esp = m.word (esp + 8) := if_pos (Or.inl hnumber)
  rw [served_iff (hnumber ▸ argCount_read) hpointer, safe_readArg_first hesp]
  simp only [needs_read hnumber, hnumber, true_implies]
  have hcall : ∀ hwords : ∀ i ≤ 3, m.ValidWord (esp + 4 * i),
      (Run.Safe (CallWords esp 3) false
          (read answers m (m.word (esp + 4)) (m.word (esp + 8)) (m.word (esp + 12))) ↔
        (m.ValidWord (m.word (esp + 8)) →
          ∀ k < answers.stored (m.word (esp + 4)) (m.word (esp + 12)),
            m.StoreChecked (Checked (CallWords esp 3) (m.word (esp + 8)))
              (m.word (esp + 8) + k))) :=
    fun hwords => safe_read (present_callWords hwords)
  constructor
  · intro h hwords
    have hone : ∀ i ≤ 1, m.ValidWord (esp + 4 * i) := fun i hi => hwords i (by omega)
    have htwo : ∀ i ≤ 2, m.ValidWord (esp + 4 * i) := fun i hi => hwords i (by omega)
    have hsecond := (safe_readArg_next hone).mp (h hone) htwo
    exact (hcall hwords).mp ((safe_readArg_next htwo).mp hsecond hwords)
  · intro h hone
    refine (safe_readArg_next hone).mpr fun htwo => (safe_readArg_next htwo).mpr ?_
    intro hwords
    exact (hcall hwords).mpr (h hwords)

theorem safe_callWrite (hesp : m.ValidWord esp) :
    Run.Safe (CallWords esp 0) false (do
        let fd ← readArg m esp 0
        let buffer ← readArg m esp 1
        let size ← readArg m esp 2
        write answers m fd buffer size) := by
  refine (safe_readArg_first hesp).mpr fun hone => ?_
  refine (safe_readArg_next hone).mpr fun htwo => (safe_readArg_next htwo).mpr ?_
  intro hwords
  exact safe_write (present_callWords hwords)

end Calls

/-- A call uses validated memory only, and takes no page fault, exactly when it stops
at a check or finds every byte it needs in the words of the call and in the first
four bytes at its pointer. -/
theorem syscall_safe_iff (answers : Answers) (m : Pages) (esp : Nat) :
    Run.Safe (fun _ => False) false (syscallHandler answers m esp) ↔
      (Accepted m esp → ∀ k, Needs answers m esp k → Usable m esp k) := by
  have hnone : Present m fun _ => False := fun _ h => h.elim
  have hstart : Checked (fun _ => False) esp = CallWords esp 0 := by
    funext b
    exact propext ⟨fun h => h.elim False.elim id, Or.inr⟩
  rw [syscallHandler, safe_isValidPtr, hstart]
  by_cases hesp : m.ValidWord esp
  · have hword : ∀ b, InWord esp b → CallWords esp 0 b := fun b hb => ⟨hb.1, hb.2⟩
    rw [imp_iff_right hesp, safe_loadWord (hstart ▸ Checked.present hnone hesp) hword]
    split
    case isTrue hexec => exact safe_callExec hexec hesp
    case isFalse hexec =>
      split
      case isTrue hcreate => exact safe_callCreate hcreate hesp
      case isFalse hcreate =>
        split
        case isTrue hremove => exact safe_callRemove hremove hesp
        case isFalse hremove =>
          split
          case isTrue hopen => exact safe_callOpen hopen hesp
          case isFalse hopen =>
            split
            case isTrue hread => exact safe_callRead hread hesp
            case isFalse hread =>
              have hnothing : Accepted m esp → ∀ k, Needs answers m esp k →
                  Usable m esp k :=
                fun _ _ hneeds => absurd hneeds (not_needs hexec hcreate hremove hopen hread)
              refine (iff_true_right hnothing).mpr ?_
              split
              case isTrue => exact safe_callWrite hesp
              case isFalse => exact safe_pure ()
  · exact (iff_true_left fun h => absurd h hesp).mpr fun haccepted =>
      absurd (haccepted.1 0 (Nat.zero_le _)) hesp

namespace OpenWitness

/-- A program `aaaaa` that is its own only file. -/
def answers : Answers where
  fnCopy := true
  nameTmp := true
  inode := true
  root := true
  entries := [⟨[97, 97, 97, 97, 97], by decide⟩]
  threadName := ⟨[97, 97, 97, 97, 97], by decide⟩
  file := fun _ => none
  bounce := true

/-- Its first page is full of `a` and the next one is not there; on its stack stands
`open` of the last four bytes of that page. -/
def pages : Pages where
  present page := page == 0x08048 || page == 0xbffff
  writable page := page == 0xbffff
  byte a :=
    if a / pgsize = 0x08048 then 97
    else ([6, 0, 0, 0, 0xfc, 0x8f, 0x04, 0x08] : Bytes).getD (a - 0xbffffff0) 0

theorem open_faults :
    ¬ Run.Safe (fun _ => False) false (syscallHandler answers pages 0xbffffff0) :=
  fun hsafe => hsafe.2 .fault rfl rfl

end OpenWitness

end UserMemory
end PintosLabs
