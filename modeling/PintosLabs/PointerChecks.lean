/-
Which system calls the checks of their pointers stop, although everything that
the arguments name is mapped.
-/
import PintosLabs.UserPointers

namespace PintosLabs
namespace UserMemory

open Exec (physBase pgsize)

/-! The other numbers of `enum` in syscall-nr.h. -/

def sysHalt : Nat := 0
def sysExit : Nat := 1
def sysWait : Nat := 3
def sysFilesize : Nat := 7
def sysSeek : Nat := 10
def sysTell : Nat := 11
def sysClose : Nat := 12

/-- How many arguments `syscall_handler` reads. -/
def argWords (number : Nat) : Nat :=
  if number = sysExit ∨ number = sysExec ∨ number = sysWait ∨ number = sysRemove ∨
      number = sysOpen ∨ number = sysFilesize ∨ number = sysTell ∨ number = sysClose then 1
  else if number = sysCreate ∨ number = sysSeek then 2
  else if number = sysRead ∨ number = sysWrite then 3
  else 0

/-- `read_args` -/
def readArgs (m : Pages) (esp : Nat) : Nat → Nat → Run (List Nat)
  | 0, _ => pure []
  | n + 1, i => do
      let arg ← readArg m esp i
      let rest ← readArgs m esp n (i + 1)
      pure (arg :: rest)

/-- `if (!file) exit (-1);` -/
def checkNull (ptr : Nat) : Run Unit := if ptr = 0 then stop .exit else pure ()

/-- What the calls check of their arguments before anything else. -/
def checkArguments (m : Pages) (number : Nat) (argv : List Nat) : Run Unit :=
  if number = sysExec then do
    isValidPtr m (argv.getD 0 0)
    checkNull (argv.getD 0 0)
    isValidPtr m (argv.getD 0 0)
  else if number = sysCreate ∨ number = sysOpen then do
    checkNull (argv.getD 0 0)
    isValidPtr m (argv.getD 0 0)
  else if number = sysRemove then isValidPtr m (argv.getD 0 0)
  else if number = sysRead then do
    checkNull (argv.getD 1 0)
    isValidPtr m (argv.getD 1 0)
  else if number = sysWrite then do
    checkNull (argv.getD 1 0)
    forLoop (fun i => isValidPtr m (argv.getD 1 0 + i)) (argv.getD 2 0) 0
  else pure ()

/-- The part of a system call in which pointers are checked. -/
def validate (m : Pages) (esp : Nat) : Run Unit := do
  isValidPtr m esp
  let number ← loadWord m esp
  let argv ← readArgs m esp (argWords number) 0
  checkArguments m number argv

/-! Every check either returns, exactly if a condition holds, or ends the
process; the kernel takes no page fault in it. -/

structure Run.Decides {α : Type} (r : Run α) (p : Prop) (x : α) : Prop where
  returns : p → r.result = .ok x
  exits : ¬ p → r.result = .error .exit

variable {α β : Type} {m : Pages} {p q : Prop} {x : α} {y : β} {r : Run α} {f : α → Run β}
  {a esp n i : Nat}

theorem Run.Decides.congr (h : r.Decides p x) (hiff : p ↔ q) : r.Decides q x :=
  ⟨fun hq => h.returns (hiff.mpr hq), fun hq => h.exits fun hp => hq (hiff.mp hp)⟩

theorem decides_pure (x : α) : Run.Decides (pure x) True x :=
  ⟨fun _ => rfl, fun h => absurd trivial h⟩

theorem Run.Decides.bind (hr : r.Decides p x) (hf : p → (f x).Decides q y) :
    (r >>= f).Decides (p ∧ q) y where
  returns h := by
    rw [bind_of_ok (hr.returns h.1)]
    exact (hf h.1).returns h.2
  exits h := by
    by_cases hp : p
    · rw [bind_of_ok (hr.returns hp)]
      exact (hf hp).exits fun hq => h ⟨hp, hq⟩
    · rw [bind_of_error (hr.exits hp)]

theorem decides_isValidPtrSingle (m : Pages) (a : Nat) :
    (isValidPtrSingle m a).Decides (m.Valid a) () := by
  unfold isValidPtrSingle
  split
  case isTrue hvalid => exact ⟨fun _ => rfl, fun h => absurd hvalid h⟩
  case isFalse hvalid => exact ⟨fun h => absurd h hvalid, fun _ => rfl⟩

theorem decides_forLoop {body : Nat → Run Unit} {need : Nat → Prop}
    (hbody : ∀ j, (body j).Decides (need j) ()) (n i : Nat) :
    (forLoop body n i).Decides (∀ j, i ≤ j → j < i + n → need j) () := by
  induction n generalizing i with
  | zero =>
      exact (decides_pure ()).congr ⟨fun _ j hle hlt => absurd hlt (by omega),
        fun _ => trivial⟩
  | succ n ih =>
      refine ((hbody i).bind fun _ => ih (i + 1)).congr ?_
      constructor
      · rintro ⟨hi, hrest⟩ j hle hlt
        rcases Nat.eq_or_lt_of_le hle with rfl | hlt'
        · exact hi
        · exact hrest j (by omega) (by omega)
      · intro hall
        exact ⟨hall i (by omega) (by omega), fun j hle hlt => hall j (by omega) (by omega)⟩

theorem decides_isValidPtr (m : Pages) (a : Nat) :
    (isValidPtr m a).Decides (m.ValidWord a) () := by
  have hloop : (forLoop (fun i => isValidPtrSingle m (a + i)) 4 0).Decides
      (∀ j, 0 ≤ j → j < 0 + 4 → m.Valid (a + j)) () :=
    decides_forLoop (fun j => decides_isValidPtrSingle m (a + j)) 4 0
  refine ((decides_isValidPtrSingle m a).bind fun _ => hloop).congr ?_
  constructor
  · rintro ⟨-, hall⟩ j hj
    exact hall j (Nat.zero_le j) (by omega)
  · intro hword
    exact ⟨hword 0 (by decide), fun j _ hj => hword j (by omega)⟩

theorem load_of_valid (hvalid : m.Valid a) : (load m a).result = .ok (m.byte a) :=
  if_pos hvalid.2.2.2

theorem loadWord_of_valid (hvalid : m.ValidWord a) :
    (loadWord m a).Decides True (m.word a) := by
  have hbyte : ∀ i < 4, (load m (a + i)).Decides True (m.byte (a + i)) := fun i hi =>
    ⟨fun _ => load_of_valid (hvalid i hi), fun h => absurd trivial h⟩
  refine ((hbyte 0 (by decide)).bind fun _ => (hbyte 1 (by decide)).bind fun _ =>
    (hbyte 2 (by decide)).bind fun _ => (hbyte 3 (by decide)).bind (y := m.word a) fun _ =>
      decides_pure (m.word a)).congr ?_
  simp only [and_self]

theorem decides_readArg (m : Pages) (esp i : Nat) :
    (readArg m esp i).Decides (m.ValidWord (esp + 4 * (1 + i)))
      (m.word (esp + 4 * (1 + i))) :=
  ((decides_isValidPtr m _).bind fun hvalid => loadWord_of_valid hvalid).congr
    (and_iff_left trivial)

theorem decides_readArgs (m : Pages) (esp n i : Nat) :
    (readArgs m esp n i).Decides
      (∀ j, i ≤ j → j < i + n → m.ValidWord (esp + 4 * (1 + j)))
      ((List.range' i n).map fun j => m.word (esp + 4 * (1 + j))) := by
  induction n generalizing i with
  | zero =>
      exact (decides_pure _).congr ⟨fun _ j hle hlt => absurd hlt (by omega),
        fun _ => trivial⟩
  | succ n ih =>
      refine ((decides_readArg m esp i).bind fun _ => (ih (i + 1)).bind
        (y := (List.range' i (n + 1)).map fun j => m.word (esp + 4 * (1 + j)))
        fun _ => decides_pure _).congr ?_
      constructor
      · rintro ⟨hi, hrest, -⟩ j hle hlt
        rcases Nat.eq_or_lt_of_le hle with rfl | hlt'
        · exact hi
        · exact hrest j (by omega) (by omega)
      · intro hall
        exact ⟨hall i (by omega) (by omega),
          fun j hle hlt => hall j (by omega) (by omega), trivial⟩

theorem decides_checkNull (ptr : Nat) : (checkNull ptr).Decides (ptr ≠ 0) () := by
  unfold checkNull
  split
  case isTrue hzero => exact ⟨fun h => absurd hzero h, fun _ => rfl⟩
  case isFalse hzero => exact ⟨fun _ => rfl, fun h => absurd hzero h⟩

/-- `exec`, `create`, `remove` and `open` take a name. -/
def TakesName (number : Nat) : Prop :=
  number = sysExec ∨ number = sysCreate ∨ number = sysRemove ∨ number = sysOpen

/-- The checks of the arguments. -/
structure ArgumentsValid (m : Pages) (number : Nat) (argv : List Nat) : Prop where
  name : TakesName number → m.ValidWord (argv.getD 0 0)
  read : number = sysRead → m.ValidWord (argv.getD 1 0)
  write : number = sysWrite → argv.getD 1 0 ≠ 0 ∧
    ∀ i < argv.getD 2 0, m.ValidWord (argv.getD 1 0 + i)

theorem ne_zero_of_validWord (hvalid : m.ValidWord a) : a ≠ 0 := by
  rintro rfl
  exact not_validWord_zero hvalid

theorem decides_checkArguments (m : Pages) (number : Nat) (argv : List Nat) :
    (checkArguments m number argv).Decides (ArgumentsValid m number argv) () := by
  have hpointer : ∀ ptr, (do checkNull ptr; isValidPtr m ptr).Decides (m.ValidWord ptr) () :=
    fun ptr => ((decides_checkNull ptr).bind fun _ => decides_isValidPtr m ptr).congr
      ⟨fun h => h.2, fun h => ⟨ne_zero_of_validWord h, h⟩⟩
  unfold checkArguments
  split
  case isTrue hexec =>
    refine ((decides_isValidPtr m _).bind fun _ => hpointer _).congr ⟨fun h => ?_, fun h => ?_⟩
    · exact ⟨fun _ => h.1, fun hread => (by cases hexec.symm.trans hread),
        fun hwrite => (by cases hexec.symm.trans hwrite)⟩
    · exact ⟨h.name (Or.inl hexec), h.name (Or.inl hexec)⟩
  case isFalse hexec =>
    split
    case isTrue hname =>
      have htakes : TakesName number := by
        rcases hname with hcreate | hopen
        · exact Or.inr (Or.inl hcreate)
        · exact Or.inr (Or.inr (Or.inr hopen))
      refine (hpointer _).congr ⟨fun h => ⟨fun _ => h, fun hread => ?_, fun hwrite => ?_⟩,
        fun h => h.name htakes⟩
      · rcases hname with hnumber | hnumber <;> cases hnumber.symm.trans hread
      · rcases hname with hnumber | hnumber <;> cases hnumber.symm.trans hwrite
    case isFalse hname =>
      split
      case isTrue hremove =>
        refine (decides_isValidPtr m _).congr
          ⟨fun h => ⟨fun _ => h, fun hread => ?_, fun hwrite => ?_⟩,
            fun h => h.name (Or.inr (Or.inr (Or.inl hremove)))⟩
        · cases hremove.symm.trans hread
        · cases hremove.symm.trans hwrite
      case isFalse hremove =>
        have hnone : ¬ TakesName number := by
          rintro (h | h | h | h)
          · exact hexec h
          · exact hname (Or.inl h)
          · exact hremove h
          · exact hname (Or.inr h)
        split
        case isTrue hread =>
          refine (hpointer _).congr
            ⟨fun h => ⟨fun htakes => absurd htakes hnone, fun _ => h, fun hwrite => ?_⟩,
              fun h => h.read hread⟩
          cases hread.symm.trans hwrite
        case isFalse hread =>
          split
          case isTrue hwrite =>
            have hloop : (forLoop (fun i => isValidPtr m (argv.getD 1 0 + i))
                (argv.getD 2 0) 0).Decides (∀ j, 0 ≤ j → j < 0 + argv.getD 2 0 →
                  m.ValidWord (argv.getD 1 0 + j)) () :=
              decides_forLoop (fun i => decides_isValidPtr m (argv.getD 1 0 + i)) _ 0
            refine ((decides_checkNull _).bind fun _ => hloop).congr
              ⟨fun h => ⟨fun htakes => absurd htakes hnone, fun h' => absurd h' hread,
                fun _ => ⟨h.1, fun i hi => h.2 i (Nat.zero_le i) (by omega)⟩⟩,
                fun h => ⟨(h.write hwrite).1, fun i _ hi => (h.write hwrite).2 i (by omega)⟩⟩
          case isFalse hwrite =>
            exact (decides_pure ()).congr
              ⟨fun _ => ⟨fun htakes => absurd htakes hnone, fun h => absurd h hread,
                fun h => absurd h hwrite⟩, fun _ => trivial⟩

/-- The words of a call are there, and its pointers pass. -/
structure CallValid (m : Pages) (esp : Nat) : Prop where
  words : ∀ i ≤ argWords (m.word esp), m.ValidWord (esp + 4 * i)
  arguments : ArgumentsValid m (m.word esp)
    ((List.range (argWords (m.word esp))).map fun j => m.word (esp + 4 * (1 + j)))

/-- The checks pass, or the process ends. -/
theorem decides_validate (m : Pages) (esp : Nat) :
    (validate m esp).Decides (CallValid m esp) () := by
  refine ((decides_isValidPtr m esp).bind fun hesp => (loadWord_of_valid hesp).bind fun _ =>
    (decides_readArgs m esp (argWords (m.word esp)) 0).bind fun _ =>
      decides_checkArguments m (m.word esp) _).congr ?_
  rw [← List.range_eq_range']
  constructor
  · rintro ⟨hesp, -, hwords, harguments⟩
    refine ⟨fun i hi => ?_, harguments⟩
    cases i with
    | zero => exact hesp
    | succ i =>
        rw [Nat.add_comm i 1]
        exact hwords i (Nat.zero_le i) (by omega)
  · intro h
    refine ⟨h.words 0 (Nat.zero_le _), trivial, fun j _ hj => ?_, h.arguments⟩
    exact h.words (1 + j) (by omega)

/-! What the arguments designate. -/

/-- A byte in a mapped page of the user. -/
def Pages.Mapped (m : Pages) (a : Nat) : Prop :=
  a < physBase ∧ m.present (a / pgsize) = true

/-- The byte is in the words of the call, in the name up to its NUL, or in the
buffer. -/
def Designated (m : Pages) (esp a : Nat) : Prop :=
  CallWords esp (argWords (m.word esp)) a ∨
    TakesName (m.word esp) ∧ (∃ k, a = m.word (esp + 4) + k ∧
      ∀ j < k, m.byte (m.word (esp + 4) + j) ≠ 0) ∨
    (m.word esp = sysRead ∨ m.word esp = sysWrite) ∧ m.word (esp + 8) ≤ a ∧
      a < m.word (esp + 8) + m.word (esp + 12)

/-- The bytes that are checked besides: the pointers may not be too low, the first
four bytes at a name or at the buffer of `read` are checked whatever the length,
and for `write` also the three bytes behind the end of the buffer. -/
structure Passes (m : Pages) (esp : Nat) : Prop where
  stack : ptrBottom ≤ esp
  name : TakesName (m.word esp) → ptrBottom ≤ m.word (esp + 4) ∧
    ∀ i < 4, m.Mapped (m.word (esp + 4) + i)
  read : m.word esp = sysRead → ptrBottom ≤ m.word (esp + 8) ∧
    ∀ i < 4, m.Mapped (m.word (esp + 8) + i)
  write : m.word esp = sysWrite → m.word (esp + 8) ≠ 0 ∧
    (0 < m.word (esp + 12) → ptrBottom ≤ m.word (esp + 8) ∧
      ∀ i < 3, m.Mapped (m.word (esp + 8) + m.word (esp + 12) + i))

theorem valid_iff : m.Valid a ↔ ptrBottom ≤ a ∧ m.Mapped a := by
  constructor
  · rintro ⟨-, hlt, hle, hpresent⟩
    exact ⟨hle, hlt, hpresent⟩
  · rintro ⟨hle, hlt, hpresent⟩
    refine ⟨?_, hlt, hle, hpresent⟩
    rintro rfl
    exact absurd hle (by decide)

theorem validWord_iff : m.ValidWord a ↔ ptrBottom ≤ a ∧ ∀ i < 4, m.Mapped (a + i) := by
  constructor
  · intro h
    exact ⟨(valid_iff.mp (h 0 (by decide))).1, fun i hi => (valid_iff.mp (h i hi)).2⟩
  · rintro ⟨hle, hall⟩ i hi
    exact valid_iff.mpr ⟨by omega, hall i hi⟩

/-- Where the words of a call are mapped they are checked for being too low. -/
theorem words_iff (hmapped : ∀ b, CallWords esp n b → m.Mapped b) :
    (∀ i ≤ n, m.ValidWord (esp + 4 * i)) ↔ ptrBottom ≤ esp := by
  constructor
  · intro h
    exact (validWord_iff.mp (h 0 (Nat.zero_le n))).1
  · intro hle i hi
    refine validWord_iff.mpr ⟨by omega, fun j hj => hmapped _ ⟨by omega, by omega⟩⟩

/-- Every byte of a buffer is checked with the three behind it. -/
theorem buffer_iff {size : Nat} (hmapped : ∀ i < size, m.Mapped (a + i)) :
    (∀ i < size, m.ValidWord (a + i)) ↔
      (0 < size → ptrBottom ≤ a ∧ ∀ i < 3, m.Mapped (a + size + i)) := by
  constructor
  · intro h hpos
    refine ⟨(validWord_iff.mp (h 0 hpos)).1, fun i hi => ?_⟩
    have hlast := (validWord_iff.mp (h (size - 1) (by omega))).2 (i + 1) (by omega)
    rwa [show a + (size - 1) + (i + 1) = a + size + i by omega] at hlast
  · intro h i hi
    obtain ⟨hle, hbehind⟩ := h (by omega)
    refine validWord_iff.mpr ⟨by omega, fun j hj => ?_⟩
    rcases Nat.lt_or_ge (i + j) size with hlt | hge
    · rw [Nat.add_assoc]
      exact hmapped (i + j) hlt
    · have hmap := hbehind (i + j - size) (by omega)
      rwa [show a + size + (i + j - size) = a + i + j by omega] at hmap

/-- The arguments on the stack. -/
theorem arg_eq {i : Nat} (hi : i < n) (g : Nat → Nat) :
    ((List.range n).map g).getD i 0 = g i := by
  rw [List.getD_eq_getElem?_getD, List.getElem?_map, List.getElem?_range hi]
  rfl

/-- Where everything is mapped that the arguments designate, the checks are those
of the bytes besides. -/
theorem callValid_iff (hmapped : ∀ b, Designated m esp b → m.Mapped b) :
    CallValid m esp ↔ Passes m esp := by
  have hwords := words_iff fun b hb => hmapped b (Or.inl hb)
  have hbuffer : m.word esp = sysWrite → ∀ i < m.word (esp + 12),
      m.Mapped (m.word (esp + 8) + i) := fun hwrite i hi =>
    hmapped _ (Or.inr (Or.inr ⟨Or.inr hwrite, by omega, by omega⟩))
  obtain ⟨argv, hargv⟩ : ∃ argv, argv = (List.range (argWords (m.word esp))).map
      fun j => m.word (esp + 4 * (1 + j)) := ⟨_, rfl⟩
  have hname : TakesName (m.word esp) → argv.getD 0 0 = m.word (esp + 4) := by
    intro htakes
    rw [hargv, arg_eq]
    rcases htakes with h | h | h | h <;> rw [h] <;> decide
  have hread : m.word esp = sysRead → argv.getD 1 0 = m.word (esp + 8) := by
    intro h
    rw [hargv, arg_eq]
    rw [h]
    decide
  have hwrite : m.word esp = sysWrite →
      argv.getD 1 0 = m.word (esp + 8) ∧ argv.getD 2 0 = m.word (esp + 12) := by
    intro h
    rw [hargv, arg_eq, arg_eq]
    · exact ⟨rfl, rfl⟩
    · rw [h]
      decide
    · rw [h]
      decide
  constructor
  · rintro ⟨hall, harguments⟩
    rw [← hargv] at harguments
    refine ⟨hwords.mp hall, fun h => ?_, fun h => ?_, fun h => ?_⟩
    · exact validWord_iff.mp (hname h ▸ harguments.name h)
    · exact validWord_iff.mp (hread h ▸ harguments.read h)
    · obtain ⟨hbase, hsize⟩ := hwrite h
      have hvalid := harguments.write h
      rw [hbase, hsize] at hvalid
      exact ⟨hvalid.1, (buffer_iff (hbuffer h)).mp hvalid.2⟩
  · intro h
    refine ⟨hwords.mpr h.stack, hargv ▸ ⟨fun hn => ?_, fun hr => ?_, fun hw => ?_⟩⟩
    · rw [hname hn]
      exact validWord_iff.mpr (h.name hn)
    · rw [hread hr]
      exact validWord_iff.mpr (h.read hr)
    · obtain ⟨hbase, hsize⟩ := hwrite hw
      rw [hbase, hsize]
      exact ⟨(h.write hw).1, (buffer_iff (hbuffer hw)).mpr (h.write hw).2⟩

/-- Arguments that designate mapped bytes only pass the checks exactly when the
bytes that are checked besides are mapped too, and no pointer is too low;
otherwise the process ends. -/
theorem valid_arguments_pass (m : Pages) (esp : Nat)
    (hmapped : ∀ b, Designated m esp b → m.Mapped b) :
    ((validate m esp).result = .ok () ↔ Passes m esp) ∧
      ((validate m esp).result = .error .exit ↔ ¬ Passes m esp) := by
  have hdecides := (decides_validate m esp).congr (callValid_iff hmapped)
  constructor
  · refine ⟨fun hok => ?_, hdecides.returns⟩
    by_contra hnot
    cases (hdecides.exits hnot).symm.trans hok
  · refine ⟨fun hexit hpasses => ?_, hdecides.exits⟩
    cases (hdecides.returns hpasses).symm.trans hexit

namespace PointerWitness

/-- The first page of the program, in which the last byte but one is an `a` and the
others are 0, and the page of the stack with the two words of a call. -/
def pages (call : Bytes) : Pages where
  present page := page == 0x08048 || page == 0xbffff
  writable page := page == 0xbffff
  byte a :=
    if a = 0x08048ffe then 97
    else if a < 0xbffffff8 then 0
    else call.getD (a - 0xbffffff8) 0

theorem mapped_pages (call : Bytes) {b : Nat}
    (hb : b / pgsize = 0x08048 ∨ b / pgsize = 0xbffff) : (pages call).Mapped b := by
  constructor
  · unfold physBase
    unfold pgsize at hb
    omega
  · rcases hb with hb | hb <;> exact hb ▸ rfl

/-- A call with one argument, the name at `p` with a NUL behind it. -/
theorem mapped_of_designated {call : Bytes} (p length : Nat)
    (hone : argWords ((pages call).word 0xbffffff8) = 1)
    (hbuffer : ¬ ((pages call).word 0xbffffff8 = sysRead ∨
      (pages call).word 0xbffffff8 = sysWrite))
    (hp : (pages call).word (0xbffffff8 + 4) = p)
    (hnul : (pages call).byte (p + length) = 0)
    (hlow : 0x08048000 ≤ p) (hhigh : p + length < 0x08049000) {b : Nat}
    (hb : Designated (pages call) 0xbffffff8 b) : (pages call).Mapped b := by
  refine mapped_pages call ?_
  unfold pgsize
  rcases hb with hwords | ⟨-, k, rfl, hk⟩ | ⟨hnumber, -⟩
  · rw [hone] at hwords
    unfold CallWords at hwords
    omega
  · rw [hp] at hk ⊢
    have hle : k ≤ length := by
      by_contra hlt
      exact hk length (not_le.mp hlt) hnul
    omega
  · exact absurd hnumber hbuffer

/-- `open ("a")`, where the name ends with its page and the next one is not
there. -/
def openEnd : Pages := pages [6, 0, 0, 0, 0xfe, 0x8f, 0x04, 0x08]

theorem valid_name_rejected : (∀ b, Designated openEnd 0xbffffff8 b → openEnd.Mapped b) ∧
    (validate openEnd 0xbffffff8).result = .error .exit := by
  refine ⟨fun b hb => ?_, rfl⟩
  refine mapped_of_designated 0x08048ffe 1 ?_ ?_ ?_ ?_ ?_ ?_ hb <;> decide

/-- `remove` of the empty name at the start of the page. -/
def removeStart : Pages := pages [5, 0, 0, 0, 0x00, 0x80, 0x04, 0x08]

theorem valid_arguments_pass_remove :
    (∀ b, Designated removeStart 0xbffffff8 b → removeStart.Mapped b) ∧
      (validate removeStart 0xbffffff8).result = .ok () := by
  have hmapped : ∀ b, Designated removeStart 0xbffffff8 b → removeStart.Mapped b := by
    intro b hb
    refine mapped_of_designated 0x08048000 0 ?_ ?_ ?_ ?_ ?_ ?_ hb <;> decide
  have hname : removeStart.word (0xbffffff8 + 4) = 0x08048000 := by decide
  have hnumber : removeStart.word 0xbffffff8 = sysRemove := by decide
  refine ⟨hmapped, (valid_arguments_pass removeStart 0xbffffff8 hmapped).1.mpr
    ⟨by decide, fun _ => ?_, fun hread => ?_, fun hwrite => ?_⟩⟩
  · rw [hname]
    refine ⟨by decide, fun i hi => mapped_pages _ (Or.inl ?_)⟩
    unfold pgsize
    omega
  · cases hnumber.symm.trans hread
  · cases hnumber.symm.trans hwrite

end PointerWitness

end UserMemory
end PintosLabs
