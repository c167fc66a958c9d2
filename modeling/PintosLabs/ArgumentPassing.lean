/-
How `load` hands its arguments to a process (userprog/process.c): `setup_stack`
maps one page of zeros below `PHYS_BASE`, and `setup_argument` puts the words of
the command line and the pointers to them there, from the top down.
-/
import PintosLabs.CommandLine

namespace PintosLabs
namespace Exec

/-- `PGSIZE` -/
def pgsize : Nat := 4096

/-- `PHYS_BASE` -/
def physBase : Nat := 0xc0000000

/-- The first address of the stack page. -/
def stackBase : Nat := physBase - pgsize

/-- The stack page, and `*esp`. -/
structure UserStack where
  page : Bytes
  esp : Nat

namespace UserStack

/-- `*esp` goes down and the bytes are stored there; outside of the page they have no
place. -/
def store (s : UserStack) (bytes : Bytes) : Option UserStack := do
  let esp := s.esp - bytes.length
  if stackBase ≤ esp then
    let page ← writeBytes s.page (esp - stackBase) bytes
    some ⟨page, esp⟩
  else none

/-- The strings of `argv`, the last one first, and `argv_address`. -/
def storeStrings (memory : Bytes) : List Nat → UserStack → Option (UserStack × List Nat)
  | [], s => some (s, [])
  | arg :: argv, s => do
      let (s, argvAddress) ← storeStrings memory argv s
      let string ← readString memory arg
      let s ← s.store string.stored
      some (s, s.esp :: argvAddress)

def storePointers : List Nat → UserStack → Option UserStack
  | [], s => some s
  | address :: argvAddress, s => do
      let s ← storePointers argvAddress s
      s.store (wordBytes address)

def align (s : UserStack) : UserStack := { s with esp := s.esp &&& 0xfffffffc }

end UserStack

def setupArgument (memory : Bytes) (argv : List Nat) (s : UserStack) : Option UserStack := do
  let (s, argvAddress) ← s.storeStrings memory argv
  let s := s.align
  let s ← s.store (wordBytes 0)
  let s ← s.storePointers argvAddress
  let s ← s.store (wordBytes (s.esp - 4 + 4))
  let s ← s.store (wordBytes argv.length)
  s.store (wordBytes 0)

/-- `setup_stack`, when there is a page for it. -/
def setupStack (memory : Bytes) (argv : List Nat) : Option UserStack :=
  setupArgument memory argv ⟨List.replicate pgsize 0, physBase⟩

/-- `load` of the line that starts the memory, and whether it succeeds.  `ready` says
whether the file that it opens is a program that fits into memory with a page for
the stack. -/
def load (ready : Bytes → Bool) (memory : Bytes) : Option (Option UserStack) := do
  let (memory, argv) ← tokenise (memory.length + 1) memory 0 []
  let fileName ← readString memory 0
  if ready fileName.bytes then do
    let s ← setupStack memory argv
    some (some s)
  else some none

/-- `process_execute`, up to the end of `load`, with the pages it gets. -/
def processExecute (ready : Bytes → Bool) (fnCopy nameTmp : Bytes) (fileName : CString) :
    Option (Option UserStack) := do
  let fnCopy ← strlcpy fnCopy 0 fileName pgsize
  let nameTmp ← strlcpy nameTmp 0 fileName pgsize
  let (_, name, _) ← strtokR nameTmp 0
  match name with
  | none => some none
  | some _ => load ready fnCopy

variable {memory used bytes : Bytes} {argv : List Nat} {args : List CString}

/-- The stack with `used` at its top and zeros below. -/
def filled (used : Bytes) : UserStack :=
  ⟨List.replicate (pgsize - used.length) 0 ++ used, physBase - used.length⟩

theorem esp_filled (used : Bytes) : (filled used).esp = physBase - used.length := rfl

theorem store_filled (hused : used.length ≤ pgsize) :
    (filled used).store bytes =
      if (bytes ++ used).length ≤ pgsize then some (filled (bytes ++ used)) else none := by
  have hbase : stackBase + pgsize = physBase := rfl
  have hpos : 0 < stackBase := by decide
  rw [UserStack.store, List.length_append]
  change (if stackBase ≤ physBase - used.length - bytes.length then _ else none) = _
  by_cases hroom : bytes.length + used.length ≤ pgsize
  · have hwrite : writeBytes (filled used).page
        (physBase - used.length - bytes.length - stackBase) bytes =
          some (filled (bytes ++ used)).page := by
      have hzeros : List.replicate (pgsize - used.length) (0 : UInt8) =
          List.replicate (pgsize - (bytes ++ used).length) 0 ++
            List.replicate bytes.length 0 := by
        rw [List.replicate_append_replicate, List.length_append]
        congr 1
        omega
      change writeBytes (List.replicate (pgsize - used.length) 0 ++ used) _ _ = _
      rw [hzeros, List.append_assoc, writeBytes_eq]
      · rfl
      · rw [List.length_replicate, List.length_append]
        omega
      · rw [List.length_replicate]
    have hesp : (filled used).esp - bytes.length = (filled (bytes ++ used)).esp := by
      change physBase - used.length - bytes.length = physBase - (bytes ++ used).length
      rw [List.length_append]
      omega
    rw [if_pos (by omega), if_pos hroom]
    change (writeBytes (filled used).page (physBase - used.length - bytes.length - stackBase)
      bytes).bind _ = _
    rw [hwrite, hesp]
    rfl
  · rw [if_neg (by omega), if_neg hroom]

/-- The strings as they lie in memory, one behind the other. -/
def strings (args : List CString) : Bytes := args.flatMap CString.stored

/-- Where the strings are when `used` is above them. -/
def addresses (used : Bytes) : List CString → List Nat
  | [] => []
  | arg :: args => (physBase - (strings (arg :: args) ++ used).length) :: addresses used args

@[simp] theorem strings_cons (arg : CString) (args : List CString) :
    strings (arg :: args) = arg.stored ++ strings args := rfl

/-- The stack with `used` at its top, if the page has room for it. -/
def fit (used : Bytes) : Option UserStack :=
  if used.length ≤ pgsize then some (filled used) else none

theorem fit_append_eq_none (hused : ¬ used.length ≤ pgsize) : fit (bytes ++ used) = none :=
  if_neg (by rw [List.length_append]; omega)

theorem fit_bind_store :
    ((fit used).bind fun s => s.store bytes) = fit (bytes ++ used) := by
  by_cases hused : used.length ≤ pgsize
  · rw [fit, if_pos hused, Option.bind_some, store_filled hused, fit]
  · rw [fit_append_eq_none hused, fit, if_neg hused, Option.bind_none]

theorem storeStrings_filled (hused : used.length ≤ pgsize)
    (hargv : argv.map (readString memory) = args.map some) :
    (filled used).storeStrings memory argv =
      (fit (strings args ++ used)).map fun s => (s, addresses used args) := by
  induction argv generalizing args with
  | nil =>
      cases args with
      | nil =>
          rw [strings, List.flatMap_nil, List.nil_append, fit, if_pos hused]
          rfl
      | cons => cases hargv
  | cons p argv ih =>
      cases args with
      | nil => cases hargv
      | cons arg args =>
          obtain ⟨harg, hargs⟩ := List.cons.inj hargv
          have hassoc : strings (arg :: args) ++ used =
              arg.stored ++ (strings args ++ used) := by
            rw [strings_cons, List.append_assoc]
          rw [UserStack.storeStrings, ih hargs, hassoc,
            ← @fit_bind_store (strings args ++ used) arg.stored, harg]
          by_cases hfits : (strings args ++ used).length ≤ pgsize
          · rw [fit, if_pos hfits, Option.map_some, Option.bind_eq_bind, Option.bind_some,
              Option.bind_some]
            change ((filled (strings args ++ used)).store arg.stored).bind _ = _
            rw [store_filled hfits, ← hassoc]
            split <;> rfl
          · rw [fit, if_neg hfits]
            rfl

theorem fit_bind_storePointers {pointers : List Nat} :
    ((fit used).bind fun s => s.storePointers pointers) =
      fit (pointers.flatMap wordBytes ++ used) := by
  induction pointers with
  | nil =>
      rw [List.flatMap_nil, List.nil_append]
      exact Option.bind_fun_some _
  | cons address pointers ih =>
      rw [List.flatMap_cons, List.append_assoc, ← fit_bind_store, ← ih, Option.bind_assoc]
      rfl

/-- `argv`, the pointer that is stored just below what it points to. -/
theorem fit_bind_store_esp :
    ((fit used).bind fun s => s.store (wordBytes (s.esp - 4 + 4))) =
      fit (wordBytes (physBase - used.length) ++ used) := by
  rw [← fit_bind_store]
  by_cases hused : used.length ≤ pgsize
  · have hbase : stackBase + pgsize = physBase := rfl
    have hpos : 4 ≤ stackBase := by decide
    have hesp : (filled used).esp - 4 + 4 = physBase - used.length := by
      rw [esp_filled]
      omega
    rw [fit, if_pos hused, Option.bind_some, Option.bind_some, hesp]
  · rw [fit, if_neg hused, Option.bind_none, Option.bind_none]

/-- How many zeros are under the strings, so that `*esp` is a multiple of 4. -/
def padding (args : List CString) : Bytes :=
  List.replicate ((4 - (strings args).length % 4) % 4) 0

theorem and_align {n : Nat} (hn : n < 2 ^ 32) : n &&& 0xfffffffc = n / 4 * 4 := by
  apply Nat.eq_of_testBit_eq
  intro i
  have hmask : 0xfffffffc = (2 ^ 30 - 1) * 2 ^ 2 := by decide
  have hquarter : n / 4 * 4 = n / 2 ^ 2 * 2 ^ 2 := rfl
  rw [hmask, hquarter, Nat.testBit_and, Nat.testBit_mul_two_pow, Nat.testBit_mul_two_pow,
    Nat.testBit_div_two_pow, Nat.testBit_two_pow_sub_one]
  by_cases hlow : 2 ≤ i
  · have hback : 2 + (i - 2) = i := by omega
    simp only [hlow, decide_true, Bool.true_and, Nat.sub_add_cancel hlow]
    by_cases hhigh : i - 2 < 30
    · simp [hhigh]
    · have hbit : n.testBit i = false :=
        Nat.testBit_lt_two_pow (Nat.lt_of_lt_of_le hn (Nat.pow_le_pow_right (by decide) (by omega)))
      simp [hbit]
  · simp [hlow]

theorem length_padding (args : List CString) :
    (padding args ++ strings args).length = ((strings args).length + 3) / 4 * 4 := by
  rw [List.length_append, padding, List.length_replicate]
  omega

theorem fit_map_align :
    ((fit (strings args)).map UserStack.align) = fit (padding args ++ strings args) := by
  have hbase : physBase = 4 * 805306368 := rfl
  have hpg : pgsize = 4 * 1024 := rfl
  have hlen := length_padding args
  by_cases hfits : (strings args).length ≤ pgsize
  · have halign : (physBase - (strings args).length) &&& 0xfffffffc =
        physBase - (padding args ++ strings args).length := by
      rw [and_align (by omega)]
      omega
    have hzeros : List.replicate (pgsize - (strings args).length) (0 : UInt8) =
        List.replicate (pgsize - (padding args ++ strings args).length) 0 ++
          padding args := by
      rw [List.length_append] at hlen
      rw [padding, List.replicate_append_replicate, List.length_append]
      rw [padding, List.length_replicate] at hlen
      rw [List.length_replicate]
      congr 1
      omega
    rw [fit, fit, if_pos hfits, if_pos (by omega), Option.map_some]
    unfold UserStack.align filled
    rw [halign, hzeros, List.append_assoc]
  · rw [fit_append_eq_none hfits, fit, if_neg hfits, Option.map_none]

/-- The pointers to the strings. -/
def pointers (args : List CString) : List Nat := addresses [] args

/-- `argv`, from its first pointer up. -/
def argvImage (args : List CString) : Bytes :=
  (pointers args).flatMap wordBytes ++ (wordBytes 0 ++ (padding args ++ strings args))

/-- What `setup_argument` leaves at the top of the page. -/
def image (args : List CString) : Bytes :=
  wordBytes 0 ++ (wordBytes args.length ++
    (wordBytes (physBase - (argvImage args).length) ++ argvImage args))

theorem setupStack_eq (hargv : argv.map (readString memory) = args.map some) :
    setupStack memory argv = fit (image args) := by
  have hlen : argv.length = args.length := by
    have := congrArg List.length hargv
    rwa [List.length_map, List.length_map] at this
  have hstart : (⟨List.replicate pgsize 0, physBase⟩ : UserStack) = filled [] := by
    rw [filled, List.append_nil]
    rfl
  rw [setupStack, setupArgument, hstart, storeStrings_filled (Nat.zero_le _) hargv,
    List.append_nil, hlen]
  rw [image, argvImage, ← fit_bind_store, ← fit_bind_store, ← fit_bind_store_esp,
    ← fit_bind_storePointers, ← fit_bind_store, ← fit_map_align]
  cases fit (strings args) with
  | none => rfl
  | some s => simp only [Option.map_some, Option.bind_eq_bind, Option.bind_some,
      Option.bind_assoc, pointers]

/-! What the process finds on its stack. -/

/-- The bytes of the page that the words, the pointers to them and the rest take. -/
def stackSize (args : List Bytes) : Nat :=
  ((args.map fun arg => arg.length + 1).sum + 3) / 4 * 4 + 4 * args.length + 16

theorem length_strings (args : List CString) :
    (strings args).length = ((args.map CString.bytes).map fun arg => arg.length + 1).sum := by
  induction args with
  | nil => rfl
  | cons arg args ih =>
      rw [strings_cons, List.length_append, ih, CString.length_stored]
      rfl

theorem length_pointers (args : List CString) : (addresses used args).length = args.length := by
  induction args with
  | nil => rfl
  | cons arg args ih => rw [addresses, List.length_cons, ih, List.length_cons]

theorem length_flatMap_wordBytes (values : List Nat) :
    (values.flatMap wordBytes).length = 4 * values.length := by
  induction values with
  | nil => rfl
  | cons value values ih =>
      rw [List.flatMap_cons, List.length_append, ih, length_wordBytes, List.length_cons]
      omega

theorem length_argvImage (args : List CString) :
    (argvImage args).length + 12 = stackSize (args.map CString.bytes) := by
  rw [argvImage, List.length_append, List.length_append, length_flatMap_wordBytes, pointers,
    length_pointers, length_padding, length_strings, length_wordBytes, stackSize,
    List.length_map]
  omega

theorem length_image (args : List CString) :
    (image args).length = stackSize (args.map CString.bytes) := by
  rw [← length_argvImage, image, List.length_append, List.length_append, List.length_append,
    length_wordBytes, length_wordBytes, length_wordBytes]
  omega

namespace UserStack

def word (s : UserStack) (address : Nat) : Option Nat :=
  if stackBase ≤ address then readWord s.page (address - stackBase) else none

def string (s : UserStack) (address : Nat) : Option Bytes :=
  if stackBase ≤ address then
    (readString s.page (address - stackBase)).map CString.bytes
  else none

end UserStack

/-- The regions that are written: what is below the strings, and the strings. -/
def regions (esp : Nat) (args : List Bytes) (pointers : List Nat) : List (Nat × Nat) :=
  (esp, 16 + 4 * args.length) :: pointers.zip (args.map fun arg => arg.length + 1)

/-- The stack from which a process reads its arguments. -/
structure Layout (s : UserStack) (args : List Bytes) (pointers : List Nat) : Prop where
  aligned : s.esp % 4 = 0
  returnAddress : s.word s.esp = some 0
  argc : s.word (s.esp + 4) = some args.length
  argv : s.word (s.esp + 8) = some (s.esp + 12)
  pointer : ∀ (i p : Nat), pointers[i]? = some p → s.word (s.esp + 12 + 4 * i) = some p
  null : s.word (s.esp + 12 + 4 * args.length) = some 0
  string : pointers.map s.string = args.map some
  inside : ∀ region ∈ regions s.esp args pointers,
    stackBase ≤ region.1 ∧ region.1 + region.2 ≤ physBase
  disjoint : (regions s.esp args pointers).Pairwise fun low high => low.1 + low.2 ≤ high.1

theorem string_addresses {page before : Bytes} {esp : Nat}
    (hpage : page = before ++ (strings args ++ used)) (hlen : page.length = pgsize) :
    (addresses used args).map (UserStack.string ⟨page, esp⟩) =
      (args.map CString.bytes).map some := by
  have hbase : stackBase + pgsize = physBase := rfl
  induction args generalizing before with
  | nil => rfl
  | cons arg args ih =>
      have hsplit : page = before ++ (arg.stored ++ (strings args ++ used)) := by
        rw [hpage, strings_cons, List.append_assoc]
      have hnext : page = (before ++ arg.stored) ++ (strings args ++ used) := by
        rw [hsplit, List.append_assoc]
      have htotal : pgsize = before.length + (strings (arg :: args) ++ used).length := by
        rw [← hlen, hpage, List.length_append]
      have hat : physBase - (strings (arg :: args) ++ used).length - stackBase =
          before.length := by
        omega
      have hread : UserStack.string ⟨page, esp⟩
          (physBase - (strings (arg :: args) ++ used).length) = some arg.bytes := by
        rw [UserStack.string, if_pos (by omega), hat]
        change (readString page before.length).map _ = _
        rw [hsplit, readString_eq rfl]
        rfl
      rw [addresses, List.map_cons, hread, ih hnext]
      rfl

theorem regions_addresses (hfits : (strings args ++ used).length ≤ physBase) :
    (∀ region ∈ (addresses used args).zip
        ((args.map CString.bytes).map fun arg => arg.length + 1),
      physBase - (strings args ++ used).length ≤ region.1 ∧
        region.1 + region.2 ≤ physBase - used.length) ∧
    ((addresses used args).zip
      ((args.map CString.bytes).map fun arg => arg.length + 1)).Pairwise
        fun low high => low.1 + low.2 ≤ high.1 := by
  induction args with
  | nil => exact ⟨by simp [addresses], by simp [addresses]⟩
  | cons arg args ih =>
      have hlen : (strings (arg :: args) ++ used).length =
          arg.bytes.length + 1 + (strings args ++ used).length := by
        rw [strings_cons, List.append_assoc, List.length_append, CString.length_stored,
          CString.length]
      obtain ⟨hinside, hpair⟩ := ih (by omega)
      have hused : used.length ≤ (strings args ++ used).length := by
        rw [List.length_append]
        omega
      rw [addresses, List.map_cons, List.map_cons, List.zip_cons_cons]
      refine ⟨List.forall_mem_cons.mpr ⟨⟨Nat.le_refl _, by omega⟩, fun region hmem => ?_⟩,
        List.pairwise_cons.mpr ⟨fun region hmem => ?_, hpair⟩⟩
      · have := hinside region hmem
        omega
      · have := (hinside region hmem).1
        omega

theorem word_filled (front : Bytes) {rest : Bytes} {value address : Nat}
    (hfits : used.length ≤ pgsize) (hused : used = front ++ (wordBytes value ++ rest))
    (haddress : address = (filled used).esp + front.length) (hvalue : value < 2 ^ 32) :
    (filled used).word address = some value := by
  have hbase : stackBase + pgsize = physBase := rfl
  have hpage : (filled used).page =
      (List.replicate (pgsize - used.length) 0 ++ front) ++ (wordBytes value ++ rest) := by
    rw [List.append_assoc, ← hused]
    rfl
  rw [esp_filled] at haddress
  rw [UserStack.word, if_pos (by omega), hpage]
  refine readWord_eq ?_ hvalue
  rw [List.length_append, List.length_replicate]
  omega

theorem flatMap_wordBytes_split {values : List Nat} {i p : Nat} (hp : values[i]? = some p) :
    ∃ rest, values.flatMap wordBytes =
      (values.take i).flatMap wordBytes ++ (wordBytes p ++ rest) ∧
        ((values.take i).flatMap wordBytes).length = 4 * i := by
  obtain ⟨hi, rfl⟩ := List.getElem?_eq_some_iff.mp hp
  refine ⟨(values.drop (i + 1)).flatMap wordBytes, ?_, ?_⟩
  · calc values.flatMap wordBytes
        = (values.take i ++ values.drop i).flatMap wordBytes := by
          rw [List.take_append_drop]
      _ = _ := by
          rw [List.flatMap_append, List.drop_eq_getElem_cons hi, List.flatMap_cons]
  · rw [length_flatMap_wordBytes, List.length_take]
    omega

theorem lt_of_mem_addresses {p : Nat} (hp : p ∈ addresses used args) : p < 2 ^ 32 := by
  have hbase : physBase < 2 ^ 32 := by decide
  induction args with
  | nil => cases hp
  | cons arg args ih =>
      rcases List.mem_cons.mp hp with rfl | hp
      · omega
      · exact ih hp

theorem layout_filled (hfits : (image args).length ≤ pgsize) :
    Layout (filled (image args)) (args.map CString.bytes) (pointers args) := by
  have hbase : stackBase + pgsize = physBase := rfl
  have hpg : pgsize < 2 ^ 31 := by decide
  have hphys : physBase < 2 ^ 32 := by decide
  have hfour : physBase = 4 * 805306368 := rfl
  have hsize := length_image args
  have hargv := length_argvImage args
  have hlen : (args.map CString.bytes).length = args.length := List.length_map _
  have hstrings : (strings args ++ []).length + (4 * args.length + 16) ≤
      (image args).length := by
    rw [List.append_nil, length_strings, hsize, stackSize, hlen]
    omega
  have hesp : (filled (image args)).esp = physBase - (image args).length := rfl
  have hsplit : image args = wordBytes 0 ++ (wordBytes args.length ++
      (wordBytes (physBase - (argvImage args).length) ++ argvImage args)) := rfl
  constructor
  case aligned =>
    rw [hesp, hsize, stackSize]
    omega
  case returnAddress =>
    exact word_filled [] hfits hsplit rfl (by decide)
  case argc =>
    rw [hlen]
    refine word_filled (wordBytes 0) hfits hsplit ?_ (by omega)
    rw [length_wordBytes]
  case argv =>
    have hvalue : (filled (image args)).esp + 12 = physBase - (argvImage args).length := by
      omega
    have hfront : image args = (wordBytes 0 ++ wordBytes args.length) ++
        (wordBytes (physBase - (argvImage args).length) ++ argvImage args) := by
      rw [hsplit, List.append_assoc]
    rw [hvalue]
    exact word_filled _ hfits hfront rfl (by omega)
  case pointer =>
    intro i p hp
    obtain ⟨rest, hrest, hlength⟩ := flatMap_wordBytes_split hp
    have hfront : image args = (wordBytes 0 ++ (wordBytes args.length ++
        (wordBytes (physBase - (argvImage args).length) ++
          ((pointers args).take i).flatMap wordBytes))) ++
        (wordBytes p ++ (rest ++ (wordBytes 0 ++ (padding args ++ strings args)))) := by
      rw [hsplit, argvImage, hrest]
      simp only [List.append_assoc]
    refine word_filled _ hfits hfront ?_ (lt_of_mem_addresses (List.mem_of_getElem? hp))
    simp only [List.length_append, length_wordBytes, hlength]
    omega
  case null =>
    have hfront : image args = (wordBytes 0 ++ (wordBytes args.length ++
        (wordBytes (physBase - (argvImage args).length) ++
          (pointers args).flatMap wordBytes))) ++
        (wordBytes 0 ++ (padding args ++ strings args)) := by
      rw [hsplit, argvImage]
      simp only [List.append_assoc]
    refine word_filled _ hfits hfront ?_ (by decide)
    simp only [List.length_append, length_wordBytes, length_flatMap_wordBytes, pointers,
      length_pointers, hlen]
    omega
  case string =>
    obtain ⟨front, himage⟩ : ∃ front, image args = front ++ (strings args ++ []) := by
      refine ⟨wordBytes 0 ++ (wordBytes args.length ++
        (wordBytes (physBase - (argvImage args).length) ++
          ((pointers args).flatMap wordBytes ++ (wordBytes 0 ++ padding args)))), ?_⟩
      rw [hsplit, argvImage]
      simp only [List.append_assoc, List.append_nil]
    have hpage : (filled (image args)).page =
        (List.replicate (pgsize - (image args).length) 0 ++ front) ++
          (strings args ++ []) := by
      rw [List.append_assoc, ← himage]
      rfl
    have hlength : (filled (image args)).page.length = pgsize := by
      change (_ ++ image args).length = _
      rw [List.length_append, List.length_replicate]
      omega
    exact string_addresses hpage hlength
  case inside =>
    refine List.forall_mem_cons.mpr ⟨?_, fun region hmem => ?_⟩
    · rw [hesp, hlen]
      omega
    · have := (regions_addresses (by omega)).1 region hmem
      rw [List.length_nil] at this
      omega
  case disjoint =>
    refine List.pairwise_cons.mpr
      ⟨fun region hmem => ?_, (regions_addresses (by omega)).2⟩
    have := ((regions_addresses (by omega)).1 region hmem).1
    rw [hesp, hlen]
    omega

/-! What `load` does with a line. -/

variable {ready : Bytes → Bool} {line : CString} {after : Bytes}

theorem load_of_words (hwords : (words line.bytes).length ≤ arglen) :
    ∃ args : List CString, args.map CString.bytes = words line.bytes ∧
      load ready (line.stored ++ after) =
        if ready (programName line.bytes) then (fit (image args)).map some
        else some none := by
  have hmemory : line.stored ++ after = [] ++ (line.bytes ++ 0 :: after) := by
    simp [CString.stored]
  have hfuel : line.bytes.length < (line.stored ++ after).length + 1 := by
    rw [List.length_append, CString.length_stored, CString.length]
    omega
  obtain ⟨line', positions, args, -, htokens, hargs, hpoints, hname⟩ :=
    @tokenise_spec [] after line.bytes [] _ line.noNul hfuel (by simpa using hwords)
  rw [← hmemory] at htokens
  obtain ⟨name, hread, hname⟩ := Option.map_eq_some_iff.mp hname
  refine ⟨args, hargs, ?_⟩
  rw [load, show tokenise _ _ 0 [] = _ from htokens]
  simp only [Option.bind_eq_bind, Option.bind_some]
  rw [show readString _ 0 = some name from hread, Option.bind_some, hname]
  split
  · have hstack : setupStack (line' ++ 0 :: after) positions = fit (image args) :=
      setupStack_eq hpoints
    change (setupStack (line' ++ 0 :: after) positions).bind _ = _
    rw [hstack]
    cases fit (image args) <;> rfl
  · rfl

theorem load_eq_none (hwords : arglen < (words line.bytes).length) :
    load ready (line.stored ++ after) = none := by
  have hmemory : line.stored ++ after = [] ++ (line.bytes ++ 0 :: after) := by
    simp [CString.stored]
  have htokens : tokenise (([] ++ (line.bytes ++ 0 :: after)).length + 1)
      ([] ++ (line.bytes ++ 0 :: after)) 0 [] = none :=
    tokenise_eq_none line.noNul (Nat.zero_le _) (by simpa using hwords)
  rw [load, hmemory, htokens]
  rfl

/-- The process finds its arguments exactly when `argv` of `load` has room for them. -/
theorem load_layout_iff (hready : ready (programName line.bytes) = true)
    (hfits : stackSize (words line.bytes) ≤ pgsize) :
    (∃ s pointers, load ready (line.stored ++ after) = some (some s) ∧
      Layout s (words line.bytes) pointers) ↔ (words line.bytes).length ≤ arglen := by
  constructor
  · rintro ⟨s, pointers, hload, -⟩
    by_contra hmany
    rw [load_eq_none (by omega)] at hload
    cases hload
  · intro hwords
    obtain ⟨args, hargs, hload⟩ := @load_of_words ready line after hwords
    have hlen : (image args).length ≤ pgsize := by rwa [length_image, hargs]
    refine ⟨filled (image args), pointers args, ?_, hargs ▸ layout_filled hlen⟩
    rw [hload, if_pos hready, fit, if_pos hlen, Option.map_some]

theorem strlcpy_page {page : Bytes} (hpage : page.length = pgsize)
    (hline : line.length ≤ pgsize - 1) :
    ∃ after, strlcpy page 0 line pgsize = some (line.stored ++ after) := by
  have hpg : 1 ≤ pgsize := by decide
  have htake : line.bytes.take (pgsize - 1) ++ [0] = line.stored := by
    rw [List.take_of_length_le hline, CString.stored]
  obtain ⟨before, old, after, hsplit, hbefore, hold⟩ : ∃ before old after,
      page = before ++ (old ++ after) ∧ before.length = 0 ∧ old.length = line.stored.length := by
    have hroom : 0 + line.stored.length ≤ page.length := by
      rw [CString.length_stored]
      omega
    exact exists_split hroom
  have hwrite : writeBytes ([] ++ (old ++ after)) 0 line.stored =
      some ([] ++ (line.stored ++ after)) :=
    writeBytes_eq rfl hold
  refine ⟨after, ?_⟩
  rw [strlcpy, htake, hsplit, List.length_eq_zero_iff.mp hbefore, hwrite]
  rfl

/-- What `process_execute` does with a line that has a word. -/
theorem processExecute_eq {fnCopy nameTmp : Bytes} (hfnCopy : fnCopy.length = pgsize)
    (hnameTmp : nameTmp.length = pgsize) (hline : line.length ≤ pgsize - 1)
    (haccepted : words line.bytes ≠ []) :
    ∃ after, processExecute ready fnCopy nameTmp line =
      load ready (line.stored ++ after) := by
  obtain ⟨after, hcopy⟩ := strlcpy_page hfnCopy hline
  obtain ⟨after', htmp⟩ := strlcpy_page hnameTmp hline
  have hmemory : line.stored ++ after' = [] ++ (line.bytes ++ 0 :: after') := by
    simp [CString.stored]
  obtain ⟨memory, p, save, htoken⟩ : ∃ memory p save,
      strtokR (line.stored ++ after') 0 = some (memory, some p, save) := by
    rw [hmemory]
    exact strtokR_of_words haccepted line.noNul
  refine ⟨after, ?_⟩
  rw [processExecute, hcopy, htmp, Option.bind_eq_bind, Option.bind_some,
    Option.bind_eq_bind, Option.bind_some, htoken]
  rfl

/-- The command line of an accepted command stays inside of `argv` and of the stack
page exactly when it has at most `ARGLEN` words and they fit into the page, unless
`load` fails before that. -/
theorem load_inside_iff {fnCopy nameTmp : Bytes} (hfnCopy : fnCopy.length = pgsize)
    (hnameTmp : nameTmp.length = pgsize) (hline : line.length ≤ pgsize - 1)
    (haccepted : words line.bytes ≠ []) :
    processExecute ready fnCopy nameTmp line ≠ none ↔
      (words line.bytes).length ≤ arglen ∧
        (ready (programName line.bytes) = true → stackSize (words line.bytes) ≤ pgsize) := by
  obtain ⟨after, hexecute⟩ := @processExecute_eq ready line _ _ hfnCopy hnameTmp hline haccepted
  rw [hexecute]
  rcases Nat.lt_or_ge arglen (words line.bytes).length with hmany | hfew
  · rw [load_eq_none hmany]
    exact ⟨fun h => absurd rfl h, fun h => absurd h.1 (by omega)⟩
  · obtain ⟨args, hargs, hload⟩ := @load_of_words ready line after hfew
    rw [hload, ← hargs, ← length_image]
    split
    case isTrue hready =>
      rw [fit]
      split
      case isTrue hfits =>
        exact ⟨fun _ => ⟨hargs ▸ hfew, fun _ => hfits⟩, fun _ => by simp⟩
      case isFalse hover =>
        exact ⟨fun h => absurd rfl h, fun h => absurd (h.2 hready) hover⟩
    case isFalse hready =>
      exact ⟨fun _ => ⟨hargs ▸ hfew, fun h => absurd h hready⟩, fun _ => by simp⟩

namespace ArgumentWitness

/-- `ls  -l`, with two spaces. -/
def listing : CString := ⟨[108, 115, 32, 32, 45, 108], by decide⟩

theorem layout_listing : ∃ s pointers,
    load (fun _ => true) (listing.stored ++ []) = some (some s) ∧
      Layout s (words listing.bytes) pointers :=
  (load_layout_iff rfl (by decide +kernel)).mpr (by decide +kernel)

theorem inside_listing :
    processExecute (fun _ => true) (List.replicate pgsize 0) (List.replicate pgsize 0)
      listing ≠ none :=
  (load_inside_iff List.length_replicate List.length_replicate (by decide +kernel)
    (by decide +kernel)).mpr (by decide +kernel)

/-- A program with fifty arguments. -/
def fifty : CString := ⟨(List.replicate 51 [97, 32]).flatten, by decide⟩

/-- They fit into the page, and `argv` has no room for the last one. -/
theorem fifty_overflow : stackSize (words fifty.bytes) ≤ pgsize ∧
    load (fun _ => true) (fifty.stored ++ []) = none ∧
    ¬ ∃ s pointers, load (fun _ => true) (fifty.stored ++ []) = some (some s) ∧
      Layout s (words fifty.bytes) pointers := by
  have hmany : arglen < (words fifty.bytes).length := by decide +kernel
  have hload : load (fun _ => true) (fifty.stored ++ []) = none := load_eq_none hmany
  refine ⟨by decide +kernel, hload, ?_⟩
  rintro ⟨s, pointers, hsome, -⟩
  rw [hload] at hsome
  cases hsome

/-- A program with one long argument. -/
def long : CString := ⟨[97] ++ space :: List.replicate 4080 120, by
  intro h
  rcases List.mem_append.mp h with h | h
  · revert h
    decide
  · rcases List.mem_cons.mp h with h | h
    · revert h
      decide
    · exact absurd (List.eq_of_mem_replicate h) (by decide)⟩

theorem words_long : words long.bytes = [[97], List.replicate 4080 120] := by
  have hspace : space ∉ List.replicate 4080 (120 : UInt8) := fun h =>
    absurd (List.eq_of_mem_replicate h) (by decide)
  have hne : List.replicate 4080 (120 : UInt8) ≠ [] := by
    rw [List.replicate_succ]
    exact List.cons_ne_nil _ _
  have hrun : space ∉ ([97] : Bytes) := by decide
  change words ([97] ++ space :: List.replicate 4080 120) = _
  rw [words_run_space hrun (by decide), words_run hspace hne]

/-- It does not fit into the page, and nothing keeps `setup_argument` from writing
below. -/
theorem long_overflow : long.length ≤ pgsize - 1 ∧ words long.bytes ≠ [] ∧
    (words long.bytes).length ≤ arglen ∧
    processExecute (fun _ => true) (List.replicate pgsize 0) (List.replicate pgsize 0)
      long = none := by
  have hlen : long.length = 4082 := by
    change ([97] ++ space :: List.replicate 4080 120).length = _
    rw [List.length_append, List.length_cons, List.length_cons, List.length_replicate]
    rfl
  have hline : long.length ≤ pgsize - 1 := by
    rw [hlen]
    decide
  have haccepted : words long.bytes ≠ [] := by
    rw [words_long]
    exact List.cons_ne_nil _ _
  have hfew : (words long.bytes).length ≤ arglen := by
    rw [words_long]
    decide
  have hpage : (List.replicate pgsize (0 : UInt8)).length = pgsize := List.length_replicate
  obtain ⟨after, hexecute⟩ := @processExecute_eq (fun _ => true) long _ _ hpage hpage hline
    haccepted
  obtain ⟨args, hargs, hload⟩ := @load_of_words (fun _ => true) long after hfew
  have hover : ¬ (image args).length ≤ pgsize := by
    rw [length_image, hargs, words_long, stackSize]
    simp only [List.map_cons, List.map_nil, List.length_replicate, List.sum_cons,
      List.sum_nil, List.length_cons, List.length_nil]
    decide
  refine ⟨hline, haccepted, hfew, ?_⟩
  rw [hexecute, hload, if_pos rfl, fit, if_neg hover]
  rfl

end ArgumentWitness

end Exec
end PintosLabs
