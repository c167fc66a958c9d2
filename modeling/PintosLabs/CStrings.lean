/-
Memory as the bytes of one object, and the strings of C in it: the functions of
`string.h` that copy a string or add one to another.  What reads or writes
outside of the object has no result.
-/
import Mathlib.Algebra.Ring.Int.Defs
import Mathlib.Algebra.Ring.Nat
import Mathlib.Data.List.TakeWhile
import Mathlib.Tactic.Common

namespace PintosLabs

abbrev Bytes := List UInt8

/-- The bytes of a string, up to the NUL that ends it. -/
@[ext] structure CString where
  bytes : Bytes
  noNul : (0 : UInt8) ∉ bytes
deriving DecidableEq

namespace CString

def length (s : CString) : Nat := s.bytes.length

/-- The string as it lies in memory. -/
def stored (s : CString) : Bytes := s.bytes ++ [0]

@[simp] theorem length_stored (s : CString) : s.stored.length = s.length + 1 :=
  List.length_append

end CString

/-- The string that starts at `p`. -/
def readString (memory : Bytes) (p : Nat) : Option CString :=
  if 0 ∈ memory.drop p then
    some ⟨(memory.drop p).takeWhile (· ≠ 0),
      fun hmem => absurd (List.mem_takeWhile_imp hmem) (by simp)⟩
  else none

/-- Write bytes from `p` on. -/
def writeBytes (memory : Bytes) (p : Nat) (bytes : Bytes) : Option Bytes :=
  if p + bytes.length ≤ memory.length then
    some (memory.take p ++ bytes ++ memory.drop (p + bytes.length))
  else none

def strcpy (memory : Bytes) (p : Nat) (s : CString) : Option Bytes :=
  writeBytes memory p s.stored

def strcat (memory : Bytes) (p : Nat) (s : CString) : Option Bytes := do
  let old ← readString memory p
  strcpy memory (p + old.length) s

def strlcpy (memory : Bytes) (p : Nat) (s : CString) (size : Nat) : Option Bytes :=
  writeBytes memory p (s.bytes.take (size - 1) ++ [0])

/-- The four bytes of a word, the least significant one first. -/
def wordBytes (value : Nat) : Bytes :=
  [UInt8.ofNat value, UInt8.ofNat (value / 256), UInt8.ofNat (value / 256 ^ 2),
    UInt8.ofNat (value / 256 ^ 3)]

/-- The word at `p`. -/
def readWord (memory : Bytes) (p : Nat) : Option Nat :=
  match memory.drop p with
  | b₀ :: b₁ :: b₂ :: b₃ :: _ =>
      some (b₀.toNat + 256 * b₁.toNat + 256 ^ 2 * b₂.toNat + 256 ^ 3 * b₃.toNat)
  | _ => none

variable {before after bytes old : Bytes} {s t : CString} {p : Nat}

theorem readString_eq (hp : p = before.length) :
    readString (before ++ (s.stored ++ after)) p = some s := by
  have hrest : (before ++ (s.stored ++ after)).drop p = s.bytes ++ 0 :: after := by
    rw [hp, List.drop_left, CString.stored, List.append_assoc]
    rfl
  have htake : (s.bytes ++ 0 :: after).takeWhile (· ≠ 0) = s.bytes := by
    rw [List.takeWhile_append_of_pos, List.takeWhile_cons_of_neg (by simp),
      List.append_nil]
    intro b hb
    exact decide_eq_true fun heq => s.noNul (heq ▸ hb)
  rw [readString, if_pos (by rw [hrest]; simp)]
  refine congrArg some (CString.ext ?_)
  change ((before ++ (s.stored ++ after)).drop p).takeWhile (· ≠ 0) = s.bytes
  rw [hrest, htake]

theorem writeBytes_eq (hp : p = before.length) (hlen : old.length = bytes.length) :
    writeBytes (before ++ (old ++ after)) p bytes = some (before ++ (bytes ++ after)) := by
  subst hp
  have hdrop : (before ++ (old ++ after)).drop (before.length + bytes.length) = after := by
    rw [← hlen, ← List.append_assoc, ← List.length_append, List.drop_left]
  rw [writeBytes, if_pos (by simp; omega), hdrop, List.take_left, List.append_assoc]

theorem writeBytes_eq_none {memory : Bytes} (h : memory.length < p + bytes.length) :
    writeBytes memory p bytes = none :=
  if_neg (Nat.not_le.mpr h)

@[simp] theorem length_wordBytes (value : Nat) : (wordBytes value).length = 4 := rfl

theorem readWord_eq {value : Nat} (hp : p = before.length) (hvalue : value < 2 ^ 32) :
    readWord (before ++ (wordBytes value ++ after)) p = some value := by
  rw [readWord, hp, List.drop_left]
  refine congrArg some ?_
  simp only [UInt8.toNat_ofNat']
  omega

/-- A place with room for some bytes. -/
theorem exists_split {memory : Bytes} {n : Nat} (hroom : p + n ≤ memory.length) :
    ∃ before old after, memory = before ++ (old ++ after) ∧ before.length = p ∧
      old.length = n := by
  refine ⟨memory.take p, (memory.drop p).take n, (memory.drop p).drop n, ?_, ?_, ?_⟩
  · rw [List.take_append_drop, List.take_append_drop]
  · rw [List.length_take]
    omega
  · rw [List.length_take, List.length_drop]
    omega

/-- A string is put in the place of the NUL that ended the one before. -/
theorem strcat_eq (hp : p = before.length) (hlen : old.length = t.length) :
    strcat (before ++ (s.stored ++ (old ++ after))) p t =
      some (before ++ (s.bytes ++ (t.stored ++ after))) := by
  have hsplit : before ++ (s.stored ++ (old ++ after)) =
      (before ++ s.bytes) ++ ((0 :: old) ++ after) := by
    simp [CString.stored]
  rw [strcat, readString_eq hp]
  change strcpy _ _ t = _
  rw [hsplit, strcpy, writeBytes_eq]
  · rw [List.append_assoc]
  · rw [hp, List.length_append]
    rfl
  · rw [List.length_cons, hlen, CString.length_stored]

end PintosLabs
