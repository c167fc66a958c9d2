/-
A memory of bytes, and what is done to it: filling a range, copying one, and
storing a word of thirty-two bits, the lowest byte first.  Each operation changes
its own range and nothing else.
-/
import Mathlib.Algebra.Ring.Int.Defs
import Mathlib.Algebra.Ring.Nat
import Mathlib.Tactic.Common

namespace PintosLabs

/-- What is stored at each address. -/
abbrev ByteMemory := Nat → UInt8

namespace ByteMemory

/-- `memset` -/
def fill (m : ByteMemory) (a n : Nat) (byte : UInt8) : ByteMemory := fun x =>
  if a ≤ x ∧ x < a + n then byte else m x

/-- `memcpy` -/
def copy (m : ByteMemory) (dst src n : Nat) : ByteMemory := fun x =>
  if dst ≤ x ∧ x < dst + n then m (src + (x - dst)) else m x

/-- The bytes of a list from `a` on. -/
def put (m : ByteMemory) (a : Nat) (bytes : List UInt8) : ByteMemory := fun x =>
  if a ≤ x ∧ x < a + bytes.length then bytes.getD (x - a) 0 else m x

def loadWord (m : ByteMemory) (a : Nat) : BitVec 32 :=
  ((m (a + 3)).toBitVec ++ (m (a + 2)).toBitVec) ++ ((m (a + 1)).toBitVec ++ (m a).toBitVec)

def wordByte (w : BitVec 32) (k : Nat) : UInt8 := ⟨w.extractLsb' (8 * k) 8⟩

def storeWord (m : ByteMemory) (a : Nat) (w : BitVec 32) : ByteMemory := fun x =>
  if a ≤ x ∧ x < a + 4 then wordByte w (x - a) else m x

/-- What lies in a range. -/
def bytes (m : ByteMemory) (a n : Nat) : List UInt8 := (List.range n).map fun i => m (a + i)

/-- Two memories hold the same from `a` on for `n` bytes. -/
def Agree (m m' : ByteMemory) (a n : Nat) : Prop := ∀ x, a ≤ x → x < a + n → m x = m' x

variable {m m' m'' : ByteMemory} {a b n k x : Nat}

theorem fill_inside {byte : UInt8} (hlow : a ≤ x) (hhigh : x < a + n) :
    m.fill a n byte x = byte := if_pos ⟨hlow, hhigh⟩

theorem fill_outside {byte : UInt8} (hout : x < a ∨ a + n ≤ x) : m.fill a n byte x = m x :=
  if_neg (by omega)

theorem copy_inside {dst src : Nat} (hk : k < n) : m.copy dst src n (dst + k) = m (src + k) := by
  rw [copy, if_pos ⟨Nat.le_add_right _ _, Nat.add_lt_add_left hk _⟩, Nat.add_sub_cancel_left]

theorem copy_outside {dst src : Nat} (hout : x < dst ∨ dst + n ≤ x) :
    m.copy dst src n x = m x := if_neg (by omega)

theorem put_inside {bytes : List UInt8} (hk : k < bytes.length) :
    m.put a bytes (a + k) = bytes.getD k 0 := by
  rw [put, if_pos ⟨Nat.le_add_right _ _, Nat.add_lt_add_left hk _⟩, Nat.add_sub_cancel_left]

theorem put_outside {bytes : List UInt8} (hout : x < a ∨ a + bytes.length ≤ x) :
    m.put a bytes x = m x := if_neg (by omega)

theorem storeWord_outside {w : BitVec 32} (hout : x < a ∨ a + 4 ≤ x) :
    m.storeWord a w x = m x := if_neg (by omega)

@[simp] theorem length_bytes : (m.bytes a n).length = n := by
  rw [bytes, List.length_map, List.length_range]

theorem getElem?_bytes (hk : k < n) : (m.bytes a n)[k]? = some (m (a + k)) := by
  rw [bytes, List.getElem?_map, List.getElem?_range hk, Option.map_some]

theorem append_wordBytes (w : BitVec 32) :
    ((wordByte w 3).toBitVec ++ (wordByte w 2).toBitVec) ++
      ((wordByte w 1).toBitVec ++ (wordByte w 0).toBitVec) = w := by
  apply BitVec.eq_of_getLsbD_eq
  intro i hi
  simp only [wordByte, BitVec.getLsbD_append, BitVec.getLsbD_extractLsb']
  split
  · split
    · simp_all
    · rw [decide_eq_true (by omega), Bool.true_and]
      congr 1
      omega
  · split
    · rw [decide_eq_true (by omega), Bool.true_and]
      congr 1
      omega
    · rw [decide_eq_true (by omega), Bool.true_and]
      congr 1
      omega

@[simp] theorem loadWord_storeWord (w : BitVec 32) : (m.storeWord a w).loadWord a = w := by
  have hbyte : ∀ j < 4, m.storeWord a w (a + j) = wordByte w j := by
    intro j hj
    rw [storeWord, if_pos ⟨Nat.le_add_right _ _, Nat.add_lt_add_left hj _⟩,
      Nat.add_sub_cancel_left]
  have hfirst := hbyte 0 (by decide)
  rw [Nat.add_zero] at hfirst
  rw [loadWord, hbyte 3 (by decide), hbyte 2 (by decide), hbyte 1 (by decide), hfirst]
  exact append_wordBytes w

/-! Ranges that are left alone. -/

theorem Agree.refl (m : ByteMemory) (a n : Nat) : m.Agree m a n := fun _ _ _ => rfl

theorem Agree.symm (h : m.Agree m' a n) : m'.Agree m a n :=
  fun x hlow hhigh => (h x hlow hhigh).symm

theorem Agree.trans (h : m.Agree m' a n) (h' : m'.Agree m'' a n) : m.Agree m'' a n :=
  fun x hlow hhigh => (h x hlow hhigh).trans (h' x hlow hhigh)

theorem Agree.mono {a' n' : Nat} (h : m.Agree m' a n) (hlow : a ≤ a') (hhigh : a' + n' ≤ a + n) :
    m.Agree m' a' n' :=
  fun x hx hx' => h x (by omega) (by omega)

theorem Agree.loadWord (h : m.Agree m' a 4) : m.loadWord a = m'.loadWord a := by
  rw [ByteMemory.loadWord, ByteMemory.loadWord, h a (by omega) (by omega),
    h (a + 1) (by omega) (by omega), h (a + 2) (by omega) (by omega),
    h (a + 3) (by omega) (by omega)]

theorem Agree.bytes (h : m.Agree m' a n) : m.bytes a n = m'.bytes a n :=
  List.map_congr_left fun i hi =>
    h (a + i) (by omega) (Nat.add_lt_add_left (List.mem_range.mp hi) a)

theorem agree_fill {byte : UInt8} (hout : b + k ≤ a ∨ a + n ≤ b) :
    (m.fill a n byte).Agree m b k :=
  fun _ _ _ => fill_outside (by omega)

theorem agree_copy {dst src : Nat} (hout : b + k ≤ dst ∨ dst + n ≤ b) :
    (m.copy dst src n).Agree m b k :=
  fun _ _ _ => copy_outside (by omega)

theorem agree_put {bytes : List UInt8} (hout : b + k ≤ a ∨ a + bytes.length ≤ b) :
    (m.put a bytes).Agree m b k :=
  fun _ _ _ => put_outside (by omega)

theorem agree_storeWord {w : BitVec 32} (hout : b + k ≤ a ∨ a + 4 ≤ b) :
    (m.storeWord a w).Agree m b k :=
  fun _ _ _ => storeWord_outside (by omega)

theorem loadWord_storeWord_of_apart {w : BitVec 32} (hout : b + 4 ≤ a ∨ a + 4 ≤ b) :
    (m.storeWord a w).loadWord b = m.loadWord b :=
  (agree_storeWord hout).loadWord

/-! What is shown from an address on. -/

theorem bytes_eq_of {m : ByteMemory} {a : Nat} {bytes : List UInt8}
    (h : ∀ k (hk : k < bytes.length), m (a + k) = bytes[k]) : m.bytes a bytes.length = bytes := by
  apply List.ext_getElem?
  intro k
  by_cases hk : k < bytes.length
  · rw [getElem?_bytes hk, h k hk, List.getElem?_eq_getElem hk]
  · rw [List.getElem?_eq_none (by rw [length_bytes]; omega),
      List.getElem?_eq_none (by omega)]

theorem bytes_fill {m : ByteMemory} {a n : Nat} {byte : UInt8} :
    (m.fill a n byte).bytes a n = List.replicate n byte := by
  have hshown : (m.fill a n byte).bytes a (List.replicate n byte).length =
      List.replicate n byte := bytes_eq_of fun k hk => by
      rw [List.length_replicate] at hk
      rw [List.getElem_replicate, fill_inside (by omega) (by omega)]
  rwa [List.length_replicate] at hshown

theorem shown_at {m : ByteMemory} {a k : Nat} {bytes : List UInt8}
    (h : m.bytes a bytes.length = bytes) (hk : k < bytes.length) : m (a + k) = bytes[k] := by
  have hget := congrArg (fun l : List UInt8 => l[k]?) h
  simp only [getElem?_bytes hk, List.getElem?_eq_getElem hk] at hget
  exact Option.some.inj hget

/-- A byte that is put into a range is what the range shows there. -/
theorem bytes_put {m : ByteMemory} {a ofs : Nat} {bytes : List UInt8} {byte : UInt8}
    (h : m.bytes a bytes.length = bytes) (hofs : ofs < bytes.length) :
    (m.put (a + ofs) [byte]).bytes a (bytes.set ofs byte).length = bytes.set ofs byte := by
  refine bytes_eq_of fun k hk => ?_
  rw [List.length_set] at hk
  rw [List.getElem_set]
  by_cases hko : ofs = k
  · rw [if_pos hko, ← hko]
    have hput : m.put (a + ofs) [byte] (a + ofs + 0) = byte := put_inside Nat.one_pos
    exact hput
  · rw [if_neg hko, put_outside (by rw [List.length_singleton]; omega)]
    exact shown_at h hk

end ByteMemory

end PintosLabs
