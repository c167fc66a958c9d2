/-
Bitmaps as lib/kernel/bitmap.c keeps them: an array of elements of thirty-two
bits, each bit reached through a mask.  The free map and the pools of the page
allocator are such bitmaps.  A function that fails an assertion or reaches
outside of the elements has no result.
-/
import PintosLabs.FreeMap
import PintosLabs.Machine

namespace PintosLabs

/-- `ELEM_BITS` -/
def elemBits : Nat := 32

def elemIdx (bitIdx : Nat) : Nat := bitIdx / elemBits

def bitMask (bitIdx : Nat) : BitVec 32 := 1#32 <<< (bitIdx % elemBits)

def elemCnt (bitCnt : Nat) : Nat := (bitCnt + elemBits - 1) / elemBits

def byteCnt (bitCnt : Nat) : Nat := 4 * elemCnt bitCnt

/-- `struct bitmap`, with its elements. -/
structure Bitmap where
  bitCnt : Nat
  bits : List (BitVec 32)
  length_bits : bits.length = elemCnt bitCnt

namespace Bitmap

/-- Change the element `idx`, if there is one. -/
def modifyElem (b : Bitmap) (idx : Nat) (f : BitVec 32 → BitVec 32) : Option Bitmap :=
  if idx < b.bits.length then
    some ⟨b.bitCnt, b.bits.modify idx f, by rw [List.length_modify, b.length_bits]⟩
  else none

def bitmapMark (b : Bitmap) (bitIdx : Nat) : Option Bitmap :=
  b.modifyElem (elemIdx bitIdx) (· ||| bitMask bitIdx)

def bitmapReset (b : Bitmap) (bitIdx : Nat) : Option Bitmap :=
  b.modifyElem (elemIdx bitIdx) (· &&& ~~~bitMask bitIdx)

def bitmapFlip (b : Bitmap) (bitIdx : Nat) : Option Bitmap :=
  b.modifyElem (elemIdx bitIdx) (· ^^^ bitMask bitIdx)

def bitmapSet (b : Bitmap) (idx : Nat) (value : Bool) : Option Bitmap :=
  if idx < b.bitCnt then if value then b.bitmapMark idx else b.bitmapReset idx
  else none

def bitmapTest (b : Bitmap) (idx : Nat) : Option Bool :=
  if idx < b.bitCnt then
    b.bits[elemIdx idx]?.map fun elem => decide (elem &&& bitMask idx ≠ 0)
  else none

def bitmapSetMultiple (b : Bitmap) (start cnt : Nat) (value : Bool) : Option Bitmap :=
  if start + cnt ≤ b.bitCnt then
    (List.range cnt).foldlM (fun b i => b.bitmapSet (start + i) value) b
  else none

def bitmapSetAll (b : Bitmap) (value : Bool) : Option Bitmap :=
  b.bitmapSetMultiple 0 b.bitCnt value

def bitmapCount (b : Bitmap) (start cnt : Nat) (value : Bool) : Option Nat :=
  if start + cnt ≤ b.bitCnt then
    (List.range cnt).foldlM (fun valueCnt i =>
      (b.bitmapTest (start + i)).map fun bit =>
        if bit = value then valueCnt + 1 else valueCnt) 0
  else none

/-- The loop of `bitmap_contains`, with `cnt` bits to go from `i` on. -/
def containsLoop (b : Bitmap) (value : Bool) : Nat → Nat → Option Bool
  | _, 0 => some false
  | i, cnt + 1 => do
      let bit ← b.bitmapTest i
      if bit = value then some true else containsLoop b value (i + 1) cnt

def bitmapContains (b : Bitmap) (start cnt : Nat) (value : Bool) : Option Bool :=
  if start + cnt ≤ b.bitCnt then b.containsLoop value start cnt else none

def bitmapAny (b : Bitmap) (start cnt : Nat) : Option Bool :=
  b.bitmapContains start cnt true

def bitmapNone (b : Bitmap) (start cnt : Nat) : Option Bool :=
  (b.bitmapContains start cnt true).map (!·)

def bitmapAll (b : Bitmap) (start cnt : Nat) : Option Bool :=
  (b.bitmapContains start cnt false).map (!·)

/-- The loop of `bitmap_scan`, with `left` places to go from `i` on. -/
def scanLoop (b : Bitmap) (cnt : Nat) (value : Bool) : Nat → Nat → Option (Option Nat)
  | _, 0 => some none
  | i, left + 1 => do
      let other ← b.bitmapContains i cnt (!value)
      if other then scanLoop b cnt value (i + 1) left else some (some i)

/-- `bitmap_scan`, whose `BITMAP_ERROR` is the inner `none`. -/
def bitmapScan (b : Bitmap) (start cnt : Nat) (value : Bool) : Option (Option Nat) :=
  if start ≤ b.bitCnt then
    if cnt ≤ b.bitCnt then b.scanLoop cnt value start (b.bitCnt - cnt + 1 - start)
    else some none
  else none

def bitmapScanAndFlip (b : Bitmap) (start cnt : Nat) (value : Bool) :
    Option (Option Nat × Bitmap) := do
  let idx ← b.bitmapScan start cnt value
  match idx with
  | none => some (none, b)
  | some i => do
      let b ← b.bitmapSetMultiple i cnt (!value)
      some (some i, b)

/-- The bytes of `struct bitmap` and of its elements. -/
def bitmapBufSize (bitCnt : Nat) : Nat := 8 + byteCnt bitCnt

/-- `bitmap_create_in_buf`, where `elems` lies in the buffer behind the two
members of the structure. -/
def bitmapCreateInBuf (bitCnt : Nat) (elems : Nat → BitVec 32) (blockSize : Nat) :
    Option Bitmap :=
  if bitmapBufSize bitCnt ≤ blockSize then
    bitmapSetAll ⟨bitCnt, (List.range (elemCnt bitCnt)).map elems, by
      rw [List.length_map, List.length_range]⟩ false
  else none

/-- The byte `j` of the elements; the lowest byte of an element comes first. -/
def elemByte (b : Bitmap) (j : Nat) : UInt8 :=
  ⟨(b.bits.getD (j / 4) 0).extractLsb' (8 * (j % 4)) 8⟩

/-- What `bitmap_write` writes to its file. -/
def fileBytes (b : Bitmap) : List UInt8 := (List.range (byteCnt b.bitCnt)).map b.elemByte

/-- The element `k` of an array that holds these bytes. -/
def elemOfBytes (bytes : List UInt8) (k : Nat) : BitVec 32 :=
  ((bytes.getD (4 * k + 3) 0).toBitVec ++ (bytes.getD (4 * k + 2) 0).toBitVec) ++
    ((bytes.getD (4 * k + 1) 0).toBitVec ++ (bytes.getD (4 * k) 0).toBitVec)

def lastMask (b : Bitmap) : BitVec 32 :=
  let lastBits := b.bitCnt % elemBits
  if lastBits ≠ 0 then (1#32 <<< lastBits) - 1 else -1

/-- `bitmap_read` from a file that holds `file`: whether it got all of the bytes, and
the bitmap after it. -/
def bitmapRead (b : Bitmap) (file : List UInt8) : Bool × Bitmap :=
  if 0 < b.bitCnt then
    let size := byteCnt b.bitCnt
    let bytes := file.take size ++ b.fileBytes.drop file.length
    (decide (size ≤ file.length),
      ⟨b.bitCnt, ((List.range (elemCnt b.bitCnt)).map (elemOfBytes bytes)).modify
          (elemCnt b.bitCnt - 1) (· &&& b.lastMask), by
        rw [List.length_modify, List.length_map, List.length_range]⟩)
  else (true, b)

/-- The bit that is stored at `i`, past the last one as well. -/
def bit (b : Bitmap) (i : Nat) : Bool :=
  (b.bits.getD (elemIdx i) 0).getLsbD (i % elemBits)

/-- The bits that the bitmap stands for. -/
def toList (b : Bitmap) : List Bool := (List.range b.bitCnt).map b.bit

@[simp] theorem length_toList (b : Bitmap) : b.toList.length = b.bitCnt := by
  rw [toList, List.length_map, List.length_range]

theorem getElem?_toList (b : Bitmap) (i : Nat) :
    b.toList[i]? = if i < b.bitCnt then some (b.bit i) else none := by
  rw [toList, List.getElem?_map]
  split
  case isTrue hi => rw [List.getElem?_range hi, Option.map_some]
  case isFalse hi =>
    rw [List.getElem?_eq_none (by rw [List.length_range]; omega), Option.map_none]

theorem toList_eq_iff {b : Bitmap} {l : List Bool} (hlength : b.bitCnt = l.length) :
    b.toList = l ↔ ∀ i < b.bitCnt, l[i]? = some (b.bit i) := by
  constructor
  · rintro rfl i hi
    rw [getElem?_toList, if_pos hi]
  · intro hbits
    apply List.ext_getElem?
    intro i
    rw [getElem?_toList]
    split
    case isTrue hi => exact (hbits i hi).symm
    case isFalse hi => exact (List.getElem?_eq_none (by omega)).symm

/-! Elements and masks. -/

theorem getLsbD_bitMask (i k : Nat) (hk : k < elemBits) :
    (bitMask i).getLsbD k = decide (k = i % elemBits) := by
  rw [bitMask, ← BitVec.twoPow_eq, BitVec.getLsbD_twoPow]
  have hlt : i % elemBits < elemBits := Nat.mod_lt _ (by decide)
  rw [decide_eq_true (show i % elemBits < 32 from hlt), Bool.true_and]
  exact decide_eq_decide.mpr eq_comm

theorem and_bitMask (elem : BitVec 32) (i : Nat) :
    decide (elem &&& bitMask i ≠ 0) = elem.getLsbD (i % elemBits) := by
  rw [bitMask, ← BitVec.twoPow_eq, BitVec.and_twoPow]
  cases hbit : elem.getLsbD (i % elemBits) with
  | false => simp
  | true =>
      have hone : (BitVec.twoPow 32 (i % elemBits)).getLsbD (i % elemBits) = true := by
        rw [BitVec.getLsbD_twoPow]
        simpa using show i % elemBits < 32 from Nat.mod_lt _ (by decide)
      simp only [if_true, decide_eq_true_eq]
      intro hzero
      rw [hzero] at hone
      simp at hone

theorem elemIdx_lt_elemCnt (i n : Nat) : elemIdx i < elemCnt n ↔ i < 32 * elemCnt n := by
  rw [elemIdx, elemBits, Nat.div_lt_iff_lt_mul (by decide), Nat.mul_comm]

theorem elemIdx_lt (b : Bitmap) {i : Nat} (hi : i < b.bitCnt) :
    elemIdx i < b.bits.length := by
  rw [b.length_bits, elemIdx, elemCnt, elemBits]
  omega

theorem bitmapTest_eq (b : Bitmap) (i : Nat) : b.bitmapTest i = b.toList[i]? := by
  rw [getElem?_toList, bitmapTest]
  split
  case isTrue hi =>
    rw [bit, List.getD_eq_getElem?_getD, List.getElem?_eq_getElem (b.elemIdx_lt hi),
      Option.map_some, Option.getD_some, and_bitMask]
  case isFalse => rfl

/-- Changing an element in the bit of a mask changes this bit of the bitmap. -/
theorem modifyElem_toList (b : Bitmap) {i : Nat} {f : BitVec 32 → BitVec 32} {g : Bool → Bool}
    (hf : ∀ elem, ∀ k < elemBits, (f elem).getLsbD k =
      if k = i % elemBits then g (elem.getLsbD k) else elem.getLsbD k) :
    (b.modifyElem (elemIdx i) f).map toList =
      if elemIdx i < elemCnt b.bitCnt then some (b.toList.modify i g) else none := by
  rw [modifyElem, b.length_bits]
  split
  case isFalse => rfl
  case isTrue hi =>
    rw [Option.map_some]
    congr 1
    rw [toList_eq_iff (by rw [List.length_modify, length_toList])]
    intro j hj
    have hk : j % elemBits < elemBits := Nat.mod_lt _ (by decide)
    have hget := List.getElem?_eq_getElem (b.elemIdx_lt hj)
    rw [List.getElem?_modify, getElem?_toList, if_pos hj, bit, bit,
      List.getD_eq_getElem?_getD, List.getD_eq_getElem?_getD, List.getElem?_modify, hget]
    simp only [Option.map_eq_map, Option.map_some, Option.getD_some, Option.some.injEq]
    by_cases hij : i = j
    · subst hij
      rw [if_pos rfl, if_pos rfl, hf _ _ hk, if_pos rfl]
    · rw [if_neg hij]
      split
      case isFalse => rfl
      case isTrue hsame =>
        have hne : j % elemBits ≠ i % elemBits := by
          simp only [elemIdx, elemBits] at *
          omega
        rw [hf _ _ hk, if_neg hne]

theorem bitmapMark_toList (b : Bitmap) (i : Nat) :
    (b.bitmapMark i).map toList =
      if elemIdx i < elemCnt b.bitCnt then some (b.toList.modify i fun _ => true)
      else none := by
  apply b.modifyElem_toList
  intro elem k hk
  rw [BitVec.getLsbD_or, getLsbD_bitMask i k hk]
  split <;> simp_all

theorem bitmapReset_toList (b : Bitmap) (i : Nat) :
    (b.bitmapReset i).map toList =
      if elemIdx i < elemCnt b.bitCnt then some (b.toList.modify i fun _ => false)
      else none := by
  apply b.modifyElem_toList
  intro elem k hk
  rw [BitVec.getLsbD_and, BitVec.getLsbD_not, getLsbD_bitMask i k hk]
  have hwidth : k < 32 := hk
  split <;> simp_all

theorem bitmapSet_toList (b : Bitmap) (i : Nat) (value : Bool) :
    (b.bitmapSet i value).map toList =
      if i < b.bitCnt then some (b.toList.set i value) else none := by
  rw [bitmapSet]
  split
  case isFalse => rfl
  case isTrue hi =>
    have helem : elemIdx i < elemCnt b.bitCnt := b.length_bits ▸ b.elemIdx_lt hi
    cases value with
    | true =>
        rw [if_pos rfl, bitmapMark_toList, if_pos helem, List.set_eq_modify]
    | false =>
        rw [if_neg Bool.false_ne_true, bitmapReset_toList, if_pos helem, List.set_eq_modify]

theorem exists_bitmapSet (b : Bitmap) {i : Nat} (value : Bool) (hi : i < b.bitCnt) :
    ∃ b', b.bitmapSet i value = some b' ∧ b'.toList = b.toList.set i value := by
  have hset := b.bitmapSet_toList i value
  rw [if_pos hi] at hset
  exact Option.map_eq_some_iff.mp hset

/-! Loops over the bits. -/

theorem exists_setLoop (start : Nat) (value : Bool) (is : List Nat) :
    ∀ b : Bitmap, (∀ i ∈ is, start + i < b.bitCnt) →
      ∃ b', is.foldlM (fun b i => b.bitmapSet (start + i) value) b = some b' ∧
        b'.toList = is.foldl (fun l i => l.set (start + i) value) b.toList := by
  induction is with
  | nil => exact fun b _ => ⟨b, rfl, rfl⟩
  | cons i is ih =>
      intro b his
      obtain ⟨b₁, hset, hlist⟩ := b.exists_bitmapSet value (his i List.mem_cons_self)
      have hcnt : b₁.bitCnt = b.bitCnt := by
        rw [← length_toList, hlist, List.length_set, length_toList]
      obtain ⟨b₂, hloop, hrest⟩ := ih b₁ fun j hj =>
        hcnt.symm ▸ his j (List.mem_cons_of_mem i hj)
      refine ⟨b₂, ?_, ?_⟩
      · rw [List.foldlM_cons, hset]
        exact hloop
      · rw [hrest, hlist, List.foldl_cons]

theorem bitmapSetMultiple_toList (b : Bitmap) (start cnt : Nat) (value : Bool) :
    (b.bitmapSetMultiple start cnt value).map toList =
      if start + cnt ≤ b.bitCnt then
        some (PintosLabs.bitmapSetMultiple b.toList start cnt value)
      else none := by
  rw [bitmapSetMultiple]
  split
  case isFalse => rfl
  case isTrue hfits =>
    obtain ⟨b', hloop, hlist⟩ := exists_setLoop start value (List.range cnt) b fun i hi => by
      have hlt := List.mem_range.mp hi
      omega
    rw [hloop, Option.map_some, hlist, PintosLabs.bitmapSetMultiple]

theorem containsLoop_eq (b : Bitmap) (value : Bool) {start cnt : Nat}
    (hfits : start + cnt ≤ b.bitCnt) :
    b.containsLoop value start cnt =
      some (PintosLabs.bitmapContains b.toList start cnt value) := by
  rw [PintosLabs.bitmapContains]
  induction cnt generalizing start with
  | zero => simp [containsLoop]
  | succ cnt ih =>
      have hlt : start < b.toList.length := by
        rw [length_toList]
        omega
      rw [containsLoop, bitmapTest_eq, List.getElem?_eq_getElem hlt,
        List.drop_eq_getElem_cons hlt, List.take_succ_cons, List.contains_cons]
      simp only [Option.bind_eq_bind, Option.bind_some]
      rw [ih (by omega)]
      split
      case isTrue hbit => simp [hbit]
      case isFalse hbit => simp [Ne.symm hbit]

theorem bitmapContains_eq (b : Bitmap) (start cnt : Nat) (value : Bool) :
    b.bitmapContains start cnt value =
      if start + cnt ≤ b.bitCnt then
        some (PintosLabs.bitmapContains b.toList start cnt value)
      else none := by
  rw [bitmapContains]
  split
  case isTrue hfits => exact b.containsLoop_eq value hfits
  case isFalse => rfl

theorem scanLoop_eq (b : Bitmap) {cnt : Nat} (value : Bool) {start left : Nat}
    (hfits : left = 0 ∨ start + left + cnt ≤ b.bitCnt + 1) :
    b.scanLoop cnt value start left =
      some ((List.range' start left).find? fun i =>
        !PintosLabs.bitmapContains b.toList i cnt (!value)) := by
  induction left generalizing start with
  | zero => rfl
  | succ left ih =>
      rw [scanLoop, bitmapContains_eq, if_pos (by omega), List.range'_succ, List.find?_cons]
      simp only [Option.bind_eq_bind, Option.bind_some]
      rw [ih (by omega)]
      cases PintosLabs.bitmapContains b.toList start cnt (!value) <;> rfl

theorem bitmapScan_eq (b : Bitmap) (start cnt : Nat) (value : Bool) :
    b.bitmapScan start cnt value =
      if start ≤ b.bitCnt then some (PintosLabs.bitmapScan b.toList start cnt value)
      else none := by
  rw [bitmapScan, PintosLabs.bitmapScan, length_toList]
  split
  case isFalse => rfl
  case isTrue hstart =>
    split
    case isFalse => rfl
    case isTrue hcnt => exact b.scanLoop_eq value (by omega)

/-! What is left after a range has been set, and what a scan finds. -/

@[simp] theorem length_setLoop (l : List Bool) (start : Nat) (value : Bool) (indices : List Nat) :
    (indices.foldl (fun b i => b.set (start + i) value) l).length = l.length := by
  induction indices generalizing l with
  | nil => rfl
  | cons i rest ih => rw [List.foldl_cons, ih, List.length_set]

theorem length_setMultiple (l : List Bool) (start cnt : Nat) (value : Bool) :
    (PintosLabs.bitmapSetMultiple l start cnt value).length = l.length :=
  length_setLoop l start value _

theorem getElem?_setMultiple (l : List Bool) (start cnt : Nat) (value : Bool) (j : Nat) :
    (PintosLabs.bitmapSetMultiple l start cnt value)[j]? =
      if start ≤ j ∧ j < start + cnt ∧ j < l.length then some value else l[j]? := by
  rw [PintosLabs.bitmapSetMultiple]
  induction cnt with
  | zero =>
      rw [List.range_zero, List.foldl_nil, if_neg (by omega)]
  | succ cnt ih =>
      rw [List.range_succ, List.foldl_append, List.foldl_cons, List.foldl_nil,
        List.getElem?_set, ih, length_setLoop]
      split
      case isTrue hj =>
        split
        case isTrue hlt => rw [if_pos (by omega)]
        case isFalse hlt => rw [if_neg (by omega), List.getElem?_eq_none (by omega)]
      case isFalse hj =>
        split
        case isTrue hin => rw [if_pos (by omega)]
        case isFalse hout => rw [if_neg (by omega)]

theorem contains_eq_false_iff (l : List Bool) (start cnt : Nat) (value : Bool) :
    PintosLabs.bitmapContains l start cnt value = false ↔
      ∀ j, start ≤ j → j < start + cnt → l[j]? ≠ some value := by
  rw [PintosLabs.bitmapContains, Bool.eq_false_iff, ne_eq, List.contains_iff_mem,
    List.mem_iff_getElem?]
  constructor
  · intro hnone j hstart hstop hget
    refine hnone ⟨j - start, ?_⟩
    rw [List.getElem?_take_of_lt (by omega), List.getElem?_drop, ← hget]
    congr 1
    omega
  · rintro hnone ⟨i, hget⟩
    rw [List.getElem?_take] at hget
    split at hget
    case isTrue hi =>
      rw [List.getElem?_drop] at hget
      exact hnone (start + i) (by omega) (by omega) hget
    case isFalse => cases hget

/-- A place where `cnt` bits are equal to `value`. -/
def Fits (l : List Bool) (cnt : Nat) (value : Bool) (i : Nat) : Prop :=
  i + cnt ≤ l.length ∧ ∀ j, i ≤ j → j < i + cnt → l[j]? = some value

theorem fits_iff {l : List Bool} {cnt : Nat} {value : Bool} {i : Nat}
    (hi : i + cnt ≤ l.length) :
    Fits l cnt value i ↔ PintosLabs.bitmapContains l i cnt (!value) = false := by
  rw [contains_eq_false_iff, Fits, and_iff_right hi]
  refine forall_congr' fun j => forall_congr' fun _ => forall_congr' fun hj => ?_
  rw [List.getElem?_eq_getElem (by omega)]
  cases l[j] <;> cases value <;> simp

theorem scan_eq_some_iff (l : List Bool) (start cnt : Nat) (value : Bool) (i : Nat) :
    PintosLabs.bitmapScan l start cnt value = some i ↔
      start ≤ i ∧ Fits l cnt value i ∧ ∀ j, start ≤ j → j < i → ¬Fits l cnt value j := by
  rw [PintosLabs.bitmapScan]
  split
  case isFalse hcnt =>
    constructor
    · intro h
      cases h
    · intro h
      have hfits := h.2.1.1
      omega
  case isTrue hcnt =>
    rw [List.find?_range'_eq_some]
    simp only [List.mem_range'_1, Bool.not_eq_true', Bool.not_not]
    constructor
    · rintro ⟨hclear, ⟨hstart, hstop⟩, hfirst⟩
      have hi : i + cnt ≤ l.length := by omega
      refine ⟨hstart, (fits_iff hi).mpr hclear, fun j hj hji hfits => ?_⟩
      have hfilled := hfirst j hj hji
      rw [(fits_iff hfits.1).mp hfits] at hfilled
      cases hfilled
    · rintro ⟨hstart, hfits, hfirst⟩
      have hi := hfits.1
      refine ⟨(fits_iff hi).mp hfits, ⟨hstart, by omega⟩, fun j hj hji => ?_⟩
      by_contra hclear
      exact hfirst j hj hji ((fits_iff (by omega)).mpr (Bool.eq_false_of_not_eq_true hclear))

theorem scan_eq_none_iff (l : List Bool) (start cnt : Nat) (value : Bool) :
    PintosLabs.bitmapScan l start cnt value = none ↔
      ∀ i, start ≤ i → ¬Fits l cnt value i := by
  constructor
  · intro hnone i hstart hfits
    obtain ⟨j, hj, hleast⟩ : ∃ j, (start ≤ j ∧ Fits l cnt value j) ∧
        ∀ k < j, ¬(start ≤ k ∧ Fits l cnt value k) := by
      classical
      have hex : ∃ j, start ≤ j ∧ Fits l cnt value j := ⟨i, hstart, hfits⟩
      exact ⟨Nat.find hex, Nat.find_spec hex, fun k hk => Nat.find_min hex hk⟩
    have hsome := (scan_eq_some_iff l start cnt value j).mpr
      ⟨hj.1, hj.2, fun k hk hkj hfits' => hleast k hkj ⟨hk, hfits'⟩⟩
    rw [hnone] at hsome
    cases hsome
  · intro hall
    cases hscan : PintosLabs.bitmapScan l start cnt value with
    | none => rfl
    | some i =>
        obtain ⟨hstart, hfits, _⟩ := (scan_eq_some_iff l start cnt value i).mp hscan
        exact absurd hfits (hall i hstart)

theorem bitCnt_of_toList {b : Bitmap} {l : List Bool} (hlist : b.toList = l) :
    b.bitCnt = l.length := by
  rw [← hlist, length_toList]

/-- Setting a range, bit by bit. -/
theorem exists_setMultiple (b : Bitmap) {start cnt : Nat} (value : Bool)
    (hfits : start + cnt ≤ b.bitCnt) :
    ∃ b', b.bitmapSetMultiple start cnt value = some b' ∧ b'.bitCnt = b.bitCnt ∧
      ∀ j < b.bitCnt, b'.bit j = if start ≤ j ∧ j < start + cnt then value else b.bit j := by
  have hset := b.bitmapSetMultiple_toList start cnt value
  rw [if_pos hfits] at hset
  obtain ⟨b', hset, hlist⟩ := Option.map_eq_some_iff.mp hset
  have hcnt : b'.bitCnt = b.bitCnt := by
    rw [bitCnt_of_toList hlist, length_setMultiple, length_toList]
  refine ⟨b', hset, hcnt, fun j hj => ?_⟩
  have hbit := congrArg (fun l : List Bool => l[j]?) hlist
  simp only [getElem?_setMultiple, getElem?_toList, length_toList] at hbit
  rw [if_pos (hcnt ▸ hj), if_pos hj] at hbit
  split at hbit
  case isTrue hin =>
    rw [if_pos ⟨hin.1, hin.2.1⟩]
    exact Option.some.inj hbit
  case isFalse hout =>
    rw [if_neg (by omega)]
    exact Option.some.inj hbit

theorem fits_toList_iff (b : Bitmap) {cnt i : Nat} {value : Bool} :
    Fits b.toList cnt value i ↔
      i + cnt ≤ b.bitCnt ∧ ∀ j, i ≤ j → j < i + cnt → b.bit j = value := by
  rw [Fits, length_toList]
  refine and_congr_right fun hi => forall_congr' fun j => forall_congr' fun _ =>
    forall_congr' fun hj => ?_
  rw [getElem?_toList, if_pos (by omega), Option.some_inj]

/-- A scan from the start either finds a place and flips it, or there is none. -/
theorem scanAndFlip_cases (b : Bitmap) (cnt : Nat) (value : Bool) :
    (∃ i b', b.bitmapScanAndFlip 0 cnt value = some (some i, b') ∧ i + cnt ≤ b.bitCnt ∧
      (∀ j, i ≤ j → j < i + cnt → b.bit j = value) ∧ b'.bitCnt = b.bitCnt ∧
      ∀ j < b.bitCnt, b'.bit j = if i ≤ j ∧ j < i + cnt then !value else b.bit j) ∨
    (b.bitmapScanAndFlip 0 cnt value = some (none, b) ∧
      ∀ i, i + cnt ≤ b.bitCnt → ∃ j, i ≤ j ∧ j < i + cnt ∧ b.bit j ≠ value) := by
  have hscan := b.bitmapScan_eq 0 cnt value
  rw [if_pos (Nat.zero_le _)] at hscan
  cases hfound : PintosLabs.bitmapScan b.toList 0 cnt value with
  | some i =>
      obtain ⟨hfits, hbits⟩ := b.fits_toList_iff.mp ((scan_eq_some_iff _ _ _ _ _).mp hfound).2.1
      obtain ⟨b', hset, hcnt, hbit⟩ := b.exists_setMultiple (!value) hfits
      refine Or.inl ⟨i, b', ?_, hfits, hbits, hcnt, hbit⟩
      rw [bitmapScanAndFlip, hscan, hfound]
      simp only [Option.bind_eq_bind, Option.bind_some, hset]
  | none =>
      refine Or.inr ⟨by rw [bitmapScanAndFlip, hscan, hfound]; rfl, fun i hi => ?_⟩
      have hnone := (scan_eq_none_iff _ _ _ _).mp hfound i (Nat.zero_le i)
      rw [b.fits_toList_iff] at hnone
      by_contra hall
      refine hnone ⟨hi, fun j hj hj' => ?_⟩
      by_contra hne
      exact hall ⟨j, hj, hj', hne⟩

theorem bitmapAll_eq_true (b : Bitmap) {start cnt : Nat} (hfits : start + cnt ≤ b.bitCnt)
    (hall : ∀ j, start ≤ j → j < start + cnt → b.bit j = true) :
    b.bitmapAll start cnt = some true := by
  have hclear : PintosLabs.bitmapContains b.toList start cnt (!true) = false :=
    (fits_iff (by rwa [length_toList])).mp (b.fits_toList_iff.mpr ⟨hfits, hall⟩)
  rw [bitmapAll, bitmapContains_eq, if_pos hfits, Option.map_some]
  rw [Bool.not_true] at hclear
  rw [hclear, Bool.not_false]

/-! The file of a bitmap. -/

theorem elemByte_testBit (b : Bitmap) {j k : Nat} (hk : k < 8) :
    (b.elemByte j).toNat.testBit k = b.bit (8 * j + k) := by
  have hidx : elemIdx (8 * j + k) = j / 4 := by
    rw [elemIdx, elemBits]
    omega
  have hofs : (8 * j + k) % elemBits = 8 * (j % 4) + k := by
    rw [elemBits]
    omega
  rw [bit, hidx, hofs]
  change ((b.bits.getD (j / 4) 0).extractLsb' (8 * (j % 4)) 8).getLsbD k = _
  rw [BitVec.getLsbD_extractLsb', decide_eq_true hk, Bool.true_and]

theorem getLsbD_elemOfBytes (bytes : List UInt8) (k : Nat) {i : Nat} (hi : i < 32) :
    (elemOfBytes bytes k).getLsbD i =
      (bytes.getD (4 * k + i / 8) 0).toNat.testBit (i % 8) := by
  have hbyte : ∀ x : UInt8, ∀ n, x.toBitVec.getLsbD n = x.toNat.testBit n := fun _ _ => rfl
  simp only [elemOfBytes, BitVec.getLsbD_append, hbyte]
  have hcases : i / 8 = 0 ∨ i / 8 = 1 ∨ i / 8 = 2 ∨ i / 8 = 3 := by omega
  rcases hcases with h | h | h | h
  · rw [if_pos (by omega), if_pos (by omega), h, Nat.mod_eq_of_lt (by omega), Nat.add_zero]
  · rw [if_pos (by omega), if_neg (by omega), h, show i % 8 = i - 8 by omega]
  · rw [if_neg (by omega), if_pos (by omega), h, show i % 8 = i - (8 + 8) by omega]
  · rw [if_neg (by omega), if_neg (by omega), h, show i % 8 = i - (8 + 8) - 8 by omega]

theorem getLsbD_lastMask (b : Bitmap) {k : Nat} (hk : k < elemBits) :
    b.lastMask.getLsbD k =
      decide (b.bitCnt % elemBits = 0 ∨ k < b.bitCnt % elemBits) := by
  have hlt : b.bitCnt % elemBits < elemBits := Nat.mod_lt _ (by decide)
  simp only [lastMask]
  split
  case isTrue hne =>
    rw [← BitVec.twoPow_eq]
    have hpow : (BitVec.twoPow 32 (b.bitCnt % elemBits) - 1).toNat =
        2 ^ (b.bitCnt % elemBits) - 1 := by
      have hle : 2 ^ (b.bitCnt % elemBits) < 2 ^ 32 := Nat.pow_lt_pow_right (by decide) hlt
      have hpos : 1 ≤ 2 ^ (b.bitCnt % elemBits) := Nat.one_le_two_pow
      have htwo : (BitVec.twoPow 32 (b.bitCnt % elemBits)).toNat = 2 ^ (b.bitCnt % elemBits) :=
        BitVec.toNat_twoPow_of_lt hlt
      rw [BitVec.toNat_sub_of_le, htwo]
      · rfl
      · rw [BitVec.le_def, htwo]
        exact hpos
    rw [BitVec.getLsbD, hpow, Nat.testBit_two_pow_sub_one]
    exact decide_eq_decide.mpr ⟨Or.inr, fun h => h.resolve_left hne⟩
  case isFalse hzero =>
    rw [decide_eq_true (Or.inl (Decidable.not_not.mp hzero)),
      show (-1 : BitVec 32) = BitVec.allOnes 32 from rfl, BitVec.getLsbD_allOnes]
    exact decide_eq_true hk

theorem bit_bitmapRead (b : Bitmap) {file : List UInt8} (hsize : byteCnt b.bitCnt ≤ file.length)
    {i : Nat} (hi : i < 32 * elemCnt b.bitCnt) :
    (b.bitmapRead file).2.bit i =
      (decide (i < b.bitCnt) && (file.getD (i / 8) 0).toNat.testBit (i % 8)) := by
  have hpos : 0 < b.bitCnt := by
    rw [elemCnt, elemBits] at hi
    omega
  have hidx : elemIdx i < elemCnt b.bitCnt := (elemIdx_lt_elemCnt i _).mpr hi
  have hofs : i % elemBits < elemBits := Nat.mod_lt _ (by decide)
  have hbytes : file.take (byteCnt b.bitCnt) ++ b.fileBytes.drop file.length =
      file.take (byteCnt b.bitCnt) := by
    rw [List.drop_of_length_le, List.append_nil]
    rwa [fileBytes, List.length_map, List.length_range]
  have hin : i / 8 < byteCnt b.bitCnt := by
    rw [byteCnt]
    omega
  have hbyte : (elemOfBytes (file.take (byteCnt b.bitCnt)) (elemIdx i)).getLsbD (i % elemBits) =
      (file.getD (i / 8) 0).toNat.testBit (i % 8) := by
    rw [getLsbD_elemOfBytes _ _ hofs]
    have hj : 4 * elemIdx i + i % elemBits / 8 = i / 8 := by
      rw [elemIdx, elemBits]
      omega
    have hk : i % elemBits % 8 = i % 8 := by
      rw [elemBits]
      omega
    rw [hj, hk, List.getD_eq_getElem?_getD, List.getD_eq_getElem?_getD,
      List.getElem?_take_of_lt hin]
  rw [bitmapRead, if_pos hpos, bit, List.getD_eq_getElem?_getD, List.getElem?_modify,
    List.getElem?_map, List.getElem?_range hidx, hbytes]
  simp only [Option.map_some, Option.map_eq_map, Option.getD_some]
  split
  case isTrue hlast =>
    rw [BitVec.getLsbD_and, getLsbD_lastMask b hofs, hbyte, Bool.and_comm]
    congr 1
    apply decide_eq_decide.mpr
    simp only [elemIdx, elemCnt, elemBits] at hlast hidx ⊢
    omega
  case isFalse hlast =>
    rw [hbyte, decide_eq_true, Bool.true_and]
    simp only [elemIdx, elemCnt, elemBits] at hlast hidx
    omega

/-- Nothing is stored past the last bit. -/
def Clean (b : Bitmap) : Prop := ∀ i, b.bitCnt ≤ i → i < 32 * elemCnt b.bitCnt → b.bit i = false

/-- What `bitmap_write` puts into a file, `bitmap_read` gets out of it, into any bitmap
of this size: the same bits, and zeros for what is left of the last element.  The bits
are those that the file stands for to the free map. -/
theorem bitmap_file_round_trip (b b' : Bitmap) (hcnt : b'.bitCnt = b.bitCnt) :
    (b'.bitmapRead b.fileBytes).1 = true ∧
      (b'.bitmapRead b.fileBytes).2.toList = b.toList ∧
      (0 < b.bitCnt → (b'.bitmapRead b.fileBytes).2.Clean) ∧
      bitmapOfBytes b.bitCnt b.fileBytes = b.toList := by
  have hlength : b.fileBytes.length = byteCnt b.bitCnt := by
    rw [fileBytes, List.length_map, List.length_range]
  have hsize : byteCnt b'.bitCnt ≤ b.fileBytes.length := by rw [hcnt, hlength]
  have hread : (b'.bitmapRead b.fileBytes).2.bitCnt = b.bitCnt := by
    rw [bitmapRead]
    split <;> exact hcnt
  have hstored : ∀ i < b.bitCnt,
      (b.fileBytes.getD (i / 8) 0).toNat.testBit (i % 8) = b.bit i := by
    intro i hi
    have hin : i / 8 < byteCnt b.bitCnt := by
      rw [byteCnt, elemCnt, elemBits]
      omega
    rw [fileBytes, List.getD_eq_getElem?_getD, List.getElem?_map, List.getElem?_range hin,
      Option.map_some, Option.getD_some, elemByte_testBit b (Nat.mod_lt _ (by decide)),
      Nat.div_add_mod]
  refine ⟨?_, ?_, ?_, ?_⟩
  · rw [bitmapRead]
    split
    · exact decide_eq_true hsize
    · rfl
  · rw [toList_eq_iff (by rw [hread, length_toList])]
    intro i hi
    rw [hread] at hi
    rw [getElem?_toList, if_pos hi, bit_bitmapRead b' hsize, hcnt, decide_eq_true hi,
      Bool.true_and, hstored i hi]
    rw [hcnt, elemCnt, elemBits]
    omega
  · intro _ i hstart hstop
    rw [hread] at hstart hstop
    rw [bit_bitmapRead b' hsize (hcnt ▸ hstop), hcnt, decide_eq_false (by omega),
      Bool.false_and]
  · rw [bitmapOfBytes, toList]
    exact List.map_congr_left fun i hi => hstored i (List.mem_range.mp hi)

namespace BitmapWitness

/-- Ten bits in a word that has ones behind them. -/
def odds : Bitmap := ⟨10, [0xAAAAAAAA#32], rfl⟩

def zeros : Bitmap := ⟨10, [0#32], rfl⟩

theorem odds_read_back :
    (zeros.bitmapRead odds.fileBytes).1 = true ∧
      (zeros.bitmapRead odds.fileBytes).2.toList = odds.toList ∧
      (0 < odds.bitCnt → (zeros.bitmapRead odds.fileBytes).2.Clean) ∧
      bitmapOfBytes odds.bitCnt odds.fileBytes = odds.toList :=
  bitmap_file_round_trip odds zeros rfl

end BitmapWitness

/-! The bitmap as its callers see it. -/

inductive Call where
  | set (idx : Nat) (value : Bool)
  | mark (idx : Nat)
  | reset (idx : Nat)
  | flip (idx : Nat)
  | test (idx : Nat)
  | setAll (value : Bool)
  | setMultiple (start cnt : Nat) (value : Bool)
  | count (start cnt : Nat) (value : Bool)
  | contains (start cnt : Nat) (value : Bool)
  | any (start cnt : Nat)
  | none (start cnt : Nat)
  | all (start cnt : Nat)
  | scan (start cnt : Nat) (value : Bool)
  | scanAndFlip (start cnt : Nat) (value : Bool)

inductive Answer where
  | unit
  | bit (value : Bool)
  | count (n : Nat)
  | index (i : Option Nat)

def call (b : Bitmap) : Call → Option (Answer × Bitmap)
  | .set idx value => (b.bitmapSet idx value).map (Answer.unit, ·)
  | .mark idx => (b.bitmapMark idx).map (Answer.unit, ·)
  | .reset idx => (b.bitmapReset idx).map (Answer.unit, ·)
  | .flip idx => (b.bitmapFlip idx).map (Answer.unit, ·)
  | .test idx => (b.bitmapTest idx).map (Answer.bit ·, b)
  | .setAll value => (b.bitmapSetAll value).map (Answer.unit, ·)
  | .setMultiple start cnt value =>
      (b.bitmapSetMultiple start cnt value).map (Answer.unit, ·)
  | .count start cnt value => (b.bitmapCount start cnt value).map (Answer.count ·, b)
  | .contains start cnt value => (b.bitmapContains start cnt value).map (Answer.bit ·, b)
  | .any start cnt => (b.bitmapAny start cnt).map (Answer.bit ·, b)
  | .none start cnt => (b.bitmapNone start cnt).map (Answer.bit ·, b)
  | .all start cnt => (b.bitmapAll start cnt).map (Answer.bit ·, b)
  | .scan start cnt value => (b.bitmapScan start cnt value).map (Answer.index ·, b)
  | .scanAndFlip start cnt value =>
      (b.bitmapScanAndFlip start cnt value).map (Prod.map Answer.index id)

end Bitmap

end PintosLabs
