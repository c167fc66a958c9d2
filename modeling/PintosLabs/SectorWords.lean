/-
The two views of a sector: five hundred and twelve bytes, or one hundred and
twenty-eight words of four bytes, least significant byte first.
-/
import PintosLabs.BufferCache

namespace PintosLabs

/-- The words of one sector. -/
abbrev Words := Fin 128 → UInt32

/-- The byte `4 i + j` of a sector, for the byte `j` of the word `i`. -/
def byteIndex (i : Fin 128) (j : Fin 4) : Fin blockSectorSize :=
  ⟨4 * i.val + j.val, by unfold blockSectorSize; omega⟩

def wordsOf (b : Block) : Words := fun i =>
  UInt32.ofNat ((b (byteIndex i 0)).toNat + 256 * (b (byteIndex i 1)).toNat +
    256 ^ 2 * (b (byteIndex i 2)).toNat + 256 ^ 3 * (b (byteIndex i 3)).toNat)

def blockOf (w : Words) : Block := fun k =>
  UInt8.ofNat
    ((w ⟨k.val / 4, by have := k.isLt; unfold blockSectorSize at this; omega⟩).toNat /
      256 ^ (k.val % 4))

theorem wordsOf_toNat (b : Block) (i : Fin 128) :
    (wordsOf b i).toNat =
      (b (byteIndex i 0)).toNat + 256 * (b (byteIndex i 1)).toNat +
        256 ^ 2 * (b (byteIndex i 2)).toNat +
        256 ^ 3 * (b (byteIndex i 3)).toNat := by
  have h₀ := (b (byteIndex i 0)).toNat_lt
  have h₁ := (b (byteIndex i 1)).toNat_lt
  have h₂ := (b (byteIndex i 2)).toNat_lt
  have h₃ := (b (byteIndex i 3)).toNat_lt
  rw [wordsOf, UInt32.toNat_ofNat']
  exact Nat.mod_eq_of_lt (by omega)

theorem blockOf_byteIndex (w : Words) (i : Fin 128) (j : Fin 4) :
    (blockOf w (byteIndex i j)).toNat = (w i).toNat / 256 ^ j.val % 256 := by
  have hdiv : (4 * i.val + j.val) / 4 = i.val := by omega
  have hmod : (4 * i.val + j.val) % 4 = j.val := by omega
  simp only [blockOf, byteIndex, hdiv, hmod, UInt8.toNat_ofNat', Nat.reducePow]

@[simp] theorem wordsOf_blockOf (w : Words) : wordsOf (blockOf w) = w := by
  funext i
  apply UInt32.toNat_inj.mp
  rw [wordsOf_toNat, blockOf_byteIndex, blockOf_byteIndex, blockOf_byteIndex,
    blockOf_byteIndex]
  have hlt := (w i).toNat_lt
  simp only [Fin.val_zero, Fin.val_one, Fin.val_two, Nat.pow_zero, Nat.pow_one,
    Nat.div_one, show (3 : Fin 4).val = 3 from rfl]
  omega

@[simp] theorem blockOf_wordsOf (b : Block) : blockOf (wordsOf b) = b := by
  funext k
  have hk := k.isLt
  unfold blockSectorSize at hk
  obtain ⟨i, j, rfl⟩ : ∃ i j, k = byteIndex i j :=
    ⟨⟨k.val / 4, by omega⟩, ⟨k.val % 4, Nat.mod_lt _ (by decide)⟩,
      Fin.ext (Nat.div_add_mod k.val 4).symm⟩
  apply UInt8.toNat_inj.mp
  rw [blockOf_byteIndex, wordsOf_toNat]
  have h₀ := (b (byteIndex i 0)).toNat_lt
  have h₁ := (b (byteIndex i 1)).toNat_lt
  have h₂ := (b (byteIndex i 2)).toNat_lt
  have h₃ := (b (byteIndex i 3)).toNat_lt
  have hj : j = 0 ∨ j = 1 ∨ j = 2 ∨ j = 3 := by omega
  rcases hj with rfl | rfl | rfl | rfl <;>
    simp only [Fin.val_zero, Fin.val_one, Fin.val_two,
      show (3 : Fin 4).val = 3 from rfl] <;> omega

/-- The sector of zeros. -/
def zeros : Block := fun _ => 0

@[simp] theorem wordsOf_zeros (i : Fin 128) : wordsOf zeros i = 0 := rfl

end PintosLabs
