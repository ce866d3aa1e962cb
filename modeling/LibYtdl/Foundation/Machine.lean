import Mathlib

/-!
# Bytes and machine integers

The conversions that C inserts between integer types, for a 64-bit `size_t` and a 32-bit `int`.
-/

namespace LibYtdl.Machine

abbrev Bytes := List UInt8

/-- Conversion to `size_t`. -/
def sizeT (value : ℤ) : ℕ := (value % 2 ^ 64).toNat

/-- Conversion to `int`. -/
def toInt (value : ℕ) : ℤ :=
  let low : ℤ := value % 2 ^ 32
  if low < 2 ^ 31 then low else low - 2 ^ 32

theorem sizeT_of_nonneg {value : ℤ} (hvalue : 0 ≤ value) (hlt : value < 2 ^ 64) :
    sizeT value = value.toNat := by
  rw [sizeT, Int.emod_eq_of_lt hvalue hlt]

theorem sizeT_of_neg {value : ℤ} (hvalue : value < 0) (hlt : -(2 ^ 64) ≤ value) :
    sizeT value = (value + 2 ^ 64).toNat := by
  rw [sizeT, ← Int.add_emod_right, Int.emod_eq_of_lt]
  · omega
  · omega

theorem toInt_of_lt {value : ℕ} (hlt : value < 2 ^ 31) : toInt value = value := by
  dsimp only [toInt]
  split <;> omega

theorem toInt_le (value : ℕ) : toInt value ≤ value := by
  dsimp only [toInt]
  split <;> omega

end LibYtdl.Machine
