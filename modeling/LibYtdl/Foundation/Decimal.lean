import LibYtdl.Foundation.Machine

/-!
# Decimal numbers

The digits that `printf` writes for a number that is not negative, and the number that a text of
digits is read as.
-/

namespace LibYtdl.Decimal

open Machine

/-- The digits of a number, the last one first. -/
def digitsOf (n : ℕ) : List ℕ := if n = 0 then [0] else Nat.digits 10 n

def decimalText (n : ℕ) : Bytes := (digitsOf n).reverse.map fun digit ↦ UInt8.ofNat (48 + digit)

/-- What `%d` writes. -/
def decimalInt (n : ℤ) : Bytes := if n < 0 then 45 :: decimalText n.natAbs else decimalText n.natAbs

def IsDigit (ch : UInt8) : Prop := 48 ≤ ch ∧ ch ≤ 57

instance (ch : UInt8) : Decidable (IsDigit ch) := inferInstanceAs (Decidable (_ ∧ _))

/-- The number that a text of digits writes. -/
def parseDecimal (text : Bytes) : Option ℕ :=
  if text ≠ [] ∧ text.all (fun ch ↦ IsDigit ch) then
    some (Nat.ofDigits 10 (text.reverse.map fun ch ↦ ch.toNat - 48))
  else
    none

theorem decimalInt_natCast (n : ℕ) : decimalInt n = decimalText n := by
  rw [decimalInt, if_neg (by omega), Int.natAbs_natCast]

theorem digitsOf_ne_nil (n : ℕ) : digitsOf n ≠ [] := by
  by_cases h : n = 0
  · simp [digitsOf, h]
  · simp [digitsOf, h, Nat.digits_ne_nil_iff_ne_zero]

theorem digitsOf_lt {n digit : ℕ} (h : digit ∈ digitsOf n) : digit < 10 := by
  by_cases hn : n = 0
  · simp [digitsOf, hn] at h
    omega
  · rw [digitsOf, if_neg hn] at h
    exact Nat.digits_lt_base (by norm_num) h

theorem ofDigits_digitsOf (n : ℕ) : Nat.ofDigits 10 (digitsOf n) = n := by
  by_cases h : n = 0
  · simp [digitsOf, h]
  · rw [digitsOf, if_neg h, Nat.ofDigits_digits]

theorem decimalText_ne_nil (n : ℕ) : decimalText n ≠ [] := by
  simpa [decimalText] using digitsOf_ne_nil n

/-- A number below a power of ten has no more digits than the power. -/
theorem decimalText_length_le {n count : ℕ} (hcount : 0 < count) (h : n < 10 ^ count) :
    (decimalText n).length ≤ count := by
  rw [decimalText, List.length_map, List.length_reverse]
  by_cases hn : n = 0
  · simpa [digitsOf, hn] using Nat.succ_le_of_lt hcount
  · rw [digitsOf, if_neg hn]
    exact (Nat.digits_length_le_iff (by norm_num) n).mpr h

theorem toNat_digit {digit : ℕ} (h : digit < 10) : (UInt8.ofNat (48 + digit)).toNat = 48 + digit :=
  UInt8.toNat_ofNat_of_lt (by simp [UInt8.size]; omega)

theorem isDigit_of_mem {n : ℕ} {ch : UInt8} (h : ch ∈ decimalText n) : IsDigit ch := by
  obtain ⟨digit, hdigit, rfl⟩ := List.mem_map.mp h
  have hlt := digitsOf_lt (List.mem_reverse.mp hdigit)
  have hvalue := toNat_digit hlt
  constructor
  · rw [UInt8.le_iff_toNat_le, hvalue]
    exact Nat.le_add_right 48 digit
  · rw [UInt8.le_iff_toNat_le, hvalue]
    exact Nat.add_le_add_left (Nat.le_of_lt_succ hlt) 48

/-- What was written is read back. -/
theorem parseDecimal_decimalText (n : ℕ) : parseDecimal (decimalText n) = some n := by
  have hall : (decimalText n).all (fun ch ↦ IsDigit ch) = true :=
    List.all_iff_forall_prop.mpr fun ch hch ↦ isDigit_of_mem hch
  have hdigits : (decimalText n).reverse.map (fun ch ↦ ch.toNat - 48) = digitsOf n := by
    rw [decimalText, ← List.map_reverse, List.reverse_reverse, List.map_map]
    calc
      _ = (digitsOf n).map id := by
        apply List.map_congr_left
        intro digit hdigit
        rw [Function.comp_apply, toNat_digit (digitsOf_lt hdigit), Nat.add_sub_cancel_left, id]
      _ = digitsOf n := List.map_id _
  rw [parseDecimal, if_pos ⟨decimalText_ne_nil n, hall⟩, hdigits, ofDigits_digitsOf]

theorem parseDecimal_nil : parseDecimal [] = none := rfl

end LibYtdl.Decimal
