import Mathlib

/-!
# Arithmetic of `int`

An `int` has 32 bits. A result that it cannot hold, and a division by zero, are undefined.
-/

namespace LibYtdl.SignedInt

/-- The value is one of an `int`. -/
def Fits (value : ℤ) : Prop := -2 ^ 31 ≤ value ∧ value < 2 ^ 31

instance (value : ℤ) : Decidable (Fits value) := inferInstanceAs (Decidable (_ ∧ _))

def checked (value : ℤ) : Option ℤ := if Fits value then some value else none

def add (first second : ℤ) : Option ℤ := checked (first + second)

def sub (first second : ℤ) : Option ℤ := checked (first - second)

def mul (first second : ℤ) : Option ℤ := checked (first * second)

/-- Division rounds to zero. -/
def div (first second : ℤ) : Option ℤ :=
  if second = 0 then none else checked (first.tdiv second)

theorem checked_of_fits {value : ℤ} (h : Fits value) : checked value = some value := if_pos h

theorem checked_of_not_fits {value : ℤ} (h : ¬ Fits value) : checked value = none := if_neg h

theorem bind_checked {value : ℤ} {next : ℤ → Option ℤ} {result : ℤ} :
    (checked value).bind next = some result ↔ Fits value ∧ next value = some result := by
  by_cases h : Fits value
  · rw [checked_of_fits h, Option.bind_some]
    exact (and_iff_right h).symm
  · rw [checked_of_not_fits h, Option.bind_none]
    exact iff_of_false (Option.some_ne_none result).symm fun hand ↦ h hand.1

theorem checked_eq_some {value result : ℤ} :
    checked value = some result ↔ Fits value ∧ value = result := by
  rw [checked, Option.ite_none_right_eq_some, Option.some.injEq]

end LibYtdl.SignedInt
