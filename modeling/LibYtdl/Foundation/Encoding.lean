import LibYtdl.Foundation.Machine

/-!
# Little-endian numbers in byte strings

Numbers of a fixed width and arrays of 32-bit words as `fwrite` leaves them in a file, and what a
read of that many bytes makes of any byte string: bytes that are missing at the end count as zero.
-/

namespace LibYtdl.Encoding

open Machine

/-- The number that bytes stand for, the least significant byte first. -/
def value (bytes : Bytes) : ℕ := Nat.ofDigits 256 (bytes.map UInt8.toNat)

/-- The `width` low bytes of a number, the least significant byte first. -/
def littleEndian : ℕ → ℕ → Bytes
  | 0, _ => []
  | width + 1, number => UInt8.ofNat number :: littleEndian width (number / 256)

theorem littleEndian_succ (width number : ℕ) : littleEndian (width + 1) number =
    UInt8.ofNat number :: littleEndian width (number / 256) := rfl

@[simp] theorem value_nil : value [] = 0 := rfl

@[simp] theorem value_cons (byte : UInt8) (bytes : Bytes) :
    value (byte :: bytes) = byte.toNat + 256 * value bytes := by
  simp [value, Nat.ofDigits_cons]

@[simp] theorem littleEndian_length (width number : ℕ) :
    (littleEndian width number).length = width := by
  induction width generalizing number with
  | zero => rfl
  | succ width ih => rw [littleEndian_succ, List.length_cons, ih]

theorem value_littleEndian (width number : ℕ) :
    value (littleEndian width number) = number % 256 ^ width := by
  induction width generalizing number with
  | zero => exact (Nat.mod_one number).symm
  | succ width ih =>
    calc
      value (littleEndian (width + 1) number) =
          (UInt8.ofNat number).toNat + 256 * (number / 256 % 256 ^ width) := by
        rw [littleEndian_succ, value_cons, ih]
      _ = number % 256 + 256 * (number / 256 % 256 ^ width) := by
        rw [UInt8.toNat_ofNat']
      _ = number % 256 ^ (width + 1) := by
        rw [pow_succ', Nat.mod_mul]

theorem value_littleEndian_of_lt {width number : ℕ} (hlt : number < 256 ^ width) :
    value (littleEndian width number) = number := by
  rw [value_littleEndian, Nat.mod_eq_of_lt hlt]

theorem littleEndian_zero (width : ℕ) : littleEndian width 0 = List.replicate width 0 := by
  induction width with
  | zero => rfl
  | succ width ih =>
    rw [littleEndian_succ, Nat.zero_div, ih, List.replicate_succ]
    rfl

theorem littleEndian_byte {number : ℕ} (hlt : number < 256) :
    littleEndian 4 number = [UInt8.ofNat number, 0, 0, 0] := by
  have hzero : number / 256 = 0 := Nat.div_eq_of_lt hlt
  rw [littleEndian_succ, hzero, littleEndian_zero]
  rfl

/-- Zeros at the end do not count. -/
theorem value_append_zeros (bytes : Bytes) (count : ℕ) :
    value (bytes ++ List.replicate count 0) = value bytes := by
  simp [value, Nat.ofDigits_append_replicate_zero]

/-! ## Arrays of words -/

/-- An array of 32-bit words. -/
def wordsBytes (words : List UInt32) : Bytes :=
  words.flatMap fun word ↦ littleEndian 4 word.toNat

/-- The word at an index of an array that was read from these bytes. -/
def wordAt (bytes : Bytes) (index : ℕ) : UInt32 :=
  UInt32.ofNat (value ((bytes.drop (4 * index)).take 4))

theorem wordsBytes_cons (word : UInt32) (words : List UInt32) :
    wordsBytes (word :: words) = littleEndian 4 word.toNat ++ wordsBytes words := rfl

@[simp] theorem wordsBytes_length (words : List UInt32) :
    (wordsBytes words).length = 4 * words.length := by
  induction words with
  | nil => rfl
  | cons word words ih =>
    rw [wordsBytes_cons, List.length_append, ih, littleEndian_length, List.length_cons]
    ring

theorem wordAt_append_zero (word : UInt32) (rest : Bytes) :
    wordAt (littleEndian 4 word.toNat ++ rest) 0 = word := by
  have hword : word.toNat < 256 ^ 4 := word.toNat_lt
  rw [wordAt, Nat.mul_zero, List.drop_zero,
    List.take_left' (littleEndian_length 4 word.toNat), value_littleEndian_of_lt hword,
    UInt32.ofNat_toNat]

theorem wordAt_append_succ (word : UInt32) (rest : Bytes) (index : ℕ) :
    wordAt (littleEndian 4 word.toNat ++ rest) (index + 1) = wordAt rest index := by
  have hdrop : 4 * (index + 1) = (littleEndian 4 word.toNat).length + 4 * index := by
    rw [littleEndian_length]
    ring
  rw [wordAt, hdrop, List.drop_length_add_append, wordAt]

/-- Reading an array back, whatever follows it. -/
theorem wordAt_wordsBytes (words : List UInt32) (rest : Bytes) {index : ℕ}
    (hindex : index < words.length) :
    wordAt (wordsBytes words ++ rest) index = words[index] := by
  induction words generalizing index with
  | nil => simp at hindex
  | cons word words ih =>
    rw [wordsBytes_cons, List.append_assoc]
    cases index with
    | zero => exact wordAt_append_zero word _
    | succ index =>
      rw [wordAt_append_succ]
      exact ih (Nat.lt_of_succ_lt_succ hindex)

/-- A word that is a small `int`. -/
theorem toNat_le_of_toInt {word : UInt32} {bound : ℕ} (hnonneg : 0 ≤ word.toInt32.toInt)
    (hle : word.toInt32.toInt ≤ bound) : word.toNat ≤ bound := by
  have htoInt : word.toInt32.toInt = word.toBitVec.toInt := rfl
  rw [htoInt, BitVec.toInt_eq_toNat_cond] at hnonneg hle
  have hlt : word.toNat < 2 ^ 32 := word.toNat_lt
  have hnat : word.toBitVec.toNat = word.toNat := rfl
  split at hle <;> omega

theorem wordAt_append_zeros (bytes : Bytes) (count index : ℕ) :
    wordAt (bytes ++ List.replicate count 0) index = wordAt bytes index := by
  rw [wordAt, wordAt, List.drop_append, List.take_append, List.drop_replicate,
    List.take_replicate, value_append_zeros]

end LibYtdl.Encoding
