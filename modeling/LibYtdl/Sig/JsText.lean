import LibYtdl.Foundation.Machine

/-!
# Strings of the JavaScript engine

A string of the engine is a list of units of 16 bits. It is made from the bytes of a C string, which
are read as UTF-8, and goes back the same way; a surrogate without its other half is kept.
-/

namespace LibYtdl.Sig.JsText

open Machine

abbrev JsString := List UInt16

/-! ## From characters to bytes -/

/-- The byte that holds six bits of a character. -/
def trailByte (c shift : ℕ) : UInt8 := .ofNat (((c >>> shift) &&& 0x3f) ||| 0x80)

/-- `unicode_to_utf8`. -/
def unicodeToUtf8 (c : ℕ) : Bytes :=
  if c < 0x80 then [.ofNat c]
  else if c < 0x800 then [.ofNat ((c >>> 6) ||| 0xc0), trailByte c 0]
  else if c < 0x10000 then [.ofNat ((c >>> 12) ||| 0xe0), trailByte c 6, trailByte c 0]
  else if c < 0x00200000 then
    [.ofNat ((c >>> 18) ||| 0xf0), trailByte c 12, trailByte c 6, trailByte c 0]
  else if c < 0x04000000 then
    [.ofNat ((c >>> 24) ||| 0xf8), trailByte c 18, trailByte c 12, trailByte c 6, trailByte c 0]
  else if c < 0x80000000 then
    [.ofNat ((c >>> 30) ||| 0xfc), trailByte c 24, trailByte c 18, trailByte c 12, trailByte c 6,
      trailByte c 0]
  else []

def IsHigh (c : UInt16) : Prop := 0xd800 ≤ c ∧ c < 0xdc00

def IsLow (c : UInt16) : Prop := 0xdc00 ≤ c ∧ c < 0xe000

instance (c : UInt16) : Decidable (IsHigh c) := inferInstanceAs (Decidable (_ ∧ _))

instance (c : UInt16) : Decidable (IsLow c) := inferInstanceAs (Decidable (_ ∧ _))

/-- The character of a pair of surrogates. -/
def pairOf (c c1 : UInt16) : ℕ := (((c.toNat &&& 0x3ff) <<< 10) ||| (c1.toNat &&& 0x3ff)) + 0x10000

/-- `JS_ToCString` of a string. -/
def toCString : JsString → Bytes
  | [] => []
  | [c] => unicodeToUtf8 c.toNat
  | c :: c1 :: text =>
    if IsHigh c ∧ IsLow c1 then unicodeToUtf8 (pairOf c c1) ++ toCString text
    else unicodeToUtf8 c.toNat ++ toCString (c1 :: text)

/-! ## From bytes to characters -/

/-- How many bytes follow the first one, and what the first one holds of the character. -/
def utf8Head (c : UInt8) : Option (ℕ × ℕ) :=
  if 0xc0 ≤ c ∧ c ≤ 0xdf then some (1, c.toNat &&& 0x1f)
  else if 0xe0 ≤ c ∧ c ≤ 0xef then some (2, c.toNat &&& 0xf)
  else if 0xf0 ≤ c ∧ c ≤ 0xf7 then some (3, c.toNat &&& 0x7)
  else if 0xf8 ≤ c ∧ c ≤ 0xfb then some (4, c.toNat &&& 0x3)
  else if 0xfc ≤ c ∧ c ≤ 0xfd then some (5, c.toNat &&& 0x1)
  else none

def utf8MinCode : List ℕ := [0x80, 0x800, 0x10000, 0x00200000, 0x04000000]

/-- The loop that reads the bytes behind the first one. -/
def utf8Tail : ℕ → ℕ → Bytes → Option (ℕ × Bytes)
  | 0, c, p => some (c, p)
  | _ + 1, _, [] => none
  | l + 1, c, b :: p =>
    if b < 0x80 ∨ 0xc0 ≤ b then none else utf8Tail l ((c <<< 6) ||| (b.toNat &&& 0x3f)) p

/-- `unicode_from_utf8`. -/
def unicodeFromUtf8 : Bytes → Option (ℕ × Bytes)
  | [] => none
  | c :: p =>
    if c < 0x80 then some (c.toNat, p)
    else do
      let (l, start) ← utf8Head c
      if p.length < l then none
      else
        let (code, p) ← utf8Tail l start p
        if code < utf8MinCode.getD (l - 1) 0 then none else some (code, p)

def skipTrail (p : Bytes) : Bytes := p.dropWhile fun b ↦ 0x80 ≤ b ∧ b < 0xc0

/-- Where `JS_NewStringLen` goes on after bytes that are no character. -/
def skipInvalid (p : Bytes) : Bytes := skipTrail ((skipTrail p).drop 1)

/-- The loop of `JS_NewStringLen`; each iteration takes a byte or more. -/
def newStringLoop : ℕ → Bytes → JsString
  | 0, _ => []
  | _ + 1, [] => []
  | fuel + 1, b :: p =>
    if b < 128 then b.toUInt16 :: newStringLoop fuel p
    else
      match unicodeFromUtf8 (b :: p) with
      | none => 0xfffd :: newStringLoop fuel (skipInvalid (b :: p))
      | some (c, next) =>
        if c < 0x10000 then .ofNat c :: newStringLoop fuel next
        else if c ≤ 0x10ffff then
          let c := c - 0x10000
          .ofNat ((c >>> 10) + 0xd800) :: .ofNat ((c &&& 0x3ff) + 0xdc00) :: newStringLoop fuel next
        else 0xfffd :: newStringLoop fuel (skipInvalid (b :: p))

/-- `JS_NewString`. -/
def newString (text : Bytes) : JsString := newStringLoop text.length text

/-! ## Texts of ASCII characters -/

@[simp]
theorem toCString_nil : toCString [] = [] := by rw [toCString]

theorem not_isHigh_of_lt {c : UInt16} (h : c < 128) : ¬ IsHigh c := fun hhigh ↦
  absurd (UInt16.lt_of_le_of_lt hhigh.1 h) (by decide)

theorem unicodeToUtf8_ascii {c : UInt16} (h : c < 128) : unicodeToUtf8 c.toNat = [c.toUInt8] := by
  have hlt : c.toNat < 0x80 := UInt16.lt_iff_toNat_lt.mp h
  rw [unicodeToUtf8, if_pos hlt]
  congr 1

/-- An ASCII character is the byte that it is. -/
theorem toCString_cons_ascii {c : UInt16} (h : c < 128) (text : JsString) :
    toCString (c :: text) = c.toUInt8 :: toCString text := by
  cases text with
  | nil =>
    rw [toCString_nil, ← unicodeToUtf8_ascii h]
    rfl
  | cons c1 text =>
    rw [toCString, if_neg fun hpair ↦ not_isHigh_of_lt h hpair.1, unicodeToUtf8_ascii h]
    rfl

/-! ## Joined strings -/

/-- No pair of surrogates stands across the end of an ASCII character. -/
theorem toCString_append {first : JsString} (h : ∀ c ∈ first.getLast?, c < 128)
    (second : JsString) : toCString (first ++ second) = toCString first ++ toCString second := by
  induction first using toCString.induct with
  | case1 => simp
  | case2 c =>
    have hc : c < 128 := h c rfl
    rw [List.singleton_append, toCString_cons_ascii hc, toCString_cons_ascii hc, toCString_nil,
      List.singleton_append]
  | case3 c c1 text hpair ih =>
    have hlast : ∀ c ∈ text.getLast?, c < 128 := by
      intro c hc
      refine h c ?_
      rw [List.getLast?_cons, List.getLast?_cons, Option.mem_def.mp hc]
      rfl
    rw [List.cons_append, List.cons_append, toCString, if_pos hpair, toCString, if_pos hpair,
      ih hlast, List.append_assoc]
  | case4 c c1 text hpair ih =>
    have hlast : ∀ c ∈ (c1 :: text).getLast?, c < 128 := by
      intro c hc
      refine h c ?_
      rw [List.getLast?_cons, Option.mem_def.mp hc]
      rfl
    rw [List.cons_append, List.cons_append, toCString, if_neg hpair, toCString, if_neg hpair,
      ← List.cons_append, ih hlast, List.append_assoc]

/-! ## Lengths -/

theorem unicodeToUtf8_ne_nil {c : ℕ} (h : c < 0x80000000) : unicodeToUtf8 c ≠ [] := by
  unfold unicodeToUtf8
  split_ifs <;> exact List.cons_ne_nil _ _

theorem pairOf_lt (c c1 : UInt16) : pairOf c c1 < 0x80000000 := by
  have hhigh : (c.toNat &&& 0x3ff) <<< 10 < 2 ^ 20 := by
    have hle : c.toNat &&& 0x3ff ≤ 0x3ff := Nat.and_le_right
    rw [Nat.shiftLeft_eq]
    omega
  have hlow : c1.toNat &&& 0x3ff < 2 ^ 20 := Nat.and_le_right.trans_lt (by decide)
  have hor := Nat.or_lt_two_pow hhigh hlow
  unfold pairOf
  omega

/-- Every string but the empty one has a byte. -/
theorem toCString_ne_nil {text : JsString} (h : text ≠ []) : toCString text ≠ [] := by
  have hunit (c : UInt16) : unicodeToUtf8 c.toNat ≠ [] :=
    unicodeToUtf8_ne_nil (c.toNat_lt.trans (by decide))
  cases text using toCString.fun_cases with
  | case1 => exact absurd rfl h
  | case2 c => exact hunit c
  | case3 c c1 text hpair =>
    rw [toCString, if_pos hpair]
    exact List.append_ne_nil_of_left_ne_nil (unicodeToUtf8_ne_nil (pairOf_lt c c1)) _
  | case4 c c1 text hpair =>
    rw [toCString, if_neg hpair]
    exact List.append_ne_nil_of_left_ne_nil (hunit c) _

/-! ## Zeros -/

/-- A byte with its highest bit set is not zero. -/
theorem ofNat_or_ne_zero (x : ℕ) {high : ℕ} (h : high.testBit 7 = true) :
    UInt8.ofNat (x ||| high) ≠ 0 := by
  intro hzero
  have hmod : (x ||| high) % 2 ^ 8 = 0 := by
    have htoNat := congrArg UInt8.toNat hzero
    rwa [UInt8.toNat_ofNat'] at htoNat
  have hbit : ((x ||| high) % 2 ^ 8).testBit 7 = true := by
    rw [Nat.testBit_mod_two_pow, Nat.testBit_or, h, Bool.or_true]
    rfl
  rw [hmod] at hbit
  exact absurd hbit (by decide)

theorem trailByte_ne_zero (c shift : ℕ) : trailByte c shift ≠ 0 := ofNat_or_ne_zero _ (by decide)

theorem zero_not_mem_unicodeToUtf8 {c : ℕ} (h : c ≠ 0) : 0 ∉ unicodeToUtf8 c := by
  have htrail (shift : ℕ) : (0 : UInt8) ≠ trailByte c shift := (trailByte_ne_zero c shift).symm
  have hcons (x : ℕ) {high : ℕ} {rest : Bytes} (hbit : high.testBit 7 = true) (hrest : 0 ∉ rest) :
      0 ∉ UInt8.ofNat (x ||| high) :: rest :=
    List.not_mem_cons_of_ne_of_not_mem (ofNat_or_ne_zero x hbit).symm hrest
  unfold unicodeToUtf8
  split_ifs with hone
  · rw [List.mem_singleton]
    intro hzero
    have htoNat := congrArg UInt8.toNat hzero
    rw [UInt8.toNat_ofNat', Nat.mod_eq_of_lt (by omega)] at htoNat
    exact h htoNat.symm
  · exact hcons _ (by decide) (by simp [htrail])
  · exact hcons _ (by decide) (by simp [htrail])
  · exact hcons _ (by decide) (by simp [htrail])
  · exact hcons _ (by decide) (by simp [htrail])
  · exact hcons _ (by decide) (by simp [htrail])
  · exact List.not_mem_nil

theorem zero_not_mem_toCString {text : JsString} (h : 0 ∉ text) : 0 ∉ toCString text := by
  have hne {c : UInt16} (hc : 0 ≠ c) : c.toNat ≠ 0 := fun hzero ↦
    hc (UInt16.toNat_inj.mp hzero.symm)
  induction text using toCString.induct with
  | case1 => simp
  | case2 c =>
    rw [toCString]
    exact zero_not_mem_unicodeToUtf8 (hne fun hzero ↦ h (by simp [hzero]))
  | case3 c c1 text hpair ih =>
    rw [toCString, if_pos hpair, List.mem_append, not_or]
    refine ⟨zero_not_mem_unicodeToUtf8 (by simp [pairOf]), ih fun hmem ↦ h (by simp [hmem])⟩
  | case4 c c1 text hpair ih =>
    rw [toCString, if_neg hpair, List.mem_append, not_or]
    refine ⟨zero_not_mem_unicodeToUtf8 (hne fun hzero ↦ h (by simp [hzero])), ih fun hmem ↦ ?_⟩
    exact h (List.mem_cons_of_mem _ hmem)

end LibYtdl.Sig.JsText
