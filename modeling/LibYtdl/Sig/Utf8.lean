import LibYtdl.Sig.JsText

/-!
# Characters, bytes and strings

What `unicode_from_utf8` reads are the bytes that `unicode_to_utf8` writes, and nothing else: each
code has one encoding. From this follows which strings and which byte strings survive the way into
the engine and back.
-/

namespace LibYtdl.Sig.Utf8

open Machine JsText

/-! ## The bytes of a character -/

/-- The bytes behind the first one, `l` of them. -/
def trailBytes (c : ℕ) : ℕ → Bytes
  | 0 => []
  | l + 1 => trailByte c (6 * l) :: trailBytes c l

/-- The high bits of a first byte that `l` bytes follow. -/
def mark (l : ℕ) : ℕ := 256 - 2 ^ (7 - l)

/-- `l` bytes follow the first one: for each `l`, the codes are those from the least one on that are
below the least one for `l + 1`. -/
structure Follow (l c : ℕ) : Prop where
  pos : 1 ≤ l
  le : l ≤ 5
  least : utf8MinCode.getD (l - 1) 0 ≤ c
  bound : c < 2 ^ (5 * l + 6)

theorem trailBytes_length (c l : ℕ) : (trailBytes c l).length = l := by
  induction l with
  | zero => rfl
  | succ l ih => rw [trailBytes, List.length_cons, ih]

theorem trailByte_toNat (c shift : ℕ) : (trailByte c shift).toNat = 128 + (c >>> shift) % 64 := by
  have hlow : (c >>> shift) &&& 0x3f = (c >>> shift) % 64 := Nat.and_two_pow_sub_one_eq_mod _ 6
  have hor : (c >>> shift) % 64 ||| 128 = 128 + (c >>> shift) % 64 := by
    rw [Nat.or_comm]
    exact (Nat.two_pow_add_eq_or_of_lt (i := 7) (by omega) 1).symm
  rw [trailByte, hlow, hor, UInt8.toNat_ofNat', Nat.mod_eq_of_lt (by omega)]

theorem isTrail_iff {b : UInt8} :
    ¬ (b < 0x80 ∨ 0xc0 ≤ b) ↔ 128 ≤ b.toNat ∧ b.toNat < 192 := by
  rw [not_or, UInt8.not_lt, UInt8.not_le, UInt8.le_iff_toNat_le, UInt8.lt_iff_toNat_lt]
  rfl

theorem isTrail_trailByte (c shift : ℕ) :
    ¬ (trailByte c shift < 0x80 ∨ 0xc0 ≤ trailByte c shift) := by
  rw [isTrail_iff, trailByte_toNat]
  omega

/-- One byte is read: the six bits that it holds are the low ones. -/
theorem eq_shift_or_iff {n start : ℕ} {b : UInt8} (hrange : ¬ (b < 0x80 ∨ 0xc0 ≤ b)) :
    n = (start <<< 6) ||| (b.toNat &&& 0x3f) ↔ n / 64 = start ∧ b.toNat = 128 + n % 64 := by
  have hlow : b.toNat &&& 0x3f = b.toNat % 64 := Nat.and_two_pow_sub_one_eq_mod _ 6
  have hor : (start <<< 6) ||| (b.toNat % 64) = 64 * start + b.toNat % 64 := by
    rw [← Nat.shiftLeft_add_eq_or_of_lt (show b.toNat % 64 < 2 ^ 6 by omega), Nat.shiftLeft_eq]
    omega
  rw [hlow, hor]
  rw [isTrail_iff] at hrange
  omega

theorem utf8Tail_eq_some {l start : ℕ} {p rest : Bytes} {c : ℕ} :
    utf8Tail l start p = some (c, rest) ↔
      c >>> (6 * l) = start ∧ p = trailBytes c l ++ rest := by
  induction l generalizing start p with
  | zero =>
    rw [utf8Tail, Option.some.injEq, Prod.mk.injEq]
    exact ⟨fun ⟨hstart, hp⟩ ↦ ⟨hstart.symm, hp⟩, fun ⟨hstart, hp⟩ ↦ ⟨hstart.symm, hp⟩⟩
  | succ l ih =>
    have hshift : c >>> (6 * (l + 1)) = c >>> (6 * l) / 64 := by
      rw [Nat.mul_succ, Nat.shiftRight_add]
      exact Nat.shiftRight_eq_div_pow _ 6
    rw [trailBytes, hshift]
    cases p with
    | nil => simp [utf8Tail]
    | cons b p =>
      rw [utf8Tail, List.cons_append, List.cons.injEq]
      by_cases hrange : b < 0x80 ∨ 0xc0 ≤ b
      · rw [if_pos hrange]
        refine ⟨nofun, fun h ↦ absurd hrange ?_⟩
        rw [h.2.1]
        exact isTrail_trailByte c (6 * l)
      · rw [if_neg hrange, ih, eq_shift_or_iff hrange, and_assoc, ← UInt8.toNat_inj (a := b),
          trailByte_toNat]

theorem utf8Head_eq_some {b : UInt8} {l start : ℕ} :
    utf8Head b = some (l, start) ↔
      (1 ≤ l ∧ l ≤ 5) ∧ start < 2 ^ (6 - l) ∧ b.toNat = start + mark l := by
  -- the first bytes that `k` bytes follow, with the mask of the source
  have hform {k low mask : ℕ} (hk : 1 ≤ k ∧ k ≤ 5) (hlow : low = mark k)
      (hmask : mask = 2 ^ (6 - k) - 1) (hb : low ≤ b.toNat ∧ b.toNat ≤ low + mask) :
      some (k, b.toNat &&& mask) = some (l, start) ↔
        (1 ≤ l ∧ l ≤ 5) ∧ start < 2 ^ (6 - l) ∧ b.toNat = start + mark l := by
    obtain ⟨hpos, hle⟩ := hk
    subst hlow hmask
    rw [Nat.and_two_pow_sub_one_eq_mod, Option.some.injEq, Prod.mk.injEq]
    constructor
    · rintro ⟨rfl, rfl⟩
      refine ⟨⟨hpos, hle⟩, Nat.mod_lt _ (by positivity), ?_⟩
      interval_cases k <;> simp only [mark] at hb ⊢ <;> omega
    · rintro ⟨⟨hpos', hle'⟩, hstart, hsum⟩
      interval_cases k <;> interval_cases l <;> simp only [mark] at hb hsum <;> omega
  have hlt := b.toNat_lt
  unfold utf8Head
  simp only [UInt8.le_iff_toNat_le, UInt8.reduceToNat]
  split_ifs with h1 h2 h3 h4 h5
  · exact hform (by decide) (by decide) (by decide) h1
  · exact hform (by decide) (by decide) (by decide) h2
  · exact hform (by decide) (by decide) (by decide) h3
  · exact hform (by decide) (by decide) (by decide) h4
  · exact hform (by decide) (by decide) (by decide) h5
  · refine ⟨nofun, ?_⟩
    rintro ⟨⟨hpos, hle⟩, hstart, hsum⟩
    interval_cases l <;> simp only [mark] at hsum <;> omega

/-! ## One encoding for each code -/

theorem shift_lt_iff {c l : ℕ} (hle : l ≤ 5) :
    c >>> (6 * l) < 2 ^ (6 - l) ↔ c < 2 ^ (5 * l + 6) := by
  have hpow : 2 ^ (6 - l) * 2 ^ (6 * l) = 2 ^ (5 * l + 6) := by
    rw [← pow_add]
    congr 1
    omega
  rw [Nat.shiftRight_eq_div_pow, Nat.div_lt_iff_lt_mul (by positivity), hpow]

theorem exists_follow {c : ℕ} (hleast : 0x80 ≤ c) (hbound : c < 0x80000000) :
    ∃ l, Follow l c := by
  by_cases h1 : c < 0x800
  · exact ⟨1, by decide, by decide, hleast, h1⟩
  by_cases h2 : c < 0x10000
  · exact ⟨2, by decide, by decide, not_lt.mp h1, h2⟩
  by_cases h3 : c < 0x200000
  · exact ⟨3, by decide, by decide, not_lt.mp h2, h3⟩
  by_cases h4 : c < 0x4000000
  · exact ⟨4, by decide, by decide, not_lt.mp h3, h4⟩
  · exact ⟨5, by decide, by decide, not_lt.mp h4, hbound⟩

section Follow

variable {l c : ℕ}

theorem Follow.ge (h : Follow l c) : 0x80 ≤ c := by
  obtain ⟨hpos, hle, hleast, -⟩ := h
  refine le_trans ?_ hleast
  interval_cases l <;> decide

theorem Follow.lt (h : Follow l c) : c < 0x80000000 := by
  have hle := h.le
  have hpow : 2 ^ (5 * l + 6) ≤ 2 ^ 31 := Nat.pow_le_pow_right two_pos (by omega)
  exact h.bound.trans_le hpow

/-- The first byte and the bytes behind it. -/
theorem Follow.encoded (h : Follow l c) :
    unicodeToUtf8 c = .ofNat (c >>> (6 * l) + mark l) :: trailBytes c l := by
  have hshift := (shift_lt_iff h.le).mpr h.bound
  have hor {x m k : ℕ} (hx : x < 2 ^ k) : x ||| (m <<< k) = x + m <<< k := by
    rw [Nat.or_comm, ← Nat.shiftLeft_add_eq_or_of_lt hx, Nat.add_comm]
  obtain ⟨hpos, hle, hleast, hbound⟩ := h
  have hcons {x y : ℕ} (hxy : x = y) (bytes : Bytes) :
      UInt8.ofNat x :: bytes = UInt8.ofNat y :: bytes := by rw [hxy]
  interval_cases l
  · change 0x80 ≤ c at hleast
    change c < 0x800 at hbound
    rw [unicodeToUtf8, if_neg (by omega), if_pos hbound]
    exact hcons (hor (m := 6) hshift) _
  · change 0x800 ≤ c at hleast
    change c < 0x10000 at hbound
    rw [unicodeToUtf8, if_neg (by omega), if_neg (by omega), if_pos hbound]
    exact hcons (hor (m := 14) hshift) _
  · change 0x10000 ≤ c at hleast
    change c < 0x200000 at hbound
    rw [unicodeToUtf8, if_neg (by omega), if_neg (by omega), if_neg (by omega), if_pos hbound]
    exact hcons (hor (m := 30) hshift) _
  · change 0x200000 ≤ c at hleast
    change c < 0x4000000 at hbound
    rw [unicodeToUtf8, if_neg (by omega), if_neg (by omega), if_neg (by omega), if_neg (by omega),
      if_pos hbound]
    exact hcons (hor (m := 62) hshift) _
  · change 0x4000000 ≤ c at hleast
    change c < 0x80000000 at hbound
    rw [unicodeToUtf8, if_neg (by omega), if_neg (by omega), if_neg (by omega), if_neg (by omega),
      if_neg (by omega), if_pos hbound]
    exact hcons (hor (m := 126) hshift) _

theorem Follow.first_toNat (h : Follow l c) :
    (UInt8.ofNat (c >>> (6 * l) + mark l)).toNat = c >>> (6 * l) + mark l := by
  have hshift := (shift_lt_iff h.le).mpr h.bound
  obtain ⟨hpos, hle, -, -⟩ := h
  rw [UInt8.toNat_ofNat']
  refine Nat.mod_eq_of_lt ?_
  interval_cases l <;> simp only [mark] at hshift ⊢ <;> omega

theorem Follow.not_ascii (h : Follow l c) : ¬ UInt8.ofNat (c >>> (6 * l) + mark l) < 0x80 := by
  intro hlt
  rw [UInt8.lt_iff_toNat_lt, h.first_toNat] at hlt
  obtain ⟨hpos, hle, -, -⟩ := h
  interval_cases l <;> simp only [mark, UInt8.reduceToNat] at hlt <;> omega

end Follow

theorem unicodeToUtf8_of_lt {c : ℕ} (h : c < 0x80) : unicodeToUtf8 c = [.ofNat c] := by
  rw [unicodeToUtf8, if_pos h]

/-- **What is read as a character is its encoding**, the shortest one, and nothing else. -/
theorem unicodeFromUtf8_eq_some {p rest : Bytes} {c : ℕ} :
    unicodeFromUtf8 p = some (c, rest) ↔ c < 0x80000000 ∧ p = unicodeToUtf8 c ++ rest := by
  constructor
  · intro h
    cases p with
    | nil => cases h
    | cons b p =>
      rw [unicodeFromUtf8] at h
      split at h
      · next hascii =>
        rw [Option.some.injEq, Prod.mk.injEq] at h
        obtain ⟨rfl, rfl⟩ := h
        have hlt : b.toNat < 0x80 := UInt8.lt_iff_toNat_lt.mp hascii
        rw [unicodeToUtf8_of_lt hlt, UInt8.ofNat_toNat]
        exact ⟨hlt.trans (by decide), rfl⟩
      · obtain ⟨⟨l, start⟩, hhead, h⟩ := Option.bind_eq_some_iff.mp h
        dsimp only at h
        split at h
        · cases h
        obtain ⟨⟨code, next⟩, htail, h⟩ := Option.bind_eq_some_iff.mp h
        dsimp only at h
        split at h
        · cases h
        · next hleast =>
          rw [Option.some.injEq, Prod.mk.injEq] at h
          obtain ⟨rfl, rfl⟩ := h
          obtain ⟨⟨hpos, hle⟩, hstart, hb⟩ := Iff.mp utf8Head_eq_some hhead
          obtain ⟨rfl, rfl⟩ := Iff.mp utf8Tail_eq_some htail
          have hfollow : Follow l code :=
            ⟨hpos, hle, not_lt.mp hleast, (shift_lt_iff hle).mp hstart⟩
          rw [hfollow.encoded, List.cons_append, ← hb, UInt8.ofNat_toNat]
          exact ⟨hfollow.lt, rfl⟩
  · rintro ⟨hbound, rfl⟩
    by_cases hascii : c < 0x80
    · have htoNat : (UInt8.ofNat c).toNat = c := Nat.mod_eq_of_lt (by omega)
      rw [unicodeToUtf8_of_lt hascii, List.singleton_append, unicodeFromUtf8,
        if_pos (by rw [UInt8.lt_iff_toNat_lt, htoNat]; exact hascii), htoNat]
    · obtain ⟨l, hfollow⟩ := exists_follow (not_lt.mp hascii) hbound
      have hhead := Iff.mpr utf8Head_eq_some ⟨⟨hfollow.pos, hfollow.le⟩,
        (shift_lt_iff hfollow.le).mpr hfollow.bound, hfollow.first_toNat⟩
      have htail : utf8Tail l (c >>> (6 * l)) (trailBytes c l ++ rest) = some (c, rest) :=
        Iff.mpr utf8Tail_eq_some ⟨rfl, rfl⟩
      have hlength : ¬ (trailBytes c l ++ rest).length < l := by
        rw [List.length_append, trailBytes_length]
        omega
      rw [hfollow.encoded, List.cons_append, unicodeFromUtf8, if_neg hfollow.not_ascii, hhead,
        Option.bind_eq_bind, Option.bind_some]
      dsimp only
      rw [if_neg hlength, htail, Option.bind_eq_bind, Option.bind_some]
      dsimp only
      rw [if_neg (not_lt.mpr hfollow.least)]

/-! ## From bytes to units -/

/-- The units of a character: one, or a pair of surrogates. -/
def unitsOf (c : ℕ) : JsString :=
  if c < 0x10000 then [.ofNat c]
  else [.ofNat (((c - 0x10000) >>> 10) + 0xd800), .ofNat (((c - 0x10000) &&& 0x3ff) + 0xdc00)]

theorem skipTrail_length_le (p : Bytes) : (skipTrail p).length ≤ p.length :=
  (List.dropWhile_suffix _).length_le

theorem skipInvalid_length_le (b : UInt8) (p : Bytes) :
    (skipInvalid (b :: p)).length ≤ p.length := by
  have hskip : ((skipTrail (b :: p)).drop 1).length ≤ p.length := by
    have hle := skipTrail_length_le (b :: p)
    rw [List.length_cons] at hle
    rw [List.length_drop]
    omega
  exact (skipTrail_length_le _).trans hskip

theorem length_lt_of_unicodeFromUtf8 {p next : Bytes} {c : ℕ}
    (h : unicodeFromUtf8 p = some (c, next)) : next.length < p.length := by
  obtain ⟨hbound, rfl⟩ := Iff.mp unicodeFromUtf8_eq_some h
  have hpos := List.length_pos_of_ne_nil (unicodeToUtf8_ne_nil hbound)
  rw [List.length_append]
  omega

theorem newStringLoop_congr {fuel more : ℕ} {p : Bytes} (hfuel : p.length ≤ fuel)
    (hmore : p.length ≤ more) : newStringLoop fuel p = newStringLoop more p := by
  induction fuel generalizing more p with
  | zero =>
    obtain rfl := List.length_eq_zero_iff.mp (Nat.le_zero.mp hfuel)
    cases more <;> rfl
  | succ fuel ih =>
    cases p with
    | nil => cases more <;> rfl
    | cons b p =>
      obtain ⟨more, rfl⟩ := Nat.exists_eq_add_one_of_ne_zero (Nat.ne_zero_of_lt hmore)
      rw [List.length_cons, Nat.add_le_add_iff_right] at hfuel hmore
      have hsame {next : Bytes} (hnext : next.length ≤ p.length) :
          newStringLoop fuel next = newStringLoop more next :=
        ih (hnext.trans hfuel) (hnext.trans hmore)
      have hinvalid := hsame (skipInvalid_length_le b p)
      rw [newStringLoop, newStringLoop, hsame le_rfl, hinvalid]
      cases hread : unicodeFromUtf8 (b :: p) with
      | none => rfl
      | some read =>
        have hnext : read.2.length < (b :: p).length := length_lt_of_unicodeFromUtf8 hread
        rw [List.length_cons, Nat.lt_succ_iff] at hnext
        dsimp only
        rw [hsame hnext]

theorem newStringLoop_eq {fuel : ℕ} {p : Bytes} (h : p.length ≤ fuel) :
    newStringLoop fuel p = newString p := newStringLoop_congr h le_rfl

/-- A character is read, and then what follows it. -/
theorem newString_encoded {c : ℕ} (hc : c ≤ 0x10ffff) (rest : Bytes) :
    newString (unicodeToUtf8 c ++ rest) = unitsOf c ++ newString rest := by
  by_cases hascii : c < 0x80
  · have htoNat : (UInt8.ofNat c).toNat = c := Nat.mod_eq_of_lt (by omega)
    have hbyte : (UInt8.ofNat c).toUInt16 = .ofNat c := by
      rw [← UInt16.toNat_inj, UInt8.toNat_toUInt16, htoNat]
      exact (Nat.mod_eq_of_lt (by omega)).symm
    rw [unicodeToUtf8_of_lt hascii, List.singleton_append, newString, List.length_cons,
      newStringLoop, if_pos (by rw [UInt8.lt_iff_toNat_lt, htoNat]; exact hascii), hbyte, unitsOf,
      if_pos (by omega)]
    rfl
  · obtain ⟨l, hfollow⟩ := exists_follow (not_lt.mp hascii) (by omega)
    have hread : unicodeFromUtf8 (unicodeToUtf8 c ++ rest) = some (c, rest) :=
      Iff.mpr unicodeFromUtf8_eq_some ⟨by omega, rfl⟩
    have hlength := length_lt_of_unicodeFromUtf8 hread
    rw [newString]
    rw [hfollow.encoded, List.cons_append] at hread hlength ⊢
    rw [List.length_cons, Nat.lt_succ_iff] at hlength
    rw [List.length_cons, newStringLoop, if_neg hfollow.not_ascii, hread]
    dsimp only
    rw [newStringLoop_eq hlength, unitsOf]
    split_ifs <;> rfl

theorem newString_flatMap {codes : List ℕ} (h : ∀ c ∈ codes, c ≤ 0x10ffff) :
    newString (codes.flatMap unicodeToUtf8) = codes.flatMap unitsOf := by
  induction codes with
  | nil => rfl
  | cons c codes ih =>
    rw [List.flatMap_cons, List.flatMap_cons, newString_encoded (h c List.mem_cons_self),
      ih fun c hc ↦ h c (List.mem_cons_of_mem _ hc)]

/-! ## From units to characters -/

/-- The characters of a string: a pair of surrogates is one, a surrogate alone is kept. -/
def codesOf : JsString → List ℕ
  | [] => []
  | [c] => [c.toNat]
  | c :: c1 :: text =>
    if IsHigh c ∧ IsLow c1 then pairOf c c1 :: codesOf text else c.toNat :: codesOf (c1 :: text)

theorem codesOf_singleton (c : UInt16) : codesOf [c] = [c.toNat] := rfl

theorem codesOf_pair {c c1 : UInt16} (hpair : IsHigh c ∧ IsLow c1) (text : JsString) :
    codesOf (c :: c1 :: text) = pairOf c c1 :: codesOf text := if_pos hpair

theorem codesOf_unit {c c1 : UInt16} (hpair : ¬ (IsHigh c ∧ IsLow c1)) (text : JsString) :
    codesOf (c :: c1 :: text) = c.toNat :: codesOf (c1 :: text) := if_neg hpair

/-- Two codes in a row that are not the halves of a pair. -/
def Apart (c d : ℕ) : Prop := ¬ ((0xd800 ≤ c ∧ c < 0xdc00) ∧ 0xdc00 ≤ d ∧ d < 0xe000)

/-- The codes that a string can have. -/
structure Codes (codes : List ℕ) : Prop where
  le : ∀ c ∈ codes, c ≤ 0x10ffff
  apart : codes.IsChain Apart

theorem isHigh_iff {c : UInt16} : IsHigh c ↔ 0xd800 ≤ c.toNat ∧ c.toNat < 0xdc00 := by
  rw [IsHigh, UInt16.le_iff_toNat_le, UInt16.lt_iff_toNat_lt]
  rfl

theorem isLow_iff {c : UInt16} : IsLow c ↔ 0xdc00 ≤ c.toNat ∧ c.toNat < 0xe000 := by
  rw [IsLow, UInt16.le_iff_toNat_le, UInt16.lt_iff_toNat_lt]
  rfl

theorem pairOf_eq (c c1 : UInt16) :
    pairOf c c1 = 1024 * (c.toNat % 1024) + c1.toNat % 1024 + 0x10000 := by
  have hmod (n : ℕ) : n &&& 0x3ff = n % 1024 := Nat.and_two_pow_sub_one_eq_mod n 10
  have hlow : c1.toNat % 1024 < 2 ^ 10 := Nat.mod_lt _ (by decide)
  rw [pairOf, hmod, hmod, ← Nat.shiftLeft_add_eq_or_of_lt hlow, Nat.shiftLeft_eq, Nat.mul_comm]

theorem unitsOf_toNat (c : UInt16) : unitsOf c.toNat = [c] := by
  rw [unitsOf, if_pos c.toNat_lt, UInt16.ofNat_toNat]

theorem unitsOf_pairOf {c c1 : UInt16} (hhigh : IsHigh c) (hlow : IsLow c1) :
    unitsOf (pairOf c c1) = [c, c1] := by
  rw [isHigh_iff] at hhigh
  rw [isLow_iff] at hlow
  have hmod (n : ℕ) : n &&& 0x3ff = n % 1024 := Nat.and_two_pow_sub_one_eq_mod n 10
  have hfirst : ((pairOf c c1 - 0x10000) >>> 10) + 0xd800 = c.toNat := by
    rw [pairOf_eq, Nat.shiftRight_eq_div_pow]
    omega
  have hsecond : ((pairOf c c1 - 0x10000) &&& 0x3ff) + 0xdc00 = c1.toNat := by
    rw [pairOf_eq, hmod]
    omega
  rw [unitsOf, if_neg (by rw [pairOf_eq]; omega), hfirst, hsecond, UInt16.ofNat_toNat,
    UInt16.ofNat_toNat]

theorem toCString_eq (text : JsString) : toCString text = (codesOf text).flatMap unicodeToUtf8 := by
  induction text using toCString.induct with
  | case1 => exact toCString_nil
  | case2 c => rw [toCString, codesOf_singleton, List.flatMap_singleton]
  | case3 c c1 text hpair ih =>
    rw [toCString, if_pos hpair, codesOf_pair hpair, ih, List.flatMap_cons]
  | case4 c c1 text hpair ih =>
    rw [toCString, if_neg hpair, codesOf_unit hpair, ih, List.flatMap_cons]

theorem flatMap_codesOf (text : JsString) : (codesOf text).flatMap unitsOf = text := by
  induction text using toCString.induct with
  | case1 => rfl
  | case2 c => rw [codesOf_singleton, List.flatMap_singleton, unitsOf_toNat]
  | case3 c c1 text hpair ih =>
    rw [codesOf_pair hpair, List.flatMap_cons, ih, unitsOf_pairOf hpair.1 hpair.2]
    rfl
  | case4 c c1 text hpair ih =>
    rw [codesOf_unit hpair, List.flatMap_cons, ih, unitsOf_toNat]
    rfl

theorem codesOf_le (text : JsString) : ∀ c ∈ codesOf text, c ≤ 0x10ffff := by
  have hunit (c : UInt16) : c.toNat ≤ 0x10ffff := c.toNat_lt.le.trans (by decide)
  induction text using toCString.induct with
  | case1 => exact List.forall_mem_nil _
  | case2 c =>
    rw [codesOf_singleton, List.forall_mem_singleton]
    exact hunit c
  | case3 c c1 text hpair ih =>
    rw [codesOf_pair hpair, List.forall_mem_cons]
    exact ⟨by rw [pairOf_eq]; omega, ih⟩
  | case4 c c1 text hpair ih =>
    rw [codesOf_unit hpair, List.forall_mem_cons]
    exact ⟨hunit c, ih⟩

/-- The first character of a string is its first unit, or a pair, which is no surrogate. -/
theorem head_codesOf (c : UInt16) (text : JsString) :
    ∃ rest, codesOf (c :: text) = c.toNat :: rest ∨
      ∃ pair, 0x10000 ≤ pair ∧ codesOf (c :: text) = pair :: rest := by
  cases text with
  | nil => exact ⟨[], .inl rfl⟩
  | cons c1 text =>
    by_cases hpair : IsHigh c ∧ IsLow c1
    · exact ⟨_, .inr ⟨_, by rw [pairOf_eq]; omega, codesOf_pair hpair text⟩⟩
    · exact ⟨_, .inl (codesOf_unit hpair text)⟩

theorem codes_codesOf (text : JsString) : Codes (codesOf text) := by
  refine ⟨codesOf_le text, ?_⟩
  induction text using toCString.induct with
  | case1 => exact .nil
  | case2 c =>
    rw [codesOf_singleton]
    exact .singleton _
  | case3 c c1 text hpair ih =>
    rw [codesOf_pair hpair]
    refine List.IsChain.cons ih fun d _ hboth ↦ ?_
    have hpairOf := hboth.1.2
    rw [pairOf_eq] at hpairOf
    omega
  | case4 c c1 text hpair ih =>
    rw [codesOf_unit hpair]
    refine List.IsChain.cons ih fun d hd hboth ↦
      hpair ⟨Iff.mpr isHigh_iff hboth.1, Iff.mpr isLow_iff ?_⟩
    obtain ⟨rest, hrest | ⟨pair, hpair, hrest⟩⟩ := head_codesOf c1 text
    · rw [hrest] at hd
      obtain rfl := Option.some.inj hd
      exact hboth.2
    · rw [hrest] at hd
      obtain rfl := Option.some.inj hd
      exact absurd hboth.2.2 (by omega)

theorem unitsOf_of_lt {c : ℕ} (h : c < 0x10000) : ∃ u : UInt16, u.toNat = c ∧ unitsOf c = [u] :=
  ⟨.ofNat c, Nat.mod_eq_of_lt h, if_pos h⟩

theorem unitsOf_of_ge {c : ℕ} (h : 0x10000 ≤ c) (hle : c ≤ 0x10ffff) :
    ∃ u u1, IsHigh u ∧ IsLow u1 ∧ pairOf u u1 = c ∧ unitsOf c = [u, u1] := by
  have hmod : (c - 0x10000) &&& 0x3ff = (c - 0x10000) % 1024 :=
    Nat.and_two_pow_sub_one_eq_mod _ 10
  have hdiv : (c - 0x10000) >>> 10 = (c - 0x10000) / 1024 := Nat.shiftRight_eq_div_pow _ 10
  have htoNat {n : ℕ} (hn : n < 0x10000) : (UInt16.ofNat n).toNat = n := by
    rw [UInt16.toNat_ofNat', Nat.mod_eq_of_lt hn]
  have hfirst := htoNat (n := (c - 0x10000) / 1024 + 0xd800) (by omega)
  have hsecond := htoNat (n := (c - 0x10000) % 1024 + 0xdc00) (by omega)
  refine ⟨.ofNat ((c - 0x10000) / 1024 + 0xd800), .ofNat ((c - 0x10000) % 1024 + 0xdc00),
    Iff.mpr isHigh_iff ?_, Iff.mpr isLow_iff ?_, ?_, ?_⟩
  · rw [hfirst]
    omega
  · rw [hsecond]
    omega
  · rw [pairOf_eq, hfirst, hsecond]
    omega
  · rw [unitsOf, if_neg (not_lt.mpr h), hmod, hdiv]

/-- The first unit of a character is the other half of a pair only if the character is. -/
theorem head_unitsOf {c : ℕ} (hle : c ≤ 0x10ffff) :
    ∃ u rest, unitsOf c = u :: rest ∧ (IsLow u → 0xdc00 ≤ c ∧ c < 0xe000) := by
  by_cases hlt : c < 0x10000
  · obtain ⟨u, rfl, hunits⟩ := unitsOf_of_lt hlt
    exact ⟨u, [], hunits, Iff.mp isLow_iff⟩
  · obtain ⟨u, u1, hhigh, -, -, hunits⟩ := unitsOf_of_ge (not_lt.mp hlt) hle
    refine ⟨u, [u1], hunits, fun hlow ↦ ?_⟩
    rw [isHigh_iff] at hhigh
    rw [isLow_iff] at hlow
    omega

/-- The units of codes that are not halves of a pair are read back. -/
theorem codesOf_flatMap {codes : List ℕ} (h : Codes codes) :
    codesOf (codes.flatMap unitsOf) = codes := by
  induction codes with
  | nil => rfl
  | cons c codes ih =>
    have hle := h.le c List.mem_cons_self
    have htail := ih ⟨fun d hd ↦ h.le d (List.mem_cons_of_mem _ hd), h.apart.tail⟩
    rw [List.flatMap_cons]
    by_cases hlt : c < 0x10000
    · obtain ⟨u, rfl, hunits⟩ := unitsOf_of_lt hlt
      rw [hunits]
      cases codes with
      | nil => rw [List.flatMap_nil, List.append_nil, codesOf_singleton]
      | cons d codes =>
        obtain ⟨u1, rest, hnext, hlow⟩ := head_unitsOf (h.le d (by simp))
        rw [List.flatMap_cons, hnext] at htail ⊢
        have hapart : Apart u.toNat d := (List.isChain_cons_cons.mp h.apart).1
        have hpair : ¬ (IsHigh u ∧ IsLow u1) := fun hpair ↦
          hapart ⟨Iff.mp isHigh_iff hpair.1, hlow hpair.2⟩
        rw [List.singleton_append, List.cons_append, codesOf_unit hpair, ← List.cons_append, htail]
    · obtain ⟨u, u1, hhigh, hlow, rfl, hunits⟩ := unitsOf_of_ge (not_lt.mp hlt) hle
      rw [hunits, List.cons_append, List.singleton_append, codesOf_pair ⟨hhigh, hlow⟩, htail]

/-- Every string is read back from its bytes, surrogates without their other half included. -/
theorem newString_toCString (text : JsString) : newString (toCString text) = text := by
  rw [toCString_eq, newString_flatMap (codesOf_le text), flatMap_codesOf]

/-! ## The result -/

/-- **What survives**: every string on the way out and back, and on the way in and back those bytes
that encode codes up to `0x10ffff` without the two halves of a pair in a row. -/
theorem strings_and_bytes_survive :
    (∀ text, newString (toCString text) = text) ∧
      ∀ p, toCString (newString p) = p ↔
        ∃ codes, Codes codes ∧ p = codes.flatMap unicodeToUtf8 := by
  refine ⟨newString_toCString, fun p ↦ ⟨fun h ↦ ?_, ?_⟩⟩
  · refine ⟨codesOf (newString p), codes_codesOf _, ?_⟩
    rw [← toCString_eq, h]
  · rintro ⟨codes, h, rfl⟩
    rw [newString_flatMap h.le, toCString_eq, codesOf_flatMap h]

/-- The halves of a pair that are encoded one by one come back as one character. -/
example : toCString (newString [0xed, 0xa0, 0x80, 0xed, 0xb0, 0x80]) =
    [0xf0, 0x90, 0x80, 0x80] := by
  decide

end LibYtdl.Sig.Utf8
