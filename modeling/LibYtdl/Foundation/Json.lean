import Mathlib

/-!
# JSON texts

The grammar of JSON, over bytes: a text is a value with white space around it. How characters beyond
ASCII are encoded is left open. No text contains a zero, and only few characters can end one.
-/

namespace LibYtdl.Json

abbrev Text := List UInt8

/-- The characters of white space. -/
def IsSpace (ch : UInt8) : Prop := ch = 32 ∨ ch = 9 ∨ ch = 10 ∨ ch = 13

def IsDigit (ch : UInt8) : Prop := 48 ≤ ch ∧ ch ≤ 57

def IsHexDigit (ch : UInt8) : Prop :=
  IsDigit ch ∨ (65 ≤ ch ∧ ch ≤ 70) ∨ (97 ≤ ch ∧ ch ≤ 102)

instance (ch : UInt8) : Decidable (IsSpace ch) := inferInstanceAs (Decidable (_ ∨ _))

instance (ch : UInt8) : Decidable (IsDigit ch) := inferInstanceAs (Decidable (_ ∧ _))

instance (ch : UInt8) : Decidable (IsHexDigit ch) := inferInstanceAs (Decidable (_ ∨ _))

def Space (text : Text) : Prop := ∀ ch ∈ text, IsSpace ch

/-- One digit or more. -/
def Digits (text : Text) : Prop := text ≠ [] ∧ ∀ ch ∈ text, IsDigit ch

/-! ## Numbers and strings -/

/-- A zero, or digits that do not start with one. -/
def Integer (text : Text) : Prop := text = [48] ∨ (Digits text ∧ text.head? ≠ some 48)

/-- An integer, with or without a fraction. -/
def Mantissa (text : Text) : Prop :=
  Integer text ∨ ∃ whole part, Integer whole ∧ Digits part ∧ text = whole ++ 46 :: part

def Exponent (text : Text) : Prop :=
  text = [] ∨ ∃ e sign power, (e = 101 ∨ e = 69) ∧ (sign = [] ∨ sign = [43] ∨ sign = [45]) ∧
    Digits power ∧ text = e :: (sign ++ power)

def Number (text : Text) : Prop :=
  ∃ sign mantissa exponent, (sign = [] ∨ sign = [45]) ∧ Mantissa mantissa ∧ Exponent exponent ∧
    text = sign ++ mantissa ++ exponent

/-- What stands between the quotes of a string. -/
inductive StringBody : Text → Prop
  | nil : StringBody []
  | char {ch : UInt8} {rest : Text} (hch : 32 ≤ ch ∧ ch ≠ 34 ∧ ch ≠ 92) (hrest : StringBody rest) :
      StringBody (ch :: rest)
  | escape {ch : UInt8} {rest : Text} (hch : ch ∈ ([34, 92, 47, 98, 102, 110, 114, 116] : Text))
      (hrest : StringBody rest) : StringBody (92 :: ch :: rest)
  | unicode {a b c d : UInt8} {rest : Text} (ha : IsHexDigit a) (hb : IsHexDigit b)
      (hc : IsHexDigit c) (hd : IsHexDigit d) (hrest : StringBody rest) :
      StringBody (92 :: 117 :: a :: b :: c :: d :: rest)

def quoted (body : Text) : Text := 34 :: (body ++ [34])

/-! ## Values -/

/-- `true`, `false` and `null`. -/
def literals : List Text := [[116, 114, 117, 101], [102, 97, 108, 115, 101], [110, 117, 108, 108]]

/-- What a piece of JSON is: a value, the elements of an array, or the members of an object. -/
inductive Kind
  | value
  | elements
  | members
  deriving DecidableEq

/-- The grammar. -/
inductive Derives : Kind → Text → Prop
  | literal {text : Text} (h : text ∈ literals) : Derives .value text
  | number {text : Text} (h : Number text) : Derives .value text
  | string {body : Text} (h : StringBody body) : Derives .value (quoted body)
  | emptyArray {space : Text} (h : Space space) : Derives .value (91 :: (space ++ [93]))
  | array {elements : Text} (h : Derives .elements elements) :
      Derives .value (91 :: (elements ++ [93]))
  | emptyObject {space : Text} (h : Space space) : Derives .value (123 :: (space ++ [125]))
  | object {members : Text} (h : Derives .members members) :
      Derives .value (123 :: (members ++ [125]))
  | element {before value after : Text} (hbefore : Space before) (hvalue : Derives .value value)
      (hafter : Space after) : Derives .elements (before ++ value ++ after)
  | elements {before value after rest : Text} (hbefore : Space before)
      (hvalue : Derives .value value) (hafter : Space after) (hrest : Derives .elements rest) :
      Derives .elements (before ++ value ++ after ++ 44 :: rest)
  | member {before key between space value after : Text} (hbefore : Space before)
      (hkey : StringBody key) (hbetween : Space between) (hspace : Space space)
      (hvalue : Derives .value value) (hafter : Space after) :
      Derives .members (before ++ quoted key ++ between ++ 58 :: space ++ value ++ after)
  | members {before key between space value after rest : Text} (hbefore : Space before)
      (hkey : StringBody key) (hbetween : Space between) (hspace : Space space)
      (hvalue : Derives .value value) (hafter : Space after) (hrest : Derives .members rest) :
      Derives .members
        (before ++ quoted key ++ between ++ 58 :: space ++ value ++ after ++ 44 :: rest)

/-- A JSON text. -/
def Valid (text : Text) : Prop :=
  ∃ before value after, Space before ∧ Derives .value value ∧ Space after ∧
    text = before ++ value ++ after

/-! ## No zero -/

theorem Space.noZero {text : Text} (h : Space text) : 0 ∉ text := fun hmem ↦
  absurd (h 0 hmem) (by decide)

theorem Digits.noZero {text : Text} (h : Digits text) : 0 ∉ text := fun hmem ↦
  absurd (h.2 0 hmem) (by decide)

theorem Integer.noZero {text : Text} (h : Integer text) : 0 ∉ text := by
  obtain rfl | ⟨h, -⟩ := h
  · decide
  · exact h.noZero

theorem Mantissa.noZero {text : Text} (h : Mantissa text) : 0 ∉ text := by
  obtain h | ⟨whole, part, hwhole, hpart, rfl⟩ := h
  · exact h.noZero
  · simp [hwhole.noZero, hpart.noZero]

theorem Exponent.noZero {text : Text} (h : Exponent text) : 0 ∉ text := by
  obtain rfl | ⟨e, sign, power, he, hsign, hpower, rfl⟩ := h
  · exact List.not_mem_nil
  · obtain rfl | rfl := he <;> obtain rfl | rfl | rfl := hsign <;> simp [hpower.noZero]

theorem Number.noZero {text : Text} (h : Number text) : 0 ∉ text := by
  obtain ⟨sign, mantissa, exponent, hsign, hmantissa, hexponent, rfl⟩ := h
  obtain rfl | rfl := hsign <;> simp [hmantissa.noZero, hexponent.noZero]

theorem StringBody.noZero {text : Text} (h : StringBody text) : 0 ∉ text := by
  have hhex (ch : UInt8) (hch : IsHexDigit ch) : 0 ≠ ch := by
    rintro rfl
    exact absurd hch (by decide)
  induction h with
  | nil => exact List.not_mem_nil
  | char hch _ ih =>
    refine List.not_mem_cons_of_ne_of_not_mem ?_ ih
    rintro rfl
    exact absurd hch.1 (by decide)
  | escape hch _ ih =>
    refine List.not_mem_cons_of_ne_of_not_mem (by decide)
      (List.not_mem_cons_of_ne_of_not_mem ?_ ih)
    rintro rfl
    exact absurd hch (by decide)
  | unicode ha hb hc hd _ ih =>
    simp [ih, hhex _ ha, hhex _ hb, hhex _ hc, hhex _ hd]

theorem quoted_noZero {body : Text} (h : StringBody body) : 0 ∉ quoted body := by
  simp [quoted, h.noZero]

theorem Derives.noZero {kind : Kind} {text : Text} (h : Derives kind text) : 0 ∉ text := by
  induction h with
  | literal h => exact (show ∀ text ∈ literals, 0 ∉ text by decide) _ h
  | number h => exact h.noZero
  | string h => exact quoted_noZero h
  | emptyArray h => simp [h.noZero]
  | array _ ih => simp [ih]
  | emptyObject h => simp [h.noZero]
  | object _ ih => simp [ih]
  | element hbefore _ hafter ih => simp [hbefore.noZero, ih, hafter.noZero]
  | elements hbefore _ hafter _ ih ih' => simp [hbefore.noZero, ih, hafter.noZero, ih']
  | member hbefore hkey hbetween hspace _ hafter ih =>
    simp [hbefore.noZero, quoted_noZero hkey, hbetween.noZero, hspace.noZero, ih, hafter.noZero]
  | members hbefore hkey hbetween hspace _ hafter _ ih ih' =>
    simp [hbefore.noZero, quoted_noZero hkey, hbetween.noZero, hspace.noZero, ih, hafter.noZero,
      ih']

theorem Valid.noZero {text : Text} (h : Valid text) : 0 ∉ text := by
  obtain ⟨before, value, after, hbefore, hvalue, hafter, rfl⟩ := h
  simp [hbefore.noZero, hvalue.noZero, hafter.noZero]

/-! ## The last character -/

/-- A character that can end a text: white space, a closing bracket or quote, a digit, or the end of
a literal. -/
def Closes (ch : UInt8) : Prop :=
  IsSpace ch ∨ IsDigit ch ∨ ch ∈ ([93, 125, 34, 101, 108] : Text)

instance (ch : UInt8) : Decidable (Closes ch) := inferInstanceAs (Decidable (_ ∨ _))

/-- The last character closes a text. -/
def Closed (text : Text) : Prop := ∃ ch ∈ text.getLast?, Closes ch

theorem Closed.append {first second : Text} (h : Closed second) : Closed (first ++ second) := by
  obtain ⟨ch, hch, hcloses⟩ := h
  refine ⟨ch, ?_, hcloses⟩
  rw [Option.mem_def] at hch ⊢
  rw [List.getLast?_append, hch, Option.some_or]

theorem closed_append_singleton (first : Text) {ch : UInt8} (h : Closes ch) :
    Closed (first ++ [ch]) :=
  Closed.append ⟨ch, rfl, h⟩

theorem closed_of_forall {text : Text} (hne : text ≠ []) (h : ∀ ch ∈ text, Closes ch) :
    Closed text :=
  ⟨text.getLast hne, List.getLast?_eq_getLast_of_ne_nil hne, h _ (List.getLast_mem hne)⟩

theorem Digits.closed {text : Text} (h : Digits text) : Closed text :=
  closed_of_forall h.1 fun ch hch ↦ .inr (.inl (h.2 ch hch))

theorem Integer.closed {text : Text} (h : Integer text) : Closed text := by
  obtain rfl | ⟨h, -⟩ := h
  · exact ⟨48, rfl, by decide⟩
  · exact h.closed

theorem Mantissa.closed {text : Text} (h : Mantissa text) : Closed text := by
  obtain h | ⟨whole, part, -, hpart, rfl⟩ := h
  · exact h.closed
  · have hsplit : whole ++ 46 :: part = (whole ++ [46]) ++ part := by simp
    rw [hsplit]
    exact hpart.closed.append

theorem Number.closed {text : Text} (h : Number text) : Closed text := by
  obtain ⟨sign, mantissa, exponent, -, hmantissa, hexponent, rfl⟩ := h
  obtain rfl | ⟨e, power, digits, -, -, hdigits, rfl⟩ := hexponent
  · rw [List.append_nil]
    exact hmantissa.closed.append
  · have hsplit : sign ++ mantissa ++ e :: (power ++ digits) =
        (sign ++ mantissa ++ e :: power) ++ digits := by simp
    rw [hsplit]
    exact hdigits.closed.append

theorem Derives.closed {text : Text} (h : Derives .value text) : Closed text := by
  have hbracket (first rest : Text) (ch : UInt8) (hch : Closes ch) :
      Closed (first ++ (rest ++ [ch])) :=
    (closed_append_singleton rest hch).append
  cases h with
  | literal h =>
    simp only [literals, List.mem_cons, List.not_mem_nil, or_false] at h
    obtain rfl | rfl | rfl := h
    · exact ⟨101, rfl, by decide⟩
    · exact ⟨101, rfl, by decide⟩
    · exact ⟨108, rfl, by decide⟩
  | number h => exact h.closed
  | string h => exact hbracket [34] _ 34 (by decide)
  | emptyArray h => exact hbracket [91] _ 93 (by decide)
  | array h => exact hbracket [91] _ 93 (by decide)
  | emptyObject h => exact hbracket [123] _ 125 (by decide)
  | object h => exact hbracket [123] _ 125 (by decide)

theorem Valid.closed {text : Text} (h : Valid text) : Closed text := by
  obtain ⟨before, value, after, -, hvalue, hafter, rfl⟩ := h
  by_cases hnil : after = []
  · subst hnil
    rw [List.append_nil]
    exact hvalue.closed.append
  · exact (closed_of_forall hnil fun ch hch ↦ .inl (hafter ch hch)).append

end LibYtdl.Json
