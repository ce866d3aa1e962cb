import LibYtdl.Sig.SigRegex

/-!
# What the signature patterns match

The words of the two patterns: the declaration of an object whose properties are the four functions,
and a function that calls properties of an object one after the other.
-/

namespace LibYtdl.Sig.SigGrammar

open Machine Search Regex Regexp Emit ObjectScan CallScan SigRegex

/-! ## Characters and texts -/

section Texts

variable {node : Node CharSet} {text u : Bytes} {ch : UInt8}

theorem accepts_char {other : UInt8} : (CharSet.char ch.toNat).accepts other = true ↔
    other = ch := by
  rw [CharSet.accepts, beq_iff_eq, UInt8.toNat_inj, eq_comm]

theorem forall₂_char : List.Forall₂ (fun cls other ↦ CharSet.accepts cls other = true)
    (text.map fun ch ↦ .char ch.toNat) u ↔ u = text := by
  rw [List.forall₂_map_left_iff]
  simp only [accepts_char]
  rw [eq_comm, ← List.forall₂_eq_eq_eq]
  exact ⟨fun h ↦ h.imp fun _ _ ↦ Eq.symm, fun h ↦ h.imp fun _ _ ↦ Eq.symm⟩

theorem matches_char : Matches CharSet.accepts (char ch) u ↔ u = [ch] := by
  rw [char, matches_one_iff]
  simp only [accepts_char, exists_eq_left]

theorem matches_spell : Matches CharSet.accepts (spell text node) u ↔
    ∃ v, u = text ++ v ∧ Matches CharSet.accepts node v := by
  induction text generalizing u with
  | nil => exact ⟨fun h ↦ ⟨u, rfl, h⟩, fun ⟨v, hv, h⟩ ↦ hv ▸ h⟩
  | cons ch text ih =>
    have hspell : spell (ch :: text) node = .seq (char ch) (spell text node) := rfl
    rw [hspell, matches_seq_iff]
    simp only [matches_char, ih]
    constructor
    · rintro ⟨_, _, rfl, rfl, v, rfl, h⟩
      exact ⟨v, rfl, h⟩
    · rintro ⟨v, rfl, h⟩
      exact ⟨[ch], text ++ v, rfl, rfl, v, rfl, h⟩

theorem matches_mayBe : Matches CharSet.accepts (mayBe text) u ↔
    ∃ present, u = optional present text := by
  rw [mayBe, matches_many_maybe_iff, forall₂_char, Bool.exists_bool]
  rfl

theorem matches_anyOf {ranges : List (ℕ × ℕ)} : Matches CharSet.accepts (anyOf ranges) u ↔
    ∀ ch ∈ u, (CharSet.range ranges).accepts ch = true := by
  rw [anyOf, matches_many_one_iff, and_iff_right (Nat.zero_le _)]

end Texts

/-! ## Names -/

section Names

variable {u : Bytes} {mark ch : UInt8} {plain : List (ℕ × ℕ)} {index : ℕ}

theorem accepts_head : (CharSet.range [(36, 36), (65, 90), (95, 95), (97, 122)]).accepts ch = true ↔
    (isIdentifierChar ch && !(48 ≤ ch && ch ≤ 57)) = true := by
  simp only [CharSet.accepts, isIdentifierChar, List.any_cons, List.any_nil, Bool.or_false,
    Bool.or_eq_true,
    Bool.and_eq_true, decide_eq_true_eq, Bool.not_eq_true', Bool.and_eq_false_iff,
      decide_eq_false_iff_not,
    UInt8.le_iff_toNat_le, ← UInt8.toNat_inj, UInt8.reduceToNat]
  omega

theorem accepts_tail : (CharSet.range [(48, 57), (65, 90), (95, 95), (97, 122)]).accepts ch = true ↔
    (isIdentifierChar ch && decide (ch ≠ 36)) = true := by
  simp only [CharSet.accepts, isIdentifierChar, List.any_cons, List.any_nil, Bool.or_false,
    Bool.or_eq_true,
    Bool.and_eq_true, decide_eq_true_eq, UInt8.le_iff_toNat_le, ne_eq, ← UInt8.toNat_inj,
      UInt8.reduceToNat]
  omega

theorem matches_identifier : Matches CharSet.accepts identifier u ↔ isIdentifier u = true := by
  rw [identifier, matches_seq_iff]
  simp only [matches_one_iff, matches_anyOf, accepts_head, accepts_tail]
  constructor
  · rintro ⟨_, tail, rfl, ⟨head, hhead, rfl⟩, htail⟩
    rw [List.singleton_append, isIdentifier, hhead, Bool.true_and]
    exact List.all_eq_true.mpr htail
  · intro h
    cases u with
    | nil => exact absurd h Bool.false_ne_true
    | cons head tail =>
      rw [isIdentifier, Bool.and_eq_true] at h
      exact ⟨[head], tail, rfl, ⟨head, h.1, rfl⟩, List.all_eq_true.mp h.2⟩

/-- The class is what is left out of a quote and the backslash. -/
def IsPlain (mark : UInt8) (plain : List (ℕ × ℕ)) : Prop :=
  ∀ ch, (CharSet.range plain).accepts ch = true ↔ ch ≠ mark ∧ ch ≠ backslash

theorem isPlain_quote : IsPlain quote [(0, 38), (40, 91), (93, 65535)] := by
  intro ch
  have hlt := ch.toNat_lt
  simp only [CharSet.accepts, quote, backslash, List.any_cons, List.any_nil, Bool.or_false,
    Bool.or_eq_true,
    Bool.and_eq_true, decide_eq_true_eq, ne_eq, ← UInt8.toNat_inj, UInt8.reduceToNat]
  omega

theorem isPlain_doubleQuote : IsPlain doubleQuote [(0, 33), (35, 91), (93, 65535)] := by
  intro ch
  have hlt := ch.toNat_lt
  simp only [CharSet.accepts, doubleQuote, backslash, List.any_cons, List.any_nil, Bool.or_false,
    Bool.or_eq_true, Bool.and_eq_true, decide_eq_true_eq, ne_eq, ← UInt8.toNat_inj,
      UInt8.reduceToNat]
  omega

theorem accepts_any : (CharSet.range [(0, 65535)]).accepts ch = true := by
  have hlt := ch.toNat_lt
  simp only [CharSet.accepts, List.any_cons, List.any_nil, Bool.or_false, Bool.and_eq_true,
    decide_eq_true_eq]
  omega

theorem isContent_append {content more : Bytes} (h : IsContent mark content)
    (hmore : IsContent mark more) :
    IsContent mark (content ++ more) := by
  induction h with
  | nil => exact hmore
  | plain hmark hbackslash _ ih => exact .plain hmark hbackslash ih
  | escaped ch _ ih => exact .escaped ch ih

theorem isContent_plain {content : Bytes} (h : ∀ ch ∈ content, ch ≠ mark ∧ ch ≠ backslash) :
    IsContent mark content := by
  induction content with
  | nil => exact .nil
  | cons ch content ih =>
    obtain ⟨hmark, hbackslash⟩ := h ch List.mem_cons_self
    exact .plain hmark hbackslash (ih fun other hother ↦ h other (List.mem_cons_of_mem ch hother))

/-- An escaped character with what stands behind it. -/
def escape (plain : List (ℕ × ℕ)) : Node CharSet :=
  .seq (mayBe [colon]) (spell [backslash] (.seq (.one (.range [(0, 65535)])) (anyOf plain)))

theorem isContent_escape (hplain : IsPlain mark plain) (hcolon : mark ≠ colon)
    (h : Matches CharSet.accepts (escape plain) u) : IsContent mark u := by
  simp only [escape, matches_seq_iff, matches_mayBe, matches_spell, matches_one_iff, matches_anyOf]
    at h
  obtain ⟨_, _, rfl, ⟨present, rfl⟩, _, rfl, _, rest, rfl, ⟨ch, -, rfl⟩, hrest⟩ := h
  refine isContent_append (isContent_plain fun other hother ↦ ?_)
    (.escaped ch (isContent_plain fun other hother ↦ (hplain other).mp (hrest other hother)))
  cases present with
  | false => exact absurd hother List.not_mem_nil
  | true =>
    obtain rfl := List.mem_singleton.mp hother
    exact ⟨hcolon.symm, by decide⟩

/-- A content is made of characters as they are and of escaped ones with what stands behind them. -/
theorem isContent_iff (hplain : IsPlain mark plain) (hcolon : mark ≠ colon) : IsContent mark u ↔
    ∃ front words, u = front ++ List.flatten words ∧
      (∀ ch ∈ front, (CharSet.range plain).accepts ch = true) ∧
      ∀ word ∈ words, Matches CharSet.accepts (escape plain) word := by
  constructor
  · intro h
    induction h with
    | nil => exact ⟨[], [], rfl, fun _ hmem ↦ absurd hmem List.not_mem_nil,
        fun _ hmem ↦ absurd hmem List.not_mem_nil⟩
    | @plain ch content hmark hbackslash _ ih =>
      obtain ⟨front, words, rfl, hfront, hwords⟩ := ih
      refine ⟨ch :: front, words, rfl, fun other hother ↦ ?_, hwords⟩
      obtain rfl | hother := List.mem_cons.mp hother
      · exact (hplain _).mpr ⟨hmark, hbackslash⟩
      · exact hfront other hother
    | @escaped content ch _ ih =>
      obtain ⟨front, words, rfl, hfront, hwords⟩ := ih
      refine ⟨[], (backslash :: ch :: front) :: words, rfl,
        fun _ hmem ↦ absurd hmem List.not_mem_nil,
        fun word hword ↦ ?_⟩
      obtain rfl | hword := List.mem_cons.mp hword
      · simp only [escape, matches_seq_iff, matches_mayBe, matches_spell, matches_one_iff,
          matches_anyOf]
        exact ⟨[], _, rfl, ⟨false, rfl⟩, ch :: front, rfl, [ch], front, rfl, ⟨ch, accepts_any, rfl⟩,
          hfront⟩
      · exact hwords word hword
  · rintro ⟨front, words, rfl, hfront, hwords⟩
    refine isContent_append (isContent_plain fun ch hch ↦ (hplain ch).mp (hfront ch hch)) ?_
    induction words with
    | nil => exact .nil
    | cons word words ih =>
      rw [List.flatten_cons]
      exact isContent_append (isContent_escape hplain hcolon (hwords word List.mem_cons_self))
        (ih fun other hother ↦ hwords other (List.mem_cons_of_mem word hother))

theorem matches_quotedWith (hplain : IsPlain mark plain) (hcolon : mark ≠ colon) :
    Matches CharSet.accepts (quotedWith mark plain index) u ↔
      ∃ content, IsContent mark content ∧ u = mark :: (content ++ [mark]) := by
  have hescape : quotedWith mark plain index = spell [mark]
    (.seq (anyOf plain) (.seq (.reset index index)
    (.seq (.loop (.group index (escape plain))) (char mark)))) := rfl
  rw [hescape, matches_spell]
  simp only [matches_seq_iff, matches_anyOf, matches_reset_iff, matches_loop_iff, matches_group_iff,
    matches_char, isContent_iff hplain hcolon]
  constructor
  · rintro ⟨_, rfl, front, _, rfl, hfront, _, _, rfl, rfl, _, _, rfl, ⟨words, rfl, hwords⟩, rfl⟩
    refine ⟨front ++ words.flatten, ⟨front, words, rfl, hfront, hwords⟩, ?_⟩
    rw [List.nil_append, List.append_assoc]
    rfl
  · rintro ⟨_, ⟨front, words, rfl, hfront, hwords⟩, rfl⟩
    refine ⟨_, rfl, front, _, List.append_assoc _ _ _, hfront, [], _, rfl, rfl, _, [mark], rfl,
      ⟨words, rfl, hwords⟩, rfl⟩

theorem matches_quotedString : Matches CharSet.accepts (quotedString index) u ↔
    ∃ mark content, (mark = quote ∨ mark = doubleQuote) ∧ IsContent mark content ∧
      u = mark :: (content ++ [mark]) := by
  rw [quotedString, matches_alt_iff, matches_quotedWith isPlain_quote (by decide),
    matches_quotedWith isPlain_doubleQuote (by decide)]
  constructor
  · rintro (⟨content, hcontent, rfl⟩ | ⟨content, hcontent, rfl⟩)
    · exact ⟨quote, content, .inl rfl, hcontent, rfl⟩
    · exact ⟨doubleQuote, content, .inr rfl, hcontent, rfl⟩
  · rintro ⟨mark, content, rfl | rfl, hcontent, rfl⟩
    · exact .inl ⟨content, hcontent, rfl⟩
    · exact .inr ⟨content, hcontent, rfl⟩

theorem matches_propertyName :
    Matches CharSet.accepts (propertyName index) u ↔ ∃ name : Name, u = name.text := by
  rw [propertyName, matches_alt_iff, matches_identifier, matches_quotedString]
  constructor
  · rintro (hname | ⟨mark, content, hmark, hcontent, rfl⟩)
    · exact ⟨.identifier u hname, rfl⟩
    · exact ⟨.quoted mark hmark content hcontent, rfl⟩
  · rintro ⟨name, rfl⟩
    cases name with
    | identifier name hname => exact .inl hname
    | quoted mark hmark content hcontent => exact .inr ⟨mark, content, hmark, hcontent, rfl⟩

end Names

/-! ## The object -/

section Members

variable {u : Bytes}

theorem matches_methods : Matches CharSet.accepts methods u ↔
    ∃ name : Name, ∃ method : Method, u = name.text ++ colon :: method.text := by
  simp only [methods, matches_alt_iff, matches_seq_iff, matches_propertyName, matches_spell,
    matches_mayBe,
    matches_char]
  constructor
  · rintro (((⟨_, _, rfl, ⟨name, rfl⟩, _, rfl, _, _, rfl, ⟨returns, rfl⟩, _, rfl, rfl⟩ |
      ⟨_, _, rfl, ⟨name, rfl⟩, _, rfl, rfl⟩) | ⟨_, _, rfl, ⟨name, rfl⟩, _, rfl, rfl⟩) |
      ⟨_, _, rfl, ⟨name, rfl⟩, _, rfl, _, _, rfl, ⟨firstModulo, rfl⟩, _, rfl, _, _, rfl,
        ⟨secondModulo, rfl⟩, _, rfl, _, _, rfl, ⟨returns, rfl⟩, rfl⟩)
    · exact ⟨name, .reverse returns, rfl⟩
    · exact ⟨name, .slice, rfl⟩
    · exact ⟨name, .splice, rfl⟩
    · refine ⟨name, .swap firstModulo secondModulo returns, ?_⟩
      simp only [Method.text, List.append_assoc]
      rfl
  · rintro ⟨name, method, rfl⟩
    cases method with
    | reverse returns =>
      exact .inl (.inl (.inl ⟨_, _, rfl, ⟨name, rfl⟩, _, rfl, _, _, rfl, ⟨returns, rfl⟩, _, rfl,
        rfl⟩))
    | slice => exact .inl (.inl (.inr ⟨_, _, rfl, ⟨name, rfl⟩, _, rfl, rfl⟩))
    | splice => exact .inl (.inr ⟨_, _, rfl, ⟨name, rfl⟩, _, rfl, rfl⟩)
    | swap firstModulo secondModulo returns =>
      refine .inr ⟨_, _, rfl, ⟨name, rfl⟩, _, ?_, _, _, rfl, ⟨firstModulo, rfl⟩, _, rfl, _, _, rfl,
        ⟨secondModulo, rfl⟩, _, rfl, _, _, rfl, ⟨returns, rfl⟩, rfl⟩
      simp only [Method.text, List.append_assoc]
      rfl

theorem matches_property :
    Matches CharSet.accepts property u ↔ ∃ member : Member, u = member.text := by
  simp only [property, matches_seq_iff, matches_methods, matches_mayBe]
  constructor
  · rintro ⟨_, _, rfl, ⟨name, method, rfl⟩, _, _, rfl, ⟨hasComma, rfl⟩, _, _, rfl, ⟨hasReturn, rfl⟩,
      hasFeed, rfl⟩
    refine ⟨⟨name, method, hasComma, hasReturn, hasFeed⟩, ?_⟩
    simp only [Member.text, Member.separator, List.append_assoc, List.cons_append]
  · rintro ⟨⟨name, method, hasComma, hasReturn, hasFeed⟩, rfl⟩
    refine ⟨_, _, ?_, ⟨name, method, rfl⟩, _, _, rfl, ⟨hasComma, rfl⟩, _, _, rfl, ⟨hasReturn, rfl⟩,
      hasFeed, rfl⟩
    simp only [Member.text, Member.separator, List.append_assoc, List.cons_append]

/-- The words of a list are texts of some values. -/
theorem exists_map_eq {α : Type} (text : α → Bytes) (words : List Bytes) :
    (∀ word ∈ words, ∃ value, word = text value) ↔ ∃ values : List α, words = values.map text := by
  constructor
  · intro h
    have hmem : words ∈ {words | ∀ word ∈ words, word ∈ Set.range text} := fun word hword ↦
      (h word hword).imp fun _ ↦ Eq.symm
    rw [← Set.range_list_map] at hmem
    exact hmem.imp fun _ ↦ Eq.symm
  · rintro ⟨values, rfl⟩ word hword
    obtain ⟨value, -, rfl⟩ := List.mem_map.mp hword
    exact ⟨value, rfl⟩

theorem matches_plus {node : Node CharSet} {α : Type} {text : α → Bytes}
    (h : ∀ u, Matches CharSet.accepts node u ↔ ∃ value, u = text value) :
    Matches CharSet.accepts (plus node) u ↔ ∃ values, values ≠ [] ∧ u = values.flatMap text := by
  rw [plus, matches_seq_loop_iff]
  simp only [h, exists_map_eq]
  constructor
  · rintro ⟨_, hne, rfl, values, rfl⟩
    exact ⟨values, fun hnil ↦ hne (hnil ▸ rfl), List.flatMap_def.symm⟩
  · rintro ⟨values, hne, rfl⟩
    exact ⟨values.map text, fun hnil ↦ hne (List.map_eq_nil_iff.mp hnil), List.flatMap_def, values,
      rfl⟩

/-- An object that `action_obj_regexp` matches. -/
structure ActionObj where
  name : Bytes
  hname : isIdentifier name = true
  members : List Member
  hmembers : members ≠ []

def ActionObj.text (obj : ActionObj) : Bytes :=
  ascii "var " ++ (obj.name ++ (ascii "=\x7b" ++ (bodyOf obj.members ++ ascii "\x7d;")))

theorem matches_objPattern :
    Matches CharSet.accepts objPattern u ↔ ∃ obj : ActionObj, u = obj.text := by
  simp only [objPattern, matches_spell, matches_seq_iff, matches_group_iff, matches_identifier,
    matches_char,
    matches_plus fun _ ↦ matches_property]
  constructor
  · rintro ⟨_, rfl, name, _, rfl, hname, _, rfl, _, _, rfl, ⟨members, hmembers, rfl⟩, _, rfl, rfl⟩
    exact ⟨⟨name, hname, members, hmembers⟩, rfl⟩
  · rintro ⟨⟨name, hname, members, hmembers⟩, rfl⟩
    exact ⟨_, rfl, name, _, rfl, hname, _, rfl, _, _, rfl, ⟨members, hmembers, rfl⟩, _, rfl, rfl⟩

end Members

/-! ## The function -/

section Calls

variable {u : Bytes} {index : ℕ}

/-- A call of a property, with brackets when its name has quotes. -/
structure ActionCall where
  assigns : Bool
  object : Bytes
  hobject : isIdentifier object = true
  name : Name
  number : Bytes
  hnumber : number ≠ []
  hdigits : number.all isDigit = true

/-- How a property is accessed. -/
def accessText : Name → Bytes
  | .identifier name _ => dot :: name
  | .quoted mark _ content _ => openBracket :: (mark :: (content ++ [mark]) ++ [closeBracket])

/-- What stands behind the object that the call is made on. -/
def ActionCall.back (call : ActionCall) : Bytes :=
  accessText call.name ++ (ascii "(a," ++ (call.number ++ ascii ");"))

def ActionCall.text (call : ActionCall) : Bytes :=
  optional call.assigns (ascii "a=") ++ (call.object ++ call.back)

theorem text_append (call : ActionCall) (rest : Bytes) : call.text ++ rest =
    optional call.assigns (ascii "a=") ++ (call.object ++ (call.back ++ rest)) := by
  rw [ActionCall.text, List.append_assoc, List.append_assoc]

/-- `\s`. -/
def isSpace (ch : UInt8) : Bool := 9 ≤ ch && ch ≤ 13 || ch = 32 || ch = 160

/-- A function that `action_func_regexp` matches. -/
structure ActionFunc where
  name : Option Bytes
  hname : ∀ text ∈ name, isIdentifier text = true
  splitMark : UInt8
  hsplitMark : splitMark = quote ∨ splitMark = doubleQuote
  spaces : Bytes
  hspaces : spaces.all isSpace = true
  calls : List ActionCall
  hcalls : calls ≠ []
  joinMark : UInt8
  hjoinMark : joinMark = quote ∨ joinMark = doubleQuote

/-- What stands in front of the calls. -/
def ActionFunc.front (func : ActionFunc) : Bytes :=
  ascii "function" ++ (func.name.elim [] (ascii " " ++ ·) ++ (ascii "(a)\x7ba=a.split(" ++
    ([func.splitMark, func.splitMark] ++ (ascii ");" ++ func.spaces))))

def ActionFunc.body (func : ActionFunc) : Bytes := func.calls.flatMap ActionCall.text

/-- What stands behind them. -/
def ActionFunc.back (func : ActionFunc) : Bytes :=
  ascii "return a.join(" ++ ([func.joinMark, func.joinMark] ++ ascii ")\x7d")

def ActionFunc.text (func : ActionFunc) : Bytes := func.front ++ (func.body ++ func.back)

theorem accepts_digit {ch : UInt8} : (CharSet.range [(48, 57)]).accepts ch = true ↔
    isDigit ch = true := by
  simp only [CharSet.accepts, isDigit, List.any_cons, List.any_nil, Bool.or_false, Bool.and_eq_true,
    decide_eq_true_eq, UInt8.le_iff_toNat_le, UInt8.reduceToNat]

theorem matches_access : Matches CharSet.accepts
    (.alt (spell (ascii ".") identifier) (spell (ascii "[")
      (.seq (quotedString index) (char 93)))) u ↔
      ∃ name, u = accessText name := by
  simp only [matches_alt_iff, matches_spell, matches_seq_iff, matches_identifier,
    matches_quotedString,
    matches_char]
  constructor
  · rintro (⟨name, rfl, hname⟩ | ⟨_, rfl, _, _, rfl, ⟨mark, content, hmark, hcontent, rfl⟩, rfl⟩)
    · exact ⟨.identifier name hname, rfl⟩
    · exact ⟨.quoted mark hmark content hcontent, rfl⟩
  · rintro ⟨name, rfl⟩
    cases name with
    | identifier name hname => exact .inl ⟨name, rfl, hname⟩
    | quoted mark hmark content hcontent =>
      exact .inr ⟨_, rfl, _, _, rfl, ⟨mark, content, hmark, hcontent, rfl⟩, rfl⟩

theorem matches_call :
    Matches CharSet.accepts SigRegex.call u ↔ ∃ call : ActionCall, u = call.text := by
  simp only [SigRegex.call, matches_seq_iff, matches_mayBe, matches_identifier, matches_access,
    matches_spell,
    matches_many_one_iff, matches_char, accepts_digit]
  constructor
  · rintro ⟨_, _, rfl, ⟨assigns, rfl⟩, object, _, rfl, hobject, _, _, rfl, ⟨name, rfl⟩, _, rfl,
      number, _,
      rfl, ⟨hnumber, hdigits⟩, _, rfl, rfl⟩
    exact ⟨⟨assigns, object, hobject, name, number, List.length_pos_iff.mp hnumber,
      List.all_eq_true.mpr hdigits⟩, rfl⟩
  · rintro ⟨⟨assigns, object, hobject, name, number, hnumber, hdigits⟩, rfl⟩
    exact ⟨_, _, rfl, ⟨assigns, rfl⟩, object, _, rfl, hobject, _, _, rfl, ⟨name, rfl⟩, _, rfl,
      number, _,
      rfl, ⟨List.length_pos_iff.mpr hnumber, List.all_eq_true.mp hdigits⟩, _, rfl, rfl⟩

theorem matches_emptyString : Matches CharSet.accepts emptyString u ↔
    ∃ mark, (mark = quote ∨ mark = doubleQuote) ∧ u = [mark, mark] := by
  simp only [emptyString, matches_alt_iff, matches_spell, matches_char]
  constructor
  · rintro (⟨_, rfl, rfl⟩ | ⟨_, rfl, rfl⟩)
    · exact ⟨quote, .inl rfl, rfl⟩
    · exact ⟨doubleQuote, .inr rfl, rfl⟩
  · rintro ⟨mark, rfl | rfl, rfl⟩
    · exact .inl ⟨_, rfl, rfl⟩
    · exact .inr ⟨_, rfl, rfl⟩

theorem matches_spaces : Matches CharSet.accepts spaces u ↔ u.all isSpace = true := by
  rw [spaces, matches_anyOf, List.all_eq_true]
  refine forall₂_congr fun ch _ ↦ ?_
  have hlt := ch.toNat_lt
  simp only [CharSet.accepts, isSpace, List.any_cons, List.any_nil, Bool.or_false, Bool.or_eq_true,
    Bool.and_eq_true, decide_eq_true_eq, UInt8.le_iff_toNat_le, ← UInt8.toNat_inj,
      UInt8.reduceToNat]
  omega

theorem matches_funcPattern :
    Matches CharSet.accepts funcPattern u ↔ ∃ func : ActionFunc, u = func.text := by
  simp only [funcPattern, matches_spell, matches_seq_iff, matches_maybe_iff, matches_identifier,
    matches_emptyString, matches_spaces, matches_group_iff, matches_plus fun _ ↦ matches_call,
      matches_char]
  constructor
  · rintro ⟨_, rfl, name, _, rfl, hname, _, rfl, _, _, rfl, ⟨splitMark, hsplitMark, rfl⟩, _, rfl,
      spaces, _,
      rfl, hspaces, _, _, rfl, ⟨calls, hcalls, rfl⟩, _, rfl, _, _, rfl, ⟨joinMark, hjoinMark, rfl⟩,
        _, rfl,
      rfl⟩
    obtain rfl | ⟨text, rfl, htext⟩ := hname
    · refine ⟨⟨none, (fun _ hmem ↦ nomatch hmem), splitMark, hsplitMark, spaces, hspaces, calls,
        hcalls,
        joinMark, hjoinMark⟩, ?_⟩
      simp only [ActionFunc.text, ActionFunc.front, ActionFunc.body, ActionFunc.back,
        List.append_assoc]
      rfl
    · refine ⟨⟨some text, fun _ hmem ↦ Option.some.inj hmem ▸ htext, splitMark, hsplitMark, spaces,
        hspaces,
        calls, hcalls, joinMark, hjoinMark⟩, ?_⟩
      simp only [ActionFunc.text, ActionFunc.front, ActionFunc.body, ActionFunc.back,
        List.append_assoc]
      rfl
  · rintro ⟨⟨name, hname, splitMark, hsplitMark, spaces, hspaces, calls, hcalls, joinMark,
      hjoinMark⟩, rfl⟩
    refine ⟨_, ?_, name.elim [] (ascii " " ++ ·), _, rfl, ?_, _, rfl, _, _, rfl,
      ⟨splitMark, hsplitMark, rfl⟩,
      _, rfl, spaces, _, rfl, hspaces, _, _, rfl, ⟨calls, hcalls, rfl⟩, _, rfl, _, _, rfl,
      ⟨joinMark, hjoinMark, rfl⟩, _, rfl, rfl⟩
    · simp only [ActionFunc.text, ActionFunc.front, ActionFunc.body, ActionFunc.back,
        List.append_assoc]
      rfl
    · cases name with
      | none => exact .inl rfl
      | some text => exact .inr ⟨text, rfl, hname text rfl⟩

end Calls

/-! ## What the groups hold -/

section Pieces

variable {input : Bytes} {node : Node CharSet} {pos last : ℕ} {captures next : Captures}

theorem results_spell {text : Bytes}
    (h : (last, next) ∈ results CharSet.accepts input (spell text node) pos captures) :
    text <+: input.drop pos ∧
      (last, next) ∈ results CharSet.accepts input node (pos + text.length) captures := by
  induction text generalizing pos with
  | nil => exact ⟨List.nil_prefix, h⟩
  | cons ch text ih =>
    have hspell : spell (ch :: text) node = .seq (char ch) (spell text node) := rfl
    rw [hspell] at h
    obtain ⟨middle, between, hchar, hrest⟩ := mem_seq.mp h
    obtain ⟨u, hu, rfl, hmatch⟩ := results_sound hchar
    obtain rfl := Iff.mp matches_char hmatch
    obtain ⟨-, -, rfl⟩ := mem_one.mp hchar
    obtain ⟨htext, hnode⟩ := ih hrest
    refine ⟨append_prefix_drop hu htext, ?_⟩
    rwa [List.length_cons, Nat.add_comm text.length, ← Nat.add_assoc]

/-- Group 1 of a match of the first pattern holds the name of the object, and group 2 its body. -/
theorem objPattern_pieces (hlength : captures.length = 22)
    (h : (last, next) ∈ results CharSet.accepts input (.group 0 objPattern) pos captures) :
    ∃ obj : ActionObj, obj.text <+: input.drop pos ∧ last = pos + obj.text.length ∧
      piece input next 1 = some obj.name ∧ piece input next 2 = some (bodyOf obj.members) := by
  obtain ⟨between, hobj, rfl⟩ := mem_group.mp h
  obtain ⟨hvar, hrest⟩ := results_spell hobj
  obtain ⟨middle, afterName, hname, hrest⟩ := mem_seq.mp hrest
  obtain ⟨name, hnamePrefix, rfl, hnameMatch, hnamePiece⟩ :=
    piece_group (by decide) (by rw [List.length_set]; omega) hname
  have hnameLength := (results_within hname).length
  rw [List.length_set] at hnameLength
  obtain ⟨hopen, hrest⟩ := results_spell hrest
  obtain ⟨middle, afterBody, hbody, hrest⟩ := mem_seq.mp hrest
  obtain ⟨body, hbodyPrefix, rfl, hbodyMatch, hbodyPiece⟩ :=
    piece_group (by decide) (by omega) hbody
  obtain ⟨hclose, hsemicolon⟩ := results_spell hrest
  obtain ⟨mark, hmark, rfl, hmarkMatch⟩ := results_sound hsemicolon
  obtain rfl := Iff.mp matches_char hmarkMatch
  obtain ⟨members, hmembers, rfl⟩ := (matches_plus fun _ ↦ matches_property).mp hbodyMatch
  have hlast : (2 * 0 + 1) / 2 ∈ [0] := by decide
  have hset := within_set hlast between (some (pos + (ascii "var ").length + name.length +
    (ascii "=\x7b").length + (members.flatMap Member.text).length + (ascii "\x7d").length +
      [semicolon].length))
  have hafter := results_within hrest
  refine ⟨⟨name, Iff.mp matches_identifier hnameMatch, members, hmembers⟩, ?_, ?_, ?_, ?_⟩
  · exact append_prefix_drop hvar (append_prefix_drop hnamePrefix (append_prefix_drop hopen
      (append_prefix_drop hbodyPrefix (append_prefix_drop hclose hmark))))
  · simp only [ActionObj.text, List.length_append, bodyOf]
    have hsplit : (ascii "\x7d;").length = (ascii "\x7d").length + [semicolon].length := by decide
    omega
  · rw [hset.piece_eq (by decide), hafter.piece_eq (by decide),
      (results_within hbody).piece_eq (by decide), hnamePiece]
  · rw [hset.piece_eq (by decide), hafter.piece_eq (by decide), hbodyPiece]
    rfl

/-- Group 1 of a match of the second pattern holds the calls. -/
theorem funcPattern_pieces (hlength : captures.length = 8)
    (h : (last, next) ∈ results CharSet.accepts input (.group 0 funcPattern) pos captures) :
    ∃ func : ActionFunc, func.text <+: input.drop pos ∧ last = pos + func.text.length ∧
      piece input next 1 = some func.body := by
  obtain ⟨between, hfunc, rfl⟩ := mem_group.mp h
  obtain ⟨hfunction, hrest⟩ := results_spell hfunc
  obtain ⟨_, _, hname, hrest⟩ := mem_seq.mp hrest
  obtain ⟨name, hnamePrefix, rfl, hnameMatch⟩ := results_sound hname
  obtain ⟨hopen, hrest⟩ := results_spell hrest
  obtain ⟨_, _, hsplit, hrest⟩ := mem_seq.mp hrest
  obtain ⟨split, hsplitPrefix, rfl, hsplitMatch⟩ := results_sound hsplit
  obtain ⟨hclose, hrest⟩ := results_spell hrest
  obtain ⟨_, afterSpaces, hspaces, hrest⟩ := mem_seq.mp hrest
  obtain ⟨spaces, hspacesPrefix, rfl, hspacesMatch⟩ := results_sound hspaces
  obtain ⟨_, _, hcalls, hrest⟩ := mem_seq.mp hrest
  have hcount : 2 * 1 + 1 < afterSpaces.length := by
    rw [(results_within hspaces).length, (results_within hsplit).length,
      (results_within hname).length,
      List.length_set]
    omega
  obtain ⟨body, hbodyPrefix, rfl, hbodyMatch, hbodyPiece⟩ := piece_group (by decide) hcount hcalls
  obtain ⟨hreturn, hrest⟩ := results_spell hrest
  obtain ⟨_, _, hjoin, hrest⟩ := mem_seq.mp hrest
  obtain ⟨join, hjoinPrefix, rfl, hjoinMatch⟩ := results_sound hjoin
  obtain ⟨hend, hbrace⟩ := results_spell hrest
  obtain ⟨brace, hbracePrefix, rfl, hbraceMatch⟩ := results_sound hbrace
  obtain rfl := Iff.mp matches_char hbraceMatch
  obtain ⟨splitMark, hsplitMark, rfl⟩ := Iff.mp matches_emptyString hsplitMatch
  obtain ⟨joinMark, hjoinMark, rfl⟩ := Iff.mp matches_emptyString hjoinMatch
  obtain ⟨calls, hcallsNe, rfl⟩ := (matches_plus fun _ ↦ matches_call).mp hbodyMatch
  obtain ⟨label, hlabel, rfl⟩ : ∃ label : Option Bytes, (∀ text ∈ label, isIdentifier text = true) ∧
      name = label.elim [] (ascii " " ++ ·) := by
    rw [matches_maybe_iff, matches_spell] at hnameMatch
    obtain rfl | ⟨text, rfl, htext⟩ := hnameMatch
    · exact ⟨none, (fun _ hmem ↦ nomatch hmem), rfl⟩
    · exact ⟨some text, fun _ hmem ↦ Option.some.inj hmem ▸ Iff.mp matches_identifier htext, rfl⟩
  have hlast : (2 * 0 + 1) / 2 ∈ [0] := by decide
  refine ⟨⟨label, hlabel, splitMark, hsplitMark, spaces, Iff.mp matches_spaces hspacesMatch, calls,
    hcallsNe,
    joinMark, hjoinMark⟩, ?_, ?_, ?_⟩
  · have htext := append_prefix_drop hfunction
      (append_prefix_drop hnamePrefix (append_prefix_drop hopen
      (append_prefix_drop hsplitPrefix (append_prefix_drop hclose (append_prefix_drop hspacesPrefix
        (append_prefix_drop hbodyPrefix (append_prefix_drop hreturn (append_prefix_drop hjoinPrefix
          (append_prefix_drop hend hbracePrefix)))))))))
    simp only [ActionFunc.text, ActionFunc.front, ActionFunc.body, ActionFunc.back,
      List.append_assoc]
    exact htext
  · have hsplit : (ascii ")\x7d").length = (ascii ")").length + [(125 : UInt8)].length := by decide
    simp only [ActionFunc.text, ActionFunc.front, ActionFunc.body, ActionFunc.back,
      List.length_append]
    omega
  · rw [(within_set hlast _ _).piece_eq (by decide), (results_within hrest).piece_eq (by decide),
      (results_within hjoin).piece_eq (by decide), hbodyPiece]
    rfl

end Pieces
end LibYtdl.Sig.SigGrammar
