import LibYtdl.Sig.SigGrammar

/-!
# The signature patterns are unambiguous

At one position of a text there is at most one object, and at most one function. Each part of them
ends where a character stands that it does not go on with.
-/

namespace LibYtdl.Sig.SigUnique

open Machine Search ObjectScan CallScan SigGrammar

deriving instance DecidableEq for Method

/-! ## Parts that end at a character -/

section Parts

variable {first second rest other : Bytes} {good : UInt8 → Bool}

/-- Texts of good characters that stand in front of others. -/
theorem run_unique (hfirst : first.all good = true) (hsecond : second.all good = true)
    (hrest : ∀ ch ∈ rest.head?, good ch = false) (hother : ∀ ch ∈ other.head?, good ch = false)
    (h : first ++ rest = second ++ other) : first = second ∧ rest = other := by
  have htake {run tail : Bytes} (hrun : run.all good = true)
    (htail : ∀ ch ∈ tail.head?, good ch = false) :
      (run ++ tail).takeWhile good = run := by
    rw [List.takeWhile_append_of_pos (List.all_eq_true.mp hrun)]
    cases tail with
    | nil => rw [List.takeWhile_nil, List.append_nil]
    | cons ch tail =>
      rw [List.takeWhile_cons_of_neg (by rw [htail ch rfl]; exact Bool.false_ne_true),
        List.append_nil]
  have hsame : first = second := by
    rw [← htake hfirst hrest, h, htake hsecond hother]
  subst hsame
  exact ⟨rfl, List.append_cancel_left h⟩

theorem optional_all {text : Bytes} {present : Bool} (h : text.all good = true) :
    (optional present text).all good = true := by
  cases present
  · rfl
  · exact h

/-- A text that is there in both, or in neither. -/
theorem optional_unique {text : Bytes} {present also : Bool} (hrest : ¬ text <+: rest)
    (hother : ¬ text <+: other) (h : optional present text ++ rest = optional also text ++ other) :
    present = also ∧ rest = other := by
  cases present <;> cases also
  · exact ⟨rfl, h⟩
  · exact absurd ⟨other, h.symm⟩ hrest
  · exact absurd ⟨rest, h⟩ hother
  · exact ⟨rfl, List.append_cancel_left h⟩

end Parts

/-! ## Names -/

section Names

variable {rest other : Bytes}

theorem all_of_isIdentifier {name : Bytes} (h : isIdentifier name = true) :
    name.all isIdentifierChar = true :=
  List.all_eq_true.mpr fun _ ↦ isIdentifierChar_of_mem h

theorem ne_nil_of_isIdentifier {name : Bytes} (h : isIdentifier name = true) : name ≠ [] := by
  rintro rfl
  exact absurd h Bool.false_ne_true

/-- A content ends at the first quote that is not escaped. -/
theorem content_unique {mark : UInt8} {content more : Bytes} (hmark : mark ≠ backslash)
    (hcontent : IsContent mark content) (hmore : IsContent mark more)
    (h : content ++ mark :: rest = more ++ mark :: other) : content = more ∧ rest = other := by
  induction hcontent generalizing more with
  | nil =>
    cases hmore with
    | nil => exact ⟨rfl, (List.cons.inj h).2⟩
    | plain hne => exact absurd (List.cons.inj h).1.symm hne
    | escaped => exact absurd (List.cons.inj h).1 hmark
  | plain hne hbackslash _ ih =>
    cases hmore with
    | nil => exact absurd (List.cons.inj h).1 hne
    | plain _ _ hmore =>
      obtain ⟨rfl, htail⟩ := List.cons.inj h
      obtain ⟨rfl, hrest⟩ := ih hmore htail
      exact ⟨rfl, hrest⟩
    | escaped => exact absurd (List.cons.inj h).1 hbackslash
  | escaped ch _ ih =>
    cases hmore with
    | nil => exact absurd (List.cons.inj h).1.symm hmark
    | plain _ hbackslash => exact absurd (List.cons.inj h).1.symm hbackslash
    | escaped _ hmore =>
      obtain ⟨rfl, htail⟩ := List.cons.inj (List.cons.inj h).2
      obtain ⟨rfl, hrest⟩ := ih hmore htail
      exact ⟨rfl, hrest⟩

theorem ne_backslash_of_isMark {mark : UInt8} (h : mark = quote ∨ mark = doubleQuote) :
    mark ≠ backslash := by
  obtain rfl | rfl := h <;> decide

theorem isIdentifierChar_of_isMark {mark : UInt8} (h : mark = quote ∨ mark = doubleQuote) :
    isIdentifierChar mark = false := by
  obtain rfl | rfl := h <;> rfl

/-- Strings of either quotes. -/
theorem quoted_unique {mark also : UInt8} {content more : Bytes}
    (hmark : mark = quote ∨ mark = doubleQuote)
    (hcontent : IsContent mark content) (hmore : IsContent also more)
    (h : mark :: (content ++ mark :: rest) = also :: (more ++ also :: other)) :
    mark = also ∧ content = more ∧ rest = other := by
  obtain ⟨rfl, htail⟩ := List.cons.inj h
  exact ⟨rfl, content_unique (ne_backslash_of_isMark hmark) hcontent hmore htail⟩

theorem name_unique {name also : Name} (h : name.text ++ colon :: rest =
    also.text ++ colon :: other) :
    name = also ∧ rest = other := by
  have hcolon (tail : Bytes) : ∀ ch ∈ (colon :: tail).head?, isIdentifierChar ch = false := by
    intro ch hch
    obtain rfl := Option.some.inj hch
    rfl
  have hmixed {text content tail more : Bytes} {mark : UInt8} (htext : isIdentifier text = true)
      (hmark : mark = quote ∨ mark = doubleQuote)
      (h : text ++ colon :: tail = mark :: (content ++ [mark]) ++ colon :: more) : False := by
    cases text with
    | nil => exact absurd htext Bool.false_ne_true
    | cons ch text =>
      have hch := isIdentifierChar_of_mem htext List.mem_cons_self
      rw [(List.cons.inj h).1, isIdentifierChar_of_isMark hmark] at hch
      exact absurd hch Bool.false_ne_true
  cases name with
  | identifier text htext =>
    cases also with
    | identifier more hmore =>
      obtain ⟨rfl, htail⟩ := run_unique (all_of_isIdentifier htext) (all_of_isIdentifier hmore)
        (hcolon rest) (hcolon other) h
      exact ⟨rfl, (List.cons.inj htail).2⟩
    | quoted mark hmark => exact (hmixed htext hmark h).elim
  | quoted mark hmark content hcontent =>
    cases also with
    | identifier text htext => exact (hmixed htext hmark h.symm).elim
    | quoted also _ more hmore =>
      simp only [Name.text, List.cons_append, List.append_assoc, List.nil_append] at h
      obtain ⟨rfl, rfl, htail⟩ := quoted_unique hmark hcontent hmore h
      exact ⟨rfl, (List.cons.inj htail).2⟩

end Names

/-! ## Members -/

section Members

variable {rest other : Bytes}

/-- The functions with all that is optional in them. -/
def allMethods : List Method :=
  [.reverse false, .reverse true, .slice, .splice, .swap false false false, .swap false false true,
    .swap false true false, .swap false true true, .swap true false false, .swap true false true,
    .swap true true false, .swap true true true]

theorem mem_allMethods (method : Method) : method ∈ allMethods := by
  rcases method with (_ | _) | _ | _ | ⟨_ | _, _ | _, _ | _⟩ <;> decide

theorem allMethods_apart : ∀ method ∈ allMethods, ∀ also ∈ allMethods, method.text <+: also.text →
    method = also := by
  decide

/-- No function goes on with what another ends with. -/
theorem method_unique {method also : Method} (h : method.text ++ rest = also.text ++ other) :
    method = also ∧ rest = other := by
  have hsame : method = also := by
    obtain hprefix | hprefix := List.prefix_or_prefix_of_prefix
      (List.prefix_append method.text rest)
      (h ▸ List.prefix_append also.text other)
    · exact allMethods_apart _ (mem_allMethods method) _ (mem_allMethods also) hprefix
    · exact (allMethods_apart _ (mem_allMethods also) _ (mem_allMethods method) hprefix).symm
  subst hsame
  exact ⟨rfl, List.append_cancel_left h⟩

/-- A character of a separator. -/
def isSeparator (ch : UInt8) : Bool := ch = comma || ch = carriageReturn || ch = lineFeed

theorem separator_all (member : Member) :
    (member.separator ++ optional member.hasFeed [lineFeed]).all isSeparator = true := by
  rw [Member.separator, List.all_append, List.all_append, optional_all rfl, optional_all rfl,
    optional_all rfl]
  rfl

theorem separator_inj {hasComma hasReturn hasFeed alsoComma alsoReturn alsoFeed : Bool}
    (h : optional hasComma [comma] ++ optional hasReturn [carriageReturn] ++
      optional hasFeed [lineFeed] =
      optional alsoComma [comma] ++ optional alsoReturn [carriageReturn] ++
        optional alsoFeed [lineFeed]) :
    hasComma = alsoComma ∧ hasReturn = alsoReturn ∧ hasFeed = alsoFeed := by
  revert hasComma hasReturn hasFeed alsoComma alsoReturn alsoFeed
  decide

theorem member_unique {member also : Member} (hrest : ∀ ch ∈ rest.head?, isSeparator ch = false)
    (hother : ∀ ch ∈ other.head?, isSeparator ch = false)
    (h : member.text ++ rest = also.text ++ other) : member = also ∧ rest = other := by
  have hsplit (member : Member) (rest : Bytes) : member.text ++ rest =
      member.name.text ++ colon :: (member.method.text ++
        (member.separator ++ optional member.hasFeed [lineFeed] ++ rest)) := by
    simp only [Member.text, List.append_assoc, List.cons_append]
  rw [hsplit, hsplit] at h
  obtain ⟨hname, htail⟩ := name_unique h
  obtain ⟨hmethod, htail⟩ := method_unique htail
  obtain ⟨hseparator, htail⟩ := run_unique (separator_all member)
    (separator_all also) hrest hother htail
  obtain ⟨hcomma, hreturn, hfeed⟩ := separator_inj hseparator
  refine ⟨?_, htail⟩
  cases member
  cases also
  simp only at hname hmethod hcomma hreturn hfeed
  subst hname hmethod hcomma hreturn hfeed
  rfl

/-- A member starts with a character of an identifier or with a quote. -/
theorem head_member (member : Member) (rest : Bytes) : ∃ ch tail, member.text ++ rest = ch :: tail ∧
    isSeparator ch = false ∧ ch ≠ 125 := by
  obtain ⟨name, method, hasComma, hasReturn, hasFeed⟩ := member
  cases name with
  | identifier name hname =>
    cases name with
    | nil => exact absurd hname Bool.false_ne_true
    | cons ch name =>
      have hch := isIdentifierChar_of_mem hname List.mem_cons_self
      refine ⟨ch, _, rfl, ?_, ?_⟩
      · simp only [isSeparator, Bool.or_eq_false_iff, decide_eq_false_iff_not]
        exact ⟨⟨ne_of_isIdentifierChar hch (by decide), ne_of_isIdentifierChar hch (by decide)⟩,
          ne_of_isIdentifierChar hch (by decide)⟩
      · exact ne_of_isIdentifierChar hch (by decide)
  | quoted mark hmark content hcontent =>
    refine ⟨mark, _, rfl, ?_, ?_⟩
    · obtain rfl | rfl := hmark <;> rfl
    · obtain rfl | rfl := hmark <;> decide

theorem body_unique {members also : List Member}
    (h : bodyOf members ++ 125 :: rest = bodyOf also ++ 125 :: other) :
      members = also ∧ rest = other := by
  have hhead (members : List Member) (rest : Bytes) :
      ∀ ch ∈ (bodyOf members ++ 125 :: rest).head?, isSeparator ch = false := by
    intro ch hch
    cases members with
    | nil =>
      obtain rfl := Option.some.inj hch
      rfl
    | cons member members =>
      obtain ⟨first, tail, htext, hseparator, -⟩ :=
        head_member member (bodyOf members ++ 125 :: rest)
      rw [bodyOf_cons, List.append_assoc, htext] at hch
      exact Option.some.inj hch ▸ hseparator
  have hmixed {member : Member} {members : List Member} {rest other : Bytes}
      (h : 125 :: rest = bodyOf (member :: members) ++ 125 :: other) : False := by
    obtain ⟨first, tail, htext, -, hbrace⟩ := head_member member (bodyOf members ++ 125 :: other)
    rw [bodyOf_cons, List.append_assoc, htext] at h
    exact hbrace (List.cons.inj h).1.symm
  induction members generalizing also with
  | nil =>
    cases also with
    | nil => exact ⟨rfl, (List.cons.inj h).2⟩
    | cons member also => exact (hmixed h).elim
  | cons member members ih =>
    cases also with
    | nil => exact (hmixed h.symm).elim
    | cons also more =>
      rw [bodyOf_cons, bodyOf_cons, List.append_assoc, List.append_assoc] at h
      obtain ⟨rfl, htail⟩ := member_unique (hhead members rest) (hhead more other) h
      obtain ⟨rfl, hrest⟩ := ih htail
      exact ⟨rfl, hrest⟩

/-- Of two objects at one position, they are the same. -/
theorem obj_unique {obj also : ActionObj} (h : obj.text ++ rest = also.text ++ other) :
    obj = also := by
  have hend : ascii "\x7d;" = 125 :: [semicolon] := by decide
  have hopen : ascii "=\x7b" = 61 :: [123] := by decide
  simp only [ActionObj.text, List.append_assoc, hopen, List.cons_append, List.nil_append, hend] at h
  have hmark (tail : Bytes) : ∀ ch ∈ (61 :: tail).head?, isIdentifierChar ch = false := by
    intro ch hch
    obtain rfl := Option.some.inj hch
    rfl
  obtain ⟨hname, htail⟩ := run_unique (all_of_isIdentifier obj.hname)
    (all_of_isIdentifier also.hname)
    (hmark _) (hmark _) (List.append_cancel_left h)
  obtain ⟨-, htail⟩ := List.cons.inj htail
  obtain ⟨hmembers, -⟩ := body_unique (List.cons.inj htail).2
  cases obj
  cases also
  simp only at hname hmembers
  subst hname hmembers
  rfl

end Members

/-! ## Calls -/

section Calls

variable {rest other : Bytes}

/-- A property is accessed behind a dot or in brackets. -/
theorem head_access (name : Name) : ∃ ch tail, accessText name = ch :: tail ∧
    (ch = dot ∨ ch = openBracket) := by
  cases name with
  | identifier name => exact ⟨dot, name, rfl, .inl rfl⟩
  | quoted mark _ content => exact ⟨openBracket, _, rfl, .inr rfl⟩

theorem isIdentifierChar_access (name : Name) (rest : Bytes) :
    ∀ ch ∈ (accessText name ++ rest).head?, isIdentifierChar ch = false := by
  intro ch hch
  obtain ⟨first, tail, htext, hfirst⟩ := head_access name
  rw [htext] at hch
  obtain rfl := Option.some.inj hch
  obtain rfl | rfl := hfirst <;> rfl

theorem access_unique {name also : Name}
    (h : accessText name ++ openParen :: rest = accessText also ++ openParen :: other) :
    name = also ∧ rest = other := by
  have hparen (tail : Bytes) : ∀ ch ∈ (openParen :: tail).head?, isIdentifierChar ch = false := by
    intro ch hch
    obtain rfl := Option.some.inj hch
    rfl
  cases name with
  | identifier text htext =>
    cases also with
    | identifier more hmore =>
      obtain ⟨rfl, htail⟩ := run_unique (all_of_isIdentifier htext) (all_of_isIdentifier hmore)
        (hparen rest) (hparen other) (List.cons.inj h).2
      exact ⟨rfl, (List.cons.inj htail).2⟩
    | quoted => exact absurd (List.cons.inj h).1 (by decide)
  | quoted mark hmark content hcontent =>
    cases also with
    | identifier => exact absurd (List.cons.inj h).1 (by decide)
    | quoted also _ more hmore =>
      simp only [accessText, List.cons_append, List.append_assoc, List.nil_append] at h
      obtain ⟨rfl, rfl, htail⟩ := quoted_unique hmark hcontent hmore (List.cons.inj h).2
      exact ⟨rfl, (List.cons.inj (List.cons.inj htail).2).2⟩

/-- An identifier in front of an access is not an assignment. -/
theorem not_assigns {object : Bytes} (hobject : isIdentifier object = true) (call : ActionCall) :
    ¬ ascii "a=" <+: object ++ (call.back ++ rest) := by
  have hassign : ascii "a=" = [97, 61] := by decide
  rintro ⟨tail, htail⟩
  rw [hassign] at htail
  match object with
  | [] => exact absurd hobject Bool.false_ne_true
  | [ch] =>
    obtain ⟨first, more, htext, hfirst⟩ := head_access call.name
    rw [ActionCall.back, htext] at htail
    obtain rfl := (List.cons.inj (List.cons.inj htail).2).1
    obtain hfirst | hfirst := hfirst <;> exact absurd hfirst (by decide)
  | ch :: second :: object =>
    have hsecond := isIdentifierChar_of_mem hobject (List.mem_cons_of_mem _ List.mem_cons_self)
    obtain rfl := (List.cons.inj (List.cons.inj htail).2).1
    exact absurd hsecond (by decide)

theorem call_unique {call also : ActionCall} (h : call.text ++ rest = also.text ++ other) :
    call = also ∧ rest = other := by
  rw [text_append, text_append] at h
  obtain ⟨hassigns, htail⟩ := optional_unique (not_assigns call.hobject call)
    (not_assigns also.hobject also) h
  have hparen : ascii "(a," = openParen :: [97, comma] := by decide
  have hclose : ascii ");" = closeParen :: [semicolon] := by decide
  simp only [ActionCall.back, List.append_assoc, hparen, hclose, List.cons_append] at htail
  obtain ⟨hobject, htail⟩ := run_unique (all_of_isIdentifier call.hobject)
    (all_of_isIdentifier also.hobject)
    (isIdentifierChar_access _ _) (isIdentifierChar_access _ _) htail
  obtain ⟨hname, htail⟩ := access_unique htail
  have hdigit (tail : Bytes) : ∀ ch ∈ (closeParen :: tail).head?, isDigit ch = false := by
    intro ch hch
    obtain rfl := Option.some.inj hch
    rfl
  obtain ⟨hnumber, htail⟩ := run_unique call.hdigits also.hdigits (hdigit _) (hdigit _)
    (List.cons.inj (List.cons.inj htail).2).2
  refine ⟨?_, List.append_cancel_left (List.cons.inj (List.cons.inj htail).2).2⟩
  cases call
  cases also
  simp only at hassigns hobject hname hnumber
  subst hassigns hobject hname hnumber
  rfl

/-- A call is not what stands behind the calls. -/
theorem call_ne_return {call : ActionCall} (h : call.text ++ rest =
    ascii "return a.join(" ++ other) : False := by
  have hreturn : ascii "return a.join(" = ascii "return" ++ 32 :: ascii "a.join(" := by decide
  rw [text_append, hreturn, List.append_assoc] at h
  cases hassigns : call.assigns with
  | true =>
    rw [hassigns] at h
    exact absurd (List.cons.inj h).1 (by decide)
  | false =>
    rw [hassigns] at h
    have hspace : ∀ ch ∈ (32 :: ascii "a.join(" ++ other).head?, isIdentifierChar ch = false := by
      intro ch hch
      obtain rfl := Option.some.inj hch
      rfl
    obtain ⟨-, htail⟩ := run_unique (all_of_isIdentifier call.hobject)
      (by decide : (ascii "return").all isIdentifierChar = true)
      (by rw [ActionCall.back, List.append_assoc]; exact isIdentifierChar_access _ _)
      hspace h
    obtain ⟨first, more, htext, hfirst⟩ := head_access call.name
    rw [ActionCall.back, htext] at htail
    obtain rfl := (List.cons.inj htail).1
    obtain hfirst | hfirst := hfirst <;> exact absurd hfirst (by decide)

theorem calls_unique {calls also : List ActionCall}
    (h : calls.flatMap ActionCall.text ++ (ascii "return a.join(" ++ rest) =
      also.flatMap ActionCall.text ++ (ascii "return a.join(" ++ other)) :
        calls = also ∧ rest = other := by
  induction calls generalizing also with
  | nil =>
    cases also with
    | nil => exact ⟨rfl, List.append_cancel_left h⟩
    | cons call also =>
      rw [List.flatMap_cons, List.append_assoc] at h
      exact (call_ne_return h.symm).elim
  | cons call calls ih =>
    cases also with
    | nil =>
      rw [List.flatMap_cons, List.append_assoc] at h
      exact (call_ne_return h).elim
    | cons also more =>
      rw [List.flatMap_cons, List.flatMap_cons, List.append_assoc, List.append_assoc] at h
      obtain ⟨rfl, htail⟩ := call_unique h
      obtain ⟨rfl, hrest⟩ := ih htail
      exact ⟨rfl, hrest⟩

/-- A call does not start with a space. -/
theorem head_call (call : ActionCall) (rest : Bytes) :
    ∀ ch ∈ (call.text ++ rest).head?, isSpace ch = false := by
  intro ch hch
  rw [text_append] at hch
  cases hassigns : call.assigns with
  | true =>
    rw [hassigns] at hch
    obtain rfl := Option.some.inj hch
    rfl
  | false =>
    rw [hassigns] at hch
    obtain ⟨assigns, object, hobject, name, number, hnumber, hdigits⟩ := call
    cases object with
    | nil => exact absurd hobject Bool.false_ne_true
    | cons first object =>
      have hfirst := isIdentifierChar_of_mem hobject List.mem_cons_self
      obtain rfl := Option.some.inj hch
      simp only [isSpace, Bool.or_eq_false_iff, Bool.and_eq_false_iff, decide_eq_false_iff_not]
      simp only [isIdentifierChar, Bool.or_eq_true, Bool.and_eq_true, decide_eq_true_eq] at hfirst
      simp only [UInt8.le_iff_toNat_le, ← UInt8.toNat_inj, UInt8.reduceToNat] at hfirst ⊢
      omega

/-- Of two functions at one position, they are the same. -/
theorem func_unique {func also : ActionFunc} (h : func.text ++ rest = also.text ++ other) :
    func = also := by
  simp only [ActionFunc.text, ActionFunc.front, ActionFunc.body, ActionFunc.back, List.append_assoc]
    at h
  have hopen : ascii "(a)\x7ba=a.split(" = openParen :: ascii "a)\x7ba=a.split(" := by decide
  have hlabel : func.name = also.name ∧ ∀ tail more : Bytes,
      func.name.elim [] (ascii " " ++ ·) ++ tail = also.name.elim [] (ascii " " ++ ·) ++ more →
        tail = more := by
    have htail := List.append_cancel_left h
    rw [hopen] at htail
    have hparen (tail : Bytes) : ∀ ch ∈ (openParen :: tail).head?, isIdentifierChar ch = false := by
      intro ch hch
      obtain rfl := Option.some.inj hch
      rfl
    have hname := func.hname
    have hmore := also.hname
    cases hfunc : func.name with
    | none =>
      cases halso : also.name with
      | none => exact ⟨rfl, fun _ _ h ↦ h⟩
      | some more =>
        rw [hfunc, halso] at htail
        exact absurd (List.cons.inj htail).1 (by decide)
    | some name =>
      cases halso : also.name with
      | none =>
        rw [hfunc, halso] at htail
        exact absurd (List.cons.inj htail).1 (by decide)
      | some more =>
        rw [hfunc, halso] at htail
        obtain ⟨rfl, -⟩ := run_unique (all_of_isIdentifier (hname name hfunc))
          (all_of_isIdentifier (hmore more halso)) (hparen _) (hparen _)
          (List.cons.inj htail).2
        exact ⟨rfl, fun _ _ h ↦ List.append_cancel_left h⟩
  obtain ⟨hname, hcancel⟩ := hlabel
  have htail := List.append_cancel_left (hcancel _ _ (List.append_cancel_left h))
  obtain ⟨hsplit, htail⟩ := List.cons.inj htail
  have htail := List.append_cancel_left (List.append_cancel_left (List.cons.inj htail).2)
  have hspace (func : ActionFunc) (tail : Bytes) :
      ∀ ch ∈ (func.calls.flatMap ActionCall.text ++ tail).head?, isSpace ch = false := by
    obtain ⟨call, calls, hcalls⟩ := List.exists_cons_of_ne_nil func.hcalls
    rw [hcalls, List.flatMap_cons, List.append_assoc]
    exact head_call call _
  obtain ⟨hspaces, htail⟩ := run_unique func.hspaces also.hspaces (hspace func _)
    (hspace also _) htail
  obtain ⟨hcalls, htail⟩ := calls_unique htail
  obtain ⟨hjoin, -⟩ := List.cons.inj htail
  cases func
  cases also
  simp only at hname hsplit hspaces hcalls hjoin
  subst hname hsplit hspaces hcalls hjoin
  rfl

end Calls

end LibYtdl.Sig.SigUnique
