import LibYtdl.Sig.ObjectScan

/-!
# The scanner of the action calls

The second loop of `ytdl_sig_actions_extract` goes through the calls in the body of the function
that `action_func_regexp` has matched. It keeps where the name of the called property starts and
ends and where the second argument starts. At the end of a call it compares the name with those that
the first loop has recorded.
-/

namespace LibYtdl.Sig.CallScan

open Machine Memory Scanner Actions ObjectScan

/-- `YTDL_MAX_SIG`. -/
def maxSig : ℕ := 20

/-- The character `.`. -/
def dot : UInt8 := 46

/-- The character `(`. -/
def openParen : UInt8 := 40

/-- The character `)`. -/
def closeParen : UInt8 := 41

/-- The character `[`. -/
def openBracket : UInt8 := 91

/-- The character `]`. -/
def closeBracket : UInt8 := 93

def semicolon : UInt8 := 59

/-! ## The loop -/

/-- The value of a `char`. -/
def charValue (ch : UInt8) : ℤ := if ch < 128 then ch.toNat else ch.toNat - 256

/-- The values of an `int`. -/
def inInt (value : ℤ) : Bool := -2 ^ 31 ≤ value && value < 2 ^ 31

/-- The loop of `str2int`, with so many characters left. -/
def str2intLoop : ℕ → ℤ → Bytes → Option ℤ
  | 0, ret, _ => some ret
  | _ + 1, _, [] => none
  | len + 1, ret, ch :: str =>
    let next := ret * 10 + (charValue ch - 48)
    if inInt (ret * 10) && inInt next then str2intLoop len next str else none

/-- `str2int`. -/
def str2int (str : Bytes) (len : ℤ) : Option ℤ := str2intLoop len.toNat 0 str

/-- The cells of `actions` and of `actions_arg`, with `none` where they were not written. -/
abbrev Cells := List (Option Entry)

/-- What ends the loop early: it reads or writes outside of an object or leaves the range of `int`,
or there are too many actions and the function returns -1. -/
inductive Stop
  | undefined
  | overflow (actions : Cells)

/-- The variables of the loop; `nEnd` is set where it is used. -/
structure Cursor where
  vStart : ℕ
  vEnd : ℕ
  nStart : ℕ
  propType : Bool
  actions : Cells
  actionIdx : ℕ

section Loop

variable (objBody body : Object UInt8) (ranges : Ranges)

/-- The condition for a kind: its name is there, has this length, and is the one that starts at
`vStart`. -/
def isNamed (vStart vlen : ℕ) (kind : SigAction) : Option Bool :=
  let range := ranges kind
  if range.stop ≠ 0 ∧ sizeT ((range.stop : ℤ) - range.start) = vlen then
    strncmp (body.cells.drop vStart) (objBody.cells.drop range.start) vlen
  else
    some false

/-- The first of these kinds with that name. -/
def findKind (vStart vlen : ℕ) : List SigAction → Option (Option SigAction)
  | [] => some none
  | kind :: kinds => do
    if ← isNamed objBody body ranges vStart vlen kind then some (some kind)
    else findKind vStart vlen kinds

/-- The kinds in the order in which they are tried. -/
def kindOrder : List SigAction := [.swap, .splice, .slice, .reverse]

/-- The argument that is stored with a kind. -/
def argumentOf (nStart nEnd : ℕ) : SigAction → Option ℤ
  | .reverse => some 0
  | _ => str2int (body.cells.drop nStart) (toInt (sizeT ((nEnd : ℤ) - nStart)))

/-- An action is stored. -/
def Cursor.store (cursor : Cursor) (entry : Entry) : Cursor :=
  { cursor with
    actions := cursor.actions.set cursor.actionIdx (some entry)
    actionIdx := cursor.actionIdx + 1 }

/-- The end of a call. -/
def closeCall (nEnd : ℕ) (cursor : Cursor) : Except Stop Cursor :=
  let vlen := sizeT ((cursor.vEnd : ℤ) - cursor.vStart)
  if cursor.actionIdx = maxSig then
    .error (.overflow cursor.actions)
  else
    match findKind objBody body ranges cursor.vStart vlen kindOrder with
    | none => .error .undefined
    | some none => .ok cursor
    | some (some kind) =>
      match argumentOf body cursor.nStart nEnd kind with
      | none => .error .undefined
      | some arg =>
        if cursor.actionIdx < cursor.actions.length then .ok (cursor.store (kind, arg))
        else .error .undefined

/-- One iteration. -/
def callStep (idx : ℕ) (cursor : Cursor) (ch : UInt8) (_ : Bytes) : Except Stop (Cursor × ℕ) :=
  if ch = dot then .ok ({ cursor with vStart := idx + 1, propType := true }, 1)
  else if ch = openParen then
    .ok ({ cursor with vEnd := if cursor.propType then idx else cursor.vEnd, propType := true }, 0)
  else if ch = openBracket then .ok ({ cursor with vStart := idx + 2, propType := false }, 2)
  else if ch = doubleQuote ∨ ch = quote then .ok ({ cursor with vEnd := idx }, 0)
  else if ch = comma then .ok ({ cursor with nStart := idx + 1 }, 1)
  else if ch = closeParen then (closeCall objBody body ranges idx cursor).map fun next ↦ (next, 0)
  else .ok (cursor, 0)

/-- The variables before the loop. -/
def Cursor.initial (actions : Cells) : Cursor := ⟨0, 0, 0, true, actions, 0⟩

/-- The loop, on these cells; the value is what it leaves in them, and `actions_size`. -/
def callLoop (actions : Cells) : Except Stop (Cells × ℕ) :=
  (scan (callStep objBody body ranges) 0 0 (.initial actions) body.cells).map fun cursor ↦
    (cursor.actions, cursor.actionIdx)

end Loop

/-! ## The calls -/

/-- How a property is accessed: behind a dot, or in brackets and quotes. -/
inductive Access
  | dotted
  | bracketed (mark : UInt8) (hmark : mark = quote ∨ mark = doubleQuote)

def Access.opening : Access → Bytes
  | .dotted => [dot]
  | .bracketed mark _ => [openBracket, mark]

def Access.closing : Access → Bytes
  | .dotted => []
  | .bracketed mark _ => [mark, closeBracket]

/-- The number that digits stand for. -/
def decimal (digits : Bytes) : ℕ :=
  digits.foldl (fun value digit ↦ value * 10 + (digit.toNat - 48)) 0

/-- The character is a digit. -/
def isDigit (ch : UInt8) : Bool := 48 ≤ ch && ch ≤ 57

/-- `[a=]OBJ.name(a,n);`, or the same with brackets. The text that a regular expression is run on
has a length that fits an `int`, so the digits are fewer than that. -/
structure Call where
  assigns : Bool
  object : Bytes
  hobject : isIdentifier object = true
  access : Access
  name : Bytes
  hname : name ≠ []
  hchars : name.all isIdentifierChar = true
  number : Bytes
  hnumber : number ≠ []
  hdigits : number.all isDigit = true
  hvalue : decimal number < 2 ^ 31
  hlength : number.length < 2 ^ 31

/-- What stands in front of the name. -/
def Call.front (call : Call) : Bytes := optional call.assigns [97, 61] ++ call.object

def Call.text (call : Call) : Bytes :=
  call.front ++ (call.access.opening ++ call.name ++ call.access.closing ++
    openParen :: 97 :: comma :: (call.number ++ [closeParen, semicolon]))

/-- The body of a function that makes these calls. -/
def textOf (calls : List Call) : Bytes := calls.flatMap Call.text

/-- The ranges that name the kinds in the body of the object: each kind that has a name has one of
its own. -/
structure Assigned (objBody : Bytes) (names : SigAction → Option Bytes)
    (ranges : Ranges) : Prop where
  named : ∀ kind name, names kind = some name →
    name ≠ [] ∧ (ranges kind).stop = (ranges kind).start + name.length ∧
      (objBody.drop (ranges kind).start).take name.length = name
  unnamed : ∀ kind, names kind = none → (ranges kind).stop = 0
  distinct : ∀ kind other, names kind = names other → names kind ≠ none → kind = other

/-- The kind of function that has this name. -/
def kindOf (names : SigAction → Option Bytes) (name : Bytes) : Option SigAction :=
  [.swap, .reverse, .slice, .splice].find? fun kind ↦ names kind = some name

/-- The action of a call, if its name is that of a kind. -/
def entryOf (names : SigAction → Option Bytes) (call : Call) : Option Entry :=
  (kindOf names call.name).map fun kind ↦
    (kind, if kind = .reverse then 0 else (decimal call.number : ℤ))

/-- The actions of the calls, in order. -/
def entriesOf (names : SigAction → Option Bytes) (calls : List Call) : List Entry :=
  calls.filterMap (entryOf names)

/-! ## The number and the name -/

theorem isDigit_toNat {ch : UInt8} (h : isDigit ch = true) : 48 ≤ ch.toNat ∧ ch.toNat ≤ 57 := by
  rw [isDigit, Bool.and_eq_true, decide_eq_true_eq, decide_eq_true_eq, UInt8.le_iff_toNat_le,
    UInt8.le_iff_toNat_le] at h
  exact h

theorem charValue_digit {ch : UInt8} (h : isDigit ch = true) :
    charValue ch - 48 = ((ch.toNat - 48 : ℕ) : ℤ) := by
  obtain ⟨hlow, hhigh⟩ := isDigit_toNat h
  have hchar : ch < 128 := by
    rw [UInt8.lt_iff_toNat_lt]
    exact lt_of_le_of_lt hhigh (by decide)
  rw [charValue, if_pos hchar]
  omega

/-- The value of more digits is not smaller. -/
theorem le_foldl_decimal (digits : Bytes) (value : ℕ) :
    value ≤ digits.foldl (fun value digit ↦ value * 10 + (digit.toNat - 48)) value := by
  induction digits generalizing value with
  | nil => exact le_refl value
  | cons digit digits ih =>
    rw [List.foldl_cons]
    exact le_trans (by omega) (ih _)

theorem str2intLoop_eq {digits : Bytes} (hdigits : digits.all isDigit = true) (rest : Bytes)
    {value : ℕ}
    (hvalue : digits.foldl (fun value digit ↦ value * 10 + (digit.toNat - 48)) value < 2 ^ 31) :
    str2intLoop digits.length value (digits ++ rest) =
      some ((digits.foldl (fun value digit ↦ value * 10 + (digit.toNat - 48)) value : ℕ) : ℤ) := by
  induction digits generalizing value with
  | nil => rfl
  | cons digit digits ih =>
    rw [List.all_cons, Bool.and_eq_true] at hdigits
    rw [List.foldl_cons] at hvalue ⊢
    have hle := le_foldl_decimal digits (value * 10 + (digit.toNat - 48))
    have hnext : (value : ℤ) * 10 + (charValue digit - 48) =
        ((value * 10 + (digit.toNat - 48) : ℕ) : ℤ) := by
      rw [charValue_digit hdigits.1]
      push_cast
      rfl
    have hfits : (inInt ((value : ℤ) * 10) &&
        inInt ((value * 10 + (digit.toNat - 48) : ℕ) : ℤ)) = true := by
      simp only [inInt, Bool.and_eq_true, decide_eq_true_eq]
      omega
    rw [List.length_cons, List.cons_append, str2intLoop, hnext, if_pos hfits]
    exact ih hdigits.2 hvalue

/-- The argument of a call. -/
theorem str2int_number (call : Call) (rest : Bytes) :
    str2int (call.number ++ rest) call.number.length = some (decimal call.number : ℤ) := by
  rw [str2int, Int.toNat_natCast]
  exact str2intLoop_eq call.hdigits rest call.hvalue

/-- Texts of one length are compared as a whole, when the first has no zero. -/
theorem strncmp_eq_of_length {first second : Bytes} (hlength : first.length = second.length)
    (hzero : 0 ∉ first) (firstRest secondRest : Bytes) :
    strncmp (first ++ firstRest) (second ++ secondRest) first.length =
      some (decide (first = second)) := by
  induction first generalizing second with
  | nil =>
    obtain rfl := List.eq_nil_of_length_eq_zero hlength.symm
    simp [strncmp]
  | cons head first ih =>
    cases second with
    | nil => cases hlength
    | cons other second =>
      have hhead : head ≠ 0 := fun h ↦ hzero (by simp [h])
      have hrest := ih (Nat.succ.inj hlength) fun h ↦ hzero (List.mem_cons_of_mem _ h)
      by_cases hsame : head = other
      · subst hsame
        simp [strncmp, hhead, hrest]
      · simp [strncmp, hsame]

theorem sizeT_sub {start length : ℕ} (hlength : length < 2 ^ 64) :
    sizeT (((start + length : ℕ) : ℤ) - start) = length := by
  rw [sizeT_of_nonneg (by omega) (by omega)]
  omega

theorem zero_not_mem_name (call : Call) : 0 ∉ call.name := by
  intro h
  exact Bool.false_ne_true (List.all_eq_true.mp call.hchars 0 h)

section Names

variable {objBody body : Object UInt8} {names : SigAction → Option Bytes} {ranges : Ranges}

/-- The name of a kind is compared with the one that was called. -/
theorem isNamed_eq (h : Assigned objBody.cells names ranges) (call : Call) {before after : Bytes}
    (hbody : body.cells = before ++ (call.name ++ after)) (kind : SigAction) :
    isNamed objBody body ranges before.length call.name.length kind =
      some (decide (names kind = some call.name)) := by
  rw [isNamed]
  cases hname : names kind with
  | none => simp [h.unnamed kind hname]
  | some name =>
    obtain ⟨hne, hstop, htake⟩ := h.named kind name hname
    have hpositive := List.length_pos_iff.mpr hne
    have hobject : objBody.cells.drop (ranges kind).start =
        name ++ (objBody.cells.drop (ranges kind).start).drop name.length := by
      rw [← List.take_append_drop name.length (objBody.cells.drop (ranges kind).start), htake]
      simp
    have hfits : name.length < 2 ^ 64 := by
      have hlength := congrArg List.length htake
      have hsize := objBody.size_lt
      rw [List.length_take, List.length_drop] at hlength
      omega
    rw [hstop, sizeT_sub hfits]
    by_cases hlength : name.length = call.name.length
    · rw [if_pos ⟨by omega, hlength⟩, hbody, List.drop_left, hobject,
        strncmp_eq_of_length hlength.symm (zero_not_mem_name call)]
      simp [eq_comm]
    · rw [if_neg fun hand ↦ hlength hand.2]
      have hother : name ≠ call.name := fun heq ↦ hlength (congrArg List.length heq)
      simp [hother]

theorem findKind_eq (h : Assigned objBody.cells names ranges) (call : Call)
    {before after : Bytes} (hbody : body.cells = before ++ (call.name ++ after))
    (kinds : List SigAction) :
    findKind objBody body ranges before.length call.name.length kinds =
      some (kinds.find? fun kind ↦ names kind = some call.name) := by
  induction kinds with
  | nil => rfl
  | cons kind kinds ih =>
    rw [findKind, isNamed_eq h call hbody, ih, List.find?_cons]
    cases decide (names kind = some call.name) <;> rfl

/-- As the names are distinct, the order in which the kinds are tried makes no difference. -/
theorem find_kindOrder (h : Assigned objBody.cells names ranges) (name : Bytes) :
    (kindOrder.find? fun kind ↦ names kind = some name) = kindOf names name := by
  have hunique {kind other : SigAction} (hkind : names kind = some name)
      (hother : names other = some name) : kind = other :=
    h.distinct kind other (hkind.trans hother.symm) (by simp [hkind])
  have hfind (kinds : List SigAction) (hall : ∀ kind, kind ∈ kinds) (kind : SigAction) :
      (kinds.find? fun kind ↦ names kind = some name) = some kind ↔ names kind = some name := by
    constructor
    · intro hfound
      simpa using List.find?_some hfound
    · intro hkind
      cases hfound : kinds.find? fun kind ↦ names kind = some name with
      | none =>
        have hnone := List.find?_eq_none.mp hfound kind (hall kind)
        exact absurd (decide_eq_true hkind) hnone
      | some other =>
        have hother : names other = some name := by simpa using List.find?_some hfound
        exact congrArg some (hunique hother hkind)
  apply Option.ext
  intro kind
  rw [kindOf, hfind kindOrder (by intro kind; cases kind <;> decide),
    hfind _ (by intro kind; cases kind <;> decide)]

end Names

/-! ## The loop on a call -/

section Steps

variable {objBody body : Object UInt8} {ranges : Ranges}

theorem quiet_of_not_mem {ch : UInt8}
    (h : ch ∉ [dot, openParen, openBracket, doubleQuote, quote, comma, closeParen]) :
    Quiet (callStep objBody body ranges) ch := by
  intro idx cursor rest
  simp only [List.mem_cons, List.not_mem_nil, or_false, not_or] at h
  obtain ⟨hdot, hopen, hbracket, hdouble, hquote, hcomma, hclose⟩ := h
  rw [callStep, if_neg hdot, if_neg hopen, if_neg hbracket, if_neg (not_or.mpr ⟨hdouble, hquote⟩),
    if_neg hcomma, if_neg hclose]
  rfl

theorem quiet_identifierChar {ch : UInt8} (h : isIdentifierChar ch = true) :
    Quiet (callStep objBody body ranges) ch := by
  apply quiet_of_not_mem
  intro hmem
  have hspecial :
      [dot, openParen, openBracket, doubleQuote, quote, comma, closeParen].all
        (fun ch ↦ !isIdentifierChar ch) = true := by decide
  have hnot := List.all_eq_true.mp hspecial ch hmem
  rw [h] at hnot
  exact Bool.false_ne_true hnot

theorem quiet_name (call : Call) : ∀ ch ∈ call.name, Quiet (callStep objBody body ranges) ch :=
  fun ch hch ↦ quiet_identifierChar (List.all_eq_true.mp call.hchars ch hch)

theorem quiet_number (call : Call) :
    ∀ ch ∈ call.number, Quiet (callStep objBody body ranges) ch := by
  intro ch hch
  have hdigit := List.all_eq_true.mp call.hdigits ch hch
  apply quiet_identifierChar
  rw [isDigit] at hdigit
  simp [isIdentifierChar, hdigit]

theorem quiet_front (call : Call) :
    ∀ ch ∈ call.front, Quiet (callStep objBody body ranges) ch := by
  intro ch hch
  obtain hch | hch := List.mem_append.mp hch
  · rw [ObjectScan.optional] at hch
    split at hch
    · apply quiet_of_not_mem
      simp only [List.mem_cons, List.not_mem_nil, or_false] at hch
      obtain rfl | rfl := hch <;> decide
    · cases hch
  · exact quiet_identifierChar (isIdentifierChar_of_mem call.hobject hch)

/-- The access to the property, up to the parenthesis behind it. -/
theorem scan_access (call : Call) (idx : ℕ) (cursor : Cursor) (hprop : cursor.propType = true)
    (rest : Bytes) :
    scan (callStep objBody body ranges) idx 0 cursor
        (call.access.opening ++ call.name ++ call.access.closing ++ openParen :: rest) =
      scan (callStep objBody body ranges)
        (idx + (call.access.opening ++ call.name ++ call.access.closing).length + 1) 0
        { cursor with
          vStart := idx + call.access.opening.length
          vEnd := idx + call.access.opening.length + call.name.length }
        rest := by
  have hpositive : 1 ≤ call.name.length := List.length_pos_iff.mpr call.hname
  obtain ⟨vStart, vEnd, nStart, propType, actions, actionIdx⟩ := cursor
  obtain rfl : propType = true := hprop
  cases call.access with
  | dotted =>
    calc
      scan (callStep objBody body ranges) idx 0 ⟨vStart, vEnd, nStart, true, actions, actionIdx⟩
          ([dot] ++ call.name ++ [] ++ openParen :: rest) =
          scan (callStep objBody body ranges) (idx + 1) 1
            ⟨idx + 1, vEnd, nStart, true, actions, actionIdx⟩
            (call.name ++ openParen :: rest) := by
        rw [List.append_nil, List.append_assoc, List.singleton_append]
        exact scan_of_step rfl
      _ = scan (callStep objBody body ranges) (idx + 1 + call.name.length) 0
            ⟨idx + 1, vEnd, nStart, true, actions, actionIdx⟩ (openParen :: rest) :=
        scan_quiet_append (quiet_name call) hpositive _ _ _
      _ = scan (callStep objBody body ranges) (idx + 1 + call.name.length + 1) 0
            ⟨idx + 1, idx + 1 + call.name.length, nStart, true, actions, actionIdx⟩ rest :=
        scan_of_step rfl
      _ = _ := by
        congr 1
        simp only [Access.opening, Access.closing, List.length_append, List.length_singleton,
          List.length_nil]
        omega
  | bracketed mark hmark =>
    have hclose (other : Cursor) (index : ℕ) (behind : Bytes) :
        callStep objBody body ranges index other mark behind =
          .ok ({ other with vEnd := index }, 0) := by
      obtain rfl | rfl := hmark <;> rfl
    calc
      scan (callStep objBody body ranges) idx 0 ⟨vStart, vEnd, nStart, true, actions, actionIdx⟩
          ([openBracket, mark] ++ call.name ++ [mark, closeBracket] ++ openParen :: rest) =
          scan (callStep objBody body ranges) (idx + 1) 2
            ⟨idx + 2, vEnd, nStart, false, actions, actionIdx⟩
            (mark :: (call.name ++ mark :: closeBracket :: openParen :: rest)) := by
        simp only [List.cons_append, List.nil_append, List.append_assoc]
        exact scan_of_step rfl
      _ = scan (callStep objBody body ranges) (idx + 2) 1
            ⟨idx + 2, vEnd, nStart, false, actions, actionIdx⟩
            (call.name ++ mark :: closeBracket :: openParen :: rest) := scan_skip _ _ _ _ _
      _ = scan (callStep objBody body ranges) (idx + 2 + call.name.length) 0
            ⟨idx + 2, vEnd, nStart, false, actions, actionIdx⟩
            (mark :: closeBracket :: openParen :: rest) :=
        scan_quiet_append (quiet_name call) hpositive _ _ _
      _ = scan (callStep objBody body ranges) (idx + 2 + call.name.length + 1) 0
            ⟨idx + 2, idx + 2 + call.name.length, nStart, false, actions, actionIdx⟩
            (closeBracket :: openParen :: rest) := scan_of_step (hclose _ _ _)
      _ = scan (callStep objBody body ranges) (idx + 2 + call.name.length + 1 + 1) 0
            ⟨idx + 2, idx + 2 + call.name.length, nStart, false, actions, actionIdx⟩
            (openParen :: rest) := scan_of_step rfl
      _ = scan (callStep objBody body ranges) (idx + 2 + call.name.length + 1 + 1 + 1) 0
            ⟨idx + 2, idx + 2 + call.name.length, nStart, true, actions, actionIdx⟩ rest :=
        scan_of_step rfl
      _ = _ := by
        congr 1
        simp only [Access.opening, Access.closing, List.length_append, List.length_cons,
          List.length_nil]
        omega

/-- The arguments, up to the end of the call. -/
theorem scan_arguments (call : Call) (idx : ℕ) (cursor : Cursor) (rest : Bytes) :
    scan (callStep objBody body ranges) idx 0 cursor
        (97 :: comma :: (call.number ++ [closeParen, semicolon] ++ rest)) =
      closeCall objBody body ranges (idx + 2 + call.number.length)
          { cursor with nStart := idx + 2 } >>= fun next ↦
        scan (callStep objBody body ranges) (idx + 2 + call.number.length + 2) 0 next rest := by
  have hpositive : 1 ≤ call.number.length := List.length_pos_iff.mpr call.hnumber
  have hlast (next : Cursor) :
      scan (callStep objBody body ranges) (idx + 2 + call.number.length + 1) 0 next
          (semicolon :: rest) =
        scan (callStep objBody body ranges) (idx + 2 + call.number.length + 2) 0 next rest :=
    scan_of_step rfl
  calc
    scan (callStep objBody body ranges) idx 0 cursor
        (97 :: comma :: (call.number ++ [closeParen, semicolon] ++ rest)) =
        scan (callStep objBody body ranges) (idx + 1) 0 cursor
          (comma :: (call.number ++ [closeParen, semicolon] ++ rest)) := scan_of_step rfl
    _ = scan (callStep objBody body ranges) (idx + 2) 1 { cursor with nStart := idx + 2 }
          (call.number ++ [closeParen, semicolon] ++ rest) := scan_of_step rfl
    _ = scan (callStep objBody body ranges) (idx + 2 + call.number.length) 0
          { cursor with nStart := idx + 2 } (closeParen :: semicolon :: rest) := by
      rw [List.append_assoc]
      exact scan_quiet_append (quiet_number call) hpositive _ _ _
    _ = (closeCall objBody body ranges (idx + 2 + call.number.length)
            { cursor with nStart := idx + 2 }).map (fun next ↦ (next, 0)) >>= fun next ↦
          scan (callStep objBody body ranges) (idx + 2 + call.number.length + 1) next.2 next.1
            (semicolon :: rest) := scan_read _ _ _ _
    _ = _ := by
      cases closeCall objBody body ranges (idx + 2 + call.number.length)
        { cursor with nStart := idx + 2 } with
      | error stop => rfl
      | ok next => exact hlast next

/-- The end of a call whose name and number stand where the cursor says. -/
theorem closeCall_eq {names : SigAction → Option Bytes} (h : Assigned objBody.cells names ranges)
    (call : Call) {front behind numberFront numberBehind : Bytes}
    (hname : body.cells = front ++ (call.name ++ behind))
    (hnumber : body.cells = numberFront ++ (call.number ++ numberBehind)) {cursor : Cursor}
    (hstart : cursor.vStart = front.length) (hend : cursor.vEnd = front.length + call.name.length)
    (hnStart : cursor.nStart = numberFront.length) (hidx : cursor.actionIdx < maxSig)
    (hroom : cursor.actions.length = maxSig) :
    closeCall objBody body ranges (numberFront.length + call.number.length) cursor =
      .ok ((entryOf names call).elim cursor cursor.store) := by
  have hlength : call.name.length < 2 ^ 64 := by
    have hsize := body.size_lt
    rw [hname, List.length_append, List.length_append] at hsize
    omega
  have harg : str2int (body.cells.drop cursor.nStart)
      (toInt (sizeT (((numberFront.length + call.number.length : ℕ) : ℤ) - cursor.nStart))) =
        some (decimal call.number : ℤ) := by
    have hdigits := call.hlength
    rw [hnStart, sizeT_sub (by omega), toInt_of_lt hdigits, hnumber, List.drop_left]
    exact str2int_number call numberBehind
  rw [closeCall, if_neg hidx.ne, hstart, hend, sizeT_sub hlength, findKind_eq h call hname,
    find_kindOrder h, entryOf]
  cases hkind : kindOf names call.name with
  | none => rfl
  | some kind =>
    have hargument : argumentOf body cursor.nStart (numberFront.length + call.number.length) kind =
        some (if kind = .reverse then 0 else (decimal call.number : ℤ)) := by
      cases kind with
      | reverse => rfl
      | swap => exact harg
      | slice => exact harg
      | splice => exact harg
    simp only [hargument, hroom, if_pos hidx, Option.map_some, Option.elim_some]

end Steps

/-! ## The loop on all calls -/

section Runs

variable {objBody body : Object UInt8} {names : SigAction → Option Bytes} {ranges : Ranges}

/-- What stands in front of the name of a call that follows this text. -/
def Call.opened (call : Call) (before : Bytes) : Bytes :=
  before ++ (call.front ++ call.access.opening)

/-- What stands in front of its number. -/
def Call.counted (call : Call) (before : Bytes) : Bytes :=
  call.opened before ++ (call.name ++ call.access.closing ++ [openParen, 97, comma])

/-- The cursor at the end of the call. -/
def Call.ready (call : Call) (before : Bytes) (cursor : Cursor) : Cursor :=
  { cursor with
    vStart := (call.opened before).length
    vEnd := (call.opened before).length + call.name.length
    nStart := (call.counted before).length }

/-- A call is scanned to its end. -/
theorem scan_text (call : Call) (before after : Bytes) {cursor : Cursor}
    (hprop : cursor.propType = true) :
    scan (callStep objBody body ranges) before.length 0 cursor (call.text ++ after) =
      closeCall objBody body ranges ((call.counted before).length + call.number.length)
          (call.ready before cursor) >>= fun next ↦
        scan (callStep objBody body ranges) (before ++ call.text).length 0 next after := by
  have hopened : (call.opened before).length =
      before.length + call.front.length + call.access.opening.length := by
    simp only [Call.opened, List.length_append]
    omega
  have hcounted : (call.counted before).length =
      before.length + call.front.length +
        (call.access.opening ++ call.name ++ call.access.closing).length + 1 + 2 := by
    simp only [Call.counted, hopened, List.length_append, List.length_cons, List.length_nil]
    omega
  have htext : (before ++ call.text).length =
      (call.counted before).length + call.number.length + 2 := by
    simp only [Call.text, hcounted, List.length_append, List.length_cons, List.length_nil]
    omega
  calc
    scan (callStep objBody body ranges) before.length 0 cursor (call.text ++ after) =
        scan (callStep objBody body ranges) before.length 0 cursor
          (call.front ++ (call.access.opening ++ call.name ++ call.access.closing ++
            openParen :: 97 :: comma :: (call.number ++ [closeParen, semicolon] ++ after))) := by
      simp [Call.text]
    _ = scan (callStep objBody body ranges) (before.length + call.front.length) 0 cursor
          (call.access.opening ++ call.name ++ call.access.closing ++
            openParen :: 97 :: comma :: (call.number ++ [closeParen, semicolon] ++ after)) :=
      scan_quiet_append (quiet_front call) (Nat.zero_le _) _ _ _
    _ = _ := scan_access call _ cursor hprop _
    _ = _ := scan_arguments call _ _ after
    _ = _ := by rw [htext, Call.ready, hcounted, hopened]

/-- A call: with room for an action, its action is stored if it has one. -/
theorem scan_call (h : Assigned objBody.cells names ranges) (call : Call) {before after : Bytes}
    (hbody : body.cells = before ++ (call.text ++ after)) {cursor : Cursor}
    (hprop : cursor.propType = true) (hroom : cursor.actions.length = maxSig) :
    (cursor.actionIdx = maxSig →
      scan (callStep objBody body ranges) before.length 0 cursor (call.text ++ after) =
        .error (.overflow cursor.actions)) ∧
    (cursor.actionIdx < maxSig → ∃ next,
      scan (callStep objBody body ranges) before.length 0 cursor (call.text ++ after) =
          scan (callStep objBody body ranges) (before ++ call.text).length 0 next after ∧
        next.propType = true ∧
        next.actions = ((entryOf names call).elim cursor cursor.store).actions ∧
        next.actionIdx = ((entryOf names call).elim cursor cursor.store).actionIdx) := by
  have hname : body.cells = call.opened before ++ (call.name ++ (call.access.closing ++
      openParen :: 97 :: comma :: (call.number ++ [closeParen, semicolon] ++ after))) := by
    simp [hbody, Call.opened, Call.text]
  have hnumber : body.cells =
      call.counted before ++ (call.number ++ (closeParen :: semicolon :: after)) := by
    simp [hbody, Call.counted, Call.opened, Call.text]
  rw [scan_text call before after hprop]
  constructor
  · intro hfull
    rw [closeCall]
    exact congrArg (· >>= _) (if_pos hfull)
  · intro hidx
    have hclose : closeCall objBody body ranges
        ((call.counted before).length + call.number.length) (call.ready before cursor) =
          .ok ((entryOf names call).elim (call.ready before cursor)
            (call.ready before cursor).store) :=
      closeCall_eq h call hname hnumber rfl rfl rfl hidx hroom
    refine ⟨_, by rw [hclose]; rfl, ?_, ?_, ?_⟩
    · cases entryOf names call <;> exact hprop
    · cases entryOf names call <;> rfl
    · cases entryOf names call <;> rfl

/-- The cells with entries stored from an index on. -/
def stored (cells : Cells) (idx : ℕ) (entries : List Entry) : Cells :=
  cells.take idx ++ entries.map some ++ cells.drop (idx + entries.length)

theorem stored_nil (cells : Cells) (idx : ℕ) : stored cells idx [] = cells := by
  simp [stored]

theorem take_set_self (cells : Cells) {idx : ℕ} (hidx : idx < cells.length) (entry : Option Entry) :
    (cells.set idx entry).take (idx + 1) = cells.take idx ++ [entry] := by
  rw [List.take_add_one, List.take_set_of_le (le_refl idx)]
  simp [hidx]

/-- One entry after the other is stored. -/
theorem stored_cons (cells : Cells) {idx : ℕ} (hidx : idx < cells.length) (entry : Entry)
    (entries : List Entry) :
    stored (cells.set idx (some entry)) (idx + 1) entries =
      stored cells idx (entry :: entries) := by
  rw [stored, stored, take_set_self cells hidx, List.drop_set_of_lt (by omega), List.map_cons,
    List.length_cons, List.append_assoc (cells.take idx), List.singleton_append,
    Nat.add_right_comm idx 1]
  rfl

/-- An entry, if there is one, is the first of those that are stored. -/
theorem stored_elim (cursor : Cursor) (hidx : cursor.actionIdx < cursor.actions.length)
    (entry : Option Entry) (entries : List Entry) :
    stored (entry.elim cursor cursor.store).actions (entry.elim cursor cursor.store).actionIdx
        entries =
      stored cursor.actions cursor.actionIdx (entry.toList ++ entries) := by
  cases entry with
  | none => rfl
  | some entry => exact stored_cons cursor.actions hidx entry entries

theorem actionIdx_elim (cursor : Cursor) (entry : Option Entry) :
    (entry.elim cursor cursor.store).actionIdx = cursor.actionIdx + entry.toList.length := by
  cases entry <;> rfl

theorem length_actions_elim (cursor : Cursor) (entry : Option Entry) :
    (entry.elim cursor cursor.store).actions.length = cursor.actions.length := by
  cases entry with
  | none => rfl
  | some entry => exact List.length_set

theorem textOf_cons (call : Call) (calls : List Call) :
    textOf (call :: calls) = call.text ++ textOf calls := List.flatMap_cons

theorem entriesOf_cons (names : SigAction → Option Bytes) (call : Call) (calls : List Call) :
    entriesOf names (call :: calls) = (entryOf names call).toList ++ entriesOf names calls := by
  rw [entriesOf, List.filterMap_cons]
  cases entryOf names call <;> rfl

/-- With room for an action of each call, the actions are stored from the index on. -/
theorem scan_calls (h : Assigned objBody.cells names ranges) (calls : List Call) {before : Bytes}
    (hbody : body.cells = before ++ textOf calls) {cursor : Cursor}
    (hprop : cursor.propType = true) (hroom : cursor.actions.length = maxSig)
    (hidx : cursor.actionIdx + calls.length ≤ maxSig) :
    ∃ last,
      scan (callStep objBody body ranges) before.length 0 cursor (textOf calls) = .ok last ∧
        last.actions = stored cursor.actions cursor.actionIdx (entriesOf names calls) ∧
        last.actionIdx = cursor.actionIdx + (entriesOf names calls).length := by
  induction calls generalizing before cursor with
  | nil => exact ⟨cursor, scan_nil _ _ _, (stored_nil _ _).symm, rfl⟩
  | cons call calls ih =>
    rw [textOf_cons] at hbody ⊢
    rw [List.length_cons] at hidx
    obtain ⟨next, hscan, hnext, hactions, hactionIdx⟩ :=
      (scan_call h call hbody hprop hroom).2 (by omega)
    have hrest : body.cells = (before ++ call.text) ++ textOf calls := by
      rw [hbody, List.append_assoc]
    have hfits : next.actionIdx + calls.length ≤ maxSig := by
      have hle : (entryOf names call).toList.length ≤ 1 := by
        cases entryOf names call <;> simp
      rw [hactionIdx, actionIdx_elim]
      omega
    obtain ⟨last, hlast, hstored, hcount⟩ :=
      ih hrest hnext (by rw [hactions, length_actions_elim, hroom]) hfits
    refine ⟨last, hscan.trans hlast, ?_, ?_⟩
    · rw [hstored, hactions, hactionIdx, stored_elim cursor (by omega), entriesOf_cons]
    · rw [hcount, hactionIdx, actionIdx_elim, entriesOf_cons, List.length_append, Nat.add_assoc]

/-- With more actions than there is room for, the loop ends when all cells are written. -/
theorem scan_overflow (h : Assigned objBody.cells names ranges) (calls : List Call) {before : Bytes}
    (hbody : body.cells = before ++ textOf calls) {cursor : Cursor}
    (hprop : cursor.propType = true) (hroom : cursor.actions.length = maxSig)
    (hidx : cursor.actionIdx ≤ maxSig)
    (hmany : maxSig < cursor.actionIdx + (entriesOf names calls).length) :
    scan (callStep objBody body ranges) before.length 0 cursor (textOf calls) =
      .error (.overflow (stored cursor.actions cursor.actionIdx
        ((entriesOf names calls).take (maxSig - cursor.actionIdx)))) := by
  induction calls generalizing before cursor with
  | nil =>
    rw [entriesOf, List.filterMap_nil, List.length_nil] at hmany
    omega
  | cons call calls ih =>
    rw [textOf_cons] at hbody ⊢
    obtain ⟨hfull, hfits⟩ := scan_call h call hbody hprop hroom
    obtain hidx | hidx := hidx.eq_or_lt
    · rw [hfull hidx, hidx, Nat.sub_self, List.take_zero, stored_nil]
    · obtain ⟨next, hscan, hnext, hactions, hactionIdx⟩ := hfits hidx
      have hrest : body.cells = (before ++ call.text) ++ textOf calls := by
        rw [hbody, List.append_assoc]
      have hle : (entryOf names call).toList.length ≤ 1 := by
        cases entryOf names call <;> simp
      have htake : (entriesOf names (call :: calls)).take (maxSig - cursor.actionIdx) =
          (entryOf names call).toList ++
            (entriesOf names calls).take (maxSig - next.actionIdx) := by
        rw [entriesOf_cons, List.take_append, List.take_of_length_le (by omega), hactionIdx,
          actionIdx_elim, Nat.sub_sub]
      rw [entriesOf_cons, List.length_append] at hmany
      rw [hscan, ih hrest hnext (by rw [hactions, length_actions_elim, hroom])
        (by rw [hactionIdx, actionIdx_elim]; omega) (by rw [hactionIdx, actionIdx_elim]; omega),
        htake, ← stored_elim cursor (by omega), hactions, ← hactionIdx]

/-- **The scanner of the action calls.** For every body that is made of calls, and every assignment
of distinct names to kinds: with calls for which there is room, the actions of those that have one
of the names are stored in order. With more actions than there is room for the loop ends at once,
and nothing is written behind the cells. -/
theorem callLoop_recovers (objBody body : Object UInt8) (names : SigAction → Option Bytes)
    (ranges : Ranges) (h : Assigned objBody.cells names ranges) (calls : List Call)
    (hbody : body.cells = textOf calls) (actions : Cells) (hroom : actions.length = maxSig) :
    (calls.length ≤ maxSig →
      callLoop objBody body ranges actions =
        .ok ((entriesOf names calls).map some ++ actions.drop (entriesOf names calls).length,
          (entriesOf names calls).length)) ∧
    (maxSig < (entriesOf names calls).length →
      callLoop objBody body ranges actions =
        .error (.overflow (((entriesOf names calls).take maxSig).map some))) := by
  have hbefore : body.cells = [] ++ textOf calls := hbody
  have hprop : (Cursor.initial actions).propType = true := rfl
  rw [callLoop, hbody]
  constructor
  · intro hfits
    have hidx : (Cursor.initial actions).actionIdx + calls.length ≤ maxSig := by
      rw [Cursor.initial, Nat.zero_add]
      exact hfits
    obtain ⟨last, hscan, hactions, hactionIdx⟩ := scan_calls h calls hbefore hprop hroom hidx
    rw [List.length_nil] at hscan
    rw [hscan, Except.map, hactions, hactionIdx]
    simp [Cursor.initial, stored]
  · intro hmany
    have hlength : ((entriesOf names calls).take maxSig).length = maxSig := by
      rw [List.length_take]
      omega
    have hscan := scan_overflow h calls hbefore hprop hroom (Nat.zero_le _)
      (by rwa [Cursor.initial, Nat.zero_add])
    rw [List.length_nil] at hscan
    rw [hscan]
    simp [Cursor.initial, stored, Except.map, hlength, hroom]

end Runs

/-- The body of an object with a swap named `ab` and a reverse named `c`. -/
def exampleObject : Object UInt8 := ⟨Search.ascii "ab:f,\nc:g", by decide⟩

def exampleNames : SigAction → Option Bytes
  | .swap => some (Search.ascii "ab")
  | .reverse => some (Search.ascii "c")
  | _ => none

def exampleRanges : Ranges
  | .swap => ⟨0, 2⟩
  | .reverse => ⟨6, 7⟩
  | _ => ⟨0, 0⟩

/-- `a=X.ab(a,3);`, `X['c'](a,5);` and `X["z"](a,12);`. -/
def exampleCalls : List Call :=
  [⟨true, [88], rfl, .dotted, Search.ascii "ab", by decide, rfl, [51], by decide, rfl, by decide,
      by decide⟩,
    ⟨false, [88], rfl, .bracketed quote isMark_quote, [99], by decide, rfl, [53], by decide, rfl,
      by decide, by decide⟩,
    ⟨false, [88], rfl, .bracketed doubleQuote isMark_doubleQuote, [122], by decide, rfl, [49, 50],
      by decide, rfl, by decide, by decide⟩]

def exampleBody : Object UInt8 := ⟨textOf exampleCalls, by decide⟩

theorem assigned_example : Assigned exampleObject.cells exampleNames exampleRanges where
  named := by
    intro kind name hname
    cases kind with
    | swap =>
      obtain rfl := Option.some.inj hname
      exact ⟨by decide, rfl, rfl⟩
    | reverse =>
      obtain rfl := Option.some.inj hname
      exact ⟨by decide, rfl, rfl⟩
    | slice => cases hname
    | splice => cases hname
  unnamed := by
    intro kind hname
    cases kind <;> first | rfl | cases hname
  distinct := by
    intro kind other hsame hnamed
    cases kind <;> cases other <;>
      first | rfl | exact absurd hsame (by decide) | exact absurd rfl hnamed

theorem callLoop_example :
    callLoop exampleObject exampleBody exampleRanges (List.replicate maxSig none) =
      .ok ([some (.swap, 3), some (.reverse, 0)] ++ List.replicate 18 none, 2) :=
  (callLoop_recovers exampleObject exampleBody exampleNames exampleRanges assigned_example
    exampleCalls rfl (List.replicate maxSig none) rfl).1 (by decide)

end LibYtdl.Sig.CallScan
