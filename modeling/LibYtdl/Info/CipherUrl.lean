import LibYtdl.Foundation.Search
import LibYtdl.Info.Urldecode
import LibYtdl.Sig.Refinement

/-!
# The URL of a ciphered format

A cipher is a query of three parameters: the signature `s`, the name `sp` that it goes by, and the
URL it belongs to. `ytdl_info_get_format_url2` looks for them in a copy of the query, cuts them out,
runs the action loop on the signature and writes it behind the URL. Out of bounds, nothing has a
value.
-/

namespace LibYtdl.Info.CipherUrl

open Machine Memory Search Urldecode Sig.Actions
open Sig.Refinement (reversedLength)

/-! ## The function -/

/-- A new object with these cells. -/
def alloc (cells : Bytes) : Option (Object UInt8) :=
  if h : cells.length < 2 ^ 63 then some ⟨cells, h⟩ else none

def calloc (size : ℕ) : Option (Object UInt8) := alloc (List.replicate size 0)

/-- `realloc`. Nothing is said of the new cells, which are what `heap` gives. -/
def realloc (heap : ℕ → UInt8) (object : Object UInt8) (size : ℕ) : Option (Object UInt8) :=
  alloc (object.cells.take size ++ (List.range (size - object.size)).map heap)

def strdup (object : Object UInt8) : Option (Object UInt8) := do
  let text ← cstr object 0
  alloc (text ++ [0])

/-- Characters written one after the other. -/
def writeAll (object : Object UInt8) (index : ℕ) : Bytes → Option (Object UInt8)
  | [] => some object
  | ch :: text => do
    let object ← object.write index ch
    writeAll object (index + 1) text

/-- `sprintf(url + offset, "&%s=%s", sp, sig)`. -/
def sprintfParam (url : Object UInt8) (offset : ℕ) (sp sig : Object UInt8) :
    Option (Object UInt8) := do
  let name ← cstr sp 0
  let value ← cstr sig 0
  writeAll url offset (38 :: name ++ 61 :: value ++ [0])

/-- The start and the end of what stands behind a key, up to the next `&`. The value is `none` if
the key is not there. -/
def findField (cipher : Object UInt8) (cipherEnd : ℕ) (key : Bytes) : Option (Option (ℕ × ℕ)) := do
  match ← strstr cipher 0 key with
  | none => some none
  | some found =>
    let start := found + key.length
    let stop ← strstr cipher start [38]
    some (some (start, stop.getD cipherEnd))

/-- The branch of `ytdl_info_get_format_url2` for a cipher: `"s="`, `"sp="` and `"url="` are looked
for, and a query without one of them has no URL. -/
def cipherUrl (heap : ℕ → UInt8) (actions : List Entry) (formatCipher : Object UInt8) :
    Option (Option (Object UInt8)) := do
  let cipher ← strdup formatCipher
  let cipherEnd ← cipher.strlen
  let some (sigStart, sigEnd) ← findField cipher cipherEnd [115, 61] | some none
  let some (spStart, spEnd) ← findField cipher cipherEnd [115, 112, 61] | some none
  let some (urlStart, urlEnd) ← findField cipher cipherEnd [117, 114, 108, 61] | some none
  let cipher ← cipher.write sigEnd 0
  let cipher ← cipher.write spEnd 0
  let cipher ← cipher.write urlEnd 0
  let sig ← calloc (sigEnd - sigStart + 1)
  let sp ← calloc (spEnd - spStart + 1)
  let url ← calloc (urlEnd - urlStart + 1)
  let sig ← urldecode sig cipher sigStart
  let sp ← urldecode sp cipher spStart
  let url ← urldecode url cipher urlStart
  let url ← urldecodeInPlace url
  let sig ← actionLoop actions sig
  let urlOffset ← url.strlen
  let spLen ← sp.strlen
  let sigLen ← sig.strlen
  let urlLen := urlOffset + (spLen + 2) + sigLen
  let url ← realloc heap url (urlLen + 2)
  let url ← sprintfParam url urlOffset sp sig
  some (some url)

/-- What `ytdl_info_get_format_url2` stores in `format->url` before the JavaScript step. -/
def formatUrl (heap : ℕ → UInt8) (actions : List Entry) :
    Option (Object UInt8) → Option (Object UInt8) → Option (Option (Object UInt8))
  | some cipher, _ => cipherUrl heap actions cipher
  | none, some urlUntouched => do
    let len ← urlUntouched.strlen
    let url ← calloc (len + 1)
    let url ← urldecode url urlUntouched 0
    some (some url)
  | none, none => some none

/-! ## Ciphers -/

/-- A parameter of a query: its key, and its value as it stands there. -/
abbrev Param := Bytes × Bytes

def render (param : Param) : Bytes := param.1 ++ 61 :: param.2

/-- The parameters joined by `&`. -/
def query : List Param → Bytes
  | [] => []
  | [param] => render param
  | param :: params => render param ++ 38 :: query params

/-- No separator and no zero stands in the text. -/
structure Clean (text : Bytes) : Prop where
  noEquals : 61 ∉ text
  noAmpersand : 38 ∉ text
  noZero : 0 ∉ text

instance (text : Bytes) : Decidable (Clean text) :=
  decidable_of_iff (61 ∉ text ∧ 38 ∉ text ∧ 0 ∉ text)
    ⟨fun h ↦ ⟨h.1, h.2.1, h.2.2⟩, fun h ↦ ⟨h.noEquals, h.noAmpersand, h.noZero⟩⟩

/-- A percent-encoding that leaves no separator as it is. -/
structure Encodes (raw text : Bytes) : Prop extends Clean raw where
  decode_eq : decode raw = text

/-- Percent-encoding, byte by byte: any byte may be written as `%` and two hexadecimal digits, and
every byte but `%` and the separators may be left as it is. -/
inductive PercentEncodes : Bytes → Bytes → Prop
  | nil : PercentEncodes [] []
  | plain {ch : UInt8} {raw text : Bytes} (hch : ch ∉ ([0, 37, 38, 61] : Bytes))
      (rest : PercentEncodes raw text) : PercentEncodes (ch :: raw) (ch :: text)
  | escape {a b : UInt8} {raw text : Bytes} (ha : isXDigit a = true) (hb : isXDigit b = true)
      (hch : 16 * digitValue a + digitValue b ≠ 0) (rest : PercentEncodes raw text) :
      PercentEncodes (37 :: a :: b :: raw) ((16 * digitValue a + digitValue b) :: text)

theorem isXDigit_clean {ch : UInt8} (h : isXDigit ch = true) : ch ∉ ([0, 38, 61] : Bytes) := by
  intro hmem
  simp only [List.mem_cons, List.not_mem_nil, or_false] at hmem
  obtain rfl | rfl | rfl := hmem <;> exact absurd h (by decide)

theorem PercentEncodes.encodes {raw text : Bytes} (h : PercentEncodes raw text) :
    Encodes raw text := by
  induction h with
  | nil => exact ⟨by decide, decode_nil⟩
  | plain hch _ ih =>
    simp only [List.mem_cons, List.not_mem_nil, or_false, not_or] at hch
    obtain ⟨hzero, hpercent, hampersand, hequals⟩ := hch
    refine ⟨⟨?_, ?_, ?_⟩, ?_⟩
    · exact List.not_mem_cons_of_ne_of_not_mem (Ne.symm hequals) ih.noEquals
    · exact List.not_mem_cons_of_ne_of_not_mem (Ne.symm hampersand) ih.noAmpersand
    · exact List.not_mem_cons_of_ne_of_not_mem (Ne.symm hzero) ih.noZero
    · rw [decode_plain hzero hpercent, ih.decode_eq]
  | escape ha hb hch _ ih =>
    have hcleanA := isXDigit_clean ha
    have hcleanB := isXDigit_clean hb
    simp only [List.mem_cons, List.not_mem_nil, or_false, not_or] at hcleanA hcleanB
    refine ⟨⟨?_, ?_, ?_⟩, ?_⟩
    · simp [ih.noEquals, Ne.symm hcleanA.2.2, Ne.symm hcleanB.2.2]
    · simp [ih.noAmpersand, Ne.symm hcleanA.2.1, Ne.symm hcleanB.2.1]
    · simp [ih.noZero, Ne.symm hcleanA.1, Ne.symm hcleanB.1]
    · rw [decode_escape ha hb hch, ih.decode_eq]

/-- What an action of the loop leaves of a string: what it does in JavaScript, but for the strings
that are too long for `ytdl__strrev`. -/
def leaves (a : Chars) : Entry → Chars
  | (.reverse, _) => (a.take (reversedLength a)).reverse ++ a.drop (reversedLength a)
  | entry => jsAction a entry

/-- The argument of an action is in range for the string it meets. -/
def ArgInRange (a : Chars) : Entry → Prop
  | (.reverse, _) => True
  | (.swap, b) => 0 ≤ b ∧ b < 2 ^ 31 ∧ b < a.length
  | (.slice, b) | (.splice, b) => 0 ≤ b ∧ b < 2 ^ 31 ∧ b ≤ a.length

/-- Each argument is in range for what the actions before it leave. -/
def ArgsInRange : Chars → List Entry → Prop
  | _, [] => True
  | a, entry :: actions => ArgInRange a entry ∧ ArgsInRange (leaves a entry) actions

instance (a : Chars) : (entry : Entry) → Decidable (ArgInRange a entry)
  | (.reverse, _) => isTrue trivial
  | (.swap, _) => inferInstanceAs (Decidable (_ ∧ _))
  | (.slice, _) => inferInstanceAs (Decidable (_ ∧ _))
  | (.splice, _) => inferInstanceAs (Decidable (_ ∧ _))

instance ArgsInRange.decidable : (a : Chars) → (actions : List Entry) →
    Decidable (ArgsInRange a actions)
  | _, [] => isTrue trivial
  | a, entry :: actions =>
    have := ArgsInRange.decidable (leaves a entry) actions
    inferInstanceAs (Decidable (_ ∧ _))

/-! ## Finding a parameter -/

/-- Two texts that agree up to a separator that stands in neither. -/
theorem eq_of_append_cons_eq {first second after other : Bytes} {separator : UInt8}
    (hfirst : separator ∉ first) (hsecond : separator ∉ second)
    (h : first ++ separator :: after = second ++ separator :: other) : first = second := by
  obtain ⟨gap, rfl, hgap⟩ | ⟨gap, rfl, hgap⟩ := List.append_eq_append_iff.mp h
  · cases gap with
    | nil => simp
    | cons head gap =>
      obtain ⟨rfl, -⟩ := List.cons.inj hgap
      exact absurd (List.mem_append_right _ List.mem_cons_self) hsecond
  · cases gap with
    | nil => simp
    | cons head gap =>
      obtain ⟨rfl, -⟩ := List.cons.inj hgap
      exact absurd (List.mem_append_right _ List.mem_cons_self) hfirst

/-- A text without `=` that is followed by `&`, and a text without `&` that is followed by `=`. -/
theorem append_ampersand_ne {first second after other : Bytes} (hfirst : 61 ∉ first)
    (hsecond : 38 ∉ second) : first ++ 38 :: after ≠ second ++ 61 :: other := by
  intro h
  obtain ⟨gap, rfl, hgap⟩ | ⟨gap, rfl, hgap⟩ := List.append_eq_append_iff.mp h
  · cases gap with
    | nil => exact absurd (List.cons.inj hgap).1 (by decide)
    | cons head gap =>
      obtain ⟨rfl, -⟩ := List.cons.inj hgap
      exact hsecond (List.mem_append_right _ List.mem_cons_self)
  · cases gap with
    | nil => exact absurd (List.cons.inj hgap).1 (by decide)
    | cons head gap =>
      obtain ⟨rfl, -⟩ := List.cons.inj hgap
      exact hfirst (List.mem_append_right _ List.mem_cons_self)

/-- A key that no end of the key of a parameter is does not start in it. -/
theorem skips_render {key : Bytes} (hkey : Clean key) (hne : key ≠ []) {param : Param}
    (hparam : Clean param.1) (hvalue : Clean param.2) (hother : ¬ key <:+ param.1) (rest : Bytes) :
    Skips (key ++ [61]) (render param ++ [38]) rest := by
  rintro suffix ⟨front, hfront⟩ hsuffix ⟨tail, htail⟩
  have hshape : front ++ suffix = param.1 ++ (61 :: (param.2 ++ [38])) := by
    rw [hfront, render, List.append_assoc, List.cons_append]
  have hmatch : key ++ 61 :: tail = suffix ++ rest := by
    rw [← htail, List.append_assoc, List.singleton_append]
  obtain ⟨gap, hgap, rfl⟩ | ⟨gap, -, hgap⟩ := List.append_eq_append_iff.mp hshape
  · -- it starts in the key of the parameter, or at its `=`
    have hgapClean : 61 ∉ gap := fun hmem ↦
      hparam.noEquals (hgap ▸ List.mem_append_right _ hmem)
    have hsame : key ++ 61 :: tail = gap ++ 61 :: ((param.2 ++ [38]) ++ rest) := by
      rw [hmatch, List.append_assoc, List.cons_append]
    exact hother ⟨front, eq_of_append_cons_eq hkey.noEquals hgapClean hsame ▸ hgap.symm⟩
  · cases gap with
    | nil =>
      have hstart : key ++ 61 :: tail = [] ++ 61 :: ((param.2 ++ [38]) ++ rest) := by
        rw [hmatch, ← hgap.trans (List.nil_append suffix), List.cons_append, List.nil_append]
      exact hne (eq_of_append_cons_eq hkey.noEquals List.not_mem_nil hstart)
    | cons head gap =>
      -- it starts in the value, or at the `&` behind it
      obtain ⟨part, hpart, rfl⟩ : ∃ part, 61 ∉ part ∧ suffix = part ++ [38] := by
        have hend : param.2 ++ [38] = gap ++ suffix := (List.cons.inj hgap).2
        obtain ⟨back, -, hback⟩ | ⟨part, hpart, hback⟩ := List.append_eq_append_iff.mp hend
        · obtain ⟨-, rfl⟩ | ⟨-, hnil⟩ := List.append_eq_singleton_iff.mp hback.symm
          · exact ⟨[], List.not_mem_nil, rfl⟩
          · exact absurd hnil hsuffix
        · refine ⟨part, fun hmem ↦ hvalue.noEquals ?_, hback⟩
          exact hpart ▸ List.mem_append_right _ hmem
      rw [List.append_assoc, List.singleton_append] at hmatch
      exact append_ampersand_ne hpart hkey.noAmpersand hmatch.symm

/-- What stands before a parameter. -/
def lead (params : List Param) : Bytes := params.flatMap fun param ↦ render param ++ [38]

/-- What stands behind one. -/
def trail : List Param → Bytes
  | [] => []
  | params => 38 :: query params

theorem query_append_cons (before : List Param) (param : Param) (after : List Param) :
    query (before ++ param :: after) = lead before ++ (render param ++ trail after) := by
  induction before with
  | nil =>
    cases after with
    | nil => simp [query, lead, trail]
    | cons next after => rfl
  | cons first before ih =>
    obtain ⟨head, tail, hcons⟩ : ∃ head tail, before ++ param :: after = head :: tail :=
      List.exists_cons_of_ne_nil (by simp)
    calc
      query (first :: (before ++ param :: after)) =
          render first ++ 38 :: query (before ++ param :: after) := by
        rw [hcons]
        rfl
      _ = render first ++ 38 :: (lead before ++ (render param ++ trail after)) := by rw [ih]
      _ = lead (first :: before) ++ (render param ++ trail after) := by simp [lead]

/-- A key is found where it stands, when no key before it ends like it. -/
theorem skips_lead {key : Bytes} (hkey : Clean key) (hne : key ≠ []) {before : List Param}
    (hclean : ∀ param ∈ before, Clean param.1 ∧ Clean param.2 ∧ ¬ key <:+ param.1) (rest : Bytes) :
    Skips (key ++ [61]) (lead before) rest := by
  induction before with
  | nil => exact fun suffix hsuffix hsome ↦ absurd (List.suffix_nil.mp hsuffix) hsome
  | cons param before ih =>
    obtain ⟨hparam, hvalue, hother⟩ := hclean param List.mem_cons_self
    have hlater := ih fun other hmem ↦ hclean other (List.mem_cons_of_mem _ hmem)
    exact (skips_render hkey hne hparam hvalue hother _).append hlater

/-- No separator but its own stands in a parameter. -/
def CleanParam (param : Param) : Prop := Clean param.1 ∧ Clean param.2

theorem zero_not_mem_query {params : List Param} (h : ∀ param ∈ params, CleanParam param) :
    0 ∉ query params := by
  have hrender {param : Param} (hparam : CleanParam param) : 0 ∉ render param := by
    simp [render, hparam.1.noZero, hparam.2.noZero]
  induction params with
  | nil => exact List.not_mem_nil
  | cons param params ih =>
    have hfirst := hrender (h param List.mem_cons_self)
    have hrest := ih fun other hmem ↦ h other (List.mem_cons_of_mem _ hmem)
    cases params with
    | nil => exact hfirst
    | cons next params => simpa [query, hfirst] using hrest

/-- Where the value of a parameter starts. -/
def valueStart (before : List Param) (key : Bytes) : ℕ := (lead before).length + (key.length + 1)

/-- The bounds of a value are found, whatever the order of the parameters. -/
theorem findField_query {cipher : Object UInt8} {before after : List Param} {key value : Bytes}
    {slack : Bytes} (hclean : ∀ param ∈ before ++ (key, value) :: after, CleanParam param)
    (hne : key ≠ []) (hother : ∀ param ∈ before, ¬ key <:+ param.1)
    (hcells : cipher.cells = query (before ++ (key, value) :: after) ++ 0 :: slack) :
    findField cipher (query (before ++ (key, value) :: after)).length (key ++ [61]) =
      some (some (valueStart before key, valueStart before key + value.length)) := by
  have hparam : CleanParam (key, value) := hclean _ (by simp)
  have hbefore (param : Param) (hmem : param ∈ before) :
      Clean param.1 ∧ Clean param.2 ∧ ¬ key <:+ param.1 := by
    obtain ⟨hname, hvalue⟩ := hclean param (by simp [hmem])
    exact ⟨hname, hvalue, hother param hmem⟩
  have hskips := skips_lead hparam.1 hne hbefore
  have htext : query (before ++ (key, value) :: after) =
      lead before ++ ((key ++ [61]) ++ (value ++ trail after)) := by
    simp [query_append_cons, render]
  have hzero := zero_not_mem_query hclean
  have hfound : strstr cipher 0 (key ++ [61]) = some (some (lead before).length) := by
    rw [strstr, cstr_of_holds ⟨hzero, slack, hcells⟩, htext, Option.map_some,
      indexOf_of_skips (hskips _), Option.map_some, Nat.zero_add]
  have hstart : (lead before).length + (key ++ [61]).length = valueStart before key := by
    simp [valueStart]
  have hrest : cstr cipher (valueStart before key) = some (value ++ trail after) := by
    have hsplit : cipher.cells =
        (lead before ++ (key ++ [61])) ++ (value ++ trail after) ++ 0 :: slack := by
      simp [hcells, htext]
    refine cstr_of_cells hsplit (by simp [valueStart]) fun hmem ↦ hzero ?_
    rw [htext]
    exact List.mem_append_right _ (List.mem_append_right _ hmem)
  have hstop : (strstr cipher (valueStart before key) [38]).map
      (·.getD (query (before ++ (key, value) :: after)).length) =
        some (valueStart before key + value.length) := by
    rw [strstr, hrest]
    cases after with
    | nil =>
      rw [trail, List.append_nil, Option.map_some,
        indexOf_singleton_of_not_mem hparam.2.noAmpersand]
      simp [htext, trail, valueStart]
      omega
    | cons next after =>
      rw [trail, Option.map_some, indexOf_singleton_of_mem hparam.2.noAmpersand]
      · rfl
      · exact List.cons_ne_nil _ _
  obtain ⟨stop, hsome, hstopEq⟩ := Option.map_eq_some_iff.mp hstop
  simp only [findField, hfound, hstart, hsome, hstopEq, Option.bind_eq_bind, Option.bind_some]

/-- The value of a parameter in a copy of the query, as long as a separator or a zero follows it. -/
structure FieldAt (cipher : Object UInt8) (start : ℕ) (value : Bytes) : Prop where
  reads : ∀ index, index < value.length → cipher.cells[start + index]? = value[index]?
  stop : cipher.cells[start + value.length]? = some 38 ∨
    cipher.cells[start + value.length]? = some 0

theorem fieldAt_of_cells {cipher : Object UInt8} {before value after : Bytes} {separator : UInt8}
    (hcells : cipher.cells = before ++ (value ++ separator :: after))
    (hseparator : separator = 38 ∨ separator = 0) : FieldAt cipher before.length value where
  reads index hindex := by
    rw [hcells, List.getElem?_append_right (Nat.le_add_right _ _), Nat.add_sub_cancel_left,
      List.getElem?_append_left hindex]
  stop := by
    rw [hcells, List.getElem?_append_right (Nat.le_add_right _ _), Nat.add_sub_cancel_left,
      List.getElem?_append_right le_rfl, Nat.sub_self, List.getElem?_cons_zero]
    exact hseparator.imp (congrArg some) (congrArg some)

/-- The value of a parameter of the query. -/
theorem fieldAt_query {cipher : Object UInt8} {before after : List Param} {key value slack : Bytes}
    (hcells : cipher.cells = query (before ++ (key, value) :: after) ++ 0 :: slack) :
    FieldAt cipher (valueStart before key) value := by
  have hlength : valueStart before key = (lead before ++ (key ++ [61])).length := by
    simp [valueStart]
  rw [hlength]
  cases after with
  | nil =>
    apply fieldAt_of_cells _ (.inr rfl)
    · exact slack
    · simp [hcells, query_append_cons, render, trail]
  | cons next after =>
    apply fieldAt_of_cells _ (.inl rfl)
    · exact query (next :: after) ++ 0 :: slack
    · simp [hcells, query_append_cons, render, trail]

/-- A cell that ends a value, or where one was cut off. -/
def Stops (cipher : Object UInt8) (index : ℕ) : Prop :=
  cipher.cells[index]? = some 38 ∨ cipher.cells[index]? = some 0

theorem Stops.lt {cipher : Object UInt8} {index : ℕ} (h : Stops cipher index) :
    index < cipher.size :=
  h.elim (fun h ↦ (List.getElem?_eq_some_iff.mp h).1) (fun h ↦ (List.getElem?_eq_some_iff.mp h).1)

section Writes

variable {cipher written : Object UInt8} {index : ℕ}

theorem getElem?_of_write (hwrite : cipher.write index 0 = some written) (other : ℕ) :
    written.cells[other]? = if index = other then some 0 else cipher.cells[other]? := by
  obtain ⟨hlt, hwritten⟩ := Object.write_eq_some.mp hwrite
  by_cases heq : index = other
  · subst heq
    rw [if_pos rfl, hwritten, List.getElem?_set_self hlt]
  · rw [if_neg heq, hwritten, List.getElem?_set_ne heq]

/-- Cutting off a value leaves the zeros. -/
theorem zero_of_write (hwrite : cipher.write index 0 = some written) {other : ℕ}
    (h : cipher.cells[other]? = some 0) : written.cells[other]? = some 0 := by
  rw [getElem?_of_write hwrite, h, ite_self]

theorem Stops.of_write (hwrite : cipher.write index 0 = some written) {other : ℕ}
    (h : Stops cipher other) : Stops written other := by
  unfold Stops
  rw [getElem?_of_write hwrite]
  split
  · exact .inr rfl
  · exact h

/-- Cutting off a value at its end leaves the other values where they are: no separator stands in
them. -/
theorem FieldAt.of_write (hwrite : cipher.write index 0 = some written) (hstop : Stops cipher index)
    {start : ℕ} {value : Bytes} (hclean : Clean value) (h : FieldAt cipher start value) :
    FieldAt written start value where
  reads offset hoffset := by
    have hread := h.reads offset hoffset
    rw [List.getElem?_eq_getElem hoffset] at hread ⊢
    have hmem : value[offset] ∈ value := List.getElem_mem hoffset
    rw [getElem?_of_write hwrite, if_neg fun heq ↦ ?_, hread]
    rw [← heq] at hread
    obtain hstop | hstop := hstop
    · exact hclean.noAmpersand (Option.some.inj (hstop.symm.trans hread) ▸ hmem)
    · exact hclean.noZero (Option.some.inj (hstop.symm.trans hread) ▸ hmem)
  stop := Stops.of_write hwrite h.stop

end Writes

/-- Cutting off a value at its end. -/
theorem FieldAt.cut {cipher : Object UInt8} {start : ℕ} {value : Bytes}
    (h : FieldAt cipher start value) :
    ∃ written, cipher.write (start + value.length) 0 = some written ∧
      written.cells[start + value.length]? = some 0 ∧
      (∀ index : ℕ, cipher.cells[index]? = some 0 → written.cells[index]? = some 0) ∧
      ∀ (other : ℕ) (otherValue : Bytes), Clean otherValue → FieldAt cipher other otherValue →
        FieldAt written other otherValue := by
  obtain ⟨written, hwrite, -⟩ := Object.write_of_lt (Stops.lt h.stop) 0
  refine ⟨written, hwrite, ?_, fun index ↦ zero_of_write hwrite, fun other otherValue hclean ↦
    FieldAt.of_write hwrite h.stop hclean⟩
  rw [getElem?_of_write hwrite, if_pos rfl]

/-- A value that was cut off is a string of its own. -/
theorem FieldAt.cells {cipher : Object UInt8} {start : ℕ} {value : Bytes}
    (h : FieldAt cipher start value) (hstop : cipher.cells[start + value.length]? = some 0) :
    ∃ before after, before.length = start ∧ cipher.cells = before ++ value ++ 0 :: after := by
  have hlt : start + value.length < cipher.cells.length := (List.getElem?_eq_some_iff.mp hstop).1
  refine ⟨cipher.cells.take start, cipher.cells.drop (start + value.length + 1), ?_, ?_⟩
  · rw [List.length_take]
    omega
  · have hvalue : (cipher.cells.drop start).take value.length = value := by
      apply List.ext_getElem?
      intro index
      by_cases hindex : index < value.length
      · rw [List.getElem?_take_of_lt hindex, List.getElem?_drop, h.reads index hindex]
      · rw [List.getElem?_eq_none (by simp; omega), List.getElem?_eq_none (by omega)]
    have hzero : cipher.cells.drop (start + value.length) =
        0 :: cipher.cells.drop (start + value.length + 1) := by
      rw [List.drop_eq_getElem_cons hlt, (List.getElem?_eq_some_iff.mp hstop).2]
    calc
      cipher.cells = cipher.cells.take start ++ cipher.cells.drop start :=
        (List.take_append_drop _ _).symm
      _ = cipher.cells.take start ++ ((cipher.cells.drop start).take value.length ++
          (cipher.cells.drop start).drop value.length) :=
        congrArg _ (List.take_append_drop _ _).symm
      _ = _ := by rw [hvalue, List.drop_drop, hzero, List.append_assoc]

/-! ## The action loop -/

theorem action_leaves {sig : Object UInt8} {a : Chars} (h : sig.Holds a) {entry : Entry}
    (hrange : ArgInRange a entry) :
    ∃ out, action sig entry = some out ∧ out.Holds (leaves a entry) := by
  obtain ⟨kind, b⟩ := entry
  cases kind with
  | reverse => exact Sig.Refinement.strrev_holds h rfl
  | swap =>
    obtain ⟨hb, hlt, hinside⟩ := hrange
    cases a with
    | nil => exact absurd hinside (by simpa using hb)
    | cons first rest => exact Sig.Refinement.swap_inside h hb hlt hinside
  | slice =>
    obtain ⟨hb, hlt, hle⟩ := hrange
    exact Sig.Refinement.dropAction_holds h hb hlt hle
  | splice =>
    obtain ⟨hb, hlt, hle⟩ := hrange
    exact Sig.Refinement.dropAction_holds h hb hlt hle

/-- With arguments in range, the loop stays in its buffer and leaves a string. -/
theorem actionLoop_leaves {sig : Object UInt8} {a : Chars} (h : sig.Holds a) {actions : List Entry}
    (hrange : ArgsInRange a actions) :
    ∃ out, actionLoop actions sig = some out ∧ out.Holds (actions.foldl leaves a) := by
  induction actions generalizing sig a with
  | nil => exact ⟨sig, rfl, h⟩
  | cons entry actions ih =>
    obtain ⟨next, hnext, hleft⟩ := action_leaves h hrange.1
    obtain ⟨out, hout, hlast⟩ := ih hleft hrange.2
    refine ⟨out, ?_, hlast⟩
    rw [actionLoop, List.foldlM_cons, hnext]
    exact hout

/-! ## The buffers -/

theorem alloc_of_lt {cells : Bytes} (h : cells.length < 2 ^ 63) :
    ∃ object, alloc cells = some object ∧ object.cells = cells :=
  ⟨⟨cells, h⟩, dif_pos h, rfl⟩

theorem calloc_of_lt {size : ℕ} (h : size < 2 ^ 63) :
    ∃ object, calloc size = some object ∧ object.size = size := by
  obtain ⟨object, hobject, hcells⟩ :=
    alloc_of_lt (show (List.replicate size (0 : UInt8)).length < 2 ^ 63 by simpa using h)
  exact ⟨object, hobject, by rw [Object.size, hcells, List.length_replicate]⟩

theorem cells_of_alloc {cells : Bytes} {object : Object UInt8} (h : alloc cells = some object) :
    object.cells = cells := by
  unfold alloc at h
  split at h
  · rw [← Option.some.inj h]
  · cases h

theorem size_of_calloc {size : ℕ} {object : Object UInt8} (h : calloc size = some object) :
    object.size = size := by
  rw [Object.size, cells_of_alloc h, List.length_replicate]

theorem size_of_realloc {heap : ℕ → UInt8} {object larger : Object UInt8} {size : ℕ}
    (h : realloc heap object size = some larger) : larger.size = size := by
  rw [Object.size, cells_of_alloc h]
  simp only [List.length_append, List.length_take, List.length_map, List.length_range, Object.size]
  omega

/-- Writing over as many cells. -/
theorem writeAll_of_cells (text : Bytes) {object : Object UInt8} {before gap after : Bytes}
    {index : ℕ} (hcells : object.cells = before ++ gap ++ after) (hindex : index = before.length)
    (hgap : gap.length = text.length) :
    ∃ out, writeAll object index text = some out ∧ out.cells = before ++ text ++ after := by
  induction text generalizing object before gap index with
  | nil =>
    obtain rfl := List.length_eq_zero_iff.mp hgap
    exact ⟨object, rfl, hcells⟩
  | cons ch text ih =>
    obtain ⟨head, gap, rfl⟩ := List.exists_cons_of_length_eq_add_one hgap
    have hsplit : object.cells = before ++ head :: (gap ++ after) := by simpa using hcells
    obtain ⟨written, hwrite, hwritten⟩ := Object.write_of_cells hsplit hindex ch
    have hnext : written.cells = (before ++ [ch]) ++ gap ++ after := by simpa using hwritten
    have hlength : index + 1 = (before ++ [ch]).length := by simp [hindex]
    obtain ⟨out, hout, hdone⟩ := ih hnext hlength (by simpa using hgap)
    refine ⟨out, ?_, by simpa using hdone⟩
    rw [writeAll, hwrite]
    exact hout

/-- `realloc` keeps a string that fits the new size. -/
theorem realloc_of_holds (heap : ℕ → UInt8) {object : Object UInt8} {text : Bytes} {size : ℕ}
    (h : object.Holds text) (hsize : text.length ≤ size) (hlt : size < 2 ^ 63) :
    ∃ larger rest, realloc heap object size = some larger ∧ larger.cells = text ++ rest ∧
      rest.length = size - text.length := by
  obtain ⟨slack, hcells⟩ := h.2
  have hlength :
      (object.cells.take size ++ (List.range (size - object.size)).map heap).length = size := by
    simp only [List.length_append, List.length_take, List.length_map, List.length_range,
      Object.size]
    omega
  obtain ⟨larger, hlarger, hlargerCells⟩ := alloc_of_lt (hlength.trans_lt hlt)
  have hsplit : larger.cells = text ++ ((0 :: slack).take (size - text.length) ++
      (List.range (size - object.size)).map heap) := by
    rw [hlargerCells, hcells, List.take_append, List.take_of_length_le hsize, List.append_assoc]
  refine ⟨larger, _, hlarger, hsplit, ?_⟩
  have htotal := congrArg List.length hsplit
  rw [hlargerCells, hlength, List.length_append] at htotal
  omega

/-- The parameter that is written behind the URL has room in the buffer of `realloc`. -/
theorem sprintfParam_holds (heap : ℕ → UInt8) {url sp sig : Object UInt8} {text name value : Bytes}
    (hurl : url.Holds text) (hsp : sp.Holds name) (hsig : sig.Holds value)
    (hlt : text.length + (name.length + 2) + value.length + 2 < 2 ^ 63) :
    ∃ larger out,
      realloc heap url (text.length + (name.length + 2) + value.length + 2) = some larger ∧
        sprintfParam larger text.length sp sig = some out ∧
        out.Holds (text ++ (38 :: name ++ 61 :: value)) := by
  obtain ⟨larger, rest, hlarger, hcells, hrest⟩ :=
    realloc_of_holds heap hurl (by omega : text.length ≤ _) hlt
  let written : Bytes := 38 :: name ++ 61 :: value ++ [0]
  have hlength : written.length = name.length + value.length + 3 := by
    simp only [written, List.length_append, List.length_cons, List.length_nil]
    omega
  have hsplit : larger.cells = text ++ rest.take written.length ++ rest.drop written.length := by
    rw [hcells, List.append_assoc, List.take_append_drop]
  have hroom : (rest.take written.length).length = written.length := by
    rw [List.length_take]
    omega
  obtain ⟨out, hout, hdone⟩ := writeAll_of_cells written hsplit rfl hroom
  refine ⟨larger, out, hlarger, ?_, ?_, rest.drop written.length, ?_⟩
  · simp only [sprintfParam, cstr_of_holds hsp, cstr_of_holds hsig, Option.bind_eq_bind,
      Option.bind_some]
    exact hout
  · simp [hurl.1, hsp.1, hsig.1]
  · simp [hdone, written]

/-! ## The whole function -/

/-- `s`, `sp` and `url`. -/
def keys : List Bytes := [[115], [115, 112], [117, 114, 108]]

theorem keys_distinct : keys.Nodup := by decide

theorem keys_clean : ∀ key ∈ keys, Clean key ∧ key ≠ [] := by decide

/-- No key ends like another one. -/
theorem keys_not_suffix : ∀ key ∈ keys, ∀ other ∈ keys, other ≠ key → ¬ key <:+ other := by decide

/-- The three parameters of a cipher, in any order. -/
structure Cipher (fields : List Param) (sig sp url : Bytes) : Prop where
  perm : fields.Perm [([115], sig), ([115, 112], sp), ([117, 114, 108], url)]
  sig : Clean sig
  sp : Clean sp
  url : Clean url

namespace Cipher

variable {fields : List Param} {sig sp url : Bytes}

theorem keys_perm (h : Cipher fields sig sp url) : (fields.map Prod.fst).Perm keys :=
  h.perm.map Prod.fst

theorem key_mem (h : Cipher fields sig sp url) {param : Param} (hparam : param ∈ fields) :
    param.1 ∈ keys :=
  h.keys_perm.mem_iff.mp (List.mem_map_of_mem hparam)

theorem cleanParam (h : Cipher fields sig sp url) (param : Param) (hparam : param ∈ fields) :
    CleanParam param := by
  refine ⟨(keys_clean _ (h.key_mem hparam)).1, ?_⟩
  have hmem := h.perm.mem_iff.mp hparam
  simp only [List.mem_cons, List.not_mem_nil, or_false] at hmem
  obtain rfl | rfl | rfl := hmem
  · exact h.sig
  · exact h.sp
  · exact h.url

/-- Where a parameter of a cipher is found. -/
theorem field (h : Cipher fields sig sp url) {key value : Bytes} (hparam : (key, value) ∈ fields)
    {cipher : Object UInt8} {slack : Bytes} (hcells : cipher.cells = query fields ++ 0 :: slack) :
    ∃ start, findField cipher (query fields).length (key ++ [61]) =
      some (some (start, start + value.length)) ∧ FieldAt cipher start value := by
  have hkey : key ∈ keys := h.key_mem hparam
  obtain ⟨before, after, rfl⟩ := List.append_of_mem hparam
  have hother (param : Param) (hmem : param ∈ before) : ¬ key <:+ param.1 := by
    refine keys_not_suffix key hkey param.1 (h.key_mem (by simp [hmem])) fun heq ↦ ?_
    have hnodup := h.keys_perm.nodup_iff.mpr keys_distinct
    rw [List.map_append, List.map_cons, List.nodup_append] at hnodup
    exact hnodup.2.2 _ (List.mem_map_of_mem hmem) _ List.mem_cons_self heq
  exact ⟨valueStart before key, findField_query h.cleanParam (keys_clean key hkey).2 hother hcells,
    fieldAt_query hcells⟩

end Cipher

theorem query_length_succ {params : List Param} (h : params ≠ []) :
    (query params).length + 1 = (params.map fun param ↦ (render param).length + 1).sum := by
  induction params with
  | nil => exact absurd rfl h
  | cons param params ih =>
    cases params with
    | nil => rfl
    | cons next params =>
      have hrest := ih (List.cons_ne_nil _ _)
      rw [List.map_cons, List.sum_cons, ← hrest]
      simp [query]
      omega

/-- The length of a cipher, with its keys and its separators. -/
theorem Cipher.query_length {fields : List Param} {sig sp url : Bytes}
    (h : Cipher fields sig sp url) :
    (query fields).length = sig.length + sp.length + url.length + 11 := by
  have hne : fields ≠ [] := by
    rintro rfl
    exact absurd h.perm.length_eq (by simp)
  have hsum := (h.perm.map fun param ↦ (render param).length + 1).sum_eq
  rw [← query_length_succ hne] at hsum
  simp [render] at hsum
  omega

/-- No action makes the signature longer. -/
theorem leaves_length_le (a : Chars) (entry : Entry) : (leaves a entry).length ≤ a.length := by
  obtain ⟨kind, b⟩ := entry
  cases kind with
  | reverse =>
    simp only [leaves, List.length_append, List.length_reverse, List.length_take,
      List.length_drop]
    omega
  | swap => exact (Sig.Refinement.jsSwap_length b a).le
  | slice => exact (List.drop_sublist _ _).length_le
  | splice => exact (List.drop_sublist _ _).length_le

theorem foldl_leaves_length_le (a : Chars) (actions : List Entry) :
    (actions.foldl leaves a).length ≤ a.length := by
  induction actions generalizing a with
  | nil => exact le_rfl
  | cons entry actions ih => exact (ih (leaves a entry)).trans (leaves_length_le a entry)

/-- A value that was cut off, decoded into a buffer of its own. -/
theorem decode_field {cipher : Object UInt8} {start : ℕ} {value : Bytes}
    (h : FieldAt cipher start value) (hstop : cipher.cells[start + value.length]? = some 0) :
    ∃ buffer out, calloc (start + value.length - start + 1) = some buffer ∧
      urldecode buffer cipher start = some out ∧ out.Holds (decode value) := by
  obtain ⟨before, after, rfl, hcells⟩ := h.cells hstop
  have hsize := cipher.size_lt
  rw [hcells] at hsize
  simp only [List.length_append, List.length_cons] at hsize
  obtain ⟨buffer, hbuffer, hlength⟩ :=
    calloc_of_lt (by omega : before.length + value.length - before.length + 1 < 2 ^ 63)
  obtain ⟨out, hout, hholds⟩ := urldecode_holds hcells (by omega : value.length < buffer.size)
  exact ⟨buffer, out, hbuffer, hout, hholds⟩

/-- A value that is a string of its own in the copy. -/
structure CutAt (cipher : Object UInt8) (start : ℕ) (value : Bytes) : Prop
    extends FieldAt cipher start value where
  ended : cipher.cells[start + value.length]? = some 0

/-- After the three writes each value is a string of its own. -/
theorem cut_fields {cipher : Object UInt8} {sigStart spStart urlStart : ℕ} {sig sp url : Bytes}
    (hsig : FieldAt cipher sigStart sig) (hsp : FieldAt cipher spStart sp)
    (hurl : FieldAt cipher urlStart url) (hsigClean : Clean sig) (hspClean : Clean sp)
    (hurlClean : Clean url) :
    ∃ first second third, cipher.write (sigStart + sig.length) 0 = some first ∧
      first.write (spStart + sp.length) 0 = some second ∧
      second.write (urlStart + url.length) 0 = some third ∧
      CutAt third sigStart sig ∧ CutAt third spStart sp ∧ CutAt third urlStart url := by
  obtain ⟨first, hfirst, hsigStop, -, hkeep⟩ := hsig.cut
  replace hsig := hkeep _ _ hsigClean hsig
  replace hsp := hkeep _ _ hspClean hsp
  replace hurl := hkeep _ _ hurlClean hurl
  obtain ⟨second, hsecond, hspStop, hzero, hkeep⟩ := hsp.cut
  replace hsigStop := hzero _ hsigStop
  replace hsig := hkeep _ _ hsigClean hsig
  replace hsp := hkeep _ _ hspClean hsp
  replace hurl := hkeep _ _ hurlClean hurl
  obtain ⟨third, hthird, hurlStop, hzero, hkeep⟩ := hurl.cut
  refine ⟨first, second, third, hfirst, hsecond, hthird, ?_, ?_, ?_⟩
  · exact ⟨hkeep _ _ hsigClean hsig, hzero _ hsigStop⟩
  · exact ⟨hkeep _ _ hspClean hsp, hzero _ hspStop⟩
  · exact ⟨hkeep _ _ hurlClean hurl, hurlStop⟩

/-- The copy of the cipher. -/
theorem strdup_holds {object : Object UInt8} {text : Bytes} (h : object.Holds text) :
    ∃ copy, strdup object = some copy ∧ copy.cells = text ++ [0] := by
  have hlength : (text ++ [0]).length < 2 ^ 63 := by
    have hfits := h.length_lt
    have hsize := object.size_lt
    rw [Object.size] at hfits
    rw [List.length_append, List.length_singleton]
    omega
  obtain ⟨copy, hcopy, hcells⟩ := alloc_of_lt hlength
  exact ⟨copy, by simp [strdup, cstr_of_holds h, hcopy], hcells⟩

/-- **Cipher to URL.** Whatever the order of the three parameters and however they are encoded, with
actions that are in range for the strings they meet, nothing is read or written outside of its
buffer, and what is stored is the URL decoded once more, with the signature that the action loop
leaves behind it under its name. -/
theorem formatUrl_cipher (heap : ℕ → UInt8) {sig sp url rawSig rawSp rawUrl : Bytes}
    (hsig : Encodes rawSig sig) (hsp : Encodes rawSp sp) (hurl : Encodes rawUrl url)
    {fields : List Param}
    (hperm : fields.Perm [([115], rawSig), ([115, 112], rawSp), ([117, 114, 108], rawUrl)])
    {formatCipher : Object UInt8} (hcipher : formatCipher.Holds (query fields))
    {actions : List Entry} (hrange : ArgsInRange sig actions)
    (urlUntouched : Option (Object UInt8)) :
    ∃ out left, formatUrl heap actions (some formatCipher) urlUntouched = some (some out) ∧
      (∀ buffer, buffer.Holds sig →
        ∃ last, actionLoop actions buffer = some last ∧ last.Holds left) ∧
      out.Holds (decode url ++ (38 :: sp ++ 61 :: left)) := by
  have hfields : Cipher fields rawSig rawSp rawUrl :=
    ⟨hperm, hsig.toClean, hsp.toClean, hurl.toClean⟩
  have hmem {param : Param} (h : param ∈ [([115], rawSig), ([115, 112], rawSp),
      ([117, 114, 108], rawUrl)]) : param ∈ fields :=
    hperm.mem_iff.mpr h
  -- the copy, and where the values stand in it
  obtain ⟨cipher, hdup, hcells⟩ := strdup_holds hcipher
  have hlen : cipher.strlen = some (query fields).length :=
    Object.Holds.strlen ⟨hcipher.1, [], hcells⟩
  obtain ⟨sigStart, hfindSig, hfieldSig⟩ :=
    hfields.field (hmem (.head _) : ([115], rawSig) ∈ fields) hcells
  obtain ⟨spStart, hfindSp, hfieldSp⟩ :=
    hfields.field (hmem (.tail _ (.head _)) : ([115, 112], rawSp) ∈ fields) hcells
  obtain ⟨urlStart, hfindUrl, hfieldUrl⟩ :=
    hfields.field (hmem (.tail _ (.tail _ (.head _))) : ([117, 114, 108], rawUrl) ∈ fields) hcells
  obtain ⟨first, second, third, hfirst, hsecond, hthird, hcutSig, hcutSp, hcutUrl⟩ :=
    cut_fields hfieldSig hfieldSp hfieldUrl hsig.toClean hsp.toClean hurl.toClean
  -- the decoded values
  obtain ⟨sigBuffer, sigOut, hsigBuffer, hsigOut, hsigHolds⟩ :=
    decode_field hcutSig.toFieldAt hcutSig.ended
  obtain ⟨spBuffer, spOut, hspBuffer, hspOut, hspHolds⟩ :=
    decode_field hcutSp.toFieldAt hcutSp.ended
  obtain ⟨urlBuffer, urlOut, hurlBuffer, hurlOut, hurlHolds⟩ :=
    decode_field hcutUrl.toFieldAt hcutUrl.ended
  rw [hsig.decode_eq] at hsigHolds
  rw [hsp.decode_eq] at hspHolds
  rw [hurl.decode_eq] at hurlHolds
  obtain ⟨twice, htwice, htwiceHolds⟩ := urldecodeInPlace_holds hurlHolds
  obtain ⟨edited, hedited, heditedHolds⟩ := actionLoop_leaves hsigHolds hrange
  -- the room behind the URL
  have hroom : (decode url).length + (sp.length + 2) + (actions.foldl leaves sig).length + 2 <
      2 ^ 63 := by
    have hquery := hfields.query_length
    have hfits := hcipher.length_lt
    have hsize := formatCipher.size_lt
    rw [Object.size] at hfits
    have hsigLe := (foldl_leaves_length_le sig actions).trans
      (hsig.decode_eq ▸ decode_length_le rawSig)
    have hspLe : sp.length ≤ rawSp.length := hsp.decode_eq ▸ decode_length_le rawSp
    have hurlLe := (decode_length_le url).trans (hurl.decode_eq ▸ decode_length_le rawUrl)
    omega
  obtain ⟨larger, out, hlarger, hout, houtHolds⟩ :=
    sprintfParam_holds heap htwiceHolds hspHolds heditedHolds hroom
  refine ⟨out, actions.foldl leaves sig, ?_, fun buffer h ↦ actionLoop_leaves h hrange, houtHolds⟩
  unfold formatUrl cipherUrl
  refine Option.bind_eq_some_iff.mpr ⟨_, hdup, ?_⟩
  refine Option.bind_eq_some_iff.mpr ⟨_, hlen, ?_⟩
  refine Option.bind_eq_some_iff.mpr ⟨_, hfindSig, ?_⟩
  refine Option.bind_eq_some_iff.mpr ⟨_, hfindSp, ?_⟩
  refine Option.bind_eq_some_iff.mpr ⟨_, hfindUrl, ?_⟩
  refine Option.bind_eq_some_iff.mpr ⟨_, hfirst, ?_⟩
  refine Option.bind_eq_some_iff.mpr ⟨_, hsecond, ?_⟩
  refine Option.bind_eq_some_iff.mpr ⟨_, hthird, ?_⟩
  refine Option.bind_eq_some_iff.mpr ⟨_, hsigBuffer, ?_⟩
  refine Option.bind_eq_some_iff.mpr ⟨_, hspBuffer, ?_⟩
  refine Option.bind_eq_some_iff.mpr ⟨_, hurlBuffer, ?_⟩
  refine Option.bind_eq_some_iff.mpr ⟨_, hsigOut, ?_⟩
  refine Option.bind_eq_some_iff.mpr ⟨_, hspOut, ?_⟩
  refine Option.bind_eq_some_iff.mpr ⟨_, hurlOut, ?_⟩
  refine Option.bind_eq_some_iff.mpr ⟨_, htwice, ?_⟩
  refine Option.bind_eq_some_iff.mpr ⟨_, hedited, ?_⟩
  refine Option.bind_eq_some_iff.mpr ⟨_, htwiceHolds.strlen, ?_⟩
  refine Option.bind_eq_some_iff.mpr ⟨_, hspHolds.strlen, ?_⟩
  refine Option.bind_eq_some_iff.mpr ⟨_, heditedHolds.strlen, ?_⟩
  refine Option.bind_eq_some_iff.mpr ⟨_, hlarger, ?_⟩
  refine Option.bind_eq_some_iff.mpr ⟨_, hout, ?_⟩
  rfl

/-- `url=%78%2541&s=ab&sp=q` with the actions reverse and slice: the URL is `xA`, and the character
that is left of the signature is `a`. -/
theorem formatUrl_cipher_xA :
    ∃ out left,
      formatUrl (fun _ ↦ 255) [(.reverse, 0), (.slice, 1)]
          (some ⟨[117, 114, 108, 61, 37, 55, 56, 37, 50, 53, 52, 49, 38, 115, 61, 97, 98, 38, 115,
            112, 61, 113, 0], by decide⟩) none = some (some out) ∧
        (∀ buffer : Object UInt8, buffer.Holds [97, 98] →
          ∃ last, actionLoop [(.reverse, 0), (.slice, 1)] buffer = some last ∧ last.Holds left) ∧
        out.Holds (decode [120, 37, 52, 49] ++ (38 :: [113] ++ 61 :: left)) := by
  have hsig : PercentEncodes [97, 98] [97, 98] :=
    .plain (by decide) (.plain (by decide) .nil)
  have hsp : PercentEncodes [113] [113] := .plain (by decide) .nil
  have hurl : PercentEncodes [37, 55, 56, 37, 50, 53, 52, 49] [120, 37, 52, 49] :=
    .escape rfl rfl (by decide)
      (.escape rfl rfl (by decide) (.plain (by decide) (.plain (by decide) .nil)))
  have hperm : List.Perm
      [([117, 114, 108], [37, 55, 56, 37, 50, 53, 52, 49]), ([115], [97, 98]), ([115, 112], [113])]
      [([115], ([97, 98] : Bytes)), ([115, 112], [113]),
        (([117, 114, 108] : Bytes), [37, 55, 56, 37, 50, 53, 52, 49])] := by decide
  exact formatUrl_cipher (fun _ ↦ 255) hsig.encodes hsp.encodes hurl.encodes hperm
    ⟨by decide, [], rfl⟩ (by decide) none

end LibYtdl.Info.CipherUrl
