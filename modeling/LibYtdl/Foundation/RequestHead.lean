import LibYtdl.Foundation.Decimal
import LibYtdl.Foundation.Pieces

/-!
# Heads of HTTP requests

A request head is a request line and a list of header lines, with an empty line behind them. It is
read the way that a tolerant recipient reads it: a line ends at a line feed, with a carriage return
before it or not, and a carriage return that stands anywhere else is an error.
-/

namespace LibYtdl.RequestHead

open Machine Search Decimal Pieces

/-- The request line has the version `HTTP/1.1`; a field is a name and a value. -/
structure Head where
  method : Bytes
  target : Bytes
  fields : List (Bytes × Bytes)
  deriving DecidableEq

def version : Bytes := ascii "HTTP/1.1"

/-! ## Writing a head -/

def Head.requestLine (head : Head) : Bytes :=
  head.method ++ 32 :: (head.target ++ 32 :: version)

def fieldLine (field : Bytes × Bytes) : Bytes := field.1 ++ 58 :: 32 :: field.2

def Head.text (head : Head) : Bytes :=
  (head.requestLine :: head.fields.map fieldLine).flatMap (· ++ [13, 10]) ++ [13, 10]

/-! ## Reading a head -/

/-- The lines up to the first empty one, and what stands behind it. The characters of the current
line so far are `line`. -/
def readLines (line : Bytes) : Bytes → Option (List Bytes × Bytes)
  | [] => none
  | 10 :: rest =>
    if line = [] then some ([], rest)
    else (readLines [] rest).map fun result ↦ (line :: result.1, result.2)
  | 13 :: 10 :: rest =>
    if line = [] then some ([], rest)
    else (readLines [] rest).map fun result ↦ (line :: result.1, result.2)
  | 13 :: _ => none
  | ch :: rest => readLines (line ++ [ch]) rest

def readField (line : Bytes) : Option (Bytes × Bytes) :=
  match line.dropWhile (· ≠ 58) with
  | 58 :: 32 :: value => some (line.takeWhile (· ≠ 58), value)
  | _ => none

/-- A request line has three parts, with one space between each. -/
def readRequestLine (line : Bytes) : Option (Bytes × Bytes) :=
  match line.splitOn 32 with
  | [method, target, version'] => if version' = version then some (method, target) else none
  | _ => none

/-- The head at the start of a text, and what stands behind it. -/
def parse (text : Bytes) : Option (Head × Bytes) := do
  let (lines, rest) ← readLines [] text
  match lines with
  | [] => none
  | line :: lines =>
    let (method, target) ← readRequestLine line
    let fields ← lines.mapM readField
    some (⟨method, target, fields⟩, rest)

/-! ## The parts of a head -/

/-- The target up to the first `?`. -/
def Head.path (head : Head) : Bytes := head.target.takeWhile (· ≠ 63)

/-- The target behind the first `?`. -/
def Head.query (head : Head) : Option Bytes :=
  match head.target.dropWhile (· ≠ 63) with
  | [] => none
  | _ :: query => some query

def Head.field (head : Head) (name : Bytes) : Option Bytes := head.fields.lookup name

/-- A range of bytes: the first one, and the last one unless the range is open. -/
def readRange (value : Bytes) : Option (ℕ × Option ℕ) :=
  if ascii "bytes=" <+: value then
    match (value.drop 6).splitOn 45 with
    | [first, []] => (parseDecimal first).map fun first ↦ (first, none)
    | [first, last] =>
      (parseDecimal first).bind fun first ↦ (parseDecimal last).map fun last ↦ (first, some last)
    | _ => none
  else
    none

def Head.range (head : Head) : Option (ℕ × Option ℕ) :=
  (head.field (ascii "Range")).bind readRange

/-! ## What is written is read back -/

/-- A character that does not end a line. -/
def InLine (ch : UInt8) : Prop := ch ≠ 10 ∧ ch ≠ 13

instance (ch : UInt8) : Decidable (InLine ch) := inferInstanceAs (Decidable (_ ∧ _))

theorem inLine_of_isDigit {ch : UInt8} (h : IsDigit ch) : InLine ch :=
  ⟨fun heq ↦ absurd (heq ▸ h) (by decide), fun heq ↦ absurd (heq ▸ h) (by decide)⟩

/-- A character that does not end a part of the request line. -/
def InPart (ch : UInt8) : Prop := InLine ch ∧ ch ≠ 32

instance (ch : UInt8) : Decidable (InPart ch) := inferInstanceAs (Decidable (_ ∧ _))

/-- A head whose parts stay what they are when they are written one after the other. -/
structure Clean (head : Head) : Prop where
  method : ∀ ch ∈ head.method, InPart ch
  target : ∀ ch ∈ head.target, InPart ch
  names : ∀ field ∈ head.fields, ∀ ch ∈ field.1, InLine ch ∧ ch ≠ 58
  values : ∀ field ∈ head.fields, ∀ ch ∈ field.2, InLine ch

theorem readLines_cons {ch : UInt8} (h : InLine ch) (line rest : Bytes) :
    readLines line (ch :: rest) = readLines (line ++ [ch]) rest := by
  obtain ⟨hlf, hcr⟩ := h
  rw [readLines.eq_def]
  split
  case h_1 heq => cases heq
  case h_2 heq => exact absurd (List.cons.inj heq).1 hlf
  case h_3 heq => exact absurd (List.cons.inj heq).1 hcr
  case h_4 heq => exact absurd (List.cons.inj heq).1 hcr
  case h_5 heq =>
    obtain ⟨rfl, rfl⟩ := List.cons.inj heq
    rfl

/-- Characters of a line are collected. -/
theorem readLines_append {piece : Bytes} (h : ∀ ch ∈ piece, InLine ch) (line rest : Bytes) :
    readLines line (piece ++ rest) = readLines (line ++ piece) rest := by
  induction piece generalizing line with
  | nil => simp
  | cons ch piece ih =>
    obtain ⟨hch, hpiece⟩ := List.forall_mem_cons.mp h
    rw [List.cons_append, readLines_cons hch, ih hpiece, List.append_assoc, List.singleton_append]

theorem readLines_line {line : Bytes} (h : ∀ ch ∈ line, InLine ch) (hne : line ≠ [])
    (rest : Bytes) :
    readLines [] ((line ++ [13, 10]) ++ rest) =
      (readLines [] rest).map fun result ↦ (line :: result.1, result.2) := by
  rw [List.append_assoc, readLines_append h, List.nil_append]
  exact if_neg hne

theorem readLines_lines {lines : List Bytes} (h : ∀ line ∈ lines, ∀ ch ∈ line, InLine ch)
    (hne : ∀ line ∈ lines, line ≠ []) (rest : Bytes) :
    readLines [] ((lines.flatMap (· ++ [13, 10]) ++ [13, 10]) ++ rest) = some (lines, rest) := by
  induction lines with
  | nil => rfl
  | cons line lines ih =>
    obtain ⟨hline, hlines⟩ := List.forall_mem_cons.mp h
    obtain ⟨hfirst, hothers⟩ := List.forall_mem_cons.mp hne
    rw [List.flatMap_cons, List.append_assoc, List.append_assoc, readLines_line hline hfirst,
      ← List.append_assoc, ih hlines hothers, Option.map_some]

theorem readField_fieldLine {field : Bytes × Bytes} (h : ∀ ch ∈ field.1, ch ≠ 58) :
    readField (fieldLine field) = some field := by
  have hname (ch : UInt8) (hch : ch ∈ field.1) : decide (ch ≠ 58) = true :=
    decide_eq_true (h ch hch)
  have hdrop : (fieldLine field).dropWhile (· ≠ 58) = 58 :: 32 :: field.2 := by
    rw [fieldLine, List.dropWhile_append_of_pos hname]
    rfl
  have htake : (fieldLine field).takeWhile (· ≠ 58) = field.1 := by
    rw [fieldLine, List.takeWhile_append_of_pos hname]
    exact List.append_nil _
  rw [readField, hdrop, htake]
  rfl

theorem readRequestLine_requestLine {head : Head} (hmethod : ∀ ch ∈ head.method, ch ≠ 32)
    (htarget : ∀ ch ∈ head.target, ch ≠ 32) :
    readRequestLine head.requestLine = some (head.method, head.target) := by
  have hsplit : head.requestLine.splitOn 32 = [head.method, head.target, version] := by
    have hjoin : head.requestLine = [32].intercalate [head.method, head.target, version] := by
      simp [Head.requestLine]
    rw [hjoin, List.splitOn_intercalate]
    · simp only [List.mem_cons, List.not_mem_nil, or_false, forall_eq_or_imp, forall_eq]
      exact ⟨fun hmem ↦ hmethod 32 hmem rfl, fun hmem ↦ htarget 32 hmem rfl, by decide⟩
    · simp
  rw [readRequestLine, hsplit]
  exact if_pos rfl

theorem mapM_readField {fields : List (Bytes × Bytes)}
    (h : ∀ field ∈ fields, ∀ ch ∈ field.1, ch ≠ 58) :
    (fields.map fieldLine).mapM readField = some fields := by
  induction fields with
  | nil => rfl
  | cons field fields ih =>
    obtain ⟨hfield, hfields⟩ := List.forall_mem_cons.mp h
    rw [List.map_cons, List.mapM_cons, readField_fieldLine hfield, ih hfields]
    rfl

/-- A clean head is read back, whatever follows it. -/
theorem parse_text {head : Head} (h : Clean head) (rest : Bytes) :
    parse (head.text ++ rest) = some (head, rest) := by
  have hline (line : Bytes) (hline : line ∈ head.requestLine :: head.fields.map fieldLine) :
      (∀ ch ∈ line, InLine ch) ∧ line ≠ [] := by
    obtain rfl | hmem := List.mem_cons.mp hline
    · refine ⟨fun ch hch ↦ ?_, by simp [Head.requestLine]⟩
      simp only [Head.requestLine, List.mem_append, List.mem_cons] at hch
      obtain hch | rfl | hch | rfl | hch := hch
      · exact (h.method ch hch).1
      · exact ⟨by decide, by decide⟩
      · exact (h.target ch hch).1
      · exact ⟨by decide, by decide⟩
      · have hversion : ∀ ch ∈ version, InLine ch := List.all_iff_forall_prop.mp (by decide)
        exact hversion ch hch
    · obtain ⟨field, hfield, rfl⟩ := List.mem_map.mp hmem
      refine ⟨fun ch hch ↦ ?_, by simp [fieldLine]⟩
      simp only [fieldLine, List.mem_append, List.mem_cons] at hch
      obtain hch | rfl | rfl | hch := hch
      · exact (h.names field hfield ch hch).1
      · exact ⟨by decide, by decide⟩
      · exact ⟨by decide, by decide⟩
      · exact h.values field hfield ch hch
  have hlines := readLines_lines (fun line hmem ↦ (hline line hmem).1)
    (fun line hmem ↦ (hline line hmem).2) rest
  have hrequest : readRequestLine head.requestLine = some (head.method, head.target) :=
    readRequestLine_requestLine (fun ch hch ↦ (h.method ch hch).2)
      fun ch hch ↦ (h.target ch hch).2
  have hfields : (head.fields.map fieldLine).mapM readField = some head.fields :=
    mapM_readField fun field hfield ch hch ↦ (h.names field hfield ch hch).2
  rw [parse, Head.text, hlines, Option.bind_eq_bind, Option.bind_some]
  simp only [hrequest, hfields, Option.bind_eq_bind, Option.bind_some]

/-- No line that was read has a character in it that ends a line. -/
theorem inLine_of_readLines {line text rest : Bytes} {lines : List Bytes}
    (h : ∀ ch ∈ line, InLine ch) (hread : readLines line text = some (lines, rest)) :
    ∀ other ∈ lines, ∀ ch ∈ other, InLine ch := by
  have hcons {line text rest : Bytes} {lines : List Bytes} (h : ∀ ch ∈ line, InLine ch)
      (ih : ∀ {lines rest}, readLines [] text = some (lines, rest) →
        ∀ other ∈ lines, ∀ ch ∈ other, InLine ch)
      (hread : (readLines [] text).map (fun result ↦ (line :: result.1, result.2)) =
        some (lines, rest)) : ∀ other ∈ lines, ∀ ch ∈ other, InLine ch := by
    obtain ⟨⟨others, rest⟩, hothers, heq⟩ := Option.map_eq_some_iff.mp hread
    obtain ⟨rfl, rfl⟩ := Prod.mk.inj heq
    exact List.forall_mem_cons.mpr ⟨h, ih hothers⟩
  fun_induction readLines line text generalizing lines rest with
  | case1 => cases hread
  | case2 text =>
    obtain ⟨rfl, rfl⟩ := Prod.mk.inj (Option.some.inj hread)
    exact fun other hother ↦ absurd hother List.not_mem_nil
  | case3 line text hne ih => exact hcons h (fun hothers ↦ ih (by simp) hothers) hread
  | case4 text =>
    obtain ⟨rfl, rfl⟩ := Prod.mk.inj (Option.some.inj hread)
    exact fun other hother ↦ absurd hother List.not_mem_nil
  | case5 line text hne ih => exact hcons h (fun hothers ↦ ih (by simp) hothers) hread
  | case6 => cases hread
  | case7 line ch text hlf _ hcr ih =>
    refine ih (fun other hother ↦ ?_) hread
    obtain hother | hother := List.mem_append.mp hother
    · exact h other hother
    · obtain rfl := List.mem_singleton.mp hother
      exact ⟨hlf, hcr⟩

/-- A character of a piece is one of the text. -/
theorem mem_of_mem_splitOn {text piece : Bytes} {sep ch : UInt8} (hpiece : piece ∈ text.splitOn sep)
    (hch : ch ∈ piece) : ch ∈ text := by
  have hmem : ch ∈ marked sep (text.splitOn sep) :=
    List.mem_flatMap.mpr ⟨piece, hpiece, List.mem_cons_of_mem _ hch⟩
  rw [marked_splitOn] at hmem
  obtain rfl | hmem := List.mem_cons.mp hmem
  · exact absurd hch (mem_splitOn hpiece)
  · exact hmem

/-- What was read as a target is one part of a line. -/
theorem inPart_of_parse {text rest : Bytes} {head : Head} (h : parse text = some (head, rest)) :
    ∀ ch ∈ head.target, InPart ch := by
  obtain ⟨⟨lines, rest⟩, hlines, h⟩ := Option.bind_eq_some_iff.mp h
  cases lines with
  | nil => cases h
  | cons line lines =>
    obtain ⟨⟨method, target⟩, hrequest, h⟩ := Option.bind_eq_some_iff.mp h
    obtain ⟨fields, -, h⟩ := Option.bind_eq_some_iff.mp h
    obtain ⟨rfl, -⟩ := Prod.mk.inj (Option.some.inj h)
    have hline := inLine_of_readLines (fun ch hch ↦ absurd hch List.not_mem_nil) hlines line
      List.mem_cons_self
    have hpiece : target ∈ line.splitOn 32 := by
      rw [readRequestLine] at hrequest
      split at hrequest
      case h_1 method' target' version' heq =>
        split_ifs at hrequest
        obtain ⟨rfl, rfl⟩ := Prod.mk.inj (Option.some.inj hrequest)
        simp [heq]
      case h_2 => cases hrequest
    intro ch hch
    exact ⟨hline ch (mem_of_mem_splitOn hpiece hch), fun heq ↦ mem_splitOn hpiece (heq ▸ hch)⟩

end LibYtdl.RequestHead
