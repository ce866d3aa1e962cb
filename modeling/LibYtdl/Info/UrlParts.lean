import LibYtdl.Foundation.Query
import LibYtdl.Info.Urldecode

/-!
# The resource of a URL

What a URL asks for: its path, and the list of its parameters, percent-decoded. Decoding a whole URL
before it is taken apart keeps both only if no escape in it stands for a character that takes URLs
apart, or for a part of another escape.
-/

namespace LibYtdl.Info.UrlParts

open Machine Query Urldecode

/-! ## Percent-decoding -/

/-- Percent-decoding, zeros included. -/
def percentDecode : Bytes → Bytes
  | [] => []
  | [ch] => [ch]
  | [ch, a] => [ch, a]
  | ch :: a :: b :: rest =>
    if ch = 37 ∧ isXDigit a ∧ isXDigit b then
      (16 * digitValue a + digitValue b) :: percentDecode rest
    else ch :: percentDecode (a :: b :: rest)

@[simp]
theorem percentDecode_nil : percentDecode [] = [] := by rw [percentDecode]

/-- The first character of a text is a byte of its own or an escape. -/
theorem firstChar_cases {text : Bytes} (h : text ≠ []) :
    (∃ ch rest, text = ch :: rest ∧ firstChar text = (ch, rest)) ∨
      ∃ a b rest, text = 37 :: a :: b :: rest ∧ isXDigit a = true ∧ isXDigit b = true ∧
        firstChar text = (16 * digitValue a + digitValue b, rest) := by
  unfold firstChar
  split
  · exact absurd rfl h
  · exact .inl ⟨_, _, rfl, rfl⟩
  · exact .inl ⟨_, _, rfl, rfl⟩
  · split
    · rename_i hescape
      obtain ⟨rfl, ha, hb⟩ := hescape
      exact .inr ⟨_, _, _, rfl, ha, hb, rfl⟩
    · exact .inl ⟨_, _, rfl, rfl⟩

theorem percentDecode_of_ne_nil {text : Bytes} (h : text ≠ []) :
    percentDecode text = (firstChar text).1 :: percentDecode (firstChar text).2 := by
  unfold firstChar
  split
  · exact absurd rfl h
  · simp [percentDecode]
  · simp [percentDecode]
  · rw [percentDecode]
    split <;> rfl

theorem percentDecode_cons_of_ne {ch : UInt8} (h : ch ≠ 37) (rest : Bytes) :
    percentDecode (ch :: rest) = ch :: percentDecode rest := by
  rw [percentDecode_of_ne_nil (List.cons_ne_nil _ _), firstChar_of_ne h]

/-- What is proved of a text from what stands behind its first character. -/
theorem percentInduction {motive : Bytes → Prop} (nil : motive [])
    (next : ∀ text, text ≠ [] → motive (firstChar text).2 → motive text) (text : Bytes) :
    motive text := by
  by_cases h : text = []
  · exact h ▸ nil
  · exact next text h (percentInduction nil next (firstChar text).2)
termination_by text.length
decreasing_by exact firstChar_length_lt h

theorem decode_eq_takeWhile (text : Bytes) :
    decode text = (percentDecode text).takeWhile (· ≠ 0) := by
  induction text using percentInduction with
  | nil => simp
  | next text hne ih =>
    rw [percentDecode_of_ne_nil hne]
    by_cases h : (firstChar text).1 = 0
    · rw [decode_of_zero h, List.takeWhile_cons_of_neg (by simpa using h)]
    · rw [decode_of_ne h, List.takeWhile_cons_of_pos (by simpa using h), ih]

theorem percentDecode_length_le (text : Bytes) : (percentDecode text).length ≤ text.length := by
  induction text using percentInduction with
  | nil => simp
  | next text hne ih =>
    have hlt := firstChar_length_lt hne
    rw [percentDecode_of_ne_nil hne, List.length_cons]
    omega

/-- No escape goes across a character that is neither `%` nor a hexadecimal digit. -/
theorem percentDecode_append_cons {ch : UInt8} (hpercent : ch ≠ 37) (hdigit : isXDigit ch = false)
    (text rest : Bytes) :
    percentDecode (text ++ ch :: rest) = percentDecode text ++ ch :: percentDecode rest := by
  induction text using percentInduction with
  | nil => rw [List.nil_append, percentDecode_cons_of_ne hpercent, percentDecode_nil,
      List.nil_append]
  | next text hne ih =>
    have hfirst : firstChar (text ++ ch :: rest) =
        ((firstChar text).1, (firstChar text).2 ++ ch :: rest) := by
      obtain ⟨head, tail, rfl, heq⟩ | ⟨a, b, tail, rfl, ha, hb, heq⟩ := firstChar_cases hne
      · rw [heq]
        by_cases hhead : head = 37
        · subst hhead
          cases tail with
          | nil =>
            cases rest with
            | nil => rfl
            | cons b rest => exact if_neg fun h ↦ by simp [hdigit] at h
          | cons a tail =>
            cases tail with
            | nil => exact if_neg fun h ↦ by simp [hdigit] at h
            | cons b tail =>
              have hnot : ¬ ((37 : UInt8) = 37 ∧ isXDigit a ∧ isXDigit b) := by
                intro hescape
                have hlength := congrArg (fun pair ↦ pair.2.length)
                  ((if_pos hescape).symm.trans heq : (_, tail) = (_, a :: b :: tail))
                simp only [List.length_cons] at hlength
                omega
              exact if_neg hnot
        · exact firstChar_of_ne hhead _
      · rw [heq]
        exact if_pos ⟨rfl, ha, hb⟩
    rw [percentDecode_of_ne_nil (by simp), hfirst, percentDecode_of_ne_nil hne, ih,
      List.cons_append]

/-- Decoding that leaves the length of a text leaves the text: it has no escape. -/
theorem decode_eq_self_of_length {text : Bytes} (h : (decode text).length = text.length) :
    decode text = text := by
  induction text using decodeInduction with
  | zero text hzero =>
    rw [decode_of_zero hzero] at h ⊢
    exact (List.length_eq_zero_iff.mp h.symm).symm
  | next text hnext ih =>
    have hne : text ≠ [] := by
      rintro rfl
      exact hnext rfl
    rw [decode_of_ne hnext] at h ⊢
    obtain ⟨head, tail, rfl, heq⟩ | ⟨a, b, tail, rfl, -, -, heq⟩ := firstChar_cases hne
    · rw [heq] at h ih ⊢
      exact congrArg (head :: ·) (ih (by simpa using h))
    · have hle := decode_length_le tail
      rw [heq] at h
      simp only [List.length_cons] at h
      omega

/-- No text is itself decoded, with `&` behind it. -/
theorem append_ne_decode (text : Bytes) {front : Bytes} (hfront : 38 ∉ front) (rest : Bytes) :
    front ++ text ≠ decode text ++ 38 :: rest := by
  induction text using decodeInduction generalizing front with
  | zero text hzero =>
    rw [decode_of_zero hzero, List.nil_append]
    intro h
    cases front with
    | nil =>
      rw [List.nil_append] at h
      rw [h, firstChar_of_ne (by decide)] at hzero
      exact absurd hzero (show (38 : UInt8) ≠ 0 by decide)
    | cons head front => exact hfront (by simp [(List.cons.inj h).1])
  | next text hnext ih =>
    have hne : text ≠ [] := by
      rintro rfl
      exact hnext rfl
    rw [decode_of_ne hnext, List.cons_append]
    intro h
    obtain ⟨head, tail, rfl, heq⟩ | ⟨a, b, tail, rfl, ha, hb, heq⟩ := firstChar_cases hne
    · rw [heq] at h ih
      cases front with
      | nil => exact ih List.not_mem_nil (List.cons.inj h).2
      | cons first front =>
        obtain ⟨rfl, htail⟩ := List.cons.inj h
        refine ih (?_ : 38 ∉ front ++ [first]) (by simpa using htail)
        simpa [or_comm] using hfront
    · rw [heq] at h ih
      have hdigit (ch : UInt8) (hch : isXDigit ch = true) : (38 : UInt8) ≠ ch := by
        rintro rfl
        exact absurd hch (by decide)
      cases front with
      | nil =>
        refine ih (?_ : 38 ∉ [a, b]) (List.cons.inj h).2
        simp [hdigit a ha, hdigit b hb]
      | cons first front =>
        refine ih (?_ : 38 ∉ front ++ [37, a, b]) (by simpa using (List.cons.inj h).2)
        have hrest : 38 ∉ front := fun hmem ↦ hfront (List.mem_cons_of_mem _ hmem)
        simp [hrest, hdigit a ha, hdigit b hb]

/-! ## The parts of a URL -/

/-- Neither the start of a query nor that of a fragment. -/
def notQuery (ch : UInt8) : Bool := ch ≠ 63 && ch ≠ 35

/-- What stands before the query and the fragment. -/
def pathOf (text : Bytes) : Bytes := text.takeWhile notQuery

/-- What stands between `?` and the fragment. -/
def queryOf (text : Bytes) : Option Bytes :=
  match text.dropWhile notQuery with
  | 63 :: rest => some (rest.takeWhile (· ≠ 35))
  | _ => none

/-- The name and the value of a piece of a query, percent-decoded. -/
def paramOf (piece : Bytes) : Param :=
  (percentDecode (ofPiece piece).1, percentDecode (ofPiece piece).2)

def paramsOf (text : Bytes) : List Param :=
  match queryOf text with
  | none => []
  | some query => (query.splitOn 38).map paramOf

/-- The same path, and the same list of parameters at the start. -/
structure SameResource (url other : Bytes) : Prop where
  path : pathOf other = pathOf url
  params : paramsOf url <+: paramsOf other

/-- A piece of a query that can be decoded as a whole: no escape stands for a zero, `#` or `&`, none
in its name for `=`, and a second decoding leaves its name and its value. -/
structure KeepsPiece (piece : Bytes) : Prop where
  noSeparator : ∀ ch ∈ percentDecode piece, ch ∉ ([0, 35, 38] : Bytes)
  noEquals : 61 ∉ (paramOf piece).1
  name : percentDecode (paramOf piece).1 = (paramOf piece).1
  value : percentDecode (paramOf piece).2 = (paramOf piece).2

/-! ## Pieces of a query -/

theorem ofPiece_of_not_mem {piece : Bytes} (h : 61 ∉ piece) : ofPiece piece = (piece, []) := by
  have hkeep (ch : UInt8) (hch : ch ∈ piece) : decide (ch ≠ 61) = true :=
    decide_eq_true fun heq ↦ h (heq ▸ hch)
  rw [ofPiece, List.takeWhile_eq_self_iff.mpr hkeep, List.dropWhile_eq_nil_iff.mpr hkeep]
  rfl

/-- A piece is a name alone, or a name and a value. -/
theorem piece_cases (piece : Bytes) :
    (61 ∉ piece ∧ ofPiece piece = (piece, [])) ∨
      ∃ name value, piece = name ++ 61 :: value ∧ 61 ∉ name ∧ ofPiece piece = (name, value) := by
  by_cases h : 61 ∈ piece
  · obtain ⟨name, value, rfl, hname⟩ := List.eq_append_cons_of_mem h
    exact .inr ⟨name, value, rfl, hname, @ofPiece_render (name, value) hname⟩
  · exact .inl ⟨h, ofPiece_of_not_mem h⟩

/-- A decoded piece is its decoded name, or its decoded name and value. -/
theorem percentDecode_piece (piece : Bytes) :
    (paramOf piece = (percentDecode piece, [])) ∨
      percentDecode piece = (paramOf piece).1 ++ 61 :: (paramOf piece).2 := by
  obtain ⟨-, hpiece⟩ | ⟨name, value, rfl, -, hpiece⟩ := piece_cases piece
  · refine .inl ?_
    rw [paramOf, hpiece, percentDecode_nil]
  · refine .inr ?_
    rw [paramOf, hpiece, percentDecode_append_cons (by decide) (by decide)]

/-- Decoding makes a parameter no longer than its piece. -/
theorem paramOf_length_le (piece : Bytes) :
    (paramOf piece).1.length ≤ (ofPiece piece).1.length ∧
      (paramOf piece).2.length ≤ (ofPiece piece).2.length :=
  ⟨percentDecode_length_le _, percentDecode_length_le _⟩

/-- A piece that was decoded as a whole has the parameter that it had before exactly when its name
got no `=` and nothing is left to decode. -/
theorem paramOf_decoded_iff (piece : Bytes) :
    paramOf (percentDecode piece) = paramOf piece ↔
      61 ∉ (paramOf piece).1 ∧ percentDecode (paramOf piece).1 = (paramOf piece).1 ∧
        percentDecode (paramOf piece).2 = (paramOf piece).2 := by
  have hshorter {name value : Bytes} :
      (percentDecode name).length < (name ++ 61 :: value).length := by
    have hle := percentDecode_length_le name
    simp only [List.length_append, List.length_cons]
    omega
  obtain hparam | hdecoded := percentDecode_piece piece
  · rw [hparam]
    obtain ⟨hnot, hpiece⟩ | ⟨name, value, heq, hname, hpiece⟩ := piece_cases (percentDecode piece)
    · rw [paramOf, hpiece]
      simp [hnot]
    · refine iff_of_false (fun hsame ↦ ?_) fun hkeeps ↦ hkeeps.1 (by simp [heq])
      rw [paramOf, hpiece] at hsame
      have hlength := congrArg (fun param ↦ param.1.length) hsame
      have hlt := @hshorter name value
      rw [← heq] at hlt
      exact hlt.ne hlength
  · rw [hdecoded]
    by_cases hnot : 61 ∈ (paramOf piece).1
    · refine iff_of_false (fun hsame ↦ ?_) fun hkeeps ↦ hkeeps.1 hnot
      obtain ⟨name, value, heq, hname⟩ := List.eq_append_cons_of_mem hnot
      have hpiece : ofPiece ((paramOf piece).1 ++ 61 :: (paramOf piece).2) =
          (name, value ++ 61 :: (paramOf piece).2) := by
        have hrender := @ofPiece_render (name, value ++ 61 :: (paramOf piece).2) hname
        rw [render] at hrender
        rw [heq, List.append_assoc, List.cons_append, hrender]
      rw [paramOf, hpiece] at hsame
      have hlength := congrArg (fun param ↦ param.1.length) hsame
      have hlt := @hshorter name value
      rw [← heq] at hlt
      exact hlt.ne hlength
    · have hpiece := @ofPiece_render (paramOf piece) hnot
      rw [render] at hpiece
      rw [paramOf, hpiece, Prod.ext_iff]
      simp [hnot]

/-- A decoded piece that is cut off before one of the characters that take a URL apart has another
parameter. -/
theorem paramOf_cut_ne {piece front back : Bytes} {ch : UInt8} (hch : ch ≠ 61)
    (h : percentDecode piece = front ++ ch :: back) : paramOf front ≠ paramOf piece := by
  intro hsame
  have hle := paramOf_length_le front
  have hlength := congrArg List.length h
  rw [List.length_append, List.length_cons] at hlength
  rw [hsame] at hle
  obtain hparam | hdecoded := percentDecode_piece piece
  · have hname : (ofPiece front).1.length ≤ front.length := (List.takeWhile_sublist _).length_le
    rw [hparam] at hle
    dsimp only at hle
    omega
  · rw [hdecoded, List.length_append, List.length_cons] at hlength
    obtain ⟨-, hfront⟩ | ⟨name, value, rfl, -, hfront⟩ := piece_cases front
    · rw [hfront] at hle
      dsimp only [List.length_nil] at hle
      -- all of the cut is the name, and a `=` would follow it
      have hbegins : (paramOf piece).1 <+: front :=
        List.prefix_of_prefix_length_le (hdecoded ▸ List.prefix_append _ _)
          (h ▸ List.prefix_append _ _) hle.1
      have hvalue : (paramOf piece).2.length = 0 := Nat.le_zero.mp hle.2
      have heq := hbegins.eq_of_length (by omega)
      rw [hdecoded, heq, List.append_cancel_left_eq] at h
      exact hch (List.cons.inj h).1.symm
    · rw [hfront] at hle
      rw [List.length_append, List.length_cons] at hlength
      dsimp only at hle
      omega

/-! ## Queries -/

/-- What is left of a query that was decoded with what stands behind it, up to its fragment:
decoding ends at a zero, and `tail` is written behind it. -/
def handed (text tail : Bytes) : Bytes := (text.takeWhile (· ≠ 0) ++ tail).takeWhile (· ≠ 35)

/-- Nothing, or a piece that starts with `&`. -/
def Separated (text : Bytes) : Prop := text = [] ∨ ∃ rest, text = 38 :: rest

/-- The first piece, when one that is cut off follows or nothing. -/
theorem splitOn_separated {piece rest : Bytes} (hpiece : 38 ∉ piece) (hrest : Separated rest) :
    ∃ more, (piece ++ rest).splitOn 38 = piece :: more := by
  obtain rfl | ⟨rest, rfl⟩ := hrest
  · exact ⟨[], by rw [List.append_nil, List.splitOn_eq_singleton hpiece]⟩
  · exact ⟨_, List.splitOn_append_cons_self_of_not_mem hpiece rest⟩

theorem Separated.takeWhile {text : Bytes} (h : Separated text) :
    Separated (text.takeWhile (· ≠ 35)) := by
  obtain rfl | ⟨rest, rfl⟩ := h
  · exact .inl rfl
  · exact .inr ⟨_, List.takeWhile_cons_of_pos (by decide)⟩

/-- A clean piece is kept. -/
theorem handed_append {piece : Bytes} (h : ∀ ch ∈ piece, ch ∉ ([0, 35, 38] : Bytes))
    (text tail : Bytes) : handed (piece ++ text) tail = piece ++ handed text tail := by
  have hzero (ch : UInt8) (hch : ch ∈ piece) : decide (ch ≠ 0) = true :=
    decide_eq_true fun heq ↦ h ch hch (by simp [heq])
  have hhash (ch : UInt8) (hch : ch ∈ piece) : decide (ch ≠ 35) = true :=
    decide_eq_true fun heq ↦ h ch hch (by simp [heq])
  rw [handed, List.takeWhile_append_of_pos hzero, List.append_assoc,
    List.takeWhile_append_of_pos hhash, handed]

/-- Behind a clean piece, a character that takes URLs apart ends it. -/
theorem handed_separated {ch : UInt8} (hch : ch ∈ ([0, 35, 38] : Bytes))
    (text : Bytes) {tail : Bytes}
    (htail : Separated tail) : Separated (handed (ch :: text) tail) := by
  simp only [List.mem_cons, List.not_mem_nil, or_false] at hch
  obtain rfl | rfl | rfl := hch
  · rw [handed, List.takeWhile_cons_of_neg (by decide), List.nil_append]
    exact htail.takeWhile
  · rw [handed, List.takeWhile_cons_of_pos (by decide), List.cons_append,
      List.takeWhile_cons_of_neg (by decide)]
    exact .inl rfl
  · rw [handed, List.takeWhile_cons_of_pos (by decide), List.cons_append,
      List.takeWhile_cons_of_pos (by decide)]
    exact .inr ⟨_, rfl⟩

theorem handed_ampersand (text tail : Bytes) :
    handed (38 :: text) tail = 38 :: handed text tail := by
  rw [handed, List.takeWhile_cons_of_pos (by decide), List.cons_append,
    List.takeWhile_cons_of_pos (by decide), handed]

/-- A text is clean, or it is cut at the first character that is not. -/
theorem clean_or_cut (text : Bytes) : (∀ ch ∈ text, ch ∉ ([0, 35, 38] : Bytes)) ∨
    ∃ front ch back, text = front ++ ch :: back ∧ ch ∈ ([0, 35, 38] : Bytes) ∧
      ∀ other ∈ front, other ∉ ([0, 35, 38] : Bytes) := by
  induction text with
  | nil => exact .inl nofun
  | cons head text ih =>
    by_cases hhead : head ∈ ([0, 35, 38] : Bytes)
    · exact .inr ⟨[], head, text, rfl, hhead, nofun⟩
    · obtain hclean | ⟨front, ch, back, rfl, hch, hfront⟩ := ih
      · exact .inl (List.forall_mem_cons.mpr ⟨hhead, hclean⟩)
      · exact .inr ⟨head :: front, ch, back, rfl, hch, List.forall_mem_cons.mpr ⟨hhead, hfront⟩⟩

/-- The first parameter of a query is kept exactly when its piece is, and the others follow only
then. -/
theorem first_param_iff {piece : Bytes} {text tail : Bytes} (hsep : Separated (handed text tail))
    (htail : Separated tail) :
    (∃ more, (handed (percentDecode piece ++ text) tail).splitOn 38 = percentDecode piece :: more ∧
        paramOf (percentDecode piece) = paramOf piece ∧ KeepsPiece piece) ∨
      ∃ first more, (handed (percentDecode piece ++ text) tail).splitOn 38 = first :: more ∧
        paramOf first ≠ paramOf piece ∧ ¬ KeepsPiece piece := by
  have hampersand {text : Bytes} (h : ∀ ch ∈ text, ch ∉ ([0, 35, 38] : Bytes)) : 38 ∉ text :=
    fun hmem ↦ h 38 hmem (by decide)
  obtain hclean | ⟨front, ch, back, heq, hch, hfront⟩ := clean_or_cut (percentDecode piece)
  · rw [handed_append hclean]
    obtain ⟨more, hmore⟩ := splitOn_separated (hampersand hclean) hsep
    by_cases hsame : paramOf (percentDecode piece) = paramOf piece
    · obtain ⟨hequals, hname, hvalue⟩ := (paramOf_decoded_iff piece).mp hsame
      exact .inl ⟨more, hmore, hsame, hclean, hequals, hname, hvalue⟩
    · refine .inr ⟨_, more, hmore, hsame, fun hkeeps ↦ hsame ?_⟩
      exact (paramOf_decoded_iff piece).mpr ⟨hkeeps.noEquals, hkeeps.name, hkeeps.value⟩
  · have hne : ch ≠ 61 := by
      rintro rfl
      exact absurd hch (by decide)
    refine .inr ⟨front, ?_⟩
    rw [heq, List.append_assoc, handed_append hfront, List.cons_append]
    obtain ⟨more, hmore⟩ := splitOn_separated (hampersand hfront)
      (handed_separated hch (back ++ text) htail)
    refine ⟨more, hmore, paramOf_cut_ne hne heq, fun hkeeps ↦ ?_⟩
    exact hkeeps.noSeparator ch (by simp [heq]) hch

/-- The parameters of a query are those of the query that was decoded as a whole exactly when every
piece can be decoded so. -/
theorem params_prefix_iff {pieces : List Bytes} (hne : pieces ≠ []) {fragment tail : Bytes}
    (hfragment : fragment = [] ∨ ∃ rest, fragment = 35 :: rest) (htail : Separated tail) :
    pieces.map paramOf <+:
        ((handed (percentDecode ([38].intercalate pieces ++ fragment)) tail).splitOn 38).map
          paramOf ↔
      ∀ piece ∈ pieces, KeepsPiece piece := by
  induction pieces with
  | nil => exact absurd rfl hne
  | cons piece pieces ih =>
    by_cases hnil : pieces = []
    · subst hnil
      obtain ⟨text, htext, hsep⟩ : ∃ text, percentDecode (piece ++ fragment) =
          percentDecode piece ++ text ∧ Separated (handed text tail) := by
        obtain rfl | ⟨rest, rfl⟩ := hfragment
        · exact ⟨[], by simp, htail.takeWhile⟩
        · exact ⟨_, percentDecode_append_cons (by decide) (by decide) _ _,
            handed_separated (by decide) _ htail⟩
      rw [List.intercalate_singleton, htext, List.forall_mem_singleton]
      obtain ⟨more, hmore, hsame, hkeeps⟩ | ⟨first, more, hmore, hother, hnot⟩ :=
        @first_param_iff piece text tail hsep htail
      · refine iff_of_true ?_ hkeeps
        rw [hmore, List.map_cons, List.map_cons, hsame]
        exact List.cons_prefix_cons.mpr ⟨rfl, List.nil_prefix⟩
      · refine iff_of_false (fun hbegins ↦ hother ?_) hnot
        rw [hmore] at hbegins
        exact (List.cons_prefix_cons.mp hbegins).1.symm
    · have htext : percentDecode ([38].intercalate (piece :: pieces) ++ fragment) =
          percentDecode piece ++
            38 :: percentDecode ([38].intercalate pieces ++ fragment) := by
        rw [List.intercalate_cons_of_ne_nil hnil, List.append_assoc, List.append_assoc,
          List.singleton_append, percentDecode_append_cons (by decide) (by decide)]
      rw [htext, List.forall_mem_cons]
      obtain ⟨more, hmore, hsame, hkeeps⟩ | ⟨first, more, hmore, hother, hnot⟩ :=
        @first_param_iff piece _ tail
          (handed_separated (show (38 : UInt8) ∈ ([0, 35, 38] : Bytes) by decide) _ htail) htail
      · -- the clean piece is split off, and the rest is a query of its own
        have hampersand : 38 ∉ percentDecode piece := fun hmem ↦
          hkeeps.noSeparator 38 hmem (by decide)
        rw [handed_append hkeeps.noSeparator, handed_ampersand,
          List.splitOn_append_cons_self_of_not_mem hampersand, List.map_cons, List.map_cons, hsame,
          List.cons_prefix_cons, ih hnil]
        simp [hkeeps]
      · refine iff_of_false (fun hbegins ↦ hother ?_) fun hall ↦ hnot hall.1
        rw [hmore] at hbegins
        exact (List.cons_prefix_cons.mp hbegins).1.symm

/-! ## Whole URLs -/

/-- What a URL has to be for a decoding as a whole to keep its resource, when a parameter is written
behind it or not: its path has no escape, and each piece of its query can be decoded as a whole.
Behind a path alone, no parameter may be written. -/
structure KeepsResource (extended : Prop) (url : Bytes) : Prop where
  path : decode (pathOf url) = pathOf url
  query : extended → 63 ∈ url ∨ 35 ∈ url
  pieces : ∀ query ∈ queryOf url, ∀ piece ∈ query.splitOn 38, KeepsPiece piece

theorem notQuery_eq_false {ch : UInt8} : notQuery ch = false ↔ ch = 63 ∨ ch = 35 := by
  simp [notQuery, or_iff_not_imp_left]

theorem notQuery_of_mem_pathOf {url : Bytes} {ch : UInt8} (h : ch ∈ pathOf url) :
    notQuery ch = true := List.mem_takeWhile_imp h

theorem of_dropWhile_eq_cons {p : UInt8 → Bool} {text rest : Bytes} {head : UInt8}
    (h : text.dropWhile p = head :: rest) : p head = false := by
  have hhead := List.head?_dropWhile_not p text
  rwa [h] at hhead

/-- A URL is a path, or a path and what starts with `?` or `#`. -/
theorem url_cases (url : Bytes) :
    (url = pathOf url ∧ queryOf url = none ∧ 63 ∉ url ∧ 35 ∉ url) ∨
      ∃ ch rest, url = pathOf url ++ ch :: rest ∧ (ch = 63 ∨ ch = 35) := by
  have hsplit : pathOf url ++ url.dropWhile notQuery = url := List.takeWhile_append_dropWhile
  cases hrest : url.dropWhile notQuery with
  | nil =>
    rw [hrest, List.append_nil] at hsplit
    have hnot (ch : UInt8) (hch : notQuery ch = false) : ch ∉ url := by
      intro hmem
      rw [← hsplit] at hmem
      exact absurd (notQuery_of_mem_pathOf hmem) (by simp [hch])
    refine .inl ⟨hsplit.symm, ?_, hnot 63 rfl, hnot 35 rfl⟩
    rw [queryOf, hrest]
  | cons ch rest =>
    rw [hrest] at hsplit
    exact .inr ⟨ch, rest, hsplit.symm, Iff.mp notQuery_eq_false (of_dropWhile_eq_cons hrest)⟩

/-- The parts of a path and what starts with `?` or `#`. -/
theorem parts_of_split {path rest : Bytes} {ch : UInt8} (hpath : ∀ ch ∈ path, notQuery ch = true)
    (hch : ch = 63 ∨ ch = 35) :
    pathOf (path ++ ch :: rest) = path ∧
      queryOf (path ++ ch :: rest) = if ch = 63 then some (rest.takeWhile (· ≠ 35)) else none := by
  have hfalse : ¬ notQuery ch = true := by simp [Iff.mpr notQuery_eq_false hch]
  constructor
  · rw [pathOf, List.takeWhile_append_of_pos hpath, List.takeWhile_cons_of_neg hfalse,
      List.append_nil]
  · rw [queryOf, List.dropWhile_append_of_pos hpath, List.dropWhile_cons_of_neg hfalse]
    obtain rfl | rfl := hch
    · rfl
    · rfl

/-- Where decoding goes on behind a path, or a zero has ended it. -/
theorem decode_append_cases {ch : UInt8} (hch : ch = 63 ∨ ch = 35) (path rest : Bytes) :
    decode (path ++ ch :: rest) = decode path ++ ch :: decode rest ∨
      (decode (path ++ ch :: rest) = decode path ∧ decode path ≠ path) := by
  have hpercent : ch ≠ 37 := by
    obtain rfl | rfl := hch <;> decide
  have hdigit : isXDigit ch = false := by
    obtain rfl | rfl := hch <;> decide
  have htake (text : Bytes) : (ch :: text).takeWhile (· ≠ 0) = ch :: text.takeWhile (· ≠ 0) := by
    obtain rfl | rfl := hch <;> rfl
  rw [decode_eq_takeWhile, percentDecode_append_cons hpercent hdigit, List.takeWhile_append, htake,
    decode_eq_takeWhile path, decode_eq_takeWhile rest]
  by_cases hall : ((percentDecode path).takeWhile (· ≠ 0)).length = (percentDecode path).length
  · rw [if_pos hall, (List.takeWhile_prefix _).eq_of_length hall]
    exact .inl rfl
  · rw [if_neg hall]
    refine .inr ⟨rfl, fun hsame ↦ hall ?_⟩
    have hle := percentDecode_length_le path
    have htake := (List.takeWhile_prefix (p := (· ≠ 0)) (l := percentDecode path)).length_le
    have hlength := congrArg List.length hsame
    omega

/-- A path that is found again in front of what was decoded was not changed, and no `&` ends it. -/
theorem path_of_decoded {path text : Bytes}
    (htext : text = [] ∨ ∃ ch rest, text = ch :: rest ∧ (notQuery ch = false ∨ ch = 38))
    (h : pathOf (decode path ++ text) = path) :
    decode path = path ∧ ∀ rest, text ≠ 38 :: rest := by
  have hle := decode_length_le path
  -- the path of what was decoded does not go on behind the decoded path
  have hinside (hbegins : pathOf (decode path ++ text) <+: decode path) : decode path = path := by
    apply decode_eq_self_of_length
    have hlength := hbegins.length_le
    rw [h] at hlength
    omega
  rw [pathOf, List.takeWhile_append] at h hinside
  by_cases hall : ((decode path).takeWhile notQuery).length = (decode path).length
  · rw [if_pos hall] at h hinside
    obtain rfl | ⟨ch, rest, rfl, hfalse | rfl⟩ := htext
    · exact ⟨hinside (by simp), nofun⟩
    · rw [List.takeWhile_cons_of_neg (by simp [hfalse]), List.append_nil] at h
      refine ⟨h, fun rest heq ↦ ?_⟩
      rw [(List.cons.inj heq).1] at hfalse
      exact absurd hfalse (by decide)
    · rw [List.takeWhile_cons_of_pos (by decide)] at h
      exact absurd h.symm (append_ne_decode path List.not_mem_nil _)
  · rw [if_neg hall] at h hinside
    have hsame := hinside (List.takeWhile_prefix _)
    rw [hsame] at h hall
    exact absurd (congrArg List.length h) hall

/-- A URL that is decoded as a whole, with a parameter behind it or nothing, keeps its resource
exactly when it has the shape for it. -/
theorem sameResource_iff {url tail : Bytes} (htail : Separated tail) :
    SameResource url (decode url ++ tail) ↔ KeepsResource (tail ≠ []) url := by
  obtain ⟨hurl, hquery, hnot⟩ | ⟨ch, rest, hurl, hch⟩ := url_cases url
  · constructor
    · intro hsame
      have hpath : pathOf (decode url ++ tail) = url := hsame.path.trans hurl.symm
      have htext : tail = [] ∨ ∃ ch rest, tail = ch :: rest ∧ (notQuery ch = false ∨ ch = 38) :=
        htail.imp_right fun ⟨rest, hrest⟩ ↦ ⟨38, rest, hrest, .inr rfl⟩
      obtain ⟨hdecode, hne⟩ := path_of_decoded htext hpath
      refine ⟨by rw [← hurl, hdecode], fun hsome ↦ ?_, by simp [hquery]⟩
      obtain hnil | ⟨rest, hrest⟩ := htail
      · exact absurd hnil hsome
      · exact absurd hrest (hne rest)
    · intro hkeeps
      have hnil : tail = [] := by
        by_contra hsome
        exact (hkeeps.query hsome).elim hnot.1 hnot.2
      have hdecode := hkeeps.path
      rw [← hurl] at hdecode
      rw [hnil, List.append_nil, hdecode]
      exact ⟨rfl, List.prefix_refl _⟩
  · have hmem : 63 ∈ url ∨ 35 ∈ url := by
      rw [hurl]
      exact hch.imp (fun h ↦ by simp [h]) fun h ↦ by simp [h]
    have hnotQuery : ∀ ch ∈ pathOf url, notQuery ch = true := fun ch ↦ notQuery_of_mem_pathOf
    have hquery := (@parts_of_split _ rest _ hnotQuery hch).2
    rw [← hurl] at hquery
    have htext (after : Bytes) : ch :: after = [] ∨ ∃ head rest, ch :: after = head :: rest ∧
        (notQuery head = false ∨ head = 38) :=
      .inr ⟨ch, after, rfl, .inl (Iff.mpr notQuery_eq_false hch)⟩
    obtain hdecode | ⟨hdecode, hne⟩ := decode_append_cases hch (pathOf url) rest
    · rw [← hurl] at hdecode
      have hshape : decode url ++ tail = decode (pathOf url) ++ ch :: (decode rest ++ tail) := by
        rw [hdecode, List.append_assoc, List.cons_append]
      -- what is left to compare once the path is the same
      have hparams (hpath : decode (pathOf url) = pathOf url) :
          paramsOf url <+: paramsOf (decode url ++ tail) ↔
            ∀ query ∈ queryOf url, ∀ piece ∈ query.splitOn 38, KeepsPiece piece := by
        obtain ⟨-, hother⟩ := @parts_of_split _ (decode rest ++ tail) _ hnotQuery hch
        rw [← hpath, ← hshape] at hother
        rw [paramsOf, paramsOf, hquery, hother]
        obtain rfl | rfl := hch
        · obtain ⟨fragment, hrest, hfragment⟩ : ∃ fragment,
              rest = rest.takeWhile (· ≠ 35) ++ fragment ∧
                (fragment = [] ∨ ∃ text, fragment = 35 :: text) := by
            refine ⟨rest.dropWhile (· ≠ 35), List.takeWhile_append_dropWhile.symm, ?_⟩
            cases hdrop : rest.dropWhile (· ≠ 35) with
            | nil => exact .inl rfl
            | cons head text =>
              obtain rfl : head = 35 := by simpa using of_dropWhile_eq_cons hdrop
              exact .inr ⟨text, rfl⟩
          have hiff := @params_prefix_iff ((rest.takeWhile (· ≠ 35)).splitOn 38)
            (List.splitOn_ne_nil _ _) fragment tail hfragment htail
          rw [List.intercalate_splitOn, ← hrest, handed, ← decode_eq_takeWhile] at hiff
          simpa using hiff
        · simp
      constructor
      · intro hsame
        have hpath := hsame.path
        rw [hshape] at hpath
        obtain ⟨hkept, -⟩ := path_of_decoded (htext _) hpath
        exact ⟨hkept, fun _ ↦ hmem, (hparams hkept).mp hsame.params⟩
      · intro hkeeps
        refine ⟨?_, (hparams hkeeps.path).mpr hkeeps.pieces⟩
        rw [hshape, hkeeps.path]
        exact (parts_of_split hnotQuery hch).1
    · rw [← hurl] at hdecode
      refine iff_of_false (fun hsame ↦ hne ?_) fun hkeeps ↦ hne hkeeps.path
      have hpath := hsame.path
      rw [hdecode] at hpath
      refine (path_of_decoded ?_ hpath).1
      exact htail.imp_right fun ⟨rest, hrest⟩ ↦ ⟨38, rest, hrest, .inr rfl⟩

end LibYtdl.Info.UrlParts
