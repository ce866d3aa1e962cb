import LibYtdl.Foundation.Pieces
import LibYtdl.Info.CipherUrl
import LibYtdl.Sig.Utf8

/-!
# The parameter `n`

The last step of `ytdl_info_get_format_url2` calls a JavaScript function that replaces the value of
the parameter `n`. It splits the whole URL at each `&`, not the query, so it sees no parameter that
stands first in the query, takes a fragment for a part of the last value, and takes what comes
before the query for parameters.
-/

namespace LibYtdl.Info.NParameter

open Machine Memory Search Pieces CipherUrl
open Sig.Actions (Entry)
open Sig.JsText

/-! ## The step -/

/-- `n=`. -/
def nKey : JsString := [110, 61]

/-- `YTDL_SIG_JS_FUNC` for the function `f` of the player; `none` is an exception. Without a piece
that starts with the key, the index is `-1`, and `substr` is read from `undefined`. -/
def sigJsFunc (f : JsString → Option JsString) (z : JsString) : Option JsString := do
  let s := z.splitOn 38
  let i ← s.findIdx? (nKey.isPrefixOf ·)
  let piece ← s[i]?
  let n := piece.drop 2
  let s := s.set i (nKey ++ (← f n))
  some ([38].intercalate s)

/-- The step of `ytdl_info_get_format_url2` that calls the function: the string that is stored in
`format->url` in the end. After an exception it is the one that was there. -/
def jsStep (func : JsString → Option JsString) (url : Bytes) : Bytes :=
  match func (newString url) with
  | none => url
  | some ret => (toCString ret).takeWhile (· ≠ 0)

/-- The URL that `ytdl_info_get_format_url2` returns for a format that has none yet. -/
def infoGetFormatUrl2 (heap : ℕ → UInt8) (actions : List Entry)
    (func : JsString → Option JsString) (formatCipher urlUntouched : Option (Object UInt8)) :
    Option (Option Bytes) := do
  let some url ← formatUrl heap actions formatCipher urlUntouched | some none
  let text ← cstr url 0
  some (some (jsStep func text))

/-! ## Media URLs -/

/-- A parameter of a query, as the engine sees it. -/
abbrev JsParam := JsString × JsString

def renderParam (param : JsParam) : JsString := param.1 ++ 61 :: param.2

/-- The name of the parameter. -/
def nName : JsString := [110]

/-- A URL whose query is a list of parameters, one of which at most is named `n`. The fragment is
empty, or starts with `#`. -/
structure MediaUrl where
  base : JsString
  params : List JsParam
  fragment : JsString
  base_noQuery : 63 ∉ base ∧ 35 ∉ base
  params_ne_nil : params ≠ []
  names : ∀ param ∈ params, 61 ∉ param.1 ∧ 38 ∉ param.1 ∧ 35 ∉ param.1
  values : ∀ param ∈ params, 38 ∉ param.2 ∧ 35 ∉ param.2
  one : params.countP (·.1 = nName) ≤ 1
  fragment_hash : fragment = [] ∨ ∃ text, fragment = 35 :: text

namespace MediaUrl

/-- The URL with other parameters in place of its own. -/
def textWith (url : MediaUrl) (params : List JsParam) : JsString :=
  url.base ++ 63 :: ([38].intercalate (params.map renderParam) ++ url.fragment)

def text (url : MediaUrl) : JsString := url.textWith url.params

/-- The URL with the value of `n` replaced. -/
def rewrite (url : MediaUrl) (f : JsString → JsString) : JsString :=
  url.textWith (url.params.map fun param ↦
    if param.1 = nName then (param.1, f param.2) else param)

/-- The bytes `url` are those of a C string that the engine reads as the URL. -/
structure IsString (url : MediaUrl) (bytes : Bytes) : Prop where
  eq : bytes = toCString url.text
  read : newString bytes = url.text
  noZero : 0 ∉ url.text

/-- `&n=`. -/
def andN : JsString := 38 :: nKey

/-- No parameter is named `n`. -/
def NoN (url : MediaUrl) : Prop := ∀ param ∈ url.params, param.1 ≠ nName

/-- No piece before the query starts with `n=`. Without a parameter `n`, none of the fragment does;
with one, it is not the first, and a fragment does not follow it. -/
structure Rewritable (url : MediaUrl) : Prop where
  base : ¬ andN <:+: 38 :: url.base
  absent : url.NoN → ¬ andN <:+: url.fragment
  present : ∀ before value after, url.params = before ++ (nName, value) :: after →
    before ≠ [] ∧ (after = [] → url.fragment = [])

end MediaUrl

/-- A function whose results can be held by a C string. -/
def NulFree (f : JsString → JsString) : Prop := ∀ text, 0 ∉ f text

/-! ## What the function computes -/

/-- What the function sees of a URL: no piece that starts with the key, or the first one, with what
stands around its value. -/
theorem sigJsFunc_cases (z : JsString) :
    (indexOf MediaUrl.andN (38 :: z) = none ∧ ∀ f, sigJsFunc f z = none) ∨
      ∃ front value back, 38 :: z = front ++ (MediaUrl.andN ++ (value ++ back)) ∧
        indexOf MediaUrl.andN (38 :: z) = some front.length ∧ 38 ∉ value ∧
        (∀ ch ∈ back.head?, ch = 38) ∧
        ∀ f : JsString → JsString, ∃ out, sigJsFunc (fun n ↦ some (f n)) z = some out ∧
          38 :: out = front ++ (MediaUrl.andN ++ (f value ++ back)) := by
  have hkey : (38 : UInt16) ∉ nKey := by decide
  obtain ⟨hnone, hindex⟩ | ⟨before, value, after, hpieces, hfind, hindex⟩ :=
    findIdx?_pieces hkey fun piece (hpiece : piece ∈ z.splitOn 38) ↦ mem_splitOn hpiece
  · rw [marked_splitOn] at hindex
    refine .inl ⟨hindex, fun f ↦ ?_⟩
    rw [sigJsFunc, hnone]
    rfl
  · have hmarked : 38 :: z = marked 38 before ++ (MediaUrl.andN ++ (value ++ marked 38 after)) := by
      rw [← marked_splitOn z, hpieces, marked_append, marked_cons, List.append_assoc]
      rfl
    have hvalue : 38 ∉ value := fun hmem ↦ by
      have hpiece : nKey ++ value ∈ z.splitOn 38 := by
        rw [hpieces]
        exact List.mem_append_right _ List.mem_cons_self
      exact mem_splitOn hpiece (List.mem_append_right _ hmem)
    rw [marked_splitOn] at hindex
    refine .inr ⟨marked 38 before, value, marked 38 after, hmarked, hindex, hvalue,
      fun ch hch ↦ head?_marked hch, fun f ↦ ?_⟩
    have hget : (before ++ (nKey ++ value) :: after)[before.length]? = some (nKey ++ value) := by
      rw [List.getElem?_append_right le_rfl, Nat.sub_self, List.getElem?_cons_zero]
    have hset : (before ++ (nKey ++ value) :: after).set before.length (nKey ++ f value) =
        before ++ (nKey ++ f value) :: after := by
      rw [List.set_append_right _ _ le_rfl, Nat.sub_self, List.set_cons_zero]
    have hn : (nKey ++ value).drop 2 = value := rfl
    refine ⟨[38].intercalate (before ++ (nKey ++ f value) :: after), ?_, ?_⟩
    · rw [sigJsFunc, hfind, Option.bind_eq_bind, Option.bind_some, hpieces, hget,
        Option.bind_eq_bind, Option.bind_some, hn, Option.bind_some, hset]
    · rw [← marked_eq_cons_intercalate (by simp), marked_append, marked_cons, List.append_assoc]
      rfl

/-- The step on a URL: it stays as it is, or the value of the first piece that starts with the key
is replaced. -/
theorem jsStep_cases {url : MediaUrl} {bytes : Bytes} (h : url.IsString bytes) :
    (indexOf MediaUrl.andN (38 :: url.text) = none ∧ ∀ f, jsStep (sigJsFunc f) bytes = bytes) ∨
      ∃ lead gap value back, 38 :: gap = lead ++ [38] ∧
        url.text = (gap ++ nKey) ++ (value ++ back) ∧
        indexOf MediaUrl.andN (38 :: url.text) = some lead.length ∧ 38 ∉ value ∧
        (∀ ch ∈ back.head?, ch = 38) ∧
        ∀ f : JsString → JsString, NulFree f →
          jsStep (sigJsFunc fun n ↦ some (f n)) bytes =
            toCString ((gap ++ nKey) ++ (f value ++ back)) := by
  obtain ⟨hindex, hnone⟩ | ⟨lead, value, back, htext, hindex, hvalue, hback, hsome⟩ :=
    sigJsFunc_cases url.text
  · refine .inl ⟨hindex, fun f ↦ ?_⟩
    rw [jsStep, h.read, hnone]
  · obtain ⟨gap, hgap⟩ : ∃ gap, 38 :: gap = lead ++ [38] := by
      cases lead with
      | nil => exact ⟨[], rfl⟩
      | cons head lead =>
        obtain ⟨rfl, -⟩ := List.cons.inj htext
        exact ⟨lead ++ [38], rfl⟩
    -- the same cut, without the separator in front
    have hcut (rest : JsString) :
        lead ++ (MediaUrl.andN ++ rest) = 38 :: ((gap ++ nKey) ++ rest) := by
      rw [← List.cons_append, ← List.cons_append, hgap]
      simp [MediaUrl.andN]
    rw [hcut] at htext
    have hsplit : url.text = (gap ++ nKey) ++ (value ++ back) := (List.cons.inj htext).2
    refine .inr ⟨lead, gap, value, back, hgap, hsplit, hindex, hvalue, hback, fun f hf ↦ ?_⟩
    obtain ⟨out, hout, heq⟩ := hsome f
    rw [hcut] at heq
    obtain rfl : out = (gap ++ nKey) ++ (f value ++ back) := (List.cons.inj heq).2
    have hzero : 0 ∉ (gap ++ nKey) ++ (f value ++ back) := by
      have hnot := h.noZero
      rw [hsplit] at hnot
      simp only [List.mem_append, not_or] at hnot ⊢
      exact ⟨hnot.1, hf value, hnot.2.2⟩
    have hkeep (ch : UInt8) (hch : ch ∈ toCString ((gap ++ nKey) ++ (f value ++ back))) :
        decide (ch ≠ 0) = true :=
      decide_eq_true fun heq ↦ zero_not_mem_toCString hzero (heq ▸ hch)
    rw [jsStep, h.read, hout]
    exact List.takeWhile_eq_self_iff.mpr hkeep

/-! ## Where a value can be replaced -/

/-- Two different characters in one place of two texts fix the place. -/
theorem append_cons_inj {α : Type*} {first second back other : List α} {x y : α} (hne : x ≠ y)
    (hx : first ++ x :: back = second ++ x :: other)
    (hy : first ++ y :: back = second ++ y :: other) : first = second ∧ back = other := by
  have hgap {first second back other : List α} (hx : first ++ x :: back = second ++ x :: other)
      (hy : first ++ y :: back = second ++ y :: other) {gap : List α}
      (hsecond : second = first ++ gap) (hback : x :: back = gap ++ x :: other) : gap = [] := by
    cases gap with
    | nil => rfl
    | cons head gap =>
      rw [hsecond, List.append_assoc, List.append_cancel_left_eq] at hy
      exact absurd ((List.cons.inj hback).1.trans (List.cons.inj hy).1.symm) hne
  obtain ⟨gap, hsecond, hback⟩ | ⟨gap, hfirst, hback⟩ := List.append_eq_append_iff.mp hx
  · obtain rfl := hgap hx hy hsecond hback
    rw [List.append_nil] at hsecond
    exact ⟨hsecond.symm, (List.cons.inj hback).2⟩
  · obtain rfl := hgap hx.symm hy.symm hfirst hback
    rw [List.append_nil] at hfirst
    exact ⟨hfirst, (List.cons.inj hback).2.symm⟩

/-- Where every function puts its value is one place only. -/
theorem place_unique {front back front' back' : JsString} {value value' : JsString}
    (hlast : ∀ c ∈ front.getLast?, c < 128) (hlast' : ∀ c ∈ front'.getLast?, c < 128)
    (h : ∀ f, NulFree f →
      toCString (front ++ (f value ++ back)) = toCString (front' ++ (f value' ++ back'))) :
    toCString front = toCString front' ∧ toCString back = toCString back' := by
  have hchar (x : UInt16) (hascii : x < 128) (hzero : (0 : UInt16) ≠ x) :
      toCString front ++ x.toUInt8 :: toCString back =
        toCString front' ++ x.toUInt8 :: toCString back' := by
    have hconst := h (fun _ ↦ [x]) fun _ hmem ↦ hzero (List.mem_singleton.mp hmem)
    rwa [toCString_append hlast, toCString_append hlast', List.singleton_append,
      List.singleton_append, toCString_cons_ascii hascii, toCString_cons_ascii hascii] at hconst
  exact append_cons_inj (by decide) (hchar 97 (by decide) (by decide))
    (hchar 98 (by decide) (by decide))

/-- No URL is the same whatever is put into it. -/
theorem not_forall_const {front back value : JsString} (hlast : ∀ c ∈ front.getLast?, c < 128)
    {bytes : Bytes} : ¬ ∀ f, NulFree f → toCString (front ++ (f value ++ back)) = bytes := by
  intro h
  have hnone := h (fun _ ↦ []) fun _ ↦ List.not_mem_nil
  have hone := h (fun _ ↦ [97]) fun _ ↦ (by decide : (0 : UInt16) ∉ [97])
  rw [toCString_append hlast] at hnone hone
  rw [List.singleton_append, toCString_cons_ascii (by decide), ← hnone, List.nil_append] at hone
  have hlength := congrArg List.length hone
  simp only [List.length_append, List.length_cons] at hlength
  omega

/-- One text is cut at one place only, if what stands before the cut has the same bytes. -/
theorem front_unique {front front' back back' : JsString} (hlast : ∀ c ∈ front.getLast?, c < 128)
    (hlast' : ∀ c ∈ front'.getLast?, c < 128) (h : front ++ back = front' ++ back')
    (hbytes : toCString front = toCString front') : front = front' := by
  have hnil {gap : JsString} (hgap : toCString gap = []) : gap = [] := by
    by_contra hne
    exact toCString_ne_nil hne hgap
  obtain ⟨gap, rfl, -⟩ | ⟨gap, rfl, -⟩ := List.append_eq_append_iff.mp h
  · rw [toCString_append hlast, List.self_eq_append_right] at hbytes
    rw [hnil hbytes, List.append_nil]
  · rw [toCString_append hlast', List.append_right_eq_self] at hbytes
    rw [hnil hbytes, List.append_nil]

/-! ## The parameter in its URL -/

namespace MediaUrl

/-- The URL up to the value of a parameter `n` behind the parameters `before`. -/
def place (url : MediaUrl) (before : List JsParam) : JsString :=
  (url.base ++ 63 :: before.flatMap fun param ↦ renderParam param ++ [38]) ++ nKey

/-- What stands behind the value. -/
def behind (url : MediaUrl) (after : List JsParam) : JsString :=
  marked 38 (after.map renderParam) ++ url.fragment

theorem textWith_append_cons (url : MediaUrl) (before : List JsParam) (value : JsString)
    (after : List JsParam) :
    url.textWith (before ++ (nName, value) :: after) =
      url.place before ++ (value ++ url.behind after) := by
  rw [textWith, List.map_append, List.map_cons, intercalate_append_cons]
  simp [place, behind, renderParam, nName, nKey, List.flatMap_map]

/-- At most one parameter is named `n`. -/
theorem others_of_split {url : MediaUrl} {before after : List JsParam} {value : JsString}
    (h : url.params = before ++ (nName, value) :: after) :
    (∀ param ∈ before, param.1 ≠ nName) ∧ ∀ param ∈ after, param.1 ≠ nName := by
  have hone := url.one
  rw [h, List.countP_append, List.countP_cons_of_pos (by simp)] at hone
  have hbefore := List.countP_eq_zero.mp (show before.countP (·.1 = nName) = 0 by omega)
  have hafter := List.countP_eq_zero.mp (show after.countP (·.1 = nName) = 0 by omega)
  exact ⟨fun param hparam ↦ by simpa using hbefore param hparam,
    fun param hparam ↦ by simpa using hafter param hparam⟩

theorem rewrite_of_split {url : MediaUrl} {before after : List JsParam} {value : JsString}
    (h : url.params = before ++ (nName, value) :: after) (f : JsString → JsString) :
    url.rewrite f = url.place before ++ (f value ++ url.behind after) := by
  obtain ⟨hbefore, hafter⟩ := others_of_split h
  have hsame {params : List JsParam} (hparams : ∀ param ∈ params, param.1 ≠ nName) :
      (params.map fun param ↦ if param.1 = nName then (param.1, f param.2) else param) = params :=
    (List.map_congr_left fun param hparam ↦ if_neg (hparams param hparam)).trans (List.map_id' _)
  rw [rewrite, h, List.map_append, List.map_cons, hsame hbefore, hsame hafter, if_pos rfl,
    textWith_append_cons]

theorem rewrite_of_noN {url : MediaUrl} (h : url.NoN) (f : JsString → JsString) :
    url.rewrite f = url.text := by
  have hsame : (url.params.map fun param ↦
      if param.1 = nName then (param.1, f param.2) else param) = url.params :=
    (List.map_congr_left fun param hparam ↦ if_neg (h param hparam)).trans (List.map_id' _)
  rw [rewrite, hsame, text]

theorem noN_or_split (url : MediaUrl) :
    url.NoN ∨ ∃ before value after, url.params = before ++ (nName, value) :: after := by
  by_cases h : url.NoN
  · exact .inl h
  · unfold NoN at h
    push Not at h
    obtain ⟨⟨name, value⟩, hmem, rfl⟩ := h
    obtain ⟨before, after, hsplit⟩ := List.append_of_mem hmem
    exact .inr ⟨before, value, after, hsplit⟩

/-! ## Where the key is found -/

theorem eq_nName_of_starts {param : JsParam} (hname : 61 ∉ param.1)
    (h : nKey <+: renderParam param) : param.1 = nName := by
  obtain ⟨name, value⟩ := param
  cases name with
  | nil => exact absurd (List.cons_prefix_cons.mp h).1 (by decide)
  | cons first name =>
    obtain ⟨hfirst, h⟩ := List.cons_prefix_cons.mp h
    cases name with
    | nil => exact congrArg (fun ch ↦ [ch]) hfirst.symm
    | cons second name =>
      obtain ⟨hsecond, -⟩ := List.cons_prefix_cons.mp h
      exact absurd (by simp [hsecond]) hname

theorem renderParam_noAnd {url : MediaUrl} {param : JsParam} (h : param ∈ url.params) :
    38 ∉ renderParam param := by
  have hname := (url.names param h).2.1
  have hvalue := (url.values param h).1
  simp [renderParam, hname, hvalue]

/-- The key starts neither before the query nor in a query that has no parameter `n` behind its
first one. -/
theorem skips_query {url : MediaUrl} (hbase : ¬ andN <:+: 38 :: url.base) {first : JsParam}
    {params : List JsParam} (hmem : ∀ param ∈ first :: params, param ∈ url.params)
    (hnot : ∀ param ∈ params, param.1 ≠ nName) {rest : JsString}
    (hrest : ∀ ch ∈ rest.head?, ch ∉ nKey) :
    Skips andN (38 :: url.base ++ 63 :: [38].intercalate ((first :: params).map renderParam))
      rest := by
  have hquery : 63 :: [38].intercalate ((first :: params).map renderParam) =
      (63 :: renderParam first) ++ marked 38 (params.map renderParam) := by
    have hjoin := @intercalate_append_cons _ 38 [] (renderParam first) (params.map renderParam)
    rw [List.map_cons]
    exact congrArg (63 :: ·) hjoin
  have hkey : (38 : UInt16) ∉ nKey := by decide
  have hfirst : ¬ andN <:+: 63 :: renderParam first := fun hoccurs ↦ by
    obtain heq | hmemAnd := List.mem_cons.mp (hoccurs.subset (List.mem_cons_self : 38 ∈ andN))
    · exact absurd heq (by decide)
    · exact renderParam_noAnd (hmem first List.mem_cons_self) hmemAnd
  have hpieces (piece : JsString) (hpiece : piece ∈ params.map renderParam) :
      38 ∉ piece ∧ ¬ nKey <+: piece := by
    obtain ⟨param, hparam, rfl⟩ := List.mem_map.mp hpiece
    have hurl := hmem param (List.mem_cons_of_mem _ hparam)
    exact ⟨renderParam_noAnd hurl, fun hstarts ↦
      hnot param hparam (eq_nName_of_starts (url.names param hurl).1 hstarts)⟩
  rw [hquery]
  refine Skips.append (skips_of_head hbase ?_) (Skips.append (skips_of_head hfirst ?_) ?_)
  · intro ch hch
    obtain rfl : 63 = ch := by simpa using hch
    decide
  · intro ch hch
    obtain rfl | hlast := head?_marked_append hch
    · exact hkey
    · exact hrest ch hlast
  · exact skips_marked hkey hpieces hrest

/-- A key before the query is found there. -/
theorem indexOf_of_base {url : MediaUrl} (h : andN <:+: 38 :: url.base) :
    ∃ index, indexOf andN (38 :: url.text) = some index ∧ index + 2 ≤ url.base.length := by
  obtain ⟨front, back, hsplit⟩ := h
  have hlength := congrArg List.length hsplit
  have hthree : andN.length = 3 := rfl
  rw [List.length_append, List.length_append, List.length_cons, hthree] at hlength
  have hdrop : andN <+: (38 :: url.text).drop front.length := by
    rw [text, textWith, ← List.cons_append, ← hsplit, List.append_assoc, List.append_assoc,
      List.drop_left]
    exact List.prefix_append _ _
  obtain ⟨index, hle, hindex⟩ := exists_indexOf_of_prefix hdrop (by
    rw [text, textWith, ← List.cons_append, ← hsplit]
    simp)
  exact ⟨index, hindex, by omega⟩

/-- A parameter `n` behind another one is where the key is found. -/
theorem indexOf_of_split {url : MediaUrl} (hbase : ¬ andN <:+: 38 :: url.base)
    {before after : List JsParam} {value : JsString}
    (h : url.params = before ++ (nName, value) :: after) (hne : before ≠ []) :
    ∃ lead, 38 :: url.place before = lead ++ andN ∧
      indexOf andN (38 :: url.text) = some lead.length := by
  obtain ⟨first, before, rfl⟩ := List.exists_cons_of_ne_nil hne
  have hmem (param : JsParam) (hparam : param ∈ first :: before) : param ∈ url.params := by
    rw [h]
    exact List.mem_append_left _ hparam
  have hnot (param : JsParam) (hparam : param ∈ before) : param.1 ≠ nName :=
    (others_of_split h).1 param (List.mem_cons_of_mem _ hparam)
  have hrest : ∀ ch ∈ (andN ++ (value ++ url.behind after)).head?, ch ∉ nKey := by
    intro ch hch
    obtain rfl : 38 = ch := by simpa [andN] using hch
    decide
  have hskips := skips_query hbase hmem hnot hrest
  have hplace : 38 :: url.place (first :: before) =
      (38 :: url.base ++ 63 :: [38].intercalate ((first :: before).map renderParam)) ++ andN := by
    have hjoin := @marked_eq_cons_intercalate _ 38 ((first :: before).map renderParam) (by simp)
    have hlead (params : List JsParam) :
        38 :: (params.flatMap fun param ↦ renderParam param ++ [38]) =
          marked 38 (params.map renderParam) ++ [38] := by
      induction params with
      | nil => rfl
      | cons param params ih => simp [ih]
    have hinner : (first :: before).flatMap (fun param ↦ renderParam param ++ [38]) =
        [38].intercalate ((first :: before).map renderParam) ++ [38] := by
      have hcons := hlead (first :: before)
      rw [hjoin, List.cons_append] at hcons
      exact (List.cons.inj hcons).2
    rw [place, hinner]
    simp [andN]
  refine ⟨_, hplace, ?_⟩
  rw [text, h, textWith_append_cons, ← List.cons_append, hplace, List.append_assoc]
  exact indexOf_of_skips hskips

/-- Without a parameter `n`, the key is looked for in the fragment. -/
theorem indexOf_of_noN {url : MediaUrl} (hbase : ¬ andN <:+: 38 :: url.base) (h : url.NoN) :
    indexOf andN (38 :: url.text) = none ↔ ¬ andN <:+: url.fragment := by
  obtain ⟨first, params, hparams⟩ := List.exists_cons_of_ne_nil url.params_ne_nil
  have hrest : ∀ ch ∈ url.fragment.head?, ch ∉ nKey := by
    intro ch hch
    obtain hnil | ⟨text, hhash⟩ := url.fragment_hash
    · exact absurd hch (by simp [hnil])
    · obtain rfl : 35 = ch := by simpa [hhash] using hch
      decide
  have hskips := skips_query hbase (fun param hparam ↦ hparams ▸ hparam)
    (fun param hparam ↦ h param (hparams ▸ List.mem_cons_of_mem _ hparam)) hrest
  have htext : 38 :: url.text = (38 :: url.base ++
      63 :: [38].intercalate ((first :: params).map renderParam)) ++ url.fragment := by
    simp [text, textWith, hparams]
  rw [htext, indexOf_append_of_skips hskips, Option.map_eq_none_iff]
  exact indexOf_eq_none_iff

end MediaUrl

/-! ## The result -/

open MediaUrl

/-- Where the step replaces the value of `n` for every function, it does so in its place. -/
theorem located_of_rewrites {url : MediaUrl} {bytes : Bytes} (h : url.IsString bytes)
    (hrewrites : ∀ f, NulFree f →
      jsStep (sigJsFunc fun n ↦ some (f n)) bytes = toCString (url.rewrite f))
    {before after : List JsParam} {value : JsString}
    (hsplit : url.params = before ++ (nName, value) :: after) :
    ∃ lead back, 38 :: url.place before = lead ++ andN ∧
      indexOf andN (38 :: url.text) = some lead.length ∧ (∀ ch ∈ back.head?, ch = 38) ∧
      toCString back = toCString (url.behind after) := by
  have hlast (front : JsString) : ∀ c ∈ (front ++ nKey).getLast?, c < 128 := by
    intro c hc
    obtain rfl : 61 = c := by simpa [nKey] using hc
    decide
  have hplace : ∀ c ∈ (url.place before).getLast?, c < 128 := hlast _
  obtain ⟨-, hnone⟩ | ⟨lead, gap, found, back, hgap, htext, hindex, -, hback, hsome⟩ :=
    jsStep_cases h
  · have hconst (f : JsString → JsString) (hf : NulFree f) :
        toCString (url.place before ++ (f value ++ url.behind after)) = bytes := by
      rw [← rewrite_of_split hsplit f, ← hrewrites f hf, hnone]
    exact absurd hconst (not_forall_const hplace)
  · have hboth (f : JsString → JsString) (hf : NulFree f) :
        toCString ((gap ++ nKey) ++ (f found ++ back)) =
          toCString (url.place before ++ (f value ++ url.behind after)) := by
      rw [← hsome f hf, hrewrites f hf, rewrite_of_split hsplit f]
    obtain ⟨hfront, hbackBytes⟩ := place_unique (hlast gap) hplace hboth
    have hsame : url.text = url.place before ++ (value ++ url.behind after) := by
      rw [text, hsplit, textWith_append_cons]
    have hcut := front_unique (hlast gap) hplace (htext.symm.trans hsame) hfront
    refine ⟨lead, back, ?_, hindex, hback, hbackBytes⟩
    rw [← hcut, ← List.cons_append, hgap]
    simp [andN]

/-- Without a parameter `n`, nothing may be found. -/
theorem indexOf_of_rewrites {url : MediaUrl} {bytes : Bytes} (h : url.IsString bytes)
    (hrewrites : ∀ f, NulFree f →
      jsStep (sigJsFunc fun n ↦ some (f n)) bytes = toCString (url.rewrite f))
    (hnoN : url.NoN) : indexOf andN (38 :: url.text) = none := by
  obtain ⟨hindex, -⟩ | ⟨lead, gap, found, back, -, -, -, -, -, hsome⟩ := jsStep_cases h
  · exact hindex
  · have hlast : ∀ c ∈ (gap ++ nKey).getLast?, c < 128 := by
      intro c hc
      obtain rfl : 61 = c := by simpa [nKey] using hc
      decide
    have hconst (f : JsString → JsString) (hf : NulFree f) :
        toCString ((gap ++ nKey) ++ (f found ++ back)) = toCString url.text := by
      rw [← hsome f hf, hrewrites f hf, rewrite_of_noN hnoN]
    exact absurd hconst (not_forall_const hlast)

theorem MediaUrl.Rewritable.of_rewrites {url : MediaUrl} {bytes : Bytes} (h : url.IsString bytes)
    (hrewrites : ∀ f, NulFree f →
      jsStep (sigJsFunc fun n ↦ some (f n)) bytes = toCString (url.rewrite f)) :
    url.Rewritable := by
  have hbase : ¬ andN <:+: 38 :: url.base := by
    intro hoccurs
    obtain ⟨index, hindex, hle⟩ := indexOf_of_base hoccurs
    obtain hnoN | ⟨before, value, after, hsplit⟩ := url.noN_or_split
    · exact absurd (hindex.symm.trans (indexOf_of_rewrites h hrewrites hnoN)) nofun
    · obtain ⟨lead, -, hplace, hlead, -, -⟩ := located_of_rewrites h hrewrites hsplit
      obtain rfl := Option.some.inj (hindex.symm.trans hlead)
      -- the value stands behind the start of the query
      have hlength := congrArg List.length hplace
      simp [place, andN, nKey] at hlength
      omega
  refine ⟨hbase, fun hnoN ↦ ?_, fun before value after hsplit ↦ ⟨?_, ?_⟩⟩
  · exact (indexOf_of_noN hbase hnoN).mp (indexOf_of_rewrites h hrewrites hnoN)
  · rintro rfl
    obtain ⟨lead, -, hplace, -, -, -⟩ := located_of_rewrites h hrewrites hsplit
    have hshape : (38 :: url.base ++ [63]) ++ nKey = (lead ++ [38]) ++ nKey := by
      simpa [place, andN] using hplace
    have hlast := congrArg List.getLast? (List.append_cancel_right hshape)
    rw [List.getLast?_concat, List.getLast?_concat] at hlast
    exact absurd (Option.some.inj hlast) (by decide)
  · rintro rfl
    obtain ⟨lead, back, -, -, hback, hbytes⟩ := located_of_rewrites h hrewrites hsplit
    obtain hnil | ⟨text, hhash⟩ := url.fragment_hash
    · exact hnil
    · have hbehind : url.behind [] = 35 :: text := by simp [behind, hhash]
      rw [hbehind, toCString_cons_ascii (by decide)] at hbytes
      cases back with
      | nil => exact absurd hbytes (by simp)
      | cons head back =>
        obtain rfl := hback head rfl
        rw [toCString_cons_ascii (by decide)] at hbytes
        exact absurd (List.cons.inj hbytes).1 (by decide)

theorem MediaUrl.Rewritable.rewrites {url : MediaUrl} {bytes : Bytes} (h : url.IsString bytes)
    (hurl : url.Rewritable) (f : JsString → JsString) (hf : NulFree f) :
    jsStep (sigJsFunc fun n ↦ some (f n)) bytes = toCString (url.rewrite f) := by
  obtain hnoN | ⟨before, value, after, hsplit⟩ := url.noN_or_split
  · have hnone := (indexOf_of_noN hurl.base hnoN).mpr (hurl.absent hnoN)
    obtain ⟨-, hstep⟩ | ⟨lead, -, -, -, -, -, hindex, -⟩ := jsStep_cases h
    · rw [hstep, rewrite_of_noN hnoN, h.eq]
    · exact absurd (hnone.symm.trans hindex) nofun
  · obtain ⟨hne, hfragment⟩ := hurl.present before value after hsplit
    obtain ⟨lead, hplace, hindex⟩ := indexOf_of_split hurl.base hsplit hne
    obtain ⟨hnone, -⟩ | ⟨lead', gap, found, back, hgap, htext, hindex', hfound, hback, hstep⟩ :=
      jsStep_cases h
    · exact absurd (hnone.symm.trans hindex) nofun
    · have hsame : url.text = url.place before ++ (value ++ url.behind after) := by
        rw [text, hsplit, textWith_append_cons]
      have hcut : (38 :: (gap ++ nKey)) ++ (found ++ back) =
          (38 :: url.place before) ++ (value ++ url.behind after) :=
        congrArg (38 :: ·) (htext.symm.trans hsame)
      have hlength : (38 :: (gap ++ nKey)).length = (38 :: url.place before).length := by
        rw [hplace, ← List.cons_append, hgap]
        have heq := Option.some.inj (hindex'.symm.trans hindex)
        simp [andN, heq]
      obtain ⟨hfront, hrest⟩ := List.append_inj hcut hlength
      have hvalue : 38 ∉ value := (url.values (nName, value) (by simp [hsplit])).1
      have hbehind : ∀ ch ∈ (url.behind after).head?, ch = 38 := by
        intro ch hch
        obtain hmarked | hlast := head?_marked_append hch
        · exact hmarked
        · by_cases hnil : after = []
          · exact absurd hlast (by simp [hfragment hnil])
          · obtain ⟨first, after, rfl⟩ := List.exists_cons_of_ne_nil hnil
            simpa [behind, eq_comm] using hch
      obtain rfl := eq_of_append_marked hfound hvalue hback hbehind hrest
      rw [hstep f hf, rewrite_of_split hsplit f, (List.cons.inj hfront).2,
        List.append_cancel_left hrest]

/-- **The value of `n` is replaced and nothing else**, for every function, exactly when the URL is
rewritable. -/
theorem rewrites_iff {heap : ℕ → UInt8} {actions : List Entry}
    {formatCipher urlUntouched : Option (Object UInt8)} {object : Object UInt8}
    (hformat : formatUrl heap actions formatCipher urlUntouched = some (some object))
    {bytes : Bytes} (hobject : object.Holds bytes) {url : MediaUrl} (h : url.IsString bytes) :
    (∀ f, NulFree f →
      infoGetFormatUrl2 heap actions (sigJsFunc fun n ↦ some (f n)) formatCipher urlUntouched =
        some (some (toCString (url.rewrite f)))) ↔ url.Rewritable := by
  have hstep (func : JsString → Option JsString) :
      infoGetFormatUrl2 heap actions func formatCipher urlUntouched =
        some (some (jsStep func bytes)) := by
    simp only [infoGetFormatUrl2, hformat, cstr_of_holds hobject, Option.bind_eq_bind,
      Option.bind_some]
  simp only [hstep, Option.some.injEq]
  exact ⟨Rewritable.of_rewrites h, fun hurl f hf ↦ hurl.rewrites h f hf⟩

/-! ## URLs of one host -/

/-- ASCII characters as units. -/
def units (text : Bytes) : JsString := text.map UInt8.toUInt16

def host : JsString := units (ascii "https://r1.example/videoplayback")

/-- Parameters with `n` in the middle. -/
def laterN : List JsParam :=
  [(units (ascii "expire"), units (ascii "1")), (nName, units (ascii "abc")),
    (units (ascii "mime"), units (ascii "video"))]

/-- Parameters with `n` in front. -/
def firstN : List JsParam :=
  [(nName, units (ascii "abc")), (units (ascii "expire"), units (ascii "1"))]

/-- The URL of a plain format, as it stands in the response. -/
def untouched (params : List JsParam) : Bytes :=
  toCString (host ++ 63 :: [38].intercalate (params.map renderParam))

theorem exists_mediaUrl {params : List JsParam} (hne : params ≠ [])
    (hnames : ∀ param ∈ params, 61 ∉ param.1 ∧ 38 ∉ param.1 ∧ 35 ∉ param.1)
    (hvalues : ∀ param ∈ params, 38 ∉ param.2 ∧ 35 ∉ param.2)
    (hone : params.countP (·.1 = nName) ≤ 1)
    (hzero : 0 ∉ host ++ 63 :: [38].intercalate (params.map renderParam)) :
    ∃ url : MediaUrl, url.base = host ∧ url.params = params ∧ url.fragment = [] ∧
      url.IsString (untouched params) := by
  let url : MediaUrl :=
    ⟨host, params, [], by decide, hne, hnames, hvalues, hone, .inl rfl⟩
  have htext : url.text = host ++ 63 :: [38].intercalate (params.map renderParam) := by
    simp [url, MediaUrl.text, textWith]
  refine ⟨url, rfl, rfl, rfl, ⟨?_, ?_, ?_⟩⟩
  · rw [htext, untouched]
  · rw [untouched, ← htext]
    exact Sig.Utf8.newString_toCString _
  · rwa [htext]

/-- A plain format whose URL holds no escape. -/
def plainFormat (params : List JsParam) : Option (Object UInt8) := alloc (untouched params ++ [0])

set_option maxRecDepth 2000 in
/-- With `n` in the middle of the query, its value is replaced. -/
theorem rewrites_laterN :
    ∃ url : MediaUrl, url.base = host ∧ url.params = laterN ∧ url.fragment = [] ∧
      ∀ f, NulFree f →
        infoGetFormatUrl2 (fun _ ↦ 0) [] (sigJsFunc fun n ↦ some (f n)) none (plainFormat laterN) =
          some (some (toCString (url.rewrite f))) := by
  obtain ⟨url, hbase, hparams, hfragment, hstring⟩ : ∃ url : MediaUrl, url.base = host ∧
      url.params = laterN ∧ url.fragment = [] ∧ url.IsString (untouched laterN) :=
    exists_mediaUrl (by decide) (by decide) (by decide) (by decide)
      (by decide)
  have hcells : (formatUrl (fun _ ↦ 0) [] none (plainFormat laterN)).map (·.map Object.cells) =
      some (some (untouched laterN ++ [0])) := by
    decide
  obtain ⟨result, hformat, hresult⟩ := Option.map_eq_some_iff.mp hcells
  obtain ⟨object, rfl, hobject⟩ := Option.map_eq_some_iff.mp hresult
  have hholds : object.Holds (untouched laterN) := ⟨by decide, [], hobject⟩
  refine ⟨url, hbase, hparams, hfragment, (rewrites_iff hformat hholds hstring).mpr ⟨?_, ?_, ?_⟩⟩
  · rw [hbase]
    decide
  · intro _
    rw [hfragment]
    decide
  · intro before value after hsplit
    refine ⟨?_, fun _ ↦ hfragment⟩
    rintro rfl
    rw [hparams] at hsplit
    have hname : units (ascii "expire") = nName := congrArg Prod.fst (List.cons.inj hsplit).1
    exact absurd hname (by decide)

set_option maxRecDepth 2000 in
/-- With `n` in front, the function throws, and the URL is returned with the old value. -/
theorem firstN_not_rewrites :
    ∃ url : MediaUrl, url.base = host ∧ url.params = firstN ∧ url.fragment = [] ∧
      url.IsString (untouched firstN) ∧
      ¬ ∀ f, NulFree f →
        infoGetFormatUrl2 (fun _ ↦ 0) [] (sigJsFunc fun n ↦ some (f n)) none (plainFormat firstN) =
          some (some (toCString (url.rewrite f))) := by
  obtain ⟨url, hbase, hparams, hfragment, hstring⟩ : ∃ url : MediaUrl, url.base = host ∧
      url.params = firstN ∧ url.fragment = [] ∧ url.IsString (untouched firstN) :=
    exists_mediaUrl (by decide) (by decide) (by decide) (by decide)
      (by decide)
  refine ⟨url, hbase, hparams, hfragment, hstring, fun hrewrites ↦ ?_⟩
  have hresult := hrewrites (fun _ ↦ units (ascii "xyz")) fun _ ↦
    (by decide : (0 : UInt16) ∉ units (ascii "xyz"))
  have hsame : infoGetFormatUrl2 (fun _ ↦ 0) []
      (sigJsFunc fun n ↦ some ((fun _ ↦ units (ascii "xyz")) n)) none (plainFormat firstN) =
        some (some (untouched firstN)) := by
    decide
  rw [hsame, MediaUrl.rewrite, MediaUrl.textWith, hbase, hparams, hfragment] at hresult
  exact absurd hresult (by decide)

end LibYtdl.Info.NParameter
