import LibYtdl.Foundation.Json
import LibYtdl.Info.WatchPage

/-!
# The player's response

The JSON text of the player's response ends where the script ends, or where the next variable is
declared, whichever comes first. Neither search knows of strings in the JSON text: a string that
contains the start of a declaration ends it too early.
-/

namespace LibYtdl.Info.PlayerResponse

open Machine Search WatchPage Json

variable {Doc Val : Type}

/-! ## Pages -/

/-- The initial data of a page: what stands between its marker and the end of the script. -/
def initialData (buf : Bytes) : Option Bytes := do
  let found ← findFrom buf 0 responseMarker
  let stop ← findFrom buf (found + 17) scriptEnd
  some ((buf.drop (found + 17)).take (stop - (found + 17)))

/-- A page with the player's response `json`. The text of a page ends at its first zero, if there is
one; the first marker of the response is followed by the JSON text and one of the two ends, and the
other end comes later. The markers of the other values are there. -/
structure ResponsePage (buf before json after : Bytes) : Prop where
  valid : Valid json
  noScript : ¬ ascii "</script>" <:+: json
  page : ∃ junk, buf = before ++ (playerResponseMarker ++ (json ++ after)) ++ junk ∧
    (junk = [] ∨ ∃ rest, junk = 0 :: rest)
  noZero : 0 ∉ before ∧ 0 ∉ after
  first : Skips playerResponseMarker before (playerResponseMarker ++ (json ++ after))
  ends : (scriptEnd <+: after ∧ varStart <:+: after) ∨ (varStart <+: after ∧ scriptEnd <:+: after)
  cver : (findFrom buf 0 cverMarker).isSome
  jsUrl : (findFrom buf 0 jsUrlMarker).isSome
  data : (initialData buf).isSome

/-- What is handed to the JSON reader is the JSON text, whatever the reader makes of it, as long as
it accepts the initial data. -/
def CutExactly (buf json : Bytes) : Prop :=
  ∀ (Doc Val : Type) (yyjson : Yyjson Doc Val) (info : InfoCtx Doc Val),
    (∀ data ∈ initialData buf, (yyjson.read data).isSome) →
      ∃ code next, infoExtractWatchHtml yyjson info buf = some (code, next) ∧
        next.initPrDoc = yyjson.read json

/-! ## The searches -/

/-- From an index of the text of a page on, the search sees the rest of the text. -/
theorem visible_of_text {buf front text junk : Bytes} (hbuf : buf = front ++ text ++ junk)
    (hzero : 0 ∉ text) (hjunk : junk = [] ∨ ∃ rest, junk = 0 :: rest) :
    visible buf front.length (buf.length - front.length) = text := by
  have hkeep (ch : UInt8) (hch : ch ∈ text) : decide (ch ≠ 0) = true :=
    decide_eq_true fun heq ↦ hzero (heq ▸ hch)
  have hlength : buf.length - front.length = (text ++ junk).length := by
    rw [hbuf, List.append_assoc, List.length_append, Nat.add_sub_cancel_left]
  have hend : junk.takeWhile (· ≠ 0) = [] := by
    obtain rfl | ⟨rest, rfl⟩ := hjunk
    · rfl
    · rw [List.takeWhile_cons_of_neg (by simp)]
  rw [visible, hlength, hbuf, List.append_assoc, List.drop_left, List.take_length,
    List.takeWhile_append_of_pos hkeep, hend, List.append_nil]

theorem findFrom_of_text {buf front text junk : Bytes} (hbuf : buf = front ++ text ++ junk)
    (hzero : 0 ∉ text) (hjunk : junk = [] ∨ ∃ rest, junk = 0 :: rest) (find : Bytes) :
    findFrom buf front.length find = (indexOf find text).map (front.length + ·) := by
  rw [findFrom, visible_of_text hbuf hzero hjunk]

/-- An end that does not occur in a JSON text does not start in it: no text ends like the start of
one of them. -/
theorem skips_json {json find : Bytes} (hvalid : Valid json) (hnot : ¬ find <:+: json)
    (hends : ∀ ch ∈ find.dropLast, ¬ Closes ch) (rest : Bytes) : Skips find json rest := by
  obtain ⟨last, hlast, hcloses⟩ := hvalid.closed
  apply skips_of_getLast hnot
  intro ch hch hmem
  obtain rfl := Option.some.inj (hlast.symm.trans hch)
  exact hends _ hmem hcloses

theorem scriptEnd_open : ∀ ch ∈ scriptEnd.dropLast, ¬ Closes ch :=
  List.all_iff_forall_prop.mp (by decide)

theorem varStart_open : ∀ ch ∈ varStart.dropLast, ¬ Closes ch :=
  List.all_iff_forall_prop.mp (by decide)

/-- Where the two ends are found behind the start of the JSON text. -/
theorem ResponsePage.ends_found {buf before json after : Bytes}
    (h : ResponsePage buf before json after) :
    ∃ script var, indexOf scriptEnd (json ++ after) = some script ∧
      indexOf varStart (json ++ after) = some var ∧
      ((json ++ after).take (min script var) = json ↔ ¬ varStart <:+: json) := by
  have hnoScript : ¬ scriptEnd <:+: json := fun hmem ↦
    h.noScript ((show ascii "</script>" <:+: scriptEnd by decide).trans hmem)
  have hscriptSkips := skips_json h.valid hnoScript scriptEnd_open after
  obtain ⟨late, hlate⟩ : ∃ index, indexOf scriptEnd after = some index := by
    obtain ⟨hstart, -⟩ | ⟨-, hmem⟩ := h.ends
    · exact ⟨0, indexOf_of_starts hstart⟩
    · exact exists_indexOf_of_infix hmem
  have hscript : indexOf scriptEnd (json ++ after) = some (late + json.length) := by
    rw [indexOf_append_of_skips hscriptSkips, hlate, Option.map_some]
  by_cases hvar : varStart <:+: json
  · obtain ⟨front, back, hsplit⟩ := hvar
    have hdrop : varStart <+: (json ++ after).drop front.length := by
      rw [← hsplit, List.append_assoc, List.append_assoc, List.drop_left]
      exact List.prefix_append _ _
    have hlength : front.length + varStart.length ≤ json.length := by
      rw [← hsplit, List.length_append, List.length_append]
      omega
    have hfive : varStart.length = 5 := by decide
    obtain ⟨index, hle, hindex⟩ := exists_indexOf_of_prefix hdrop (by simp; omega)
    refine ⟨_, index, hscript, hindex,
      iff_of_false (fun heq ↦ ?_) (not_not.mpr ⟨front, back, hsplit⟩)⟩
    have hshort := congrArg List.length heq
    rw [List.length_take, List.length_append] at hshort
    omega
  · have hvarSkips := skips_json h.valid hvar varStart_open after
    obtain ⟨lateVar, hlateVar⟩ : ∃ index, indexOf varStart after = some index := by
      obtain ⟨-, hmem⟩ | ⟨hstart, -⟩ := h.ends
      · exact exists_indexOf_of_infix hmem
      · exact ⟨0, indexOf_of_starts hstart⟩
    have hindex : indexOf varStart (json ++ after) = some (lateVar + json.length) := by
      rw [indexOf_append_of_skips hvarSkips, hlateVar, Option.map_some]
    have hmin : min (late + json.length) (lateVar + json.length) = json.length := by
      obtain ⟨hstart, -⟩ | ⟨hstart, -⟩ := h.ends
      · rw [indexOf_of_starts hstart, Option.some.injEq] at hlate
        omega
      · rw [indexOf_of_starts hstart, Option.some.injEq] at hlateVar
        omega
    refine ⟨_, _, hscript, hindex, iff_of_true ?_ hvar⟩
    rw [hmin, List.take_left]

/-! ## The cut -/

/-- What the extraction does behind the initial data. -/
theorem extractResponse_eq {buf data : Bytes} (hdata : initialData buf = some data)
    (yyjson : Yyjson Doc Val) (info : InfoCtx Doc Val) :
    extractResponse yyjson info buf =
      let doc := yyjson.read data
      let info := { info with initDDoc := doc, response := yyjson.docGetRoot doc }
      if doc.isNone then some (3, info) else extractPlayerResponse yyjson info buf := by
  obtain ⟨found, hfound, hdata⟩ := Option.bind_eq_some_iff.mp hdata
  obtain ⟨stop, hstop, hdata⟩ := Option.bind_eq_some_iff.mp hdata
  obtain rfl := Option.some.inj hdata
  have hle : found + 17 ≤ buf.length :=
    findFrom_add_length_le (show responseMarker ≠ [] by decide) (Nat.zero_le _) hfound
  unfold extractResponse
  rw [strnstr_start (by decide) (by decide), hfound, Option.bind_eq_bind, Option.bind_some]
  dsimp only
  rw [strnstr_eq (by decide) (by decide) hle, hstop, Option.bind_some]
  rfl

/-- The slice that is handed to the reader ends at the nearer of the two ends. -/
theorem ResponsePage.extractPlayerResponse_eq {buf before json after : Bytes}
    (h : ResponsePage buf before json after) {script var : ℕ}
    (hscript : indexOf scriptEnd (json ++ after) = some script)
    (hvar : indexOf varStart (json ++ after) = some var)
    (yyjson : Yyjson Doc Val) (info : InfoCtx Doc Val) :
    ∃ code next, extractPlayerResponse yyjson info buf = some (code, next) ∧
      next.initPrDoc = yyjson.read ((json ++ after).take (min script var)) := by
  obtain ⟨junk, hbuf, hjunk⟩ := h.page
  have hzero : 0 ∉ json ++ after := fun hmem ↦
    (List.mem_append.mp hmem).elim h.valid.noZero h.noZero.2
  have hmarkerZero : 0 ∉ playerResponseMarker := by decide
  have hpage : 0 ∉ before ++ (playerResponseMarker ++ (json ++ after)) := fun hmem ↦
    (List.mem_append.mp hmem).elim h.noZero.1 fun hmem ↦
      (List.mem_append.mp hmem).elim hmarkerZero hzero
  have hmarker : findFrom buf 0 playerResponseMarker = some before.length := by
    have hstart : buf = [] ++ (before ++ (playerResponseMarker ++ (json ++ after))) ++ junk := by
      rw [List.nil_append, hbuf]
    have htext := findFrom_of_text hstart hpage hjunk playerResponseMarker
    rw [List.length_nil] at htext
    rw [htext, indexOf_append_of_skips h.first, indexOf_of_starts (List.prefix_append _ _)]
    simp
  have hfront : buf = (before ++ playerResponseMarker) ++ (json ++ after) ++ junk := by
    rw [hbuf]
    simp only [List.append_assoc]
  have hlength : (before ++ playerResponseMarker).length = before.length + 27 := by
    rw [List.length_append]
    rfl
  have hstop (find : Bytes) : findFrom buf (before.length + 27) find =
      (indexOf find (json ++ after)).map (before.length + 27 + ·) := by
    rw [← hlength]
    exact findFrom_of_text hfront hzero hjunk find
  have hle : before.length + 27 ≤ buf.length := by
    rw [hfront, List.length_append, List.length_append, hlength]
    omega
  have hslice : readSlice yyjson buf (before.length + 27) (before.length + 27 + min script var) =
      yyjson.read ((json ++ after).take (min script var)) := by
    have hinside : min script var ≤ (json ++ after).length :=
      (min_le_left _ _).trans ((Nat.le_add_right _ _).trans
        (indexOf_add_length_le hscript (by decide)))
    rw [readSlice, Nat.add_sub_cancel_left, ← hlength, hfront, List.append_assoc _ _ junk,
      List.drop_left, List.take_append_of_le_length hinside]
  have hnearer : (if before.length + 27 + script < before.length + 27 + var then
      before.length + 27 + script else before.length + 27 + var) =
        before.length + 27 + min script var := by
    split <;> omega
  unfold extractPlayerResponse
  rw [strnstr_start (by decide) (by decide), hmarker, Option.bind_eq_bind, Option.bind_some]
  dsimp only
  rw [strnstr_eq (by decide) (by decide) hle, strnstr_eq (by decide) (by decide) hle, hstop, hstop,
    hscript, hvar]
  simp only [Option.map_some, Option.bind_some, hnearer, hslice]
  split
  · exact ⟨_, _, rfl, rfl⟩
  · exact ⟨_, _, rfl, rfl⟩

/-- What a run of the extraction hands to the reader, once both values were copied. -/
theorem ResponsePage.extract_eq {buf before json after : Bytes}
    (h : ResponsePage buf before json after) {script var : ℕ}
    (hscript : indexOf scriptEnd (json ++ after) = some script)
    (hvar : indexOf varStart (json ++ after) = some var)
    (hcver : ValueInside buf cverMarker 20) (hjsUrl : ValueInside buf jsUrlMarker 150)
    (yyjson : Yyjson Doc Val) (info : InfoCtx Doc Val)
    (hread : ∀ data ∈ initialData buf, (yyjson.read data).isSome) :
    ∃ code next, infoExtractWatchHtml yyjson info buf = some (code, next) ∧
      next.initPrDoc = yyjson.read ((json ++ after).take (min script var)) := by
  obtain ⟨cver, hcver⟩ : ∃ copied, copyValue buf ((findFrom buf 0 cverMarker).map (· + 23)) 20 0
      info.cver = some copied := (valueInside_iff (by decide)).mpr hcver
  obtain ⟨playerUrl, hjsUrl⟩ : ∃ copied, copyValue buf ((findFrom buf 0 jsUrlMarker).map (· + 9))
      150 0 info.playerUrl = some copied := (valueInside_iff (by decide)).mpr hjsUrl
  obtain ⟨data, hdata⟩ := Option.isSome_iff_exists.mp h.data
  have hsome : ¬ (yyjson.read data).isNone := by
    rw [Option.isNone_iff_eq_none]
    exact Option.isSome_iff_ne_none.mp (hread data hdata)
  obtain ⟨code, next, hresult, hdoc⟩ := h.extractPlayerResponse_eq hscript hvar yyjson
    { info with
      cver := cver, playerUrl := playerUrl, initDDoc := yyjson.read data,
      response := yyjson.docGetRoot (yyjson.read data) }
  refine ⟨code, next, ?_, hdoc⟩
  rw [infoExtractWatchHtml_eq]
  refine Option.bind_eq_some_iff.mpr ⟨cver, hcver,
    Option.bind_eq_some_iff.mpr ⟨playerUrl, hjsUrl, ?_⟩⟩
  rw [extractResponse_eq hdata]
  exact (if_neg hsome).trans hresult

/-- A reader whose documents are the bytes it was given. -/
def keepBytes : Yyjson Bytes Unit := ⟨some, fun _ ↦ none⟩

def keepInfo : InfoCtx Bytes Unit :=
  ⟨Vector.replicate 20 0, Vector.replicate 150 0, none, none, none, none⟩

/-! ## Pages with one description -/

/-- The text of a page before its first player's response. -/
def pageFront : Bytes :=
  ascii "\x7b\"key\":\"cver\",\"value\":\"2.0\"\x7d,\"jsUrl\":\"/s/base.js\"" ++
    ascii "<script>var ytInitialData = \x7b\x7d;</script><script>var"

/-- A response with nothing but the description of a video. -/
def describe (description : Bytes) : Bytes :=
  123 :: (quoted (ascii "shortDescription") ++ 58 :: (quoted description ++ [125]))

def pageEnd : Bytes := ascii ";var meta = 1;</script>"

def page (description : Bytes) : Bytes :=
  pageFront ++ (playerResponseMarker ++ (describe description ++ pageEnd))

/-- Printable characters make the body of a string. -/
theorem stringBody_of_printable {body : Bytes}
    (h : ∀ ch ∈ body, 32 ≤ ch ∧ ch ≠ 34 ∧ ch ≠ 92) : StringBody body := by
  induction body with
  | nil => exact .nil
  | cons ch body ih =>
    exact .char (h ch List.mem_cons_self) (ih fun ch hch ↦ h ch (List.mem_cons_of_mem _ hch))

theorem valid_describe {description : Bytes}
    (h : ∀ ch ∈ description, 32 ≤ ch ∧ ch ≠ 34 ∧ ch ≠ 92) : Valid (describe description) := by
  have hspace : Space [] := nofun
  have hkey : StringBody (ascii "shortDescription") :=
    stringBody_of_printable (List.all_iff_forall_prop.mp (by decide))
  have hmember := Derives.member hspace hkey hspace hspace
    (.string (stringBody_of_printable h)) hspace
  refine ⟨[], describe description, [], hspace, ?_, hspace, by simp⟩
  simpa [describe] using Derives.object hmember

/-- A page is one with a player's response, as far as can be computed. -/
theorem responsePage_page {description : Bytes}
    (hchars : ∀ ch ∈ description, 32 ≤ ch ∧ ch ≠ 34 ∧ ch ≠ 92)
    (hscript : ¬ ascii "</script>" <:+: describe description)
    (hfirst : indexOf playerResponseMarker (page description) = some pageFront.length)
    (hcver : (findFrom (page description) 0 cverMarker).isSome)
    (hjsUrl : (findFrom (page description) 0 jsUrlMarker).isSome)
    (hdata : (initialData (page description)).isSome) :
    ResponsePage (page description) pageFront (describe description) pageEnd where
  valid := valid_describe hchars
  noScript := hscript
  page := ⟨[], (List.append_nil _).symm, .inl rfl⟩
  noZero := by decide
  first := skips_of_indexOf hfirst
  ends := .inr ⟨by decide, by decide⟩
  cver := hcver
  jsUrl := hjsUrl
  data := hdata

/-! ## The result -/

/-- **The player's response is cut out exactly** when no string of it contains the start of a
declaration and neither of the two values before it leaves the page. -/
theorem cutExactly_iff {buf before json after : Bytes} (h : ResponsePage buf before json after) :
    CutExactly buf json ↔
      ValueInside buf cverMarker 20 ∧ ValueInside buf jsUrlMarker 150 ∧ ¬ varStart <:+: json := by
  obtain ⟨script, var, hscript, hvar, hcut⟩ := h.ends_found
  constructor
  · intro hexact
    obtain ⟨code, next, hresult, hdoc⟩ := hexact Bytes Unit keepBytes keepInfo fun _ _ ↦ rfl
    have hcopies := hresult
    rw [infoExtractWatchHtml_eq] at hcopies
    obtain ⟨cver, hcver, hcopies⟩ := Option.bind_eq_some_iff.mp hcopies
    obtain ⟨playerUrl, hjsUrl, -⟩ := Option.bind_eq_some_iff.mp hcopies
    have hcverInside := (valueInside_iff (by decide)).mp ⟨cver, hcver⟩
    have hjsUrlInside := (valueInside_iff (by decide)).mp ⟨playerUrl, hjsUrl⟩
    refine ⟨hcverInside, hjsUrlInside, hcut.mp ?_⟩
    obtain ⟨code', next', hresult', hdoc'⟩ :=
      h.extract_eq hscript hvar hcverInside hjsUrlInside keepBytes keepInfo fun _ _ ↦ rfl
    rw [hresult, Option.some.injEq, Prod.mk.injEq] at hresult'
    rw [← hresult'.2, hdoc] at hdoc'
    exact (Option.some.inj hdoc').symm
  · rintro ⟨hcver, hjsUrl, hnot⟩ Doc Val yyjson info hread
    obtain ⟨code, next, hresult, hdoc⟩ :=
      h.extract_eq hscript hvar hcver hjsUrl yyjson info hread
    rw [hcut.mpr hnot] at hdoc
    exact ⟨code, next, hresult, hdoc⟩

set_option maxRecDepth 2000 in
/-- A page whose description has no code. -/
theorem cutExactly_plainPage :
    ∃ before json after, ResponsePage (page (ascii "a video")) before json after ∧
      CutExactly (page (ascii "a video")) json := by
  have hpage : ResponsePage (page (ascii "a video")) pageFront (describe (ascii "a video"))
      pageEnd :=
    responsePage_page (List.all_iff_forall_prop.mp (by decide)) (by decide)
      (by decide) (by decide) (by decide) (by decide)
  refine ⟨pageFront, describe (ascii "a video"), pageEnd, hpage, (cutExactly_iff hpage).mpr ?_⟩
  exact ⟨⟨0, by decide, by decide⟩, ⟨29, by decide, by decide⟩,
    by decide⟩

/-- A description with a piece of code. -/
def codeDescription : Bytes := ascii "let a = 1;var b = 2"

set_option maxRecDepth 2000 in
/-- The start of a declaration in a description ends the JSON text: what is handed to the reader is
not one. -/
theorem codePage_not_cutExactly :
    ResponsePage (page codeDescription) pageFront (describe codeDescription) pageEnd ∧
      ¬ CutExactly (page codeDescription) (describe codeDescription) := by
  refine ⟨responsePage_page (List.all_iff_forall_prop.mp (by decide)) (by decide)
    (by decide) (by decide) (by decide) (by decide),
    fun hexact ↦ ?_⟩
  obtain ⟨code, next, hresult, hdoc⟩ := hexact Bytes Unit keepBytes keepInfo fun _ _ ↦ rfl
  have hcut : (infoExtractWatchHtml keepBytes keepInfo (page codeDescription)).map
      (fun result ↦ result.2.initPrDoc) =
        some (some (ascii "\x7b\"shortDescription\":\"let a = 1")) := by
    decide
  rw [hresult, Option.map_some, Option.some.injEq, hdoc] at hcut
  exact absurd hcut (by decide)

end LibYtdl.Info.PlayerResponse
