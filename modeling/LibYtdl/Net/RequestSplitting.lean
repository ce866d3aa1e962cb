import LibYtdl.Dash.Manifest
import LibYtdl.Info.PageValues
import LibYtdl.Net.RequestHeads
import LibYtdl.Net.UrlFields

/-!
# Requests with text of a document

The path of a segment comes from an attribute of a manifest, the path of a player from a watch page.
Neither is looked at before it is put into the request line, where a line end or a space in it ends
the target. The host and the path of a base URL went through the URL parser, which lets neither
through.
-/

namespace LibYtdl.Net.RequestSplitting

open Machine Memory Search RequestHead Requests RequestHeads UrlParser Dash.Manifest
  Info.WatchPage Info.PlayerResponse Info.PageValues

/-- The buffer holds one request and nothing else, with the value in its target. -/
def OneRequest (buf : Buf) (value host : Bytes) : Prop :=
  ∃ target, value <:+: target ∧ parse buf.text = some (getHead target host [], [])

/-- What is part of a target does not end it. -/
theorem OneRequest.inPart {buf : Buf} {value host : Bytes} (h : OneRequest buf value host) :
    ∀ ch ∈ value, InPart ch := by
  obtain ⟨target, hvalue, hparse⟩ := h
  exact fun ch hch ↦ inPart_of_parse hparse ch (hvalue.subset hch)

/-- The characters that the parser takes for no URL. -/
theorem parseUrlChar_lineEnd {ch : UInt8} (h : ch = 32 ∨ ch = 13 ∨ ch = 10) (s : State) :
    parseUrlChar s ch = .dead := if_pos h

theorem plain_slice {url : Bytes} {u : HttpParserUrl} (h : UrlFields.parse url = some u)
    (uf : Field) : Plain (u.slice uf url) := by
  refine ⟨fun ch hch ↦ ⟨?_, ?_, ?_, ?_⟩,
    (UrlFields.slice_length_lt h uf).trans (by norm_num)⟩
  · rintro rfl
    exact UrlFields.notMem_slice UrlFields.parseUrlChar_zero h uf hch
  · rintro rfl
    exact UrlFields.notMem_slice (parseUrlChar_lineEnd (.inr (.inl rfl))) h uf hch
  · rintro rfl
    exact UrlFields.notMem_slice (parseUrlChar_lineEnd (.inr (.inr rfl))) h uf hch
  · rintro rfl
    exact UrlFields.notMem_slice (parseUrlChar_lineEnd (.inl rfl)) h uf hch

/-- A string is plain when none of its characters ends a target. -/
theorem plain_of_inPart {text : Bytes} (hzero : 0 ∉ text) (hlength : text.length < 2 ^ 31)
    (h : ∀ ch ∈ text, InPart ch) : Plain text := by
  refine ⟨fun ch hch ↦ ⟨fun heq ↦ hzero (heq ▸ hch), ?_⟩, hlength⟩
  obtain ⟨⟨hlf, hcr⟩, hspace⟩ := h ch hch
  exact ⟨hcr, hlf, hspace⟩

/-- The request for a segment of a base URL. -/
def segmentRequest (malloc : Malloc) (u : HttpParserUrl) (url value : Bytes) : Option Buf :=
  requestSegment malloc (u.slice .path url ++ [0]) (u.slice .path url).length (value ++ [0])
    value.length (u.slice .host url ++ [0]) (u.slice .host url).length

theorem segmentRequest_oneRequest (malloc : Malloc) {url value : Bytes} {u : HttpParserUrl}
    (h : UrlFields.parse url = some u) (hzero : 0 ∉ value) (hlength : value.length < 2 ^ 31) :
    ∃ buf, segmentRequest malloc u url value = some buf ∧
      (buf.base ≠ none → (OneRequest buf value (u.slice .host url) ↔ ∀ ch ∈ value, InPart ch)) := by
  have hpath := plain_slice h .path
  have hhost := plain_slice h .host
  by_cases hclean : ∀ ch ∈ value, InPart ch
  · obtain ⟨buf, hbuf, hholds⟩ := requestSegment_holds malloc hpath
      (plain_of_inPart hzero hlength hclean) hhost [0] [0] [0]
    refine ⟨buf, hbuf, fun hbase ↦ iff_of_true ?_ hclean⟩
    exact ⟨_, List.suffix_append _ _ |>.isInfix, (hholds hbase).parsed⟩
  · have htarget : 0 ∉ u.slice .path url ++ value :=
      List.not_mem_append hpath.zero_notMem hzero
    have hsize : 0 < 200 + (u.slice .path url).length + (u.slice .host url).length +
        value.length := by
      omega
    obtain ⟨buf, hbuf, -⟩ := printRequest_some malloc hsize
      (@zero_notMem_getHead _ _ [] htarget hhost.zero_notMem List.not_mem_nil)
    refine ⟨buf, ?_, fun _ ↦ iff_of_false (fun hone ↦ hclean hone.inPart) hclean⟩
    rw [← hbuf]
    exact requestSegment_eq malloc hpath hzero hlength hhost [0] [0] [0]

/-- A terminated string, and what stands behind it. -/
theorem stringText_eq_some {mem value : Bytes} (h : stringText mem = some value) :
    0 ∉ value ∧ ∃ past, mem = value ++ 0 :: past := by
  have hmem : 0 ∈ mem := by
    by_contra hnot
    rw [stringText, if_neg hnot] at h
    cases h
  obtain ⟨text, past, rfl, hzero⟩ := List.eq_append_cons_of_mem hmem
  rw [stringText_string hzero] at h
  obtain rfl := Option.some.inj h
  exact ⟨hzero, past, rfl⟩

theorem base_ne_none {malloc : Malloc} {size : ℕ} {text : Option Bytes} {buf : Buf}
    (hmalloc : malloc.alloc size ≠ none) (h : printRequest malloc size text = some buf) :
    buf.base ≠ none := by
  obtain ⟨base, hbase⟩ := Option.ne_none_iff_exists'.mp hmalloc
  rw [printRequest, bufAlloc, hbase] at h
  obtain ⟨text, -, h⟩ := Option.bind_eq_some_iff.mp h
  obtain ⟨written, -, h⟩ := Option.bind_eq_some_iff.mp h
  obtain ⟨len, -, h⟩ := Option.bind_eq_some_iff.mp h
  obtain rfl := Option.some.inj h
  exact Option.some_ne_none written

theorem requestPlayerJs_oneRequest (malloc : Malloc) (playerUrl : Vector UInt8 150)
    (hmalloc : malloc.alloc playerJsRequestSize ≠ none) :
    (∃ value ∈ stringText playerUrl.toList, ∃ buf ∈ requestPlayerJs malloc playerUrl.toList,
        OneRequest buf value youtubeHost) ↔
      ∃ value ∈ stringText playerUrl.toList, ∀ ch ∈ value, InPart ch := by
  refine ⟨fun ⟨value, hvalue, buf, _, hone⟩ ↦ ⟨value, hvalue, hone.inPart⟩, ?_⟩
  rintro ⟨value, hvalue, hclean⟩
  obtain ⟨hzero, past, hmem⟩ := stringText_eq_some hvalue
  have hlength : value.length < maxPlayerPath := by
    have htotal := congrArg List.length hmem
    rw [Vector.length_toList, List.length_append, List.length_cons] at htotal
    rw [maxPlayerPath]
    omega
  have hplain := plain_of_inPart hzero (hlength.trans (by decide)) hclean
  obtain ⟨buf, hbuf, hholds⟩ := requestPlayerJs_holds malloc hplain hlength past
  rw [← hmem] at hbuf
  have hbase := base_ne_none hmalloc hbuf
  exact ⟨value, hvalue, buf, hbuf, value, List.infix_rfl, (hholds hbase).parsed⟩

/-- **No request is split, unless by its text.** The bytes for a segment, and those for a player,
are one request exactly when what they take from the document has no line end and no space in it,
and is terminated. -/
theorem oneRequest_iff (malloc : Malloc) :
    (∀ (isVideo : Bool) (ctx next : DashCtx) (value url : Bytes) (u : HttpParserUrl),
        nextStreamSegment isVideo ctx = (some value, next) → 0 ∉ value →
        value.length < 2 ^ 31 → UrlFields.parse url = some u →
        ∃ buf, segmentRequest malloc u url value = some buf ∧
          (buf.base ≠ none →
            (OneRequest buf value (u.slice .host url) ↔ ∀ ch ∈ value, InPart ch))) ∧
      ∀ (Doc Val : Type) (yyjson : Yyjson Doc Val) (info next : InfoCtx Doc Val) (page : Bytes)
          (code : ℤ), infoExtractWatchHtml yyjson info page = some (code, next) →
        malloc.alloc playerJsRequestSize ≠ none →
        ((∃ value ∈ stringText next.playerUrl.toList,
            ∃ buf ∈ requestPlayerJs malloc next.playerUrl.toList,
              OneRequest buf value youtubeHost) ↔
          ∃ value ∈ stringText next.playerUrl.toList, ∀ ch ∈ value, InPart ch) :=
  ⟨fun _ _ _ _ _ _ _ hzero hlength hurl ↦ segmentRequest_oneRequest malloc hurl hzero hlength,
    fun _ _ _ _ next _ _ _ hmalloc ↦ requestPlayerJs_oneRequest malloc next.playerUrl hmalloc⟩

/-- A stream whose next segment has this attribute. -/
def streamOf (value : Bytes) : Stream :=
  { Stream.zeroed with segmentList := [.element segmentURL [(media, value)] []] }

def ctxOf (value : Bytes) : DashCtx := ⟨.zeroed, streamOf value⟩

def baseUrl : Bytes := ascii "https://r1.example/v/"

def plainSegment : Bytes := ascii "sq/1"

/-- The attribute `media="a&#13;&#10;X: y"`. -/
def splitSegment : Bytes := ascii "a\r\nX: y"

set_option maxRecDepth 2000 in
theorem oneRequest_iff_plain :
    (∃ u buf, UrlFields.parse baseUrl = some u ∧
        segmentRequest zeroMalloc u baseUrl plainSegment = some buf ∧
        (buf.base ≠ none → OneRequest buf plainSegment (u.slice .host baseUrl))) ∧
      ∃ next, infoExtractWatchHtml keepBytes keepInfo (valuesPage shortVersion playerPath) =
          some (0, next) ∧
        ∃ value ∈ stringText next.playerUrl.toList,
          ∃ buf ∈ requestPlayerJs zeroMalloc next.playerUrl.toList,
            OneRequest buf value youtubeHost := by
  have hparsed : (UrlFields.parse baseUrl).isSome = true := by decide
  obtain ⟨u, hu⟩ := Option.isSome_iff_exists.mp hparsed
  have hsegment : ∀ ch ∈ plainSegment, InPart ch := List.all_iff_forall_prop.mp (by decide)
  have hpath : ∀ ch ∈ playerPath, InPart ch := List.all_iff_forall_prop.mp (by decide)
  have hpage : (infoExtractWatchHtml keepBytes keepInfo (valuesPage shortVersion playerPath)).map
      (fun result ↦ (result.1, stringText result.2.playerUrl.toList)) =
        some (0, some playerPath) := by
    decide
  have hmalloc : zeroMalloc.alloc playerJsRequestSize ≠ none := by
    rw [← Option.isSome_iff_ne_none]
    decide
  obtain ⟨⟨code, next⟩, hresult, hpair⟩ := Option.map_eq_some_iff.mp hpage
  obtain ⟨rfl, hvalue⟩ := Prod.mk.inj hpair
  obtain ⟨buf, hbuf, hone⟩ := (oneRequest_iff zeroMalloc).1 true (ctxOf plainSegment) _
    plainSegment baseUrl u rfl (by decide) (by decide) hu
  exact ⟨⟨u, buf, hu, hbuf, fun hbase ↦ (hone hbase).mpr hsegment⟩, next, hresult,
    ((oneRequest_iff zeroMalloc).2 _ _ _ _ _ _ _ hresult hmalloc).mpr ⟨_, hvalue, hpath⟩⟩

set_option maxRecDepth 2000 in
/-- The request for this segment has a line of its own behind the request line. -/
theorem splitSegment_not_oneRequest :
    ∃ next u buf, nextStreamSegment true (ctxOf splitSegment) = (some splitSegment, next) ∧
      UrlFields.parse baseUrl = some u ∧
      segmentRequest zeroMalloc u baseUrl splitSegment = some buf ∧ buf.base ≠ none ∧
      ¬ OneRequest buf splitSegment (u.slice .host baseUrl) := by
  have hrun : ((UrlFields.parse baseUrl).bind fun u ↦
      segmentRequest zeroMalloc u baseUrl splitSegment).map (·.base.isSome) = some true := by
    decide
  obtain ⟨buf, hbuf, hbase⟩ := Option.map_eq_some_iff.mp hrun
  obtain ⟨u, hu, hbuf⟩ := Option.bind_eq_some_iff.mp hbuf
  refine ⟨_, u, buf, rfl, hu, hbuf, Option.isSome_iff_ne_none.mp hbase, fun hone ↦ ?_⟩
  exact absurd (hone.inPart 13 (by decide)) (by decide)

end LibYtdl.Net.RequestSplitting
