import LibYtdl.Net.RequestHeads

/-!
# The request for a player's data

`ytdl_net_request_innertube_player` posts a JSON object. The length that it announces is right, but
the constant of its buffer is smaller than the text of its header lines: the end of every object is
cut off.
-/

namespace LibYtdl.Net.Innertube

open Machine Search Decimal RequestHead Requests RequestHeads

def jsonStart : Bytes :=
  ascii "\x7b\"context\":\x7b\"client\":\x7b" ++
    (ascii "\"clientName\":\"WEB\"," ++ ascii "\"clientVersion\":\"")

def jsonMiddle : Bytes := ascii "\"\x7d\x7d,\"videoId\":\""

def jsonEnd : Bytes := ascii "\"\x7d"

/-- The object with the version of the client and the id of the video. -/
def jsonBody (id cver : Bytes) : Bytes :=
  jsonStart ++ (cver ++ (jsonMiddle ++ (id ++ jsonEnd)))

def innertubeTarget : Bytes :=
  ascii "/youtubei/v1/player" ++ (ascii "?key=AIzaSyAO_FJ2SlqU8Q4" ++ ascii "STEHLGCilw_Y9_11qcW8")

/-- The head that announces a body of this length. -/
def innertubeHead (contentLen : ℕ) : Head where
  method := ascii "GET"
  target := innertubeTarget
  fields :=
    [(ascii "Host", youtubeHost), (ascii "Connection", ascii "keep-alive"),
      (ascii "User-Agent", userAgent), (ascii "Accept", ascii "*/*"),
      (ascii "Content-Type", ascii "application/json"),
      (ascii "Content-Length", decimalText contentLen)]

/-- The buffer holds a whole message: as many bytes follow the head as it announces, and they are
the object. -/
structure Complete (buf : Buf) (id cver : Bytes) : Prop where
  announced : ∃ head body, parse buf.text = some (head, body) ∧
    (head.field (ascii "Content-Length")).bind parseDecimal = some body.length
  body : ∃ head, parse buf.text = some (head, jsonBody id cver)

theorem jsonBody_length (id cver : Bytes) :
    (jsonBody id cver).length = 75 + cver.length + id.length := by
  have hstart : jsonStart.length = 58 := by decide
  have hmiddle : jsonMiddle.length = 15 := by decide
  have hend : jsonEnd.length = 2 := by decide
  simp only [jsonBody, List.length_append, hstart, hmiddle, hend]
  omega

/-- What stands in the head before the digits of the length. -/
def headStart : Bytes :=
  ascii "GET " ++ (innertubeTarget ++ (ascii " HTTP/1.1\r\n" ++
    (ascii "Host: www.youtube.com\r\n" ++ (ascii "Connection: keep-alive\r\n" ++
      (ascii "User-Agent: " ++ (userAgent ++ (ascii "\r\n" ++ (ascii "Accept: */*\r\n" ++
        (ascii "Content-Type: application/json\r\n" ++ ascii "Content-Length: ")))))))))

set_option maxRecDepth 4000 in
theorem innertubeHead_text (contentLen : ℕ) :
    (innertubeHead contentLen).text =
      headStart ++ (decimalText contentLen ++ ascii "\r\n\r\n") := by
  simp only [Head.text, Head.requestLine, innertubeHead, headStart,
    List.map_cons, List.map_nil,
    List.flatMap_cons, List.flatMap_nil, List.append_assoc, List.cons_append, List.nil_append,
    fieldLine, version, youtubeHost]
  rfl

set_option maxRecDepth 2000 in
theorem innertubeHead_length (contentLen : ℕ) :
    (innertubeHead contentLen).text.length = 318 + (decimalText contentLen).length := by
  have hstart : headStart.length = 314 := by decide
  have hend : (ascii "\r\n\r\n").length = 4 := by decide
  rw [innertubeHead_text, List.length_append, List.length_append, hstart, hend]
  omega

theorem clean_innertubeHead (contentLen : ℕ) : Clean (innertubeHead contentLen) := by
  have hmethod : ∀ ch ∈ ascii "GET", InPart ch := List.all_iff_forall_prop.mp (by decide)
  have htarget : ∀ ch ∈ innertubeTarget, InPart ch := List.all_iff_forall_prop.mp (by decide)
  have hnames : ∀ field ∈ (innertubeHead contentLen).fields,
      field.1.all (fun ch ↦ InLine ch ∧ ch ≠ 58) = true := by
    simp only [innertubeHead, List.mem_cons, List.not_mem_nil, or_false, forall_eq_or_imp,
      forall_eq]
    decide
  have hvalues : ∀ value ∈ [youtubeHost, ascii "keep-alive", userAgent, ascii "*/*",
      ascii "application/json"], value.all (fun ch ↦ InLine ch) = true := by decide
  refine ⟨hmethod, htarget,
    fun field hfield ↦ List.all_iff_forall_prop.mp (hnames field hfield), fun field hfield ↦ ?_⟩
  simp only [innertubeHead, List.mem_cons, List.not_mem_nil, or_false] at hfield
  obtain rfl | rfl | rfl | rfl | rfl | rfl := hfield
  · exact List.all_iff_forall_prop.mp (hvalues _ (by simp))
  · exact List.all_iff_forall_prop.mp (hvalues _ (by simp))
  · exact List.all_iff_forall_prop.mp (hvalues _ (by simp))
  · exact List.all_iff_forall_prop.mp (hvalues _ (by simp))
  · exact List.all_iff_forall_prop.mp (hvalues _ (by simp))
  · exact fun ch hch ↦ inLine_of_isDigit (isDigit_of_mem hch)

theorem zero_notMem_message {id cver : Bytes} (hid : 0 ∉ id) (hcver : 0 ∉ cver) (contentLen : ℕ) :
    0 ∉ (innertubeHead contentLen).text ++ jsonBody id cver := by
  have hhead : 0 ∉ headStart := by decide
  have hdigits : 0 ∉ decimalText contentLen := fun hmem ↦
    absurd (isDigit_of_mem hmem) (by decide)
  have hend : 0 ∉ ascii "\r\n\r\n" := by decide
  have hjson : 0 ∉ jsonStart ∧ 0 ∉ jsonMiddle ∧ 0 ∉ jsonEnd := by decide
  rw [innertubeHead_text, jsonBody]
  simp only [List.mem_append, not_or]
  exact ⟨⟨hhead, hdigits, hend⟩, hjson.1, hcver, hjson.2.1, hid, hjson.2.2⟩

theorem findIdx?_string {text : Bytes} (h : 0 ∉ text) (past : Bytes) :
    (text ++ 0 :: past).findIdx? (· = 0) = some text.length := by
  have hnone : text.findIdx? (· = 0) = none := by
    rw [List.findIdx?_eq_none_iff]
    intro ch hch
    exact decide_eq_false fun heq ↦ h (heq ▸ hch)
  simp [List.findIdx?_append, List.findIdx?_cons, hnone]

/-- The request is printed into a buffer with 300 bytes for everything but the object. -/
theorem requestInnertubePlayer_eq (malloc : Malloc) {id cver : Bytes} (hid : 0 ∉ id)
    (hcver : 0 ∉ cver) (hlength : cver.length < 20) (pastId pastCver : Bytes) :
    requestInnertubePlayer malloc (id ++ 0 :: pastId) (cver ++ 0 :: pastCver) =
      printRequest malloc (386 + cver.length)
        (some ((innertubeHead (86 + cver.length)).text ++ jsonBody id cver)) := by
  have hlen : toInt (75 + idLen + cver.length) = (86 + cver.length : ℕ) := by
    rw [toInt_of_lt (by rw [idLen]; omega), idLen]
  have hsize : sizeT (300 + (86 + cver.length : ℕ)) = 386 + cver.length := by
    have hsum : (300 : ℤ) + (86 + cver.length : ℕ) = (386 + cver.length : ℕ) := by
      push_cast
      ring
    rw [hsum, sizeT_natCast (by omega)]
  rw [requestInnertubePlayer, findIdx?_string hcver, Option.bind_eq_bind, Option.bind_some]
  dsimp only
  rw [hlen, hsize, decimalInt_natCast, stringText_string hid, stringText_string hcver]
  simp only [Option.bind_eq_bind, Option.bind_some, List.append_assoc, innertubeHead_text,
    headStart, innertubeTarget, jsonBody, jsonStart]
  rfl

/-- **No request is complete.** For every id and every version that the page can give, the buffer
holds fewer bytes behind the head than the head announces. -/
theorem not_complete (malloc : Malloc) {id cver : Bytes} (hid : 0 ∉ id) (hcver : 0 ∉ cver)
    (hlength : cver.length < 20) (pastId pastCver : Bytes) :
    ∃ buf, requestInnertubePlayer malloc (id ++ 0 :: pastId) (cver ++ 0 :: pastCver) = some buf ∧
      (buf.base ≠ none → ¬ Complete buf id cver) := by
  set contentLen := 86 + cver.length with hcontentLen
  have hzero := zero_notMem_message hid hcver contentLen
  obtain ⟨buf, hbuf, hprinted⟩ :=
    printRequest_some malloc (show 0 < 386 + cver.length by omega) hzero
  refine ⟨buf, (requestInnertubePlayer_eq malloc hid hcver hlength _ _).trans hbuf,
    fun hbase hcomplete ↦ ?_⟩
  have hdigits : (decimalText contentLen).length ≤ 3 :=
    decimalText_length_le (by norm_num) (by omega)
  have hhead := innertubeHead_length contentLen
  have hbody := jsonBody_length id cver
  have htext : buf.text = (innertubeHead contentLen).text ++
      (jsonBody id cver).take (386 + cver.length - 1 - (innertubeHead contentLen).text.length) := by
    rw [(hprinted hbase).text, List.take_append, List.take_of_length_le (by omega)]
  obtain ⟨head, body, hparsed, hannounced⟩ := hcomplete.announced
  rw [htext, parse_text (clean_innertubeHead contentLen)] at hparsed
  obtain ⟨rfl, rfl⟩ := Prod.mk.inj (Option.some.inj hparsed)
  have hfield : (innertubeHead contentLen).field (ascii "Content-Length") =
      some (decimalText contentLen) := rfl
  rw [hfield, Option.bind_some, parseDecimal_decimalText, Option.some.injEq, List.length_take]
    at hannounced
  have hpositive := List.length_pos_iff.mpr (decimalText_ne_nil contentLen)
  omega

def videoId : Bytes := ascii "dQw4w9WgXcQ"

def clientVersion : Bytes := ascii "2.20210811.00.00"

theorem not_complete_version :
    ∃ buf, requestInnertubePlayer zeroMalloc (videoId ++ 0 :: []) (clientVersion ++ 0 :: []) =
        some buf ∧
      (buf.base ≠ none → ¬ Complete buf videoId clientVersion) :=
  not_complete zeroMalloc (by decide) (by decide) (by decide) [] []

set_option maxRecDepth 2000 in
/-- The head announces 102 bytes, and 80 follow it. -/
theorem announced_102 :
    ∃ buf, requestInnertubePlayer zeroMalloc (videoId ++ [0]) (clientVersion ++ [0]) = some buf ∧
      buf.base ≠ none ∧ ¬ Complete buf videoId clientVersion := by
  have hrun : (requestInnertubePlayer zeroMalloc (videoId ++ [0]) (clientVersion ++ [0])).map
      (fun buf ↦ (buf.base.isSome, (parse buf.text).map fun result ↦
        ((result.1.field (ascii "Content-Length")).bind parseDecimal, result.2.length))) =
        some (true, some (some 102, 80)) := by
    decide
  obtain ⟨buf, hbuf, hresult⟩ := Option.map_eq_some_iff.mp hrun
  obtain ⟨hbase, hparse⟩ := Prod.mk.inj hresult
  refine ⟨buf, hbuf, Option.isSome_iff_ne_none.mp hbase, fun hcomplete ↦ ?_⟩
  obtain ⟨head, body, hparsed, hannounced⟩ := hcomplete.announced
  rw [hparsed, Option.map_some, Option.some.injEq, Prod.mk.injEq, hannounced] at hparse
  have hannounced : body.length = 102 := Option.some.inj hparse.1
  have hfollowing : body.length = 80 := hparse.2
  omega

end LibYtdl.Net.Innertube
