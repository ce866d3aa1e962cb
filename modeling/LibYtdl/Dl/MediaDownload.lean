import LibYtdl.Foundation.Machine
import LibYtdl.Foundation.Transition

/-!
# The media download

A `ytdl_dl_media_ctx_t` together with what surrounds it: the connection, the requests that wait for
an answer, the response that the parser is in, and the user of the download. The events are the
callbacks that the parser and libuv make, in the order that llhttp keeps: status complete, header
field and value, body fragments, message complete.

The trace records, in order, what the download did: the requests written, the calls of the user's
callbacks and the handling of the connection. It also records which request each status and each
message end answered.
-/

namespace LibYtdl.Dl.MediaDownload

open Machine Transition

/-- `YTDL_DL_CHUNK_SIZE`. -/
def chunkSize : ℕ := 1024 * 128

/-- The two values of `parser_settings.on_message_complete`. -/
inductive MessageComplete
  | chunkComplete
  | chunkFinalComplete
  deriving DecidableEq, Repr

/-- `ytdl_dl_media_ctx_t`, with the handlers of its parser that change. The callbacks of the user
are kept as whether they are set; `Url` is what `http_parser_parse_url` finds. -/
structure Ctx (Url : Type) where
  url : Url
  formatUrl : Bytes
  formatContentLength : ℤ
  onData : Bool
  onComplete : Bool
  onChunkComplete : Bool
  pauseBetweenChunks : Bool
  isChunked : Bool
  wantRedirect : Bool
  redirectWasLocation : Bool
  lastChunkEnd : ℕ
  onHeaderField : Bool
  onHeaderValue : Bool
  onMessageComplete : MessageComplete

/-- The requests of `ytdl_net_request_media` and `ytdl_net_request_media_chunk`. An end of zero
asks for everything from the start on. -/
inductive Request (Url : Type)
  | media (formatUrl : Bytes) (url : Url)
  | mediaChunk (formatUrl : Bytes) (url : Url) (startIdx endIdx : ℕ)
  deriving DecidableEq

inductive Effect (Url : Type)
  | request (request : Request Url)
  | status (request : Request Url) (statusCode : ℕ)
  | data (statusCode : ℕ) (fragment : Bytes)
  | answered (request : Request Url)
  | chunkComplete
  | complete
  | shutdown
  | connect
  deriving DecidableEq

inductive Connection
  | connecting
  | up
  | closing
  | down
  deriving DecidableEq, Repr

/-- Where the parser stands: between messages, or in the answer to a request. -/
inductive Parser (Url : Type)
  | start
  | message (request : Request Url) (statusCode : ℕ) (received : Bytes) (inBody : Bool)
  deriving DecidableEq

/-- `owed` says that a chunk ended while paused and the user did not ask for the next one yet. -/
structure Download (Url : Type) where
  ctx : Ctx Url
  connection : Connection
  pending : List (Request Url)
  parser : Parser Url
  owed : Bool
  trace : List (Effect Url)

variable {Url : Type}

def Download.emit (download : Download Url) (effect : Effect Url) : Download Url :=
  { download with trace := download.trace ++ [effect] }

/-- `ytdl_http_client_write`. Once the connection is shut down, nothing takes the request out of
the write queue any more. -/
def Download.write (download : Download Url) (request : Request Url) : Download Url :=
  { download with
    pending :=
      if download.connection = .connecting ∨ download.connection = .up then
        download.pending ++ [request]
      else
        download.pending
    trace := download.trace ++ [.request request] }

/-! ## The callbacks of `dl.c` -/

/-- `ytdl_dl_media_ctx_next_chunk`. The sums are of type `size_t`, and the content length is
converted to it for the comparison. -/
def mediaCtxNextChunk (download : Download Url) : Download Url :=
  let ctx := download.ctx
  if (ctx.lastChunkEnd + chunkSize) % 2 ^ 64 ≥ sizeT ctx.formatContentLength then
    { download with ctx := { ctx with onMessageComplete := .chunkFinalComplete } }.write
      (.mediaChunk ctx.formatUrl ctx.url ((ctx.lastChunkEnd + 1) % 2 ^ 64) 0)
  else
    { download with
      ctx := { ctx with lastChunkEnd := (ctx.lastChunkEnd + chunkSize) % 2 ^ 64 } }.write
      (.mediaChunk ctx.formatUrl ctx.url ((ctx.lastChunkEnd + 1) % 2 ^ 64)
        ((ctx.lastChunkEnd + chunkSize) % 2 ^ 64))

/-- `ytdl__media_echo_cb`. -/
def mediaEchoCb (statusCode : ℕ) (fragment : Bytes) (download : Download Url) : Download Url :=
  if download.ctx.onData then download.emit (.data statusCode fragment) else download

/-- `ytdl__media_chunk_final_complete_cb`. -/
def mediaChunkFinalCompleteCb (download : Download Url) : Download Url :=
  if download.ctx.onComplete then download.emit .complete else download

/-- The user's `on_chunk_complete`: it leaves `pause_between_chunks` at `pause`, and `asks` says
whether it calls `ytdl_dl_media_ctx_next_chunk`. -/
def userChunkComplete (pause asks : Bool) (download : Download Url) : Download Url :=
  let download := download.emit .chunkComplete
  let download :=
    { download with
      ctx := { download.ctx with pauseBetweenChunks := pause }
      owed := pause && !asks }
  if asks then mediaCtxNextChunk download else download

/-- `ytdl__media_chunk_complete_cb`. -/
def mediaChunkCompleteCb (pause asks : Bool) (download : Download Url) : Download Url :=
  if download.ctx.isChunked then
    let download :=
      if download.ctx.onChunkComplete then
        userChunkComplete pause asks download
      else
        { download with owed := download.ctx.pauseBetweenChunks }
    if !download.ctx.pauseBetweenChunks then mediaCtxNextChunk download else download
  else if download.ctx.onComplete then
    download.emit .complete
  else
    download

/-- The string `location`. -/
def locationName : Bytes := [108, 111, 99, 97, 116, 105, 111, 110]

def toLower (char : UInt8) : UInt8 := if 65 ≤ char ∧ char ≤ 90 then char + 32 else char

/-- `!strncasecmp(at, "location", length)`, for a header name without a zero: only the first
`length` characters are compared. -/
def isLocation (fragment : Bytes) : Bool := (fragment.map toLower).isPrefixOf locationName

/-- `ytdl__media_header_field_cb`. -/
def mediaHeaderFieldCb (fragment : Bytes) (download : Download Url) : Download Url :=
  if download.ctx.wantRedirect ∧ isLocation fragment then
    { download with
      ctx := { download.ctx with redirectWasLocation := true, onHeaderValue := true } }
  else
    download

/-- `ytdl__media_header_value_cb`. -/
def mediaHeaderValueCb (fragment : Bytes) (download : Download Url) : Download Url :=
  if download.ctx.redirectWasLocation then
    { download with
      ctx :=
        { download.ctx with
          formatUrl := fragment
          onHeaderField := false
          onHeaderValue := false
          wantRedirect := false
          redirectWasLocation := false }
      connection := .closing
      trace := download.trace ++ [.shutdown] }
  else
    download

def isRedirect (statusCode : ℕ) : Bool := statusCode = 301 ∨ statusCode = 302

/-- `ytdl__media_status_cb`, with its return value. -/
def mediaStatusCb (statusCode : ℕ) (download : Download Url) : ℤ × Download Url :=
  if isRedirect statusCode then
    (0, { download with
          ctx := { download.ctx with wantRedirect := true, onHeaderField := true } })
  else if statusCode ≠ 200 then
    (1, download)
  else
    (0, download)

/-- `ytdl__media_connected_cb`. Both operands of the comparison are signed. -/
def mediaConnectedCb (download : Download Url) : Download Url :=
  let ctx := download.ctx
  if ctx.isChunked then
    if (chunkSize : ℤ) ≥ ctx.formatContentLength then
      { download with ctx := { ctx with onMessageComplete := .chunkFinalComplete } }.write
        (.mediaChunk ctx.formatUrl ctx.url 0 0)
    else
      { download with ctx := { ctx with lastChunkEnd := chunkSize } }.write
        (.mediaChunk ctx.formatUrl ctx.url 0 chunkSize)
  else
    download.write (.media ctx.formatUrl ctx.url)

/-- `ytdl_dl_media_ctx_connect`. -/
def mediaCtxConnect (download : Download Url) : Download Url :=
  { download with connection := .connecting, trace := download.trace ++ [.connect] }

/-- `ytdl__media_close_redirect_cb`. The client starts over with a new parser and an empty write
queue; without a URL to connect to, nothing happens any more. -/
def mediaCloseRedirectCb (parseUrl : Bytes → Option Url) (download : Download Url) :
    Download Url :=
  let download :=
    { download with
      ctx :=
        { download.ctx with
          onHeaderField := false
          onHeaderValue := false
          onMessageComplete := .chunkComplete }
      connection := .down
      pending := []
      parser := .start }
  match parseUrl download.ctx.formatUrl with
  | none => download
  | some url => mediaCtxConnect { download with ctx := { download.ctx with url := url } }

/-- What `ytdl_dl_media_ctx_init` reads of a format. -/
structure Format where
  hasAud : Bool
  hasVid : Bool
  contentLength : ℤ

/-- `ytdl_dl_media_ctx_init`, in the memory `mem` that the user provides: the user's callbacks,
the redirect flags and the end of the last chunk keep what they are there. -/
def mediaCtxInit (parseUrl : Bytes → Option Url) (mem : Ctx Url) (format : Format)
    (formatUrl : Bytes) : Option (Ctx Url) :=
  (parseUrl formatUrl).map fun url ↦
    { mem with
      url := url
      formatUrl := formatUrl
      formatContentLength := format.contentLength
      pauseBetweenChunks := false
      isChunked := !format.hasAud || !format.hasVid
      onHeaderField := false
      onHeaderValue := false
      onMessageComplete := .chunkComplete }

/-- Memory of zeros in which the user has set `on_data` and `on_complete`. -/
def Ctx.zeroed (url : Url) : Ctx Url where
  url := url
  formatUrl := []
  formatContentLength := 0
  onData := true
  onComplete := true
  onChunkComplete := false
  pauseBetweenChunks := false
  isChunked := false
  wantRedirect := false
  redirectWasLocation := false
  lastChunkEnd := 0
  onHeaderField := false
  onHeaderValue := false
  onMessageComplete := .chunkComplete

/-! ## The parser and the event loop -/

/-- The switch of llhttp on the value of `on_status_complete`. It has a default case only, so the
parser goes on to the headers whatever the callback returned. -/
def onStatusComplete (_value : ℤ) (request : Request Url) (statusCode : ℕ) : Parser Url :=
  .message request statusCode [] false

inductive Event
  | connected
  | statusComplete (statusCode : ℕ)
  | headerField (fragment : Bytes)
  | headerValue (fragment : Bytes)
  | body (fragment : Bytes)
  | messageComplete (pause asks : Bool)
  | closed
  | nextChunk
  | setPause (pause : Bool)
  deriving DecidableEq

/-- The status line of the answer to `request`. -/
def statusEvent (request : Request Url) (statusCode : ℕ) (download : Download Url) :
    Download Url :=
  let (value, download) :=
    mediaStatusCb statusCode (download.emit (.status request statusCode))
  { download with parser := onStatusComplete value request statusCode }

def bodyEvent (request : Request Url) (statusCode : ℕ) (received fragment : Bytes)
    (download : Download Url) : Download Url :=
  mediaEchoCb statusCode fragment
    { download with parser := .message request statusCode (received ++ fragment) true }

/-- The parser leaves the answer to `request`. -/
def answerEnded (request : Request Url) (download : Download Url) : Download Url :=
  { download.emit (.answered request) with parser := .start }

/-- The call of `parser_settings.on_message_complete`. -/
def messageCompleteCb (pause asks : Bool) (download : Download Url) : Download Url :=
  match download.ctx.onMessageComplete with
  | .chunkComplete => mediaChunkCompleteCb pause asks download
  | .chunkFinalComplete => mediaChunkFinalCompleteCb download

/-- The end of the answer to `request`. -/
def messageEvent (request : Request Url) (pause asks : Bool) (download : Download Url) :
    Download Url :=
  messageCompleteCb pause asks (answerEnded request download)

/-- A message that began before a shutdown may go on until the connection has closed: what was read
is still parsed. -/
def step (parseUrl : Bytes → Option Url) : Step (Download Url) Event
  | download, .connected =>
    if download.connection = .connecting then
      some (mediaConnectedCb { download with connection := .up })
    else
      none
  | download, .statusComplete statusCode =>
    match download.connection, download.parser, download.pending with
    | .up, .start, request :: pending | .closing, .start, request :: pending =>
      some (statusEvent request statusCode { download with pending := pending })
    | _, _, _ => none
  | download, .headerField fragment =>
    match download.parser with
    | .message _ _ _ false =>
      some (if download.ctx.onHeaderField then mediaHeaderFieldCb fragment download else download)
    | _ => none
  | download, .headerValue fragment =>
    match download.parser with
    | .message _ _ _ false =>
      some (if download.ctx.onHeaderValue then mediaHeaderValueCb fragment download else download)
    | _ => none
  | download, .body fragment =>
    match download.parser with
    | .message request statusCode received _ =>
      some (bodyEvent request statusCode received fragment download)
    | .start => none
  | download, .messageComplete pause asks =>
    match download.parser with
    | .message request _ _ _ => some (messageEvent request pause asks download)
    | .start => none
  | download, .closed =>
    if download.connection = .closing then some (mediaCloseRedirectCb parseUrl download) else none
  | download, .nextChunk => some (mediaCtxNextChunk { download with owed := false })
  | download, .setPause pause =>
    some { download with ctx := { download.ctx with pauseBetweenChunks := pause } }

attribute [local simp] step

/-- After `ytdl_dl_media_ctx_init` and `ytdl_dl_media_ctx_connect`. -/
def Download.ready (ctx : Ctx Url) : Download Url where
  ctx := ctx
  connection := .connecting
  pending := []
  parser := .start
  owed := false
  trace := []

/-! ## What an event can do -/

section Events

variable {parseUrl : Bytes → Option Url} {download next : Download Url}

theorem step_connected (h : step parseUrl download .connected = some next) :
    download.connection = .connecting ∧
      next = mediaConnectedCb { download with connection := .up } := by
  simpa [eq_comm] using h

theorem step_statusComplete {statusCode : ℕ}
    (h : step parseUrl download (.statusComplete statusCode) = some next) :
    ∃ request pending, download.pending = request :: pending ∧ download.parser = .start ∧
      (download.connection = .up ∨ download.connection = .closing) ∧
      next = statusEvent request statusCode { download with pending := pending } := by
  simp only [step] at h
  split at h
  case h_1 request pending hconnection hparser hpending =>
    exact ⟨request, pending, hpending, hparser, .inl hconnection, (Option.some.inj h).symm⟩
  case h_2 request pending hconnection hparser hpending =>
    exact ⟨request, pending, hpending, hparser, .inr hconnection, (Option.some.inj h).symm⟩
  case h_3 => simp at h

theorem step_headerField {fragment : Bytes}
    (h : step parseUrl download (.headerField fragment) = some next) :
    ∃ request statusCode received, download.parser = .message request statusCode received false ∧
      next =
        if download.ctx.onHeaderField then mediaHeaderFieldCb fragment download else download := by
  simp only [step] at h
  split at h
  case h_1 request statusCode received hparser =>
    exact ⟨request, statusCode, received, hparser, (Option.some.inj h).symm⟩
  case h_2 => simp at h

theorem step_headerValue {fragment : Bytes}
    (h : step parseUrl download (.headerValue fragment) = some next) :
    ∃ request statusCode received, download.parser = .message request statusCode received false ∧
      next =
        if download.ctx.onHeaderValue then mediaHeaderValueCb fragment download else download := by
  simp only [step] at h
  split at h
  case h_1 request statusCode received hparser =>
    exact ⟨request, statusCode, received, hparser, (Option.some.inj h).symm⟩
  case h_2 => simp at h

theorem step_body {fragment : Bytes} (h : step parseUrl download (.body fragment) = some next) :
    ∃ request statusCode received inBody,
      download.parser = .message request statusCode received inBody ∧
      next = bodyEvent request statusCode received fragment download := by
  simp only [step] at h
  split at h
  case h_1 request statusCode received inBody hparser =>
    exact ⟨request, statusCode, received, inBody, hparser, (Option.some.inj h).symm⟩
  case h_2 => simp at h

theorem step_messageComplete {pause asks : Bool}
    (h : step parseUrl download (.messageComplete pause asks) = some next) :
    ∃ request statusCode received inBody,
      download.parser = .message request statusCode received inBody ∧
      next = messageEvent request pause asks download := by
  simp only [step] at h
  split at h
  case h_1 request statusCode received inBody hparser =>
    exact ⟨request, statusCode, received, inBody, hparser, (Option.some.inj h).symm⟩
  case h_2 => simp at h

theorem step_closed (h : step parseUrl download .closed = some next) :
    download.connection = .closing ∧ next = mediaCloseRedirectCb parseUrl download := by
  simpa [eq_comm] using h

theorem step_nextChunk (h : step parseUrl download .nextChunk = some next) :
    next = mediaCtxNextChunk { download with owed := false } :=
  (Option.some.inj h).symm

theorem step_setPause {pause : Bool} (h : step parseUrl download (.setPause pause) = some next) :
    next = { download with ctx := { download.ctx with pauseBetweenChunks := pause } } :=
  (Option.some.inj h).symm

/-- The status line of an answer that is no redirect changes nothing but the parser: the value of
the status callback is not looked at. -/
theorem statusEvent_of_not_redirect {statusCode : ℕ} (h : isRedirect statusCode = false)
    (request : Request Url) :
    statusEvent request statusCode download =
      { download with
        parser := .message request statusCode [] false
        trace := download.trace ++ [.status request statusCode] } := by
  simp only [statusEvent, mediaStatusCb, h]
  by_cases hok : statusCode ≠ 200
  · simp [hok, onStatusComplete, Download.emit]
  · simp [hok, onStatusComplete, Download.emit]

theorem bodyEvent_eq (request : Request Url) (statusCode : ℕ) (received fragment : Bytes) :
    bodyEvent request statusCode received fragment download =
      { download with
        parser := .message request statusCode (received ++ fragment) true
        trace :=
          download.trace ++ if download.ctx.onData then [.data statusCode fragment] else [] } := by
  cases hdata : download.ctx.onData <;>
    simp [bodyEvent, mediaEchoCb, hdata, Download.emit]

end Events

/-! ## Reading a trace -/

/-- The requests written so far. -/
def sent (trace : List (Effect Url)) : List (Request Url) :=
  trace.filterMap fun
    | .request request => some request
    | _ => none

/-- The requests whose answers have ended. -/
def answered (trace : List (Effect Url)) : List (Request Url) :=
  trace.filterMap fun
    | .answered request => some request
    | _ => none

/-- The bytes passed to `on_data` so far. -/
def delivered (trace : List (Effect Url)) : Bytes :=
  trace.flatMap fun
    | .data _ fragment => fragment
    | _ => []

/-- How often `on_complete` was called. -/
def completions (trace : List (Effect Url)) : ℕ :=
  trace.countP fun
    | .complete => true
    | _ => false

/-- The request that the parser reads the answer to. -/
def Parser.current : Parser Url → List (Request Url)
  | .start => []
  | .message request _ _ _ => [request]

/-- The status is a success: 200, or 206 for a request with a range. -/
def isSuccess : Request Url → ℕ → Bool
  | .media .., statusCode => statusCode = 200
  | .mediaChunk .., statusCode => statusCode = 200 ∨ statusCode = 206

/-- The requests that wait for an answer or for the rest of it. -/
def Download.outstanding (download : Download Url) : List (Request Url) :=
  download.parser.current ++ download.pending

/-- The byte positions a request names; an end of zero leaves them open. -/
def Request.range : Request Url → Option (ℕ × ℕ)
  | .media .. => none
  | .mediaChunk _ _ startIdx endIdx => some (startIdx, endIdx)

@[simp] theorem sent_append (first second : List (Effect Url)) :
    sent (first ++ second) = sent first ++ sent second :=
  List.filterMap_append

@[simp] theorem answered_append (first second : List (Effect Url)) :
    answered (first ++ second) = answered first ++ answered second :=
  List.filterMap_append

@[simp] theorem delivered_append (first second : List (Effect Url)) :
    delivered (first ++ second) = delivered first ++ delivered second :=
  List.flatMap_append

@[simp] theorem completions_append (first second : List (Effect Url)) :
    completions (first ++ second) = completions first + completions second :=
  List.countP_append

@[simp] theorem sent_nil : sent ([] : List (Effect Url)) = [] := rfl

@[simp] theorem answered_nil : answered ([] : List (Effect Url)) = [] := rfl

@[simp] theorem delivered_nil : delivered ([] : List (Effect Url)) = [] := rfl

@[simp] theorem completions_nil : completions ([] : List (Effect Url)) = 0 := rfl

@[simp] theorem sent_singleton (effect : Effect Url) :
    sent [effect] =
      match effect with
      | .request request => [request]
      | _ => [] := by
  cases effect <;> rfl

@[simp] theorem answered_singleton (effect : Effect Url) :
    answered [effect] =
      match effect with
      | .answered request => [request]
      | _ => [] := by
  cases effect <;> rfl

@[simp] theorem delivered_singleton (effect : Effect Url) :
    delivered [effect] =
      match effect with
      | .data _ fragment => fragment
      | _ => [] := by
  cases effect <;> simp [delivered]

@[simp] theorem completions_singleton (effect : Effect Url) :
    completions [effect] =
      match effect with
      | .complete => 1
      | _ => 0 := by
  cases effect <;> rfl

@[simp] theorem Parser.current_start : (Parser.start : Parser Url).current = [] := rfl

@[simp] theorem Parser.current_message (request : Request Url) (statusCode : ℕ) (received : Bytes)
    (inBody : Bool) : (Parser.message request statusCode received inBody).current = [request] :=
  rfl

/-! ## The end of a chunk -/

@[simp] theorem mediaCtxNextChunk_pauseBetweenChunks (download : Download Url) :
    (mediaCtxNextChunk download).ctx.pauseBetweenChunks = download.ctx.pauseBetweenChunks := by
  unfold mediaCtxNextChunk
  dsimp only
  split <;> simp only [Download.write]

/-- Whether the download is paused once `on_chunk_complete` has returned. -/
def pausedAfter (ctx : Ctx Url) (pause : Bool) : Bool :=
  if ctx.onChunkComplete then pause else ctx.pauseBetweenChunks

/-- The download when `on_chunk_complete` has returned, apart from a chunk asked for there. -/
def chunkEnded (pause asks : Bool) (download : Download Url) : Download Url :=
  { download with
    ctx := { download.ctx with pauseBetweenChunks := pausedAfter download.ctx pause }
    owed := pausedAfter download.ctx pause && !(download.ctx.onChunkComplete && asks)
    trace := download.trace ++ if download.ctx.onChunkComplete then [.chunkComplete] else [] }

/-- A user who asks for the next chunk inside `on_chunk_complete` pauses there: else it is asked
for twice. With that, the end of a chunk asks for the next one unless the user still has to. -/
theorem mediaChunkCompleteCb_eq {download : Download Url} {pause asks : Bool}
    (hchunked : download.ctx.isChunked = true)
    (honce : download.ctx.onChunkComplete = true → asks = true → pause = true) :
    mediaChunkCompleteCb pause asks download =
      if (chunkEnded pause asks download).owed then
        chunkEnded pause asks download
      else
        mediaCtxNextChunk (chunkEnded pause asks download) := by
  obtain ⟨ctx, connection, pending, parser, owed, trace⟩ := download
  obtain ⟨url, formatUrl, formatContentLength, onData, onComplete, onChunkComplete,
    pauseBetweenChunks⟩ := ctx
  cases onChunkComplete with
  | false =>
    cases pauseBetweenChunks <;> simp_all [mediaChunkCompleteCb, chunkEnded, pausedAfter]
  | true =>
    cases pause <;> cases asks <;>
      simp_all [mediaChunkCompleteCb, userChunkComplete, chunkEnded, pausedAfter, Download.emit]

end LibYtdl.Dl.MediaDownload
