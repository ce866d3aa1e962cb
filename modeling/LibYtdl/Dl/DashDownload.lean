import LibYtdl.Foundation.Transition
import LibYtdl.Dash.Manifest

/-!
# The download of a DASH stream

A `ytdl_dl_dash_ctx_t` from `ytdl_dl_dash_load_fork` on: its manifest is read, and a connection is
opened for the segments of one stream. The first segment is requested when the connection is up,
every other one when the response before it has ended, or when the user asks for it.

The trace records the requests, the calls of the user's callbacks, and which request each response
answered.
-/

namespace LibYtdl.Dl.DashDownload

open Machine Transition Cursor Dash.Manifest

/-- What is used of the XML library and of the URL parser: the root of a document, the text of
nodes, and the host and the path of a URL. -/
structure Library where
  xmlReadMemory : Bytes → Option XmlNode
  nodeListGetString : List XmlNode → Option Bytes
  parseUrl : Bytes → Option (Bytes × Bytes)

/-- The handlers of the parser: those for the manifest or those for the segments. -/
inductive Handlers
  | manifest
  | segment
  deriving DecidableEq, Repr

/-- What `ytdl_dl_dash_ctx_t` holds for the download of the segments. Two callbacks of the user are
kept as whether they are set. -/
structure Ctx where
  onData : Bool
  onSegmentComplete : Bool
  onPickFilter : PickFilter
  manifest : Bytes
  dash : DashCtx
  host : Bytes
  path : Bytes
  isVideo : Bool
  pauseBetweenChunks : Bool
  handlers : Handlers

/-- The request of `ytdl_net_request_segment`. -/
structure Request where
  path : Bytes
  segment : Bytes
  host : Bytes
  deriving DecidableEq

inductive Effect
  | request (request : Request)
  | data (fragment : Bytes)
  | answered (request : Request) (body : Bytes)
  | segmentComplete
  | complete
  deriving DecidableEq

/-- The download with its connection, the requests that wait for a response, and what was received
of the response to the first one. `owed` says that a segment ended while paused and the user did not
ask for the next one yet. -/
structure Download where
  ctx : Ctx
  connected : Bool
  outstanding : List Request
  received : Bytes
  owed : Bool
  trace : List Effect

def Download.emit (download : Download) (effect : Effect) : Download :=
  { download with trace := download.trace ++ [effect] }

/-- `ytdl_http_client_write`. -/
def Download.write (download : Download) (request : Request) : Download :=
  { download with
    outstanding := download.outstanding ++ [request]
    trace := download.trace ++ [.request request] }

/-! ## The functions of `dl.c` -/

/-- `ytdl__dash_echo_cb`. -/
def dashEchoCb (fragment : Bytes) (download : Download) : Download :=
  if download.ctx.onData then download.emit (.data fragment) else download

/-- What `ytdl_dl_dash_ctx_next_chunk` and `ytdl__dash_segment_connected_cb` do with the next
segment. -/
def requestSegment (download : Download) : Download :=
  let ctx := download.ctx
  let (segment, dash) := nextStreamSegment ctx.isVideo ctx.dash
  let download := { download with ctx := { ctx with dash := dash } }
  match segment with
  | some segment => download.write ⟨ctx.path, segment, ctx.host⟩
  | none => download.emit .complete

/-- `ytdl_dl_dash_ctx_next_chunk`. -/
def dashCtxNextChunk (download : Download) : Download := requestSegment download

/-- The user's `on_segment_complete`: it leaves `pause_between_chunks` at `pause`, and `asks` says
whether it calls `ytdl_dl_dash_ctx_next_chunk`. -/
def userSegmentComplete (pause asks : Bool) (download : Download) : Download :=
  let download := download.emit .segmentComplete
  let download :=
    { download with
      ctx := { download.ctx with pauseBetweenChunks := pause }
      owed := pause && !asks }
  if asks then dashCtxNextChunk download else download

/-- `ytdl__dash_segment_complete_cb`. -/
def dashSegmentCompleteCb (pause asks : Bool) (download : Download) : Download :=
  let download :=
    if download.ctx.onSegmentComplete then
      userSegmentComplete pause asks download
    else
      { download with owed := download.ctx.pauseBetweenChunks }
  if !download.ctx.pauseBetweenChunks then dashCtxNextChunk download else download

/-- `ytdl__dash_segment_connected_cb`. -/
def dashSegmentConnectedCb (download : Download) : Download :=
  requestSegment { download with ctx := { download.ctx with handlers := .segment } }

/-- `ytdl_dl_dash_load_fork` on a manifest that has a format. The value is `none` where it has none,
and where no connection is opened because the base URL is not a URL. -/
def dashLoadFork (library : Library) (ctx : Ctx) : Option Ctx := do
  let root ← library.xmlReadMemory ctx.manifest
  let dash ← getFormat library.nodeListGetString ctx.onPickFilter root
  let baseUrl ← (dash.stream ctx.isVideo).baseUrl
  let (host, path) ← library.parseUrl baseUrl
  return { ctx with dash := dash, host := host, path := path }

/-! ## The event loop -/

inductive Event
  | connected
  | body (fragment : Bytes)
  | messageComplete (pause asks : Bool)
  | nextChunk
  | setPause (pause : Bool)
  deriving DecidableEq

/-- A fragment of the response to the first request. -/
def bodyEvent (fragment : Bytes) (download : Download) : Download :=
  dashEchoCb fragment { download with received := download.received ++ fragment }

/-- The end of the response to `request`, before the callback. -/
def answerEnded (request : Request) (outstanding : List Request) (download : Download) :
    Download :=
  { download with
    outstanding := outstanding
    received := []
    trace := download.trace ++ [.answered request download.received] }

def step : Step Download Event
  | download, .connected =>
    if download.connected then none
    else some (dashSegmentConnectedCb { download with connected := true })
  | download, .body fragment =>
    match download.ctx.handlers, download.outstanding with
    | .segment, _ :: _ => some (bodyEvent fragment download)
    | _, _ => none
  | download, .messageComplete pause asks =>
    match download.ctx.handlers, download.outstanding with
    | .segment, request :: outstanding =>
      some (dashSegmentCompleteCb pause asks (answerEnded request outstanding download))
    | _, _ => none
  | download, .nextChunk => some (dashCtxNextChunk { download with owed := false })
  | download, .setPause pause =>
    some { download with ctx := { download.ctx with pauseBetweenChunks := pause } }

attribute [local simp] step

/-- After `ytdl_dl_dash_load_fork`. -/
def Download.ready (ctx : Ctx) : Download where
  ctx := ctx
  connected := false
  outstanding := []
  received := []
  owed := false
  trace := []

/-! ## What an event can do -/

section Events

variable {download next : Download}

theorem step_connected (h : step download .connected = some next) :
    download.connected = false ∧
      dashSegmentConnectedCb { download with connected := true } = next := by
  simpa using h

theorem step_body {fragment : Bytes} (h : step download (.body fragment) = some next) :
    download.outstanding ≠ [] ∧ bodyEvent fragment download = next := by
  cases hhandlers : download.ctx.handlers with
  | manifest => simp [hhandlers] at h
  | segment =>
    cases houtstanding : download.outstanding with
    | nil => simp [hhandlers, houtstanding] at h
    | cons request outstanding =>
      exact ⟨List.cons_ne_nil _ _, by simpa [hhandlers, houtstanding] using h⟩

theorem step_messageComplete {pause asks : Bool}
    (h : step download (.messageComplete pause asks) = some next) :
    ∃ request outstanding, download.outstanding = request :: outstanding ∧
      dashSegmentCompleteCb pause asks (answerEnded request outstanding download) = next := by
  cases hhandlers : download.ctx.handlers with
  | manifest => simp [hhandlers] at h
  | segment =>
    cases houtstanding : download.outstanding with
    | nil => simp [hhandlers, houtstanding] at h
    | cons request outstanding =>
      exact ⟨request, outstanding, rfl, by simpa [hhandlers, houtstanding] using h⟩

theorem step_nextChunk (h : step download .nextChunk = some next) :
    dashCtxNextChunk { download with owed := false } = next := by
  simpa using h

theorem step_setPause {pause : Bool} (h : step download (.setPause pause) = some next) :
    { download with ctx := { download.ctx with pauseBetweenChunks := pause } } = next := by
  simpa using h

end Events

/-! ## The end of a segment -/

theorem requestSegment_some {download : Download} {segment : Bytes} {dash : DashCtx}
    (h : nextStreamSegment download.ctx.isVideo download.ctx.dash = (some segment, dash)) :
    requestSegment download =
      { download with
        ctx := { download.ctx with dash := dash }
        outstanding := download.outstanding ++ [⟨download.ctx.path, segment, download.ctx.host⟩]
        trace := download.trace ++
          [.request ⟨download.ctx.path, segment, download.ctx.host⟩] } := by
  simp only [requestSegment, h, Download.write]

theorem requestSegment_none {download : Download} {dash : DashCtx}
    (h : nextStreamSegment download.ctx.isVideo download.ctx.dash = (none, dash)) :
    requestSegment download =
      { download with
        ctx := { download.ctx with dash := dash }
        trace := download.trace ++ [.complete] } := by
  simp only [requestSegment, h, Download.emit]

theorem requestSegment_pauseBetweenChunks (download : Download) :
    (requestSegment download).ctx.pauseBetweenChunks = download.ctx.pauseBetweenChunks := by
  cases hnext : nextStreamSegment download.ctx.isVideo download.ctx.dash with
  | mk segment dash =>
    cases segment with
    | none => rw [requestSegment_none hnext]
    | some segment => rw [requestSegment_some hnext]

/-- The download when `on_segment_complete` has returned, apart from a segment asked for there. -/
def segmentEnded (pause asks : Bool) (download : Download) : Download :=
  { download with
    ctx := { download.ctx with pauseBetweenChunks := pause }
    owed := pause && !asks
    trace := download.trace ++ [.segmentComplete] }

/-- A user who asks for the next segment inside `on_segment_complete` pauses there: else it is asked
for twice. With that, the end of a segment asks for the next one unless the user still has to. -/
theorem dashSegmentCompleteCb_eq {download : Download} {pause asks : Bool}
    (hcallback : download.ctx.onSegmentComplete = true) (honce : asks = true → pause = true) :
    dashSegmentCompleteCb pause asks download =
      if (segmentEnded pause asks download).owed then
        segmentEnded pause asks download
      else
        dashCtxNextChunk (segmentEnded pause asks download) := by
  cases asks with
  | false =>
    cases pause <;>
      simp [dashSegmentCompleteCb, hcallback, userSegmentComplete, segmentEnded, Download.emit]
  | true =>
    obtain rfl := honce rfl
    simp [dashSegmentCompleteCb, hcallback, userSegmentComplete, segmentEnded, Download.emit,
      dashCtxNextChunk, requestSegment_pauseBetweenChunks]

/-! ## The trace -/

/-- The requests that were made. -/
def sent (trace : List Effect) : List Request :=
  trace.filterMap fun
    | .request request => some request
    | _ => none

/-- The requests that were answered, with the bodies of the responses. -/
def answered (trace : List Effect) : List (Request × Bytes) :=
  trace.filterMap fun
    | .answered request body => some (request, body)
    | _ => none

/-- What `on_data` received. -/
def delivered (trace : List Effect) : Bytes :=
  trace.flatMap fun
    | .data fragment => fragment
    | _ => []

/-- How often `on_segment_complete` was called. -/
def segmentCompletions (trace : List Effect) : ℕ := trace.count .segmentComplete

/-- How often `on_complete` was called. -/
def completions (trace : List Effect) : ℕ := trace.count .complete

section Trace

variable (trace more : List Effect) (effect : Effect)

@[simp] theorem sent_append : sent (trace ++ more) = sent trace ++ sent more :=
  List.filterMap_append

@[simp] theorem answered_append : answered (trace ++ more) = answered trace ++ answered more :=
  List.filterMap_append

@[simp] theorem delivered_append : delivered (trace ++ more) = delivered trace ++ delivered more :=
  List.flatMap_append

@[simp] theorem segmentCompletions_append :
    segmentCompletions (trace ++ more) = segmentCompletions trace + segmentCompletions more :=
  List.count_append

@[simp] theorem completions_append :
    completions (trace ++ more) = completions trace + completions more :=
  List.count_append

@[simp] theorem sent_nil : sent [] = [] := rfl

@[simp] theorem answered_nil : answered [] = [] := rfl

@[simp] theorem delivered_nil : delivered [] = [] := rfl

@[simp] theorem segmentCompletions_nil : segmentCompletions [] = 0 := rfl

@[simp] theorem completions_nil : completions [] = 0 := rfl

@[simp] theorem sent_cons :
    sent (effect :: trace) =
      (match effect with
      | .request request => [request]
      | _ => []) ++ sent trace := by
  cases effect <;> rfl

@[simp] theorem answered_cons :
    answered (effect :: trace) =
      (match effect with
      | .answered request body => [(request, body)]
      | _ => []) ++ answered trace := by
  cases effect <;> rfl

@[simp] theorem delivered_cons :
    delivered (effect :: trace) =
      (match effect with
      | .data fragment => fragment
      | _ => []) ++ delivered trace := by
  cases effect <;> rfl

@[simp] theorem segmentCompletions_cons :
    segmentCompletions (effect :: trace) =
      segmentCompletions trace + if effect = .segmentComplete then 1 else 0 := by
  simp [segmentCompletions, List.count_cons]

@[simp] theorem completions_cons :
    completions (effect :: trace) = completions trace + if effect = .complete then 1 else 0 := by
  simp [completions, List.count_cons]

end Trace

end LibYtdl.Dl.DashDownload
