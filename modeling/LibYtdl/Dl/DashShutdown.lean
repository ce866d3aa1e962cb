import LibYtdl.Http.Connection
import LibYtdl.Dl.DashLoad

/-!
# The end of a DASH download

A `ytdl_dl_dash_ctx_t` with its client: the manifest is fetched over one connection, that one is
closed, and another is made for the segments. `is_shutdown` is set while the first connection is
being closed, and it keeps `ytdl_dl_dash_shutdown` from closing the client again; the close callback
that is pending then goes on with the manifest.
-/

namespace LibYtdl.Dl.DashShutdown

open Machine Transition Http.Connection Dash.Manifest DashDownload

/-- The XML library and the URL parser, and `ytdl_net_is_numeric_host`. -/
structure Environment extends Library where
  isNumericHost : Bytes → Bool

/-- The callback of the connection that is being made. -/
inductive ReadyCb
  | manifestConnected
  | segmentConnected
  deriving DecidableEq, Repr

/-- The callback of the end of the connection. -/
inductive CloseCb
  | dashClose
  | dashCloseF
  deriving DecidableEq, Repr

/-- What the context holds in memory of its own. -/
inductive Part
  | path
  | host
  | manifestHost
  | manifestPath
  | dash
  | manifest
  deriving DecidableEq, Repr

/-- The idle step's releases, the uses of what the context holds, the calls of `on_manifest` and
`on_close`, the reading of the manifest, and the starts of a connection: a call of
`ytdl_http_client_connect`, or the connection to the address that was looked up. -/
inductive Effect
  | release (part : Part)
  | use (part : Part)
  | parse
  | connect
  | onManifest
  | onClose
  deriving DecidableEq, Repr

/-- A context from its initialization to the end: what `DashDownload` has of it, the other fields,
the connection of its client with the callbacks that wait for it, and the idle handles that
`ytdl_dl_dash_shutdown` has started. `isLocated` says that `host` and `path` were allocated, and
`aborted` that a handle was stopped that is not there, or that a null pointer was read. -/
structure Life where
  download : Download
  onManifest : Bool
  manifestHost : Option Bytes
  manifestPath : Option Bytes
  isLocated : Bool
  isShutdown : Bool
  isDashInit : Bool
  connection : Phase
  readyCb : ReadyCb
  closeCb : CloseCb
  idles : ℕ
  released : Bool
  aborted : Bool
  trace : List Effect

def Life.emit (life : Life) (effects : List Effect) : Life :=
  { life with trace := life.trace ++ effects }

/-! ## The functions of `dl.c` -/

/-- `ytdl_dl_dash_ctx_init`, with the callbacks and the stream that the user sets after it. -/
def dashCtxInit (onData onSegmentComplete onManifest isVideo : Bool) (onPickFilter : PickFilter) :
    Life where
  download :=
    .ready
      { onData := onData
        onSegmentComplete := onSegmentComplete
        onPickFilter := onPickFilter
        manifest := []
        dash := ⟨.zeroed, .zeroed⟩
        host := []
        path := []
        isVideo := isVideo
        pauseBetweenChunks := false
        handlers := .manifest }
  onManifest := onManifest
  manifestHost := none
  manifestPath := none
  isLocated := false
  isShutdown := false
  isDashInit := false
  connection := .unconnected
  readyCb := .manifestConnected
  closeCb := .dashClose
  idles := 0
  released := false
  aborted := false
  trace := []

/-- `ytdl_http_client_connect`. -/
def Life.connect (isNumericHost : Bool) (readyCb : ReadyCb) (life : Life) : Life :=
  { life with
    connection := httpClientConnect isNumericHost
    readyCb := readyCb
    trace := life.trace ++ [.connect] }

/-- `ytdl_dl_dash_ctx_connect`. Nothing is done when the URL is not one. -/
def dashCtxConnect (env : Environment) (manifestUrl : Bytes) (life : Life) : Life :=
  match env.parseUrl manifestUrl with
  | none => life
  | some (host, path) =>
    ({ life with manifestHost := some host, manifestPath := some path }).connect
      (env.isNumericHost host) .manifestConnected

/-- `ytdl__dash_manifest_connected_cb`. -/
def dashManifestConnectedCb (life : Life) : Life :=
  life.emit [.use .manifestPath, .use .manifestHost]

/-- `ytdl__dash_manifest_cb`. -/
def dashManifestCb (fragment : Bytes) (life : Life) : Life :=
  let ctx := life.download.ctx
  { life with
    download := { life.download with ctx := { ctx with manifest := ctx.manifest ++ fragment } }
    trace := life.trace ++ [.use .manifest] }

/-- `ytdl_dl_dash_load_fork`. -/
def loadFork (env : Environment) (life : Life) : Life :=
  let life : Life :=
    { life with
      isDashInit := true
      trace := life.trace ++ [.parse, .use .manifest] }
  match DashLoad.loadFork env.toLibrary life.download.ctx with
  | .nullDereference => { life with aborted := true }
  | .returned ctx => { life with download := { life.download with ctx := ctx } }
  | .connecting ctx =>
    ({ life with
      download := { life.download with ctx := ctx }
      isLocated := true }).connect (env.isNumericHost ctx.host) .segmentConnected

/-- `ytdl__dash_close_cb`. -/
def dashCloseCb (env : Environment) (life : Life) : Life :=
  let life := { life with isShutdown := false, connection := .unconnected }
  loadFork env (if life.onManifest then life.emit [.onManifest] else life)

/-- The close callback runs: `ytdl__dash_close_cb` or `ytdl__dash_close_f_cb`. -/
def Life.close (env : Environment) (life : Life) : Life :=
  match life.closeCb with
  | .dashClose => dashCloseCb env life
  | .dashCloseF => life.emit [.onClose]

/-- `ytdl_http_client_shutdown`. -/
def Life.shutdownClient (env : Environment) (closeCb : CloseCb) (life : Life) : Life :=
  match httpClientShutdown life.connection with
  | .called => ({ life with closeCb := closeCb }).close env
  | .pending => { life with connection := .closing, closeCb := closeCb }
  | .invalid => { life with aborted := true }

/-- `ytdl__dash_manifest_complete_cb`. -/
def dashManifestCompleteCb (env : Environment) (life : Life) : Life :=
  ({ life with isShutdown := true }).shutdownClient env .dashClose

/-- What is used when a segment is asked for. -/
def chunkParts (download : Download) : List Effect :=
  match (nextStreamSegment download.ctx.isVideo download.ctx.dash).1 with
  | some _ => [.use .dash, .use .path, .use .host]
  | none => [.use .dash]

/-- The callback of the connection runs. -/
def Life.ready (life : Life) : Life :=
  match life.readyCb with
  | .manifestConnected => dashManifestConnectedCb life
  | .segmentConnected =>
    { life with
      download := dashSegmentConnectedCb { life.download with connected := true }
      trace := life.trace ++ chunkParts life.download }

/-- What `ytdl__dl_dash_shutdown` releases, in this order: what was allocated. -/
def releases (life : Life) : List Part :=
  [Part.path, .host, .manifestHost, .manifestPath, .dash, .manifest].filter fun
    | .path | .host => life.isLocated
    | .manifestHost => life.manifestHost.isSome
    | .manifestPath => life.manifestPath.isSome
    | .dash => life.isDashInit
    | .manifest => true

/-- `ytdl__dl_dash_shutdown`. -/
def dlDashShutdown (env : Environment) (life : Life) : Life :=
  let life :=
    { life with
      idles := life.idles - 1
      released := true
      trace := life.trace ++ (releases life).map .release }
  if life.isShutdown then life else life.shutdownClient env .dashCloseF

/-- `ytdl_dl_dash_ctx_fork`, on the context that becomes a copy. -/
def dashCtxFork (ctx fork : Life) : Life :=
  { fork with
    download :=
      { fork.download with
        ctx :=
          { fork.download.ctx with
            manifest := ctx.download.ctx.manifest
            onData := ctx.download.ctx.onData
            onSegmentComplete := ctx.download.ctx.onSegmentComplete
            onPickFilter := ctx.download.ctx.onPickFilter
            isVideo := ctx.download.ctx.isVideo } }
    onManifest := ctx.onManifest
    manifestHost := ctx.manifestHost
    manifestPath := ctx.manifestPath
    isShutdown := ctx.isShutdown
    isDashInit := ctx.isDashInit }

/-! ## The event loop -/

/-- The calls of the user, what happens to the connection and on it, and the idle step. A call that
the user makes in a callback comes right after it, or right before it where the callback reads what
the call sets. -/
inductive Event
  | connect (manifestUrl : Bytes)
  | fork (ctx : Life)
  | loadFork
  | setIsVideo (isVideo : Bool)
  | setPause (pause : Bool)
  | nextChunk
  | network (event : ClientEvent)
  | body (fragment : Bytes)
  | messageComplete (pause asks : Bool)
  | shutdown
  | idle

/-- A callback of the connection. -/
def Life.advanced (env : Environment) (event : ClientEvent) (life : Life) : Life :=
  match event with
  | .resolved => life.emit [.connect]
  | .ready => life.ready
  | .closed => life.close env
  | _ => life

/-- The end of a segment asks for the next one, unless the user has paused. -/
def asksNext (pause asks : Bool) (ctx : Ctx) : Bool :=
  ctx.onSegmentComplete && asks ||
    !(if ctx.onSegmentComplete then pause else ctx.pauseBetweenChunks)

def segmentParts (pause asks : Bool) (download : Download) : List Effect :=
  if asksNext pause asks download.ctx then chunkParts download else []

/-- The calls of the user, who asks for a connection when the client has none. -/
def call (env : Environment) (life : Life) : Event → Option Life
  | .connect manifestUrl =>
    if life.connection.connectable then some (dashCtxConnect env manifestUrl life) else none
  | .fork ctx => if life.connection = .unconnected then some (dashCtxFork ctx life) else none
  | .loadFork => if life.connection.connectable then some (loadFork env life) else none
  | .setIsVideo isVideo =>
    some
      { life with
        download :=
          { life.download with ctx := { life.download.ctx with isVideo := isVideo } } }
  | .setPause pause =>
    (DashDownload.step life.download (.setPause pause)).map fun download ↦
      { life with download := download }
  | .nextChunk =>
    (DashDownload.step life.download .nextChunk).map fun download ↦
      { life with download := download, trace := life.trace ++ chunkParts life.download }
  | .shutdown => some { life with idles := life.idles + 1 }
  | _ => none

/-- A response arrives: that to the request for the manifest, or that to one for a segment. -/
def respond (env : Environment) (life : Life) : Event → Option Life
  | .body fragment =>
    match life.download.ctx.handlers with
    | .manifest => some (dashManifestCb fragment life)
    | .segment =>
      (DashDownload.step life.download (.body fragment)).map fun download ↦
        { life with download := download }
  | .messageComplete pause asks =>
    match life.download.ctx.handlers with
    | .manifest => some (dashManifestCompleteCb env life)
    | .segment =>
      (DashDownload.step life.download (.messageComplete pause asks)).map fun download ↦
        { life with
          download := download
          trace := life.trace ++ segmentParts pause asks life.download }
  | _ => none

/-- The user calls nothing on a context that was released. Responses come while the connection is
up. -/
def step (env : Environment) : Step Life Event := fun life event ↦
  if life.aborted then none
  else
    match event with
    | .network event =>
      (advance life.connection event).map fun phase ↦
        ({ life with connection := phase }).advanced env event
    | .body _ | .messageComplete _ _ =>
      if life.connection = .up then respond env life event else none
    | .idle => if life.idles = 0 then none else some (dlDashShutdown env life)
    | _ => if life.released then none else call env life event

attribute [local simp] step

/-- How often `on_close` was called. -/
def closes (trace : List Effect) : ℕ := trace.count .onClose

/-- An effect of a download that goes on: the manifest is read, a connection is started,
`on_manifest` is called, or something that the context held is used. -/
def Effect.goesOn : Effect → Bool
  | .use _ | .parse | .connect | .onManifest => true
  | .release _ | .onClose => false

/-- No callback is pending on the connection. -/
def Quiescent (env : Environment) (life : Life) : Prop :=
  ∀ event next, step env life event = some next → event = .idle

/-- The idle step that ended in `next` was final: nothing has gone on since, and `on_close` is
called exactly once, at the latest when no callback is pending any more. -/
structure Final (env : Environment) (next last : Life) : Prop where
  quiet : ∃ later, last.trace = next.trace ++ later ∧ ∀ effect ∈ later, effect.goesOn = false
  closes_le : closes last.trace ≤ 1
  closed : Quiescent env last → closes last.trace = 1

/-! ## What a step can do -/

section Steps

variable {env : Environment} {life next : Life}

theorem step_network {event : ClientEvent} (h : step env life (.network event) = some next) :
    life.aborted = false ∧ ∃ phase, advance life.connection event = some phase ∧
      ({ life with connection := phase }).advanced env event = next := by
  cases haborted : life.aborted with
  | true => simp [haborted] at h
  | false =>
    obtain ⟨phase, hphase, hnext⟩ := Option.map_eq_some_iff.mp (by simpa [haborted] using h)
    exact ⟨rfl, phase, hphase, hnext⟩

theorem step_body {fragment : Bytes} (h : step env life (.body fragment) = some next) :
    life.connection = .up ∧ respond env life (.body fragment) = some next := by
  cases haborted : life.aborted with
  | true => simp [haborted] at h
  | false => simpa [haborted] using h

theorem step_messageComplete {pause asks : Bool}
    (h : step env life (.messageComplete pause asks) = some next) :
    life.connection = .up ∧ respond env life (.messageComplete pause asks) = some next := by
  cases haborted : life.aborted with
  | true => simp [haborted] at h
  | false => simpa [haborted] using h

/-- The events that are calls of the user. -/
def Event.isCall : Event → Bool
  | .network _ | .body _ | .messageComplete _ _ | .idle => false
  | _ => true

theorem step_call {event : Event} (h : step env life event = some next)
    (hcall : event.isCall = true) :
    life.released = false ∧ call env life event = some next := by
  cases haborted : life.aborted with
  | true => simp [haborted] at h
  | false =>
    cases event <;> simp_all [Event.isCall]

theorem step_idle (h : step env life .idle = some next) :
    life.aborted = false ∧ life.idles ≠ 0 ∧ dlDashShutdown env life = next := by
  cases haborted : life.aborted with
  | true => simp [haborted] at h
  | false => simpa [haborted] using h

/-! ## Before the idle step -/

@[simp] theorem closes_append (trace more : List Effect) :
    closes (trace ++ more) = closes trace + closes more :=
  List.count_append

@[simp] theorem closes_chunkParts (download : Download) : closes (chunkParts download) = 0 := by
  rw [chunkParts]
  split <;> rfl

@[simp] theorem closes_segmentParts (pause asks : Bool) (download : Download) :
    closes (segmentParts pause asks download) = 0 := by
  rw [segmentParts]
  split
  · exact closes_chunkParts download
  · rfl

@[simp] theorem closes_release (parts : List Part) : closes (parts.map .release) = 0 := by
  simp [closes, List.count_eq_zero]

/-- Loading a manifest reads it, and may start a connection. -/
theorem loadFork_cases (env : Environment) (life : Life) :
    (∃ ctx aborted,
        loadFork env life =
          { life with
            download := { life.download with ctx := ctx }
            isDashInit := true
            aborted := aborted
            trace := life.trace ++ [.parse, .use .manifest] }) ∨
      ∃ ctx,
        loadFork env life =
          { life with
            download := { life.download with ctx := ctx }
            isLocated := true
            isDashInit := true
            connection := httpClientConnect (env.isNumericHost ctx.host)
            readyCb := .segmentConnected
            trace := life.trace ++ [.parse, .use .manifest] ++ [.connect] } := by
  simp only [loadFork]
  split
  · exact .inl ⟨life.download.ctx, true, rfl⟩
  · next ctx _ => exact .inl ⟨ctx, life.aborted, rfl⟩
  · next ctx _ => exact .inr ⟨ctx, rfl⟩

theorem httpClientConnect_ne_closing (isNumericHost : Bool) :
    httpClientConnect isNumericHost ≠ .closing := by
  cases isNumericHost <;> decide

/-- Before the idle step: `on_close` was not called, and a connection that is being closed is that
of the manifest. -/
structure Running (life : Life) : Prop where
  closes : closes life.trace = 0
  closing : life.connection = .closing → life.closeCb = .dashClose

theorem running_dashCtxInit (onData onSegmentComplete onManifest isVideo : Bool)
    (onPickFilter : PickFilter) :
    Running (dashCtxInit onData onSegmentComplete onManifest isVideo onPickFilter) where
  closes := rfl
  closing := nofun

theorem running_connect (hcloses : DashShutdown.closes life.trace = 0) (isNumericHost : Bool)
    (readyCb : ReadyCb) : Running (life.connect isNumericHost readyCb) where
  closes := by
    rw [Life.connect, closes_append, hcloses]
    rfl
  closing := fun h ↦ absurd h (httpClientConnect_ne_closing isNumericHost)

theorem running_loadFork (h : Running life) : Running (loadFork env life) := by
  obtain ⟨ctx, aborted, heq⟩ | ⟨ctx, heq⟩ := loadFork_cases env life
  · rw [heq]
    exact ⟨by rw [closes_append, h.closes]; rfl, h.closing⟩
  · rw [heq]
    refine ⟨?_, fun hclosing ↦ absurd hclosing (httpClientConnect_ne_closing _)⟩
    rw [closes_append, closes_append, h.closes]
    rfl

theorem running_dashCloseCb (hcloses : DashShutdown.closes life.trace = 0) :
    Running (dashCloseCb env life) := by
  apply running_loadFork
  split
  · exact ⟨by rw [Life.emit, closes_append, hcloses]; rfl, nofun⟩
  · exact ⟨hcloses, nofun⟩

theorem running_call {event : Event} (h : Running life) (hcall : call env life event = some next) :
    Running next := by
  cases event with
  | connect manifestUrl =>
    obtain ⟨-, rfl⟩ : _ ∧ dashCtxConnect env manifestUrl life = next := by
      simpa [call] using hcall
    rw [dashCtxConnect]
    split
    · exact h
    · apply running_connect
      exact h.closes
  | fork ctx =>
    obtain ⟨-, rfl⟩ : _ ∧ dashCtxFork ctx life = next := by
      simpa [call] using hcall
    exact ⟨h.closes, h.closing⟩
  | loadFork =>
    obtain ⟨-, rfl⟩ : _ ∧ loadFork env life = next := by
      simpa [call] using hcall
    exact running_loadFork h
  | setIsVideo isVideo =>
    obtain rfl := Option.some.inj hcall
    exact ⟨h.closes, h.closing⟩
  | setPause pause =>
    obtain rfl := Option.some.inj hcall
    exact ⟨h.closes, h.closing⟩
  | nextChunk =>
    obtain rfl := Option.some.inj hcall
    exact ⟨by simp [h.closes], h.closing⟩
  | shutdown =>
    obtain rfl := Option.some.inj hcall
    exact ⟨h.closes, h.closing⟩
  | network event => cases hcall
  | body fragment => cases hcall
  | messageComplete pause asks => cases hcall
  | idle => cases hcall

theorem running_respond {event : Event} (h : Running life) (hup : life.connection = .up)
    (hrespond : respond env life event = some next) : Running next := by
  cases hhandlers : life.download.ctx.handlers with
  | manifest =>
    cases event with
    | body fragment =>
      obtain rfl : dashManifestCb fragment life = next := by
        simpa [respond, hhandlers] using hrespond
      exact ⟨by rw [dashManifestCb, closes_append, h.closes]; rfl, h.closing⟩
    | messageComplete pause asks =>
      obtain rfl : dashManifestCompleteCb env life = next := by
        simpa [respond, hhandlers] using hrespond
      simp only [dashManifestCompleteCb, Life.shutdownClient, hup, httpClientShutdown]
      exact ⟨h.closes, fun _ ↦ rfl⟩
    | _ => cases hrespond
  | segment =>
    cases event with
    | body fragment =>
      simp only [respond, hhandlers] at hrespond
      obtain ⟨download, -, rfl⟩ := Option.map_eq_some_iff.mp hrespond
      exact ⟨h.closes, h.closing⟩
    | messageComplete pause asks =>
      simp only [respond, hhandlers] at hrespond
      obtain ⟨download, -, rfl⟩ := Option.map_eq_some_iff.mp hrespond
      exact ⟨by simp [h.closes], h.closing⟩
    | _ => cases hrespond

theorem running_ready (hcloses : DashShutdown.closes life.trace = 0)
    (hclosing : life.connection ≠ .closing) : Running life.ready := by
  cases hready : life.readyCb with
  | manifestConnected =>
    rw [Life.ready, hready]
    exact ⟨by simp only [dashManifestConnectedCb, Life.emit, closes_append, hcloses]; rfl,
      fun h ↦ absurd h hclosing⟩
  | segmentConnected =>
    rw [Life.ready, hready]
    exact ⟨by simp [hcloses], fun h ↦ absurd h hclosing⟩

theorem running_network {event : ClientEvent} {phase : Phase} (h : Running life)
    (hphase : advance life.connection event = some phase) :
    Running (({ life with connection := phase }).advanced env event) := by
  have hclosing := advance_ne_closing hphase
  cases event with
  | resolved =>
    exact ⟨by simp only [Life.advanced, Life.emit, closes_append, h.closes]; rfl,
      fun hnext ↦ absurd hnext hclosing⟩
  | ready => exact running_ready h.closes hclosing
  | closed =>
    have hcb := h.closing (advance_closed hphase)
    simp only [Life.advanced, Life.close, hcb]
    exact running_dashCloseCb h.closes
  | _ => exact ⟨h.closes, fun hnext ↦ absurd hnext hclosing⟩

theorem running_step {event : Event} (h : Running life) (hevent : event ≠ .idle)
    (hstep : step env life event = some next) : Running next := by
  cases event with
  | network event =>
    obtain ⟨-, phase, hphase, rfl⟩ := step_network hstep
    exact running_network h hphase
  | body fragment =>
    obtain ⟨hup, hrespond⟩ := step_body hstep
    exact running_respond h hup hrespond
  | messageComplete pause asks =>
    obtain ⟨hup, hrespond⟩ := step_messageComplete hstep
    exact running_respond h hup hrespond
  | idle => exact absurd rfl hevent
  | _ => exact running_call h (step_call hstep rfl).2

/-! ## The idle step -/

/-- The context when everything is released, and the client is not yet shut down. -/
def releasedLife (life : Life) : Life :=
  { life with
    idles := life.idles - 1
    released := true
    trace := life.trace ++ (releases life).map .release }

theorem dlDashShutdown_of_isShutdown (env : Environment) (h : life.isShutdown = true) :
    dlDashShutdown env life = releasedLife life := by
  simp [dlDashShutdown, releasedLife, h]

theorem dlDashShutdown_called (env : Environment) (h : life.isShutdown = false)
    (hconnection : httpClientShutdown life.connection = .called) :
    dlDashShutdown env life =
      ({ releasedLife life with closeCb := .dashCloseF }).emit [.onClose] := by
  simp [dlDashShutdown, releasedLife, h, Life.shutdownClient, hconnection, Life.close]

theorem dlDashShutdown_pending (env : Environment) (h : life.isShutdown = false)
    (hconnection : httpClientShutdown life.connection = .pending) :
    dlDashShutdown env life =
      { releasedLife life with connection := .closing, closeCb := .dashCloseF } := by
  simp [dlDashShutdown, releasedLife, h, Life.shutdownClient, hconnection]

theorem dlDashShutdown_invalid (env : Environment) (h : life.isShutdown = false)
    (hconnection : httpClientShutdown life.connection = .invalid) :
    dlDashShutdown env life = { releasedLife life with aborted := true } := by
  simp [dlDashShutdown, releasedLife, h, Life.shutdownClient, hconnection]

/-- Where the client is not closed by the idle step, `on_close` is called there. -/
theorem closes_dlDashShutdown_called (env : Environment) (h : life.isShutdown = false)
    (hconnection : httpClientShutdown life.connection = .called) :
    closes (dlDashShutdown env life).trace = closes life.trace + 1 := by
  rw [dlDashShutdown_called env h hconnection]
  simp only [Life.emit, releasedLife, closes_append, closes_release]
  rfl

theorem closes_releasedLife (life : Life) :
    closes (releasedLife life).trace = closes life.trace := by
  simp [releasedLife]

/-- Nothing can happen any more, or only the end of the connection. -/
inductive Ending (life : Life) : Prop
  | closing (closes_eq : closes life.trace = 0) (connection_eq : life.connection = .closing)
    (closeCb_eq : life.closeCb = .dashCloseF)
  | closed (closes_eq : closes life.trace = 1) (connection_resting : life.connection.resting = true)

structure Settled (next last : Life) : Prop where
  released : last.released = true
  aborted : last.aborted = false
  idles : last.idles = 0
  quiet : ∃ later, last.trace = next.trace ++ later ∧ ∀ effect ∈ later, effect.goesOn = false
  ending : Ending last

theorem Settled.final {last : Life} (h : Settled next last) : Final env next last where
  quiet := h.quiet
  closes_le := by
    cases h.ending with
    | closing hcloses => omega
    | closed hcloses => omega
  closed := by
    intro hquiescent
    cases h.ending with
    | closed hcloses => exact hcloses
    | closing hcloses hconnection hcloseCb =>
      have hstep : step env last (.network .closed) =
          some (({ last with connection := .closed }).advanced env .closed) := by
        simp [h.aborted, hconnection, advance]
      cases hquiescent _ _ hstep

theorem settled_step {last : Life} {event : Event} (h : Settled life last)
    (hstep : step env last event = some next) : Settled life next := by
  have hup : last.connection ≠ .up := by
    intro hup
    cases h.ending with
    | closing _ hconnection => simp [hup] at hconnection
    | closed _ hresting => simp [hup, Phase.resting] at hresting
  cases event with
  | network event =>
    obtain ⟨-, phase, hphase, rfl⟩ := step_network hstep
    cases h.ending with
    | closed _ hresting => simp [advance_resting hresting] at hphase
    | closing hcloses hconnection hcloseCb =>
      rw [hconnection] at hphase
      obtain ⟨rfl, rfl⟩ := advance_closing hphase
      obtain ⟨later, htrace, hquiet⟩ := h.quiet
      simp only [Life.advanced, Life.close, hcloseCb]
      refine ⟨h.released, h.aborted, h.idles, ⟨later ++ [.onClose], ?_, ?_⟩, .closed ?_ rfl⟩
      · simp [Life.emit, htrace]
      · intro effect heffect
        obtain hlater | hclose := List.mem_append.mp heffect
        · exact hquiet effect hlater
        · rw [List.mem_singleton.mp hclose]
          rfl
      · rw [Life.emit, closes_append, hcloses]
        rfl
  | body fragment => exact absurd (step_body hstep).1 hup
  | messageComplete pause asks => exact absurd (step_messageComplete hstep).1 hup
  | idle => exact absurd h.idles (step_idle hstep).2.1
  | _ => exact Bool.noConfusion (h.released.symm.trans (step_call hstep rfl).1)

/-- What the idle step needs to be final: the connection of the manifest is not being closed, the
client is one that can be ended, and this is the idle step of the only call of
`ytdl_dl_dash_shutdown`. -/
structure Undisturbed (life : Life) : Prop where
  notReconnecting : life.isShutdown = false
  closable : life.connection.closable = true
  single : life.idles = 1

theorem settled_dlDashShutdown (env : Environment) (hrunning : Running life)
    (haborted : life.aborted = false) (h : Undisturbed life) :
    Settled (dlDashShutdown env life) (dlDashShutdown env life) := by
  have hidles : (releasedLife life).idles = 0 := by simp [releasedLife, h.single]
  have hcloses := (closes_releasedLife life).trans hrunning.closes
  obtain ⟨hcalled, hresting⟩ | hpending := closable_cases h.closable
  · rw [dlDashShutdown_called env h.notReconnecting hcalled]
    refine ⟨rfl, haborted, hidles, ⟨[], by simp, by simp⟩, .closed ?_ hresting⟩
    simp only [Life.emit, closes_append, hcloses]
    rfl
  · rw [dlDashShutdown_pending env h.notReconnecting hpending]
    exact ⟨rfl, haborted, hidles, ⟨[], by simp, by simp⟩, .closing hcloses rfl rfl⟩

/-! ## What goes on when it is not final -/

theorem quiescent_of_aborted (haborted : life.aborted = true) : Quiescent env life := by
  intro event next hstep
  simp [haborted] at hstep

theorem quiescent_of_resting (hreleased : life.released = true)
    (hresting : life.connection.resting = true) : Quiescent env life := by
  intro event next hstep
  have hup : life.connection ≠ .up := by
    intro hup
    simp [hup, Phase.resting] at hresting
  cases event with
  | network event =>
    obtain ⟨-, phase, hphase, -⟩ := step_network hstep
    simp [advance_resting hresting] at hphase
  | body fragment => exact absurd (step_body hstep).1 hup
  | messageComplete pause asks => exact absurd (step_messageComplete hstep).1 hup
  | idle => rfl
  | _ => exact Bool.noConfusion (hreleased.symm.trans (step_call hstep rfl).1)

/-- A run that goes on is not final. -/
theorem not_final_of_goesOn {last : Life} {later : List Effect} {effect : Effect}
    (htrace : last.trace = next.trace ++ later) (hmem : effect ∈ later)
    (hgoesOn : effect.goesOn = true) : ¬ Final env next last := by
  intro hfinal
  obtain ⟨quiet, heq, hquiet⟩ := hfinal.quiet
  have hlater : later = quiet := List.append_cancel_left (htrace.symm.trans heq)
  rw [hlater] at hmem
  exact Bool.noConfusion (hgoesOn.symm.trans (hquiet effect hmem))

/-- Once the connection of the manifest is closed, the manifest is read. -/
theorem dashCloseCb_parse (env : Environment) (life : Life) :
    ∃ later, (dashCloseCb env life).trace = life.trace ++ later ∧ .parse ∈ later := by
  have hloads (start : Life) :
      ∃ later, (loadFork env start).trace = start.trace ++ later ∧ .parse ∈ later := by
    obtain ⟨ctx, aborted, heq⟩ | ⟨ctx, heq⟩ := loadFork_cases env start
    · exact ⟨[.parse, .use .manifest], by rw [heq], by simp⟩
    · exact ⟨[.parse, .use .manifest, .connect], by simp [heq], by simp⟩
  simp only [dashCloseCb]
  split
  · obtain ⟨later, htrace, hmem⟩ :=
      hloads (({ life with isShutdown := false, connection := .unconnected }).emit [.onManifest])
    exact ⟨.onManifest :: later, by simpa [Life.emit] using htrace, List.mem_cons_of_mem _ hmem⟩
  · exact hloads { life with isShutdown := false, connection := .unconnected }

theorem run_network (env : Environment) {event : ClientEvent} {phase : Phase}
    (haborted : life.aborted = false)
    (hphase : advance life.connection event = some phase) :
    run (step env) life [.network event] =
      some (({ life with connection := phase }).advanced env event) := by
  simp [haborted, hphase]

theorem run_idle (env : Environment) (haborted : life.aborted = false) (hidles : life.idles ≠ 0) :
    run (step env) life [.idle] = some (dlDashShutdown env life) := by
  simp [haborted, hidles]

theorem advanced_of_reports {event : ClientEvent} (hreports : event.reports = true) :
    life.advanced env event = life := by
  cases event <;> simp_all [ClientEvent.reports, Life.advanced]

/-- An idle step that leaves the client alone is not final: the close callback that is pending reads
the manifest, and without one nothing calls `on_close`. -/
theorem releasedLife_not_final (hrunning : Running life) (haborted : life.aborted = false) :
    ∃ more last, run (step env) (releasedLife life) more = some last ∧
      ¬ Final env (releasedLife life) last := by
  by_cases hclosing : life.connection = .closing
  · have hphase : advance life.connection .closed = some .closed := by
      rw [hclosing]
      rfl
    have hclosed : ({ releasedLife life with connection := .closed }).advanced env .closed =
        dashCloseCb env { releasedLife life with connection := .closed } := by
      simp only [Life.advanced, Life.close, releasedLife, hrunning.closing hclosing]
    obtain ⟨later, htrace, hmem⟩ :=
      dashCloseCb_parse env { releasedLife life with connection := .closed }
    refine ⟨[.network .closed], _, run_network env haborted hphase, ?_⟩
    rw [hclosed]
    exact not_final_of_goesOn htrace hmem rfl
  · have hunclosed (last : Life) (hreleased : last.released = true)
        (hresting : last.connection.resting = true)
        (htrace : last.trace = (releasedLife life).trace) :
        ¬ Final env (releasedLife life) last := by
      intro hfinal
      have honce := hfinal.closed (quiescent_of_resting hreleased hresting)
      rw [htrace, closes_releasedLife, hrunning.closes] at honce
      exact absurd honce nofun
    obtain hresting | ⟨event, phase, hreports, hphase, hresting⟩ := exists_rest hclosing
    · exact ⟨[], _, rfl, hunclosed _ rfl hresting rfl⟩
    · refine ⟨[.network event], _, run_network env haborted hphase, ?_⟩
      rw [advanced_of_reports hreports]
      exact hunclosed _ rfl hresting rfl

/-- A lookup that is pending when the client is shut down starts the connection all the same. -/
theorem resolving_not_final (haborted : life.aborted = false) (hshutdown : life.isShutdown = false)
    (hresolving : life.connection = .resolving) :
    ∃ more last, run (step env) (dlDashShutdown env life) more = some last ∧
      ¬ Final env (dlDashShutdown env life) last := by
  have hcalled : httpClientShutdown life.connection = .called := by
    rw [hresolving]
    rfl
  have hphase : advance life.connection .resolved = some .connecting := by
    rw [hresolving]
    rfl
  rw [dlDashShutdown_called env hshutdown hcalled]
  refine ⟨[.network .resolved], _, run_network env haborted hphase, ?_⟩
  exact not_final_of_goesOn rfl (List.mem_singleton_self Effect.connect) rfl

/-- A client that cannot be ended is stopped short of `on_close`. -/
theorem invalid_not_final (hrunning : Running life) (hshutdown : life.isShutdown = false)
    (hinvalid : httpClientShutdown life.connection = .invalid) :
    ∃ more last, run (step env) (dlDashShutdown env life) more = some last ∧
      ¬ Final env (dlDashShutdown env life) last := by
  rw [dlDashShutdown_invalid env hshutdown hinvalid]
  refine ⟨[], _, rfl, fun hfinal ↦ ?_⟩
  have honce := hfinal.closed (quiescent_of_aborted rfl)
  rw [closes_releasedLife, hrunning.closes] at honce
  exact absurd honce nofun

/-- A second idle step shuts the client down once more: `on_close` is called twice, or not at
all. -/
theorem idle_not_final (haborted : life.aborted = false) (hshutdown : life.isShutdown = false)
    (hidles : life.idles ≠ 0)
    (htwice : closes life.trace = 1 ∧ httpClientShutdown life.connection = .called ∨
      closes life.trace = 0 ∧ httpClientShutdown life.connection = .invalid) :
    ∃ more last, run (step env) life more = some last ∧ ¬ Final env life last := by
  refine ⟨[.idle], _, run_idle env haborted hidles, fun hfinal ↦ ?_⟩
  obtain ⟨hcloses, hcalled⟩ | ⟨hcloses, hinvalid⟩ := htwice
  · have honce := hfinal.closes_le
    rw [closes_dlDashShutdown_called env hshutdown hcalled, hcloses] at honce
    omega
  · rw [dlDashShutdown_invalid env hshutdown hinvalid] at hfinal
    have honce := hfinal.closed (quiescent_of_aborted rfl)
    rw [closes_releasedLife, hcloses] at honce
    exact absurd honce nofun

theorem second_not_final (hrunning : Running life) (haborted : life.aborted = false)
    (hshutdown : life.isShutdown = false) (hclosable : life.connection.closable = true)
    (hidles : 2 ≤ life.idles) :
    ∃ more last, run (step env) (dlDashShutdown env life) more = some last ∧
      ¬ Final env (dlDashShutdown env life) last := by
  have hpending : life.idles - 1 ≠ 0 := by omega
  obtain ⟨hcalled, -⟩ | hclosing := closable_cases hclosable
  · have honce := closes_dlDashShutdown_called env hshutdown hcalled
    rw [hrunning.closes, dlDashShutdown_called env hshutdown hcalled] at honce
    rw [dlDashShutdown_called env hshutdown hcalled]
    exact idle_not_final haborted hshutdown hpending (.inl ⟨honce, hcalled⟩)
  · rw [dlDashShutdown_pending env hshutdown hclosing]
    have hcloses := (closes_releasedLife life).trans hrunning.closes
    exact idle_not_final haborted hshutdown hpending (.inr ⟨hcloses, rfl⟩)

end Steps

/-- **The shutdown of a DASH download.** Let the first idle step run in any state that a run
reaches. Nothing goes on after it and `on_close` is called exactly once, whatever happens then,
exactly when the connection of the manifest is not being closed at that point, the client is one
that can be ended, and `ytdl_dl_dash_shutdown` was called once. -/
theorem dashShutdown_final_iff (env : Environment) (onData onSegmentComplete onManifest
    isVideo : Bool) (onPickFilter : PickFilter) (events : List Event)
    (hfirst : ∀ event ∈ events, event ≠ .idle)
    (life next : Life)
    (hrun : run (step env)
      (dashCtxInit onData onSegmentComplete onManifest isVideo onPickFilter) events = some life)
    (hidle : step env life .idle = some next) :
    (∀ more last, run (step env) next more = some last → Final env next last) ↔
      Undisturbed life := by
  have heach : Each (step env) (fun _ event _ ↦ event ≠ .idle)
      (dashCtxInit onData onSegmentComplete onManifest isVideo onPickFilter) events :=
    each_of_mem (fun event hevent _ _ ↦ hfirst event hevent) _
  have hkept (life : Life) (event : Event) (next : Life) (h : Running life) (hevent : event ≠ .idle)
      (hstep : step env life event = some next) : Running next :=
    running_step h hevent hstep
  have hrunning : Running life :=
    run_invariant hkept (running_dashCtxInit _ _ _ _ _) heach hrun
  obtain ⟨haborted, hidles, rfl⟩ := step_idle hidle
  constructor
  · intro hfinal
    have hnot (h : ∃ more last, run (step env) (dlDashShutdown env life) more = some last ∧
        ¬ Final env (dlDashShutdown env life) last) : False := by
      obtain ⟨more, last, hmore, hlast⟩ := h
      exact hlast (hfinal more last hmore)
    have hshutdown : life.isShutdown = false := by
      by_contra hshutdown
      rw [Bool.not_eq_false] at hshutdown
      rw [dlDashShutdown_of_isShutdown env hshutdown] at hnot
      exact hnot (releasedLife_not_final hrunning haborted)
    have hclosable : life.connection.closable = true := by
      by_contra hclosable
      obtain hresolving | hinvalid := not_closable_cases (Bool.eq_false_iff.mpr hclosable)
      · exact hnot (resolving_not_final haborted hshutdown hresolving)
      · exact hnot (invalid_not_final hrunning hshutdown hinvalid)
    refine ⟨hshutdown, hclosable, ?_⟩
    by_contra hsingle
    exact hnot (second_not_final hrunning haborted hshutdown hclosable (by omega))
  · intro hundisturbed more last hmore
    have hsettled := settled_dlDashShutdown env hrunning haborted hundisturbed
    apply Settled.final
    exact run_invariant (fun _ _ _ h _ hstep ↦ settled_step h hstep) hsettled
      (each_of_forall (fun _ _ _ ↦ trivial) _ _ : Each _ (fun _ _ _ ↦ True) _ _) hmore

/-- A manifest that names no format. -/
def emptyManifest : Environment where
  xmlReadMemory _ := none
  nodeListGetString _ := none
  parseUrl _ := some ([104], [47])
  isNumericHost _ := false

/-- A shutdown while the manifest is being fetched. -/
def fetching : List Event :=
  [.connect [117], .network .resolved, .network .tcpConnected, .network .ready, .body [60],
    .shutdown]

theorem fetching_final :
    ∃ life next,
      run (step emptyManifest) (dashCtxInit true true true true (getBestRepresentation fun _ ↦ 0))
          fetching = some life ∧
        step emptyManifest life .idle = some next ∧
        ∀ more last, run (step emptyManifest) next more = some last →
          Final emptyManifest next last := by
  refine ⟨_, _, rfl, rfl, ?_⟩
  exact (dashShutdown_final_iff emptyManifest true true true true (getBestRepresentation fun _ ↦ 0)
    fetching (by simp [fetching]) _ _ rfl rfl).mpr ⟨rfl, rfl, rfl⟩

/-- A shutdown while the connection of the manifest is being closed: when it is closed,
`on_manifest` is called, and the manifest is read that was released. -/
theorem closing_not_final :
    ∃ life next last,
      run (step emptyManifest) (dashCtxInit true true true true (getBestRepresentation fun _ ↦ 0))
          [.connect [117], .network .resolved, .network .tcpConnected, .network .ready, .body [60],
            .messageComplete false false, .shutdown] = some life ∧
        step emptyManifest life .idle = some next ∧
        run (step emptyManifest) next [.network .closed] = some last ∧
        ¬ Final emptyManifest next last := by
  refine ⟨_, _, _, rfl, rfl, rfl, ?_⟩
  exact not_final_of_goesOn rfl (List.mem_cons_self (a := Effect.onManifest)) rfl

end LibYtdl.Dl.DashShutdown
