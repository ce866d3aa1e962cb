import LibYtdl.Foundation.Machine
import LibYtdl.Foundation.Transition

/-!
# The info queue

A `ytdl_dl_ctx_t` with its connection: videos wait in a queue, the first one is being looked up. Its
watch page is requested and extracted; when its player script is not in the map yet, the script is
requested and extracted too; then the video is finalised and the next one is started.

What is extracted from a page or from a script is a parameter. Allocations succeed. The trace
records, in order, the calls, the slots of the queue's array that are accessed, the requests and the
answers to them, the extractions, the completions and the reports of failures.
-/

namespace LibYtdl.Dl.InfoQueue

open Machine Transition

/-- `ytdl_buf_t`: the bytes written so far and the size of the allocation. -/
structure Buf where
  bytes : Bytes
  size : ℕ
  fits : bytes.length ≤ size

/-- `ytdl_buf_alloc`. -/
def Buf.alloc (size : ℕ) : Buf := ⟨[], size, Nat.zero_le _⟩

/-- How the body callbacks append to a buffer, reallocating it first when it is too small. -/
def Buf.append (buf : Buf) (fragment : Bytes) : Buf where
  bytes := buf.bytes ++ fragment
  size :=
    if buf.size < buf.bytes.length + fragment.length then buf.bytes.length + fragment.length
    else buf.size
  fits := by
    rw [List.length_append]
    split <;> omega

/-- `buf.len = 0`. -/
def Buf.clear (buf : Buf) : Buf := ⟨[], buf.size, Nat.zero_le _⟩

/-- What the queue uses of pages and scripts: the functions of `info.c` and `sig.c`, each with its
return value first. -/
structure Extractors (Info Sig : Type) where
  infoCtxInit : Info
  extractWatchHtml : Info → Bytes → ℤ × Info
  getPlayabilityStatus : Info → ℤ × Info
  getPlayabilityStatusMessage : Info → Bytes
  playerUrl : Info → Bytes
  sigActionsExtract : Bytes → ℤ × Sig

variable {Id Info Sig Callback : Type}

/-- `ytdl_dl_video_t`; the pointer to the signature actions that `info` holds is kept apart. -/
structure Video (Id Info Sig Callback : Type) where
  id : Id
  info : Info
  response : Buf
  onComplete : Callback
  sigActions : Option Sig

/-- The values of `parser_settings.on_body`. -/
inductive BodyCb
  | watchBody
  | playerBody
  deriving DecidableEq, Repr

/-- The values of `parser_settings.on_message_complete`. -/
inductive MessageCompleteCb
  | watchHtmlComplete
  | playerJsComplete
  deriving DecidableEq, Repr

/-- `ytdl_dl_ctx_t`. The queue's `len` is the length of `videos`, and `size` is the number of slots
allocated; the flags are the bits of `status`. -/
structure Ctx (Id Info Sig Callback : Type) where
  videos : List (Video Id Info Sig Callback)
  size : ℕ
  playerJs : Buf
  playerMap : List (Bytes × Sig)
  isConnected : Bool
  isIdle : Bool
  onBody : BodyCb
  onMessageComplete : MessageCompleteCb

/-- The requests of `ytdl_net_request_watch_html` and `ytdl_net_request_player_js`. -/
inductive Request (Id : Type)
  | watchHtml (id : Id)
  | playerJs (playerPath : Bytes)
  deriving DecidableEq

/-- What a completion callback prints to `stderr` before it returns early. -/
inductive Report
  | watchExtractError (ret : ℤ)
  | playability (message : Bytes)
  | sigExtractError
  | mapError
  deriving DecidableEq

inductive Effect (Id Info Sig Callback : Type)
  | getInfo (id : Id) (onComplete : Callback)
  | slot (index size : ℕ)
  | request (request : Request Id)
  | answered (request : Request Id) (fragments : List Bytes)
  | complete (video : Video Id Info Sig Callback)
  | report (report : Report)
  | noVideo

/-- The context with the requests that wait for an answer, the body fragments of the answer that
has begun, and the trace. -/
structure Session (Id Info Sig Callback : Type) where
  ctx : Ctx Id Info Sig Callback
  outstanding : List (Request Id)
  fragments : List Bytes
  trace : List (Effect Id Info Sig Callback)

def Session.emit (session : Session Id Info Sig Callback) (effect : Effect Id Info Sig Callback) :
    Session Id Info Sig Callback :=
  { session with trace := session.trace ++ [effect] }

/-- `ytdl_http_client_write`. -/
def Session.write (session : Session Id Info Sig Callback) (request : Request Id) :
    Session Id Info Sig Callback :=
  { session with
    outstanding := session.outstanding ++ [request]
    trace := session.trace ++ [.request request] }

/-! ## The functions of `dl.c` -/

/-- `ytdl__watch_body_cb`. -/
def watchBodyCb (fragment : Bytes) (session : Session Id Info Sig Callback) :
    Session Id Info Sig Callback :=
  match session.ctx.videos with
  | [] => session.emit .noVideo
  | video :: videos =>
    { session with
      ctx :=
        { session.ctx with
          videos := { video with response := video.response.append fragment } :: videos } }

/-- `yt__player_body_cb`. -/
def playerBodyCb (fragment : Bytes) (session : Session Id Info Sig Callback) :
    Session Id Info Sig Callback :=
  { session with
    ctx := { session.ctx with playerJs := session.ctx.playerJs.append fragment } }

/-- `ytdl__dl_wake`. The idle bit is toggled, not cleared. -/
def dlWake (session : Session Id Info Sig Callback) : Session Id Info Sig Callback :=
  if !session.ctx.isIdle then
    session
  else
    match session.ctx.videos with
    | [] => session
    | video :: _ =>
      let session :=
        { session with
          ctx :=
            { session.ctx with
              onBody := .watchBody
              onMessageComplete := .watchHtmlComplete } }.write (.watchHtml video.id)
      { session with ctx := { session.ctx with isIdle := !session.ctx.isIdle } }

/-- A video as `ytdl_dl_get_info` fills it in. -/
def newVideo (extractors : Extractors Info Sig) (id : Id) (onComplete : Callback) :
    Video Id Info Sig Callback where
  id := id
  info := extractors.infoCtxInit
  response := Buf.alloc 1
  onComplete := onComplete
  sigActions := none

/-- The number of slots after `queue.size *= 1.5`, truncated. -/
def grow (size : ℕ) : ℕ := size * 3 / 2

/-- `ytdl_dl_get_info`. -/
def dlGetInfo (extractors : Extractors Info Sig) (id : Id) (onComplete : Callback)
    (session : Session Id Info Sig Callback) : Session Id Info Sig Callback :=
  let ctx := session.ctx
  let size := if ctx.size = ctx.videos.length then grow ctx.size else ctx.size
  dlWake
    { session with
      ctx :=
        { ctx with
          videos := ctx.videos ++ [newVideo extractors id onComplete]
          size := size }
      trace := session.trace ++ [.getInfo id onComplete, .slot ctx.videos.length size] }

/-- The calls of `ytdl_dl_get_info` that an `on_complete` callback makes. -/
def nestedGetInfo (extractors : Extractors Info Sig) :
    List (Id × Callback) → Session Id Info Sig Callback → Session Id Info Sig Callback
  | [], session => session
  | call :: nested, session =>
    nestedGetInfo extractors nested (dlGetInfo extractors call.1 call.2 session)

/-- The slots read and written when the videos move up by one. -/
def shiftSlots (len size : ℕ) : List (Effect Id Info Sig Callback) :=
  (List.range (len - 1)).flatMap fun index ↦ [.slot (index + 1) size, .slot index size]

/-- `ytdl__dl_finalize` after `on_complete`: the first video is removed and the queue woken. -/
def popVideo (session : Session Id Info Sig Callback) : Session Id Info Sig Callback :=
  let ctx := session.ctx
  let session :=
    { session with
      ctx := { ctx with videos := ctx.videos.tail, isIdle := true }
      trace := session.trace ++ shiftSlots ctx.videos.length ctx.size }
  if session.ctx.videos.length > 0 then dlWake session else session

/-- `ytdl__dl_finalize`, with the calls that `on_complete` makes. -/
def dlFinalize (extractors : Extractors Info Sig) (sigActions : Sig)
    (nested : List (Id × Callback)) (session : Session Id Info Sig Callback) :
    Session Id Info Sig Callback :=
  match session.ctx.videos with
  | [] => session.emit .noVideo
  | video :: videos =>
    let video := { video with sigActions := some sigActions }
    popVideo
      (nestedGetInfo extractors nested
        ({ session with ctx := { session.ctx with videos := video :: videos } }.emit
          (.complete video)))

/-- `hashmap_put`: an entry that exists is not overwritten, and `-EEXIST` is returned. -/
def hashmapPut (map : List (Bytes × Sig)) (key : Bytes) (data : Sig) : ℤ × List (Bytes × Sig) :=
  if (map.lookup key).isSome then (-17, map) else (0, map ++ [(key, data)])

/-- `ytdl__player_js_complete`. -/
def playerJsComplete (extractors : Extractors Info Sig) (nested : List (Id × Callback))
    (session : Session Id Info Sig Callback) : Session Id Info Sig Callback :=
  match session.ctx.videos with
  | [] => session.emit .noVideo
  | video :: _ =>
    let playerPath := extractors.playerUrl video.info
    let (ret, sigActions) := extractors.sigActionsExtract session.ctx.playerJs.bytes
    if ret ≠ 0 then
      session.emit (.report .sigExtractError)
    else
      let (put, playerMap) := hashmapPut session.ctx.playerMap playerPath sigActions
      let session := { session with ctx := { session.ctx with playerMap := playerMap } }
      if put < 0 then
        session.emit (.report .mapError)
      else
        dlFinalize extractors sigActions nested
          { session with ctx := { session.ctx with playerJs := session.ctx.playerJs.clear } }

/-- `ytdl__watch_html_complete`. -/
def watchHtmlComplete (extractors : Extractors Info Sig) (nested : List (Id × Callback))
    (session : Session Id Info Sig Callback) : Session Id Info Sig Callback :=
  match session.ctx.videos with
  | [] => session.emit .noVideo
  | video :: videos =>
    let (ret, info) := extractors.extractWatchHtml video.info video.response.bytes
    if ret ≠ 0 then
      { session with
        ctx := { session.ctx with videos := { video with info := info } :: videos } }.emit
        (.report (.watchExtractError ret))
    else
      let (playability, info) := extractors.getPlayabilityStatus info
      let session :=
        { session with
          ctx := { session.ctx with videos := { video with info := info } :: videos } }
      if playability ≠ 0 then
        session.emit (.report (.playability (extractors.getPlayabilityStatusMessage info)))
      else
        match session.ctx.playerMap.lookup (extractors.playerUrl info) with
        | some player => dlFinalize extractors player nested session
        | none =>
          { session with
            ctx :=
              { session.ctx with
                onBody := .playerBody
                onMessageComplete := .playerJsComplete } }.write
            (.playerJs (extractors.playerUrl info))

/-- `ytdl_dl_ctx_init`, apart from the player map. -/
def dlCtxInit (playerMap : List (Bytes × Sig)) : Ctx Id Info Sig Callback where
  videos := []
  size := 1
  playerJs := Buf.alloc 1
  playerMap := playerMap
  isConnected := false
  isIdle := false
  onBody := .watchBody
  onMessageComplete := .watchHtmlComplete

/-- `ytdl__connected_cb`. -/
def connectedCb (session : Session Id Info Sig Callback) : Session Id Info Sig Callback :=
  dlWake { session with ctx := { session.ctx with isConnected := true, isIdle := true } }

/-! ## The event loop -/

/-- The events: calls of the user, the connection, and the answers of the server with what
`on_complete` calls in turn. -/
inductive Event (Id Callback : Type)
  | getInfo (id : Id) (onComplete : Callback)
  | connected
  | body (fragment : Bytes)
  | messageComplete (nested : List (Id × Callback))

/-- A fragment of an answer goes to the body callback. -/
def bodyEvent (fragment : Bytes) (session : Session Id Info Sig Callback) :
    Session Id Info Sig Callback :=
  let session := { session with fragments := session.fragments ++ [fragment] }
  match session.ctx.onBody with
  | .watchBody => watchBodyCb fragment session
  | .playerBody => playerBodyCb fragment session

/-- The answer to `request` ends, and the completion callback runs. -/
def messageEvent (extractors : Extractors Info Sig) (nested : List (Id × Callback))
    (request : Request Id) (outstanding : List (Request Id))
    (session : Session Id Info Sig Callback) : Session Id Info Sig Callback :=
  let session :=
    { session with
      outstanding := outstanding
      fragments := []
      trace := session.trace ++ [Effect.answered request session.fragments] }
  match session.ctx.onMessageComplete with
  | .watchHtmlComplete => watchHtmlComplete extractors nested session
  | .playerJsComplete => playerJsComplete extractors nested session

/-- The connection is made once. The server answers the requests in order, one complete answer to
each. -/
def step (extractors : Extractors Info Sig) :
    Step (Session Id Info Sig Callback) (Event Id Callback)
  | session, .getInfo id onComplete => some (dlGetInfo extractors id onComplete session)
  | session, .connected => if session.ctx.isConnected then none else some (connectedCb session)
  | session, .body fragment =>
    match session.outstanding with
    | [] => none
    | _ :: _ => some (bodyEvent fragment session)
  | session, .messageComplete nested =>
    match session.outstanding with
    | [] => none
    | request :: outstanding =>
      some (messageEvent extractors nested request outstanding session)

/-- A context after `ytdl_dl_ctx_init`, with the players of `playerMap` loaded. -/
def Session.init (playerMap : List (Bytes × Sig)) : Session Id Info Sig Callback where
  ctx := dlCtxInit playerMap
  outstanding := []
  fragments := []
  trace := []

/-! ## What the trace shows -/

section Trace

variable (trace : List (Effect Id Info Sig Callback))

/-- The calls of `ytdl_dl_get_info`. -/
def getInfos : List (Id × Callback) :=
  trace.filterMap fun
    | .getInfo id onComplete => some (id, onComplete)
    | _ => none

/-- The videos given to `on_complete`. -/
def completed : List (Video Id Info Sig Callback) :=
  trace.filterMap fun
    | .complete video => some video
    | _ => none

/-- The requests written. -/
def requests : List (Request Id) :=
  trace.filterMap fun
    | .request request => some request
    | _ => none

/-- The requests answered, each with the body fragments of its answer. -/
def answers : List (Request Id × List Bytes) :=
  trace.filterMap fun
    | .answered request fragments => some (request, fragments)
    | _ => none

/-- The slots accessed, each with the number of slots allocated then. -/
def slots : List (ℕ × ℕ) :=
  trace.filterMap fun
    | .slot index size => some (index, size)
    | _ => none

end Trace

section TraceLemmas

variable (effect : Effect Id Info Sig Callback)
  (trace first second : List (Effect Id Info Sig Callback))

@[simp] theorem getInfos_nil : getInfos ([] : List (Effect Id Info Sig Callback)) = [] := rfl

@[simp] theorem completed_nil : completed ([] : List (Effect Id Info Sig Callback)) = [] := rfl

@[simp] theorem requests_nil : requests ([] : List (Effect Id Info Sig Callback)) = [] := rfl

@[simp] theorem answers_nil : answers ([] : List (Effect Id Info Sig Callback)) = [] := rfl

@[simp] theorem slots_nil : slots ([] : List (Effect Id Info Sig Callback)) = [] := rfl

@[simp] theorem getInfos_cons :
    getInfos (effect :: trace) =
      (match effect with
        | .getInfo id onComplete => [(id, onComplete)]
        | _ => []) ++ getInfos trace := by
  cases effect <;> rfl

@[simp] theorem completed_cons :
    completed (effect :: trace) =
      (match effect with
        | .complete video => [video]
        | _ => []) ++ completed trace := by
  cases effect <;> rfl

@[simp] theorem requests_cons :
    requests (effect :: trace) =
      (match effect with
        | .request request => [request]
        | _ => []) ++ requests trace := by
  cases effect <;> rfl

@[simp] theorem answers_cons :
    answers (effect :: trace) =
      (match effect with
        | .answered request fragments => [(request, fragments)]
        | _ => []) ++ answers trace := by
  cases effect <;> rfl

@[simp] theorem slots_cons :
    slots (effect :: trace) =
      (match effect with
        | .slot index size => [(index, size)]
        | _ => []) ++ slots trace := by
  cases effect <;> rfl

@[simp] theorem getInfos_append :
    getInfos (first ++ second) = getInfos first ++ getInfos second := List.filterMap_append

@[simp] theorem completed_append :
    completed (first ++ second) = completed first ++ completed second := List.filterMap_append

@[simp] theorem requests_append :
    requests (first ++ second) = requests first ++ requests second := List.filterMap_append

@[simp] theorem answers_append :
    answers (first ++ second) = answers first ++ answers second := List.filterMap_append

@[simp] theorem slots_append :
    slots (first ++ second) = slots first ++ slots second := List.filterMap_append

end TraceLemmas

/-- Effects that show no completion, no request and no answer. -/
structure Silent (effects : List (Effect Id Info Sig Callback)) : Prop where
  completed : completed effects = []
  requests : requests effects = []
  answers : answers effects = []

theorem Silent.append {first second : List (Effect Id Info Sig Callback)} (hfirst : Silent first)
    (hsecond : Silent second) : Silent (first ++ second) where
  completed := by rw [completed_append, hfirst.completed, hsecond.completed, List.append_nil]
  requests := by rw [requests_append, hfirst.requests, hsecond.requests, List.append_nil]
  answers := by rw [answers_append, hfirst.answers, hsecond.answers, List.append_nil]

theorem shiftSlots_silent (len size : ℕ) :
    Silent (shiftSlots len size : List (Effect Id Info Sig Callback)) := by
  constructor <;>
    exact List.filterMap_eq_nil_iff.mpr fun effect heffect ↦ by
      simp only [shiftSlots, List.mem_flatMap, List.mem_cons, List.not_mem_nil, or_false] at heffect
      obtain ⟨index, -, rfl | rfl⟩ := heffect <;> rfl

theorem getInfos_shiftSlots (len size : ℕ) :
    getInfos (shiftSlots len size : List (Effect Id Info Sig Callback)) = [] :=
  List.filterMap_eq_nil_iff.mpr fun effect heffect ↦ by
    simp only [shiftSlots, List.mem_flatMap, List.mem_cons, List.not_mem_nil, or_false] at heffect
    obtain ⟨index, -, rfl | rfl⟩ := heffect <;> rfl

/-! ## What the functions do -/

section Functions

variable {extractors : Extractors Info Sig} {session : Session Id Info Sig Callback}
  {video : Video Id Info Sig Callback} {videos : List (Video Id Info Sig Callback)}

theorem dlWake_of_not_idle (hidle : session.ctx.isIdle = false) : dlWake session = session := by
  simp [dlWake, hidle]

theorem dlWake_nil (hvideos : session.ctx.videos = []) : dlWake session = session := by
  simp [dlWake, hvideos]

theorem dlWake_cons (hidle : session.ctx.isIdle = true)
    (hvideos : session.ctx.videos = video :: videos) :
    dlWake session =
      { session with
        ctx :=
          { session.ctx with
            isIdle := false
            onBody := .watchBody
            onMessageComplete := .watchHtmlComplete }
        outstanding := session.outstanding ++ [.watchHtml video.id]
        trace := session.trace ++ [.request (.watchHtml video.id)] } := by
  simp [dlWake, hidle, hvideos, Session.write]

/-- Waking either does nothing or requests the watch page of the first video. -/
theorem dlWake_cases (session : Session Id Info Sig Callback) :
    dlWake session = session ∨
      ∃ video videos, session.ctx.videos = video :: videos ∧
        dlWake session =
          { session with
            ctx :=
              { session.ctx with
                isIdle := false
                onBody := .watchBody
                onMessageComplete := .watchHtmlComplete }
            outstanding := session.outstanding ++ [.watchHtml video.id]
            trace := session.trace ++ [.request (.watchHtml video.id)] } := by
  cases hidle : session.ctx.isIdle with
  | false => exact .inl (dlWake_of_not_idle hidle)
  | true =>
    cases hvideos : session.ctx.videos with
    | nil => exact .inl (dlWake_nil hvideos)
    | cons video videos => exact .inr ⟨video, videos, rfl, dlWake_cons hidle hvideos⟩

@[simp] theorem dlWake_videos (session : Session Id Info Sig Callback) :
    (dlWake session).ctx.videos = session.ctx.videos := by
  obtain h | ⟨video, videos, -, h⟩ := dlWake_cases session <;> rw [h]

@[simp] theorem dlWake_size (session : Session Id Info Sig Callback) :
    (dlWake session).ctx.size = session.ctx.size := by
  obtain h | ⟨video, videos, -, h⟩ := dlWake_cases session <;> rw [h]

@[simp] theorem slots_dlWake (session : Session Id Info Sig Callback) :
    slots (dlWake session).trace = slots session.trace := by
  obtain h | ⟨video, videos, -, h⟩ := dlWake_cases session <;> rw [h]
  simp

/-- While the queue is not idle, a call only appends its video. -/
theorem dlGetInfo_of_not_idle (extractors : Extractors Info Sig)
    (hidle : session.ctx.isIdle = false) (id : Id) (onComplete : Callback) :
    ∃ size,
      dlGetInfo extractors id onComplete session =
        { session with
          ctx :=
            { session.ctx with
              videos := session.ctx.videos ++ [newVideo extractors id onComplete]
              size := size }
          trace :=
            session.trace ++ [.getInfo id onComplete, .slot session.ctx.videos.length size] } :=
  ⟨_, dlWake_of_not_idle hidle⟩

theorem nestedGetInfo_of_not_idle (extractors : Extractors Info Sig)
    (hidle : session.ctx.isIdle = false) (nested : List (Id × Callback)) :
    ∃ size effects,
      nestedGetInfo extractors nested session =
        { session with
          ctx :=
            { session.ctx with
              videos :=
                session.ctx.videos ++ nested.map fun call ↦ newVideo extractors call.1 call.2
              size := size }
          trace := session.trace ++ effects } ∧
      getInfos effects = nested ∧ Silent effects := by
  induction nested generalizing session with
  | nil => exact ⟨session.ctx.size, [], by simp [nestedGetInfo], rfl, rfl, rfl, rfl⟩
  | cons call nested ih =>
    obtain ⟨newSize, hcall⟩ := dlGetInfo_of_not_idle extractors hidle call.1 call.2
    have hkept : (dlGetInfo extractors call.1 call.2 session).ctx.isIdle = false := by
      rw [hcall]
      exact hidle
    obtain ⟨size, effects, hnested, hgetInfos, hsilent⟩ := ih hkept
    refine ⟨size,
      [.getInfo call.1 call.2, .slot session.ctx.videos.length newSize] ++ effects, ?_, ?_,
      Silent.append ⟨rfl, rfl, rfl⟩ hsilent⟩
    · rw [nestedGetInfo, hnested, hcall]
      simp
    · rw [getInfos_append, hgetInfos]
      rfl

theorem popVideo_eq (session : Session Id Info Sig Callback) :
    popVideo session =
      dlWake
        { session with
          ctx := { session.ctx with videos := session.ctx.videos.tail, isIdle := true }
          trace :=
            session.trace ++ shiftSlots session.ctx.videos.length session.ctx.size } := by
  unfold popVideo
  dsimp only
  split
  · rfl
  · rename_i hempty
    rw [dlWake_nil]
    exact List.eq_nil_of_length_eq_zero (Nat.eq_zero_of_not_pos hempty)

/-- The state in which `on_complete` makes its calls. -/
def handedSession (session : Session Id Info Sig Callback) (video : Video Id Info Sig Callback)
    (videos : List (Video Id Info Sig Callback)) (sigActions : Sig) :
    Session Id Info Sig Callback :=
  { session with
    ctx :=
      { session.ctx with videos := { video with sigActions := some sigActions } :: videos }
    trace := session.trace ++ [.complete { video with sigActions := some sigActions }] }

theorem dlFinalize_eq (hvideos : session.ctx.videos = video :: videos) (sigActions : Sig)
    (nested : List (Id × Callback)) :
    dlFinalize extractors sigActions nested session =
      popVideo (nestedGetInfo extractors nested
        (handedSession session video videos sigActions)) := by
  simp [dlFinalize, hvideos, handedSession, Session.emit]

/-- Finalising gives the first video to `on_complete`, removes it and wakes the queue. -/
theorem dlFinalize_cons (extractors : Extractors Info Sig)
    (hidle : session.ctx.isIdle = false) (hvideos : session.ctx.videos = video :: videos)
    (sigActions : Sig) (nested : List (Id × Callback)) :
    ∃ size effects,
      dlFinalize extractors sigActions nested session =
        dlWake
          { session with
            ctx :=
              { session.ctx with
                videos := videos ++ nested.map fun call ↦ newVideo extractors call.1 call.2
                size := size
                isIdle := true }
            trace :=
              session.trace ++ [.complete { video with sigActions := some sigActions }] ++
                effects } ∧
      getInfos effects = nested ∧ Silent effects := by
  have hhanded : (handedSession session video videos sigActions).ctx.isIdle = false := hidle
  obtain ⟨size, effects, hnested, hgetInfos, hsilent⟩ :=
    nestedGetInfo_of_not_idle extractors hhanded nested
  refine ⟨size, effects ++ shiftSlots (videos.length + nested.length + 1) size, ?_, ?_,
    hsilent.append (shiftSlots_silent _ _)⟩
  · rw [dlFinalize_eq hvideos, hnested, popVideo_eq]
    simp [handedSession]
  · rw [getInfos_append, hgetInfos, getInfos_shiftSlots, List.append_nil]

theorem bodyEvent_watchBody (honBody : session.ctx.onBody = .watchBody)
    (hvideos : session.ctx.videos = video :: videos) (fragment : Bytes) :
    bodyEvent fragment session =
      { session with
        ctx :=
          { session.ctx with
            videos := { video with response := video.response.append fragment } :: videos }
        fragments := session.fragments ++ [fragment] } := by
  simp [bodyEvent, honBody, watchBodyCb, hvideos]

theorem bodyEvent_playerBody (honBody : session.ctx.onBody = .playerBody) (fragment : Bytes) :
    bodyEvent fragment session =
      { session with
        ctx := { session.ctx with playerJs := session.ctx.playerJs.append fragment }
        fragments := session.fragments ++ [fragment] } := by
  simp [bodyEvent, honBody, playerBodyCb]

/-- The state in which a completion callback runs. -/
def answeredSession (session : Session Id Info Sig Callback) (request : Request Id)
    (outstanding : List (Request Id)) : Session Id Info Sig Callback :=
  { session with
    outstanding := outstanding
    fragments := []
    trace := session.trace ++ [.answered request session.fragments] }

theorem messageEvent_watchHtml
    (honMessageComplete : session.ctx.onMessageComplete = .watchHtmlComplete)
    (nested : List (Id × Callback)) (request : Request Id) (outstanding : List (Request Id)) :
    messageEvent extractors nested request outstanding session =
      watchHtmlComplete extractors nested (answeredSession session request outstanding) := by
  simp [messageEvent, answeredSession, honMessageComplete]

theorem messageEvent_playerJs
    (honMessageComplete : session.ctx.onMessageComplete = .playerJsComplete)
    (nested : List (Id × Callback)) (request : Request Id) (outstanding : List (Request Id)) :
    messageEvent extractors nested request outstanding session =
      playerJsComplete extractors nested (answeredSession session request outstanding) := by
  simp [messageEvent, answeredSession, honMessageComplete]

/-- The page can be used: it extracts, and the video is playable. -/
def PageUsable (extractors : Extractors Info Sig) (info : Info) (page : Bytes) : Prop :=
  (extractors.extractWatchHtml info page).1 = 0 ∧
    (extractors.getPlayabilityStatus (extractors.extractWatchHtml info page).2).1 = 0

instance (info : Info) (page : Bytes) : Decidable (PageUsable extractors info page) :=
  inferInstanceAs (Decidable (_ ∧ _))

/-- The info once the page has been extracted and the playability looked up. -/
def pageInfo (extractors : Extractors Info Sig) (info : Info) (page : Bytes) : Info :=
  (extractors.getPlayabilityStatus (extractors.extractWatchHtml info page).2).2

/-- A page that cannot be used is reported, and the function returns. -/
theorem watchHtmlComplete_unusable (hvideos : session.ctx.videos = video :: videos)
    (hpage : ¬ PageUsable extractors video.info video.response.bytes)
    (nested : List (Id × Callback)) :
    ∃ info report,
      watchHtmlComplete extractors nested session =
        { session with
          ctx := { session.ctx with videos := { video with info := info } :: videos }
          trace := session.trace ++ [.report report] } := by
  rw [watchHtmlComplete, hvideos]
  by_cases hextract : (extractors.extractWatchHtml video.info video.response.bytes).1 = 0
  · have hplayability := mt (And.intro hextract) hpage
    refine ⟨pageInfo extractors video.info video.response.bytes, .playability
      (extractors.getPlayabilityStatusMessage
        (pageInfo extractors video.info video.response.bytes)), ?_⟩
    simp [pageInfo, hextract, hplayability, Session.emit]
  · refine ⟨(extractors.extractWatchHtml video.info video.response.bytes).2, .watchExtractError
      (extractors.extractWatchHtml video.info video.response.bytes).1, ?_⟩
    simp [hextract, Session.emit]

/-- A usable page of a video whose player is known. -/
theorem watchHtmlComplete_known (hvideos : session.ctx.videos = video :: videos)
    (hpage : PageUsable extractors video.info video.response.bytes) {sigActions : Sig}
    (hplayer :
      session.ctx.playerMap.lookup
        (extractors.playerUrl (pageInfo extractors video.info video.response.bytes)) =
          some sigActions)
    (nested : List (Id × Callback)) :
    watchHtmlComplete extractors nested session =
      dlFinalize extractors sigActions nested
        { session with
          ctx :=
            { session.ctx with
              videos :=
                { video with info := pageInfo extractors video.info video.response.bytes } ::
                  videos } } := by
  rw [pageInfo] at hplayer ⊢
  simp [watchHtmlComplete, hvideos, hpage.1, hpage.2, hplayer]

/-- A usable page of a video whose player is not known: its script is requested. -/
theorem watchHtmlComplete_unknown (hvideos : session.ctx.videos = video :: videos)
    (hpage : PageUsable extractors video.info video.response.bytes)
    (hplayer :
      session.ctx.playerMap.lookup
        (extractors.playerUrl (pageInfo extractors video.info video.response.bytes)) = none)
    (nested : List (Id × Callback)) :
    watchHtmlComplete extractors nested session =
      { session with
        ctx :=
          { session.ctx with
            videos :=
              { video with info := pageInfo extractors video.info video.response.bytes } ::
                videos
            onBody := .playerBody
            onMessageComplete := .playerJsComplete }
        outstanding :=
          session.outstanding ++
            [.playerJs (extractors.playerUrl
              (pageInfo extractors video.info video.response.bytes))]
        trace :=
          session.trace ++
            [.request (.playerJs (extractors.playerUrl
              (pageInfo extractors video.info video.response.bytes)))] } := by
  rw [pageInfo] at hplayer ⊢
  simp [watchHtmlComplete, hvideos, hpage.1, hpage.2, hplayer, Session.write]

/-- A script that does not extract is reported, and the function returns. -/
theorem playerJsComplete_unusable (hvideos : session.ctx.videos = video :: videos)
    (hscript : (extractors.sigActionsExtract session.ctx.playerJs.bytes).1 ≠ 0)
    (nested : List (Id × Callback)) :
    playerJsComplete extractors nested session =
      { session with trace := session.trace ++ [.report .sigExtractError] } := by
  simp [playerJsComplete, hvideos, hscript, Session.emit]

/-- A script for a path that the map holds already is reported, and the function returns. -/
theorem playerJsComplete_known (hvideos : session.ctx.videos = video :: videos)
    (hscript : (extractors.sigActionsExtract session.ctx.playerJs.bytes).1 = 0)
    (hplayer : (session.ctx.playerMap.lookup (extractors.playerUrl video.info)).isSome)
    (nested : List (Id × Callback)) :
    playerJsComplete extractors nested session =
      { session with trace := session.trace ++ [.report .mapError] } := by
  rw [playerJsComplete, hvideos]
  simp [hscript, hashmapPut, hplayer, Session.emit]

/-- A script that extracts, for a new path. -/
theorem playerJsComplete_unknown (hvideos : session.ctx.videos = video :: videos)
    (hscript : (extractors.sigActionsExtract session.ctx.playerJs.bytes).1 = 0)
    (hplayer : session.ctx.playerMap.lookup (extractors.playerUrl video.info) = none)
    (nested : List (Id × Callback)) :
    playerJsComplete extractors nested session =
      dlFinalize extractors (extractors.sigActionsExtract session.ctx.playerJs.bytes).2 nested
        { session with
          ctx :=
            { session.ctx with
              playerMap := session.ctx.playerMap ++
                [(extractors.playerUrl video.info,
                  (extractors.sigActionsExtract session.ctx.playerJs.bytes).2)]
              playerJs := session.ctx.playerJs.clear } } := by
  simp [playerJsComplete, hvideos, hscript, hashmapPut, hplayer]

/-! ## What the events do -/

theorem step_connected {next : Session Id Info Sig Callback}
    (h : step extractors session .connected = some next) :
    session.ctx.isConnected = false ∧ connectedCb session = next := by
  simpa [step] using h

theorem step_body {next : Session Id Info Sig Callback} {fragment : Bytes}
    (h : step extractors session (.body fragment) = some next) :
    session.outstanding ≠ [] ∧ bodyEvent fragment session = next := by
  cases houtstanding : session.outstanding with
  | nil => simp [step, houtstanding] at h
  | cons request outstanding => exact ⟨List.cons_ne_nil _ _, by simpa [step, houtstanding] using h⟩

theorem step_messageComplete {next : Session Id Info Sig Callback} {nested : List (Id × Callback)}
    (h : step extractors session (.messageComplete nested) = some next) :
    ∃ request outstanding, session.outstanding = request :: outstanding ∧
      messageEvent extractors nested request outstanding session = next := by
  cases houtstanding : session.outstanding with
  | nil => simp [step, houtstanding] at h
  | cons request outstanding =>
    exact ⟨request, outstanding, rfl, by simpa [step, houtstanding] using h⟩

end Functions

end LibYtdl.Dl.InfoQueue
