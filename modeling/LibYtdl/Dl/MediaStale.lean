import LibYtdl.Dl.MediaDownload
import LibYtdl.Info.Format

/-!
# What a media download reads of its memory

`ytdl_dl_media_ctx_init` leaves some fields of the memory it is given as they are. Most of them are
written before any callback reads them. `on_chunk_complete` is not: it is called at the end of every
chunk but the last. And the mode of the download is computed from flags that the same function only
fills in afterwards.
-/

namespace LibYtdl.Dl.MediaStale

open Info.Format Machine MediaDownload Transition

variable {Url Callback : Type} {parseUrl : Bytes → Option Url}

/-- The memory of a `ytdl_dl_media_ctx_t`, with the pointer that `on_chunk_complete` holds. -/
structure Memory (Url Callback : Type) where
  ctx : Ctx Url
  onChunkComplete : Option Callback

/-- `ytdl_dl_media_ctx_init`. The flags are read before the format is filled in, its content length
afterwards. -/
def mediaCtxInitFormat (parseUrl : Bytes → Option Url)
    (urlOf : Option String → Option String → Option Bytes) (mem : Memory Url Callback)
    (format : InfoFormat) : Option (Ctx Url) :=
  (infoGetFormatUrl2 urlOf format).bind fun (formatUrl, filled) ↦
    formatUrl.bind fun formatUrl ↦
      mediaCtxInit parseUrl { mem.ctx with onChunkComplete := mem.onChunkComplete.isSome }
        { hasAud := format.hasAud, hasVid := format.hasVid, contentLength := filled.contentLength }
        formatUrl

/-- What `ytdl__info_complete` of `cli.c` does with a format: the context is initialised, its
`on_data` and `on_complete` are set, and the connection is started. -/
def infoComplete (parseUrl : Bytes → Option Url)
    (urlOf : Option String → Option String → Option Bytes) (mem : Memory Url Callback)
    (format : InfoFormat) : Option (Download Url) :=
  (mediaCtxInitFormat parseUrl urlOf mem format).map fun ctx ↦
    Download.ready { ctx with onData := true, onComplete := true }

/-- An event that the connection and the server cause. The user of `cli.c` causes no other. -/
def IsCallback : Event → Prop
  | .nextChunk | .setPause _ => False
  | _ => True

/-- An effect, and the function that is called when it is a call of `on_chunk_complete`. -/
def observe (onChunkComplete : Option Callback) (effect : Effect Url) :
    Effect Url × Option Callback :=
  (effect,
    match effect with
    | .chunkComplete => onChunkComplete
    | _ => none)

/-- What a run shows. -/
def observed (parseUrl : Bytes → Option Url) (mem : Memory Url Callback) (download : Download Url)
    (events : List Event) : Option (List (Effect Url × Option Callback)) :=
  (run (step parseUrl) download events).map fun last ↦
    last.trace.map (observe mem.onChunkComplete)

/-! ## Downloads that differ in stale fields -/

/-- The fields that `ytdl_dl_media_ctx_init` does not write. -/
structure Stale where
  onChunkComplete : Bool
  wantRedirect : Bool
  redirectWasLocation : Bool
  lastChunkEnd : ℕ

/-- The same download in other memory. -/
def patch (stale : Stale) (download : Download Url) : Download Url :=
  { download with
    ctx :=
      { download.ctx with
        onChunkComplete := stale.onChunkComplete
        wantRedirect := stale.wantRedirect
        redirectWasLocation := stale.redirectWasLocation
        lastChunkEnd := stale.lastChunkEnd } }

/-- The download asks for more than one chunk. -/
def Ranged (ctx : Ctx Url) : Prop :=
  ctx.isChunked = true ∧ (chunkSize : ℤ) < ctx.formatContentLength

/-- An answer is awaited, or has begun. -/
def Awaiting (download : Download Url) : Prop := download.pending ≠ [] ∨ download.parser ≠ .start

/-- The fields that are read in whatever state hold the same. -/
structure Kept (stale : Stale) (ctx : Ctx Url) : Prop where
  onChunkComplete : Ranged ctx → stale.onChunkComplete = ctx.onChunkComplete
  wantRedirect : ctx.onHeaderField = true → stale.wantRedirect = ctx.wantRedirect
  redirectWasLocation :
    ctx.onHeaderValue = true → stale.redirectWasLocation = ctx.redirectWasLocation

/-- The fields that are read at the end of an answer hold the same. -/
structure Ready (stale : Stale) (ctx : Ctx Url) : Prop where
  lastChunkEnd : Ranged ctx → stale.lastChunkEnd = ctx.lastChunkEnd
  final : ctx.isChunked = true → ¬ Ranged ctx → ctx.onMessageComplete = .chunkFinalComplete

/-- The fields that the callbacks may read hold the same. -/
structure Agrees (stale : Stale) (download : Download Url) : Prop where
  kept : Kept stale download.ctx
  ready : Awaiting download → Ready stale download.ctx
  silent : ¬ Ranged download.ctx → Effect.chunkComplete ∉ download.trace

/-- `f` does the same in other memory, and leaves fields that agree. -/
def Follows (stale : Stale) (download : Download Url) (f : Download Url → Download Url) : Prop :=
  ∃ stale', f (patch stale download) = patch stale' (f download) ∧ Agrees stale' (f download)

section Steps

variable {download next : Download Url} {stale : Stale}

@[simp] theorem patch_trace (stale : Stale) (download : Download Url) :
    (patch stale download).trace = download.trace := rfl

/-- Effects other than calls of `on_chunk_complete`. -/
theorem notMem_append {trace : List (Effect Url)} {effect : Effect Url}
    (h : Effect.chunkComplete ∉ trace) (hother : effect ≠ .chunkComplete) :
    Effect.chunkComplete ∉ trace ++ [effect] := by
  simpa [h] using hother.symm

theorem agrees_write (hkept : Kept stale download.ctx) (hready : Ready stale download.ctx)
    (hsilent : ¬ Ranged download.ctx → Effect.chunkComplete ∉ download.trace)
    (request : Request Url) : Agrees stale (download.write request) :=
  ⟨hkept, fun _ ↦ hready, fun hranged ↦ notMem_append (hsilent hranged) (by simp)⟩

/-- The first request of a connection does not look at the old end of the last chunk. -/
theorem follows_connectedCb (h : Agrees stale download) :
    Follows stale download mediaConnectedCb := by
  obtain ⟨⟨honChunk, hwant, hlocation⟩, -, hsilent⟩ := h
  cases hchunked : download.ctx.isChunked with
  | false =>
    have heq : mediaConnectedCb download =
        download.write (.media download.ctx.formatUrl download.ctx.url) := by
      simp [mediaConnectedCb, hchunked]
    rw [Follows, heq]
    refine ⟨stale, by simp [mediaConnectedCb, patch, hchunked, Download.write], ?_⟩
    exact agrees_write ⟨honChunk, hwant, hlocation⟩
      ⟨fun hranged ↦ by simp [Ranged, hchunked] at hranged, by simp [hchunked]⟩ hsilent _
  | true =>
    by_cases hlong : (chunkSize : ℤ) < download.ctx.formatContentLength
    · have hnot : ¬ download.ctx.formatContentLength ≤ (chunkSize : ℤ) := not_le.mpr hlong
      have heq : mediaConnectedCb download =
          { download with ctx := { download.ctx with lastChunkEnd := chunkSize } }.write
            (.mediaChunk download.ctx.formatUrl download.ctx.url 0 chunkSize) := by
        simp [mediaConnectedCb, hchunked, hnot]
      rw [Follows, heq]
      refine ⟨{ stale with lastChunkEnd := chunkSize }, ?_, ?_⟩
      · simp [mediaConnectedCb, patch, hchunked, hnot, Download.write]
      · refine agrees_write ?_ ⟨?_, ?_⟩ ?_ _
        · exact ⟨honChunk, hwant, hlocation⟩
        · exact fun _ ↦ rfl
        · exact fun _ hranged ↦ absurd ⟨hchunked, hlong⟩ hranged
        · exact hsilent
    · have hge : download.ctx.formatContentLength ≤ (chunkSize : ℤ) := not_lt.mp hlong
      have heq : mediaConnectedCb download =
          { download with
            ctx := { download.ctx with onMessageComplete := .chunkFinalComplete } }.write
            (.mediaChunk download.ctx.formatUrl download.ctx.url 0 0) := by
        simp [mediaConnectedCb, hchunked, hge]
      rw [Follows, heq]
      refine ⟨stale, ?_, ?_⟩
      · simp [mediaConnectedCb, patch, hchunked, hge, Download.write]
      · refine agrees_write ?_ ⟨?_, ?_⟩ ?_ _
        · exact ⟨honChunk, hwant, hlocation⟩
        · exact fun hranged ↦ absurd hranged.2 hlong
        · exact fun _ _ ↦ rfl
        · exact hsilent

/-- Asking for the next chunk writes a request and moves the end of the last chunk. -/
theorem nextChunk_eq (download : Download Url) :
    ∃ onMessageComplete lastChunkEnd request,
      mediaCtxNextChunk download =
        { download with
          ctx :=
            { download.ctx with
              onMessageComplete := onMessageComplete
              lastChunkEnd := lastChunkEnd } }.write request := by
  unfold mediaCtxNextChunk
  dsimp only
  split <;> exact ⟨_, _, _, rfl⟩

/-- The next chunk starts where the last one ended. -/
theorem nextChunk_patch_eq (hend : stale.lastChunkEnd = download.ctx.lastChunkEnd) :
    mediaCtxNextChunk (patch stale download) =
      patch { stale with lastChunkEnd := (mediaCtxNextChunk download).ctx.lastChunkEnd }
        (mediaCtxNextChunk download) := by
  obtain ⟨onChunkComplete, wantRedirect, redirectWasLocation, lastChunkEnd⟩ := stale
  obtain ⟨ctx, connection, pending, parser, owed, trace⟩ := download
  obtain ⟨url, formatUrl, length, onData, onComplete, onChunkComplete', pause, isChunked,
    wantRedirect', redirectWasLocation', lastChunkEnd',
    onHeaderField, onHeaderValue, handler⟩ := ctx
  obtain rfl : lastChunkEnd = lastChunkEnd' := hend
  simp only [mediaCtxNextChunk, patch]
  by_cases hlast : (lastChunkEnd + chunkSize) % 2 ^ 64 ≥ sizeT length
  · simp only [hlast, if_true, Download.write]
  · simp only [hlast, if_false, Download.write]

/-- In an answer of a ranged download, all fields agree but those of the redirects. -/
structure Linked (stale : Stale) (download : Download Url) : Prop where
  kept : Kept stale download.ctx
  ranged : Ranged download.ctx
  lastChunkEnd : stale.lastChunkEnd = download.ctx.lastChunkEnd

/-- `f` does the same in other memory, in an answer of a ranged download. -/
def Links (stale : Stale) (download : Download Url) (f : Download Url → Download Url) : Prop :=
  ∃ stale', f (patch stale download) = patch stale' (f download) ∧ Linked stale' (f download)

theorem Links.follows {f : Download Url → Download Url} (h : Links stale download f) :
    Follows stale download f := by
  obtain ⟨stale', heq, hkept, hranged, hend⟩ := h
  exact ⟨stale', heq, hkept, fun _ ↦ ⟨fun _ ↦ hend, fun _ hnot ↦ absurd hranged hnot⟩,
    fun hnot ↦ absurd hranged hnot⟩

theorem links_nextChunk (h : Linked stale download) :
    Links stale download mediaCtxNextChunk := by
  obtain ⟨hkept, hranged, hend⟩ := h
  obtain ⟨onMessageComplete, lastChunkEnd, request, heq⟩ := nextChunk_eq download
  have hpatched := nextChunk_patch_eq hend
  rw [Links]
  rw [heq] at hpatched ⊢
  refine ⟨{ stale with lastChunkEnd := lastChunkEnd }, hpatched, ?_, hranged, rfl⟩
  exact ⟨hkept.onChunkComplete, hkept.wantRedirect, hkept.redirectWasLocation⟩

/-- The download in which `on_chunk_complete` returns. -/
def chunkCalled (pause asks : Bool) (download : Download Url) : Download Url :=
  { download with
    ctx := { download.ctx with pauseBetweenChunks := pause }
    owed := pause && !asks
    trace := download.trace ++ [.chunkComplete] }

theorem userChunkComplete_asks (pause : Bool) (download : Download Url) :
    userChunkComplete pause true download =
      mediaCtxNextChunk (chunkCalled pause true download) := by
  simp [userChunkComplete, chunkCalled, Download.emit]

theorem links_userChunkComplete (h : Linked stale download) (pause asks : Bool) :
    Links stale download (userChunkComplete pause asks) := by
  have hcalled : Linked stale (chunkCalled pause asks download) :=
    ⟨⟨h.kept.onChunkComplete, h.kept.wantRedirect, h.kept.redirectWasLocation⟩, h.ranged,
      h.lastChunkEnd⟩
  have hpatched : chunkCalled pause asks (patch stale download) =
      patch stale (chunkCalled pause asks download) := rfl
  cases asks with
  | false => exact ⟨stale, rfl, hcalled⟩
  | true =>
    rw [Links, userChunkComplete_asks, userChunkComplete_asks, hpatched]
    exact links_nextChunk hcalled

/-- The end of a chunk asks for the next one, after `on_chunk_complete`. -/
theorem links_chunkCompleteCb (h : Linked stale download) (pause asks : Bool) :
    Links stale download (mediaChunkCompleteCb pause asks) := by
  have hsame := h.kept.onChunkComplete h.ranged
  let ended (start : Download Url) : Download Url :=
    if start.ctx.onChunkComplete then userChunkComplete pause asks start
    else { start with owed := start.ctx.pauseBetweenChunks }
  have heq (start : Download Url) (hchunked : start.ctx.isChunked = true) :
      mediaChunkCompleteCb pause asks start =
        if !(ended start).ctx.pauseBetweenChunks then mediaCtxNextChunk (ended start)
        else ended start := by
    simp only [mediaChunkCompleteCb, hchunked, if_true, ended]
  have hended : Links stale download ended := by
    cases honChunk : download.ctx.onChunkComplete with
    | true =>
      have hpatched : stale.onChunkComplete = true := hsame.trans honChunk
      obtain ⟨stale', huser, hlinked⟩ := links_userChunkComplete h pause asks
      refine ⟨stale', ?_, ?_⟩
      · simp only [ended, honChunk, if_true]
        exact (if_pos hpatched).trans huser
      · simpa only [ended, honChunk, if_true] using hlinked
    | false =>
      have hpatched : ¬ stale.onChunkComplete = true := by simp [hsame, honChunk]
      refine ⟨stale, ?_, ?_⟩
      · simp only [ended, honChunk]
        exact if_neg hpatched
      · simp only [ended, honChunk]
        exact ⟨h.kept, h.ranged, h.lastChunkEnd⟩
  obtain ⟨stale', hpatched, hlinked⟩ := hended
  rw [Links, heq download h.ranged.1, heq (patch stale download) h.ranged.1, hpatched]
  cases hpause : (ended download).ctx.pauseBetweenChunks with
  | true => exact ⟨stale', by simp [patch, hpause], by simpa using hlinked⟩
  | false =>
    obtain ⟨last, hlast, hlinked⟩ := links_nextChunk hlinked
    exact ⟨last, by simpa [patch, hpause] using hlast, by simpa using hlinked⟩

/-- The fields that are read at the end of an answer stay as they are in its status line, its
headers and its body. -/
theorem Agrees.ready_of_message {request : Request Url} {statusCode : ℕ} {received : Bytes}
    {inBody : Bool} (h : Agrees stale download)
    (hparser : download.parser = .message request statusCode received inBody) :
    Ready stale download.ctx :=
  h.ready (.inr (by simp [hparser]))

theorem follows_statusEvent (h : Agrees stale download) {request : Request Url}
    {pending : List (Request Url)} (hpending : download.pending = request :: pending)
    (statusCode : ℕ) :
    Follows stale { download with pending := pending } (statusEvent request statusCode) := by
  obtain ⟨⟨honChunk, hwant, hlocation⟩, hready, hsilent⟩ := h
  obtain ⟨hend, hfinal⟩ := hready (.inl (by simp [hpending]))
  have hnew (hranged : ¬ Ranged download.ctx) :
      Effect.chunkComplete ∉ download.trace ++ [.status request statusCode] :=
    notMem_append (hsilent hranged) (by simp)
  cases hredirect : isRedirect statusCode with
  | true =>
    have heq (start : Download Url) : statusEvent request statusCode start =
        { start with
          ctx := { start.ctx with wantRedirect := true, onHeaderField := true }
          parser := .message request statusCode [] false
          trace := start.trace ++ [.status request statusCode] } := by
      simp [statusEvent, mediaStatusCb, hredirect, onStatusComplete, Download.emit]
    refine ⟨{ stale with wantRedirect := true }, by simp only [heq, patch], ?_⟩
    rw [heq]
    exact ⟨⟨honChunk, fun _ ↦ rfl, hlocation⟩, fun _ ↦ ⟨hend, hfinal⟩, hnew⟩
  | false =>
    refine ⟨stale, by simp only [statusEvent_of_not_redirect hredirect, patch], ?_⟩
    rw [statusEvent_of_not_redirect hredirect]
    exact ⟨⟨honChunk, hwant, hlocation⟩, fun _ ↦ ⟨hend, hfinal⟩, hnew⟩

theorem follows_headerFieldCb (h : Agrees stale download)
    (honHeaderField : download.ctx.onHeaderField = true) (fragment : Bytes) :
    Follows stale download (mediaHeaderFieldCb fragment) := by
  have hwant := h.kept.wantRedirect honHeaderField
  by_cases hlocation : download.ctx.wantRedirect ∧ isLocation fragment
  · have hpatched : stale.wantRedirect ∧ isLocation fragment := hwant ▸ hlocation
    refine ⟨{ stale with redirectWasLocation := true }, ?_, ?_⟩
    · rw [mediaHeaderFieldCb, mediaHeaderFieldCb, if_pos hlocation]
      exact if_pos hpatched
    · rw [mediaHeaderFieldCb, if_pos hlocation]
      obtain ⟨⟨honChunk, hwant, -⟩, hready, hsilent⟩ := h
      exact ⟨⟨honChunk, hwant, fun _ ↦ rfl⟩, fun hawaiting ↦
        ⟨(hready hawaiting).lastChunkEnd, (hready hawaiting).final⟩, hsilent⟩
  · have hpatched : ¬ (stale.wantRedirect ∧ isLocation fragment) := hwant ▸ hlocation
    refine ⟨stale, ?_, ?_⟩
    · rw [mediaHeaderFieldCb, mediaHeaderFieldCb, if_neg hlocation]
      exact if_neg hpatched
    · rw [mediaHeaderFieldCb, if_neg hlocation]
      exact h

theorem follows_headerValueCb (h : Agrees stale download)
    (honHeaderValue : download.ctx.onHeaderValue = true) (fragment : Bytes) :
    Follows stale download (mediaHeaderValueCb fragment) := by
  have hlocation := h.kept.redirectWasLocation honHeaderValue
  by_cases hwas : download.ctx.redirectWasLocation = true
  · have hpatched : stale.redirectWasLocation = true := hlocation.trans hwas
    refine ⟨{ stale with wantRedirect := false, redirectWasLocation := false }, ?_, ?_⟩
    · rw [mediaHeaderValueCb, mediaHeaderValueCb, if_pos hwas]
      exact if_pos hpatched
    · rw [mediaHeaderValueCb, if_pos hwas]
      obtain ⟨⟨honChunk, -, -⟩, hready, hsilent⟩ := h
      exact ⟨⟨honChunk, fun _ ↦ rfl, fun _ ↦ rfl⟩, fun hawaiting ↦
        ⟨(hready hawaiting).lastChunkEnd, (hready hawaiting).final⟩,
        fun hranged ↦ notMem_append (hsilent hranged) (by simp)⟩
  · have hpatched : ¬ stale.redirectWasLocation = true := hlocation ▸ hwas
    refine ⟨stale, ?_, ?_⟩
    · rw [mediaHeaderValueCb, mediaHeaderValueCb, if_neg hwas]
      exact if_neg hpatched
    · rw [mediaHeaderValueCb, if_neg hwas]
      exact h

theorem follows_bodyEvent {request : Request Url} {statusCode : ℕ} {received : Bytes}
    {inBody : Bool} (h : Agrees stale download)
    (hparser : download.parser = .message request statusCode received inBody) (fragment : Bytes) :
    Follows stale download (bodyEvent request statusCode received fragment) := by
  refine ⟨stale, by simp only [bodyEvent_eq, patch], ?_⟩
  rw [bodyEvent_eq]
  refine ⟨h.kept, fun _ ↦ h.ready_of_message hparser, fun hranged ↦ ?_⟩
  cases hdata : download.ctx.onData with
  | true => exact notMem_append (h.silent hranged) (by simp)
  | false => simpa [hdata] using h.silent hranged

theorem follows_closeRedirectCb (parseUrl : Bytes → Option Url) (h : Agrees stale download) :
    Follows stale download (mediaCloseRedirectCb parseUrl) := by
  obtain ⟨⟨honChunk, -, -⟩, -, hsilent⟩ := h
  refine ⟨stale, ?_, ?_⟩
  · simp only [mediaCloseRedirectCb, patch]
    cases parseUrl download.ctx.formatUrl with
    | none => rfl
    | some url => rfl
  · simp only [mediaCloseRedirectCb]
    cases parseUrl download.ctx.formatUrl with
    | none => exact ⟨⟨honChunk, by simp, by simp⟩, by simp [Awaiting], hsilent⟩
    | some url =>
      exact ⟨⟨honChunk, by simp [mediaCtxConnect], by simp [mediaCtxConnect]⟩,
        by simp [Awaiting, mediaCtxConnect],
        fun hranged ↦ notMem_append (hsilent hranged) (by simp)⟩

/-- A callback that does nothing but call `on_complete`, when that is set. -/
theorem follows_complete (hkept : Kept stale download.ctx) (hready : Ready stale download.ctx)
    (hsilent : ¬ Ranged download.ctx → Effect.chunkComplete ∉ download.trace) :
    Follows stale download mediaChunkFinalCompleteCb := by
  refine ⟨stale, ?_, ?_⟩
  · cases honComplete : download.ctx.onComplete <;>
      simp [mediaChunkFinalCompleteCb, patch, honComplete, Download.emit]
  · cases honComplete : download.ctx.onComplete with
    | true =>
      simp only [mediaChunkFinalCompleteCb, honComplete, if_true]
      exact ⟨hkept, fun _ ↦ hready, fun hranged ↦ notMem_append (hsilent hranged) (by simp)⟩
    | false =>
      simp only [mediaChunkFinalCompleteCb, honComplete]
      exact ⟨hkept, fun _ ↦ hready, hsilent⟩

/-- The end of the answer that the parser is in. -/
theorem follows_messageEvent {request : Request Url} {statusCode : ℕ} {received : Bytes}
    {inBody : Bool} (h : Agrees stale download)
    (hparser : download.parser = .message request statusCode received inBody) (pause asks : Bool) :
    Follows stale download (messageEvent request pause asks) := by
  have hready := h.ready_of_message hparser
  have hsilent (hranged : ¬ Ranged download.ctx) :
      Effect.chunkComplete ∉ (answerEnded request download).trace :=
    notMem_append (h.silent hranged) (by simp)
  have hcomplete : Follows stale (answerEnded request download) mediaChunkFinalCompleteCb :=
    follows_complete h.kept hready hsilent
  cases hhandler : download.ctx.onMessageComplete with
  | chunkFinalComplete =>
    have heq (start : Download Url) (hstart : start.ctx.onMessageComplete = .chunkFinalComplete) :
        messageEvent request pause asks start =
          mediaChunkFinalCompleteCb (answerEnded request start) := by
      simp [messageEvent, messageCompleteCb, answerEnded, Download.emit, hstart]
    rw [Follows, heq download hhandler, heq (patch stale download) hhandler]
    exact hcomplete
  | chunkComplete =>
    have heq (start : Download Url) (hstart : start.ctx.onMessageComplete = .chunkComplete) :
        messageEvent request pause asks start =
          mediaChunkCompleteCb pause asks (answerEnded request start) := by
      simp [messageEvent, messageCompleteCb, answerEnded, Download.emit, hstart]
    rw [Follows, heq download hhandler, heq (patch stale download) hhandler]
    cases hchunked : download.ctx.isChunked with
    | false =>
      have hfinal (start : Download Url) (hstart : start.ctx.isChunked = false) :
          mediaChunkCompleteCb pause asks start = mediaChunkFinalCompleteCb start := by
        simp [mediaChunkCompleteCb, mediaChunkFinalCompleteCb, hstart]
      rw [hfinal (answerEnded request download) hchunked,
        hfinal (answerEnded request (patch stale download)) hchunked]
      exact hcomplete
    | true =>
      -- a download of one chunk has the final callback here
      have hranged : Ranged download.ctx := by
        by_contra hnot
        simp [hready.final hchunked hnot] at hhandler
      have hlinked : Linked stale (answerEnded request download) :=
        ⟨h.kept, hranged, hready.lastChunkEnd hranged⟩
      exact (links_chunkCompleteCb hlinked pause asks).follows

theorem step_statusComplete_of (start : Download Url) {request : Request Url}
    {pending : List (Request Url)} (hpending : start.pending = request :: pending)
    (hparser : start.parser = .start)
    (hconnection : start.connection = .up ∨ start.connection = .closing) (statusCode : ℕ) :
    step parseUrl start (.statusComplete statusCode) =
      some (statusEvent request statusCode { start with pending := pending }) := by
  rcases hconnection with hup | hclosing
  · simp [step, hpending, hparser, hup]
  · simp [step, hpending, hparser, hclosing]

theorem step_headerField_of (start : Download Url) {request : Request Url} {statusCode : ℕ}
    {received : Bytes} (hparser : start.parser = .message request statusCode received false)
    (fragment : Bytes) :
    step parseUrl start (.headerField fragment) =
      some (if start.ctx.onHeaderField then mediaHeaderFieldCb fragment start else start) := by
  simp [step, hparser]

theorem step_headerValue_of (start : Download Url) {request : Request Url} {statusCode : ℕ}
    {received : Bytes} (hparser : start.parser = .message request statusCode received false)
    (fragment : Bytes) :
    step parseUrl start (.headerValue fragment) =
      some (if start.ctx.onHeaderValue then mediaHeaderValueCb fragment start else start) := by
  simp [step, hparser]

/-- An event that cannot happen cannot happen in other memory either. -/
theorem step_patch_none {event : Event} (h : step parseUrl download event = none) :
    step parseUrl (patch stale download) event = none := by
  rw [Option.eq_none_iff_forall_ne_some]
  intro next hnext
  cases event with
  | connected =>
    obtain ⟨hconnection, -⟩ := step_connected hnext
    exact absurd h (by simp [step, show download.connection = .connecting from hconnection])
  | statusComplete statusCode =>
    obtain ⟨request, pending, hpending, hparser, hconnection, -⟩ := step_statusComplete hnext
    rw [step_statusComplete_of download hpending hparser hconnection] at h
    exact Option.some_ne_none _ h
  | headerField fragment =>
    obtain ⟨request, statusCode, received, hparser, -⟩ := step_headerField hnext
    rw [step_headerField_of download hparser] at h
    exact Option.some_ne_none _ h
  | headerValue fragment =>
    obtain ⟨request, statusCode, received, hparser, -⟩ := step_headerValue hnext
    rw [step_headerValue_of download hparser] at h
    exact Option.some_ne_none _ h
  | body fragment =>
    obtain ⟨request, statusCode, received, inBody, hparser, -⟩ := step_body hnext
    have hsame : download.parser = .message request statusCode received inBody := hparser
    simp [step, hsame] at h
  | messageComplete pause asks =>
    obtain ⟨request, statusCode, received, inBody, hparser, -⟩ := step_messageComplete hnext
    have hsame : download.parser = .message request statusCode received inBody := hparser
    simp [step, hsame] at h
  | closed =>
    obtain ⟨hconnection, -⟩ := step_closed hnext
    exact absurd h (by simp [step, show download.connection = .closing from hconnection])
  | nextChunk => simp [step] at h
  | setPause pause => simp [step] at h

/-- **The step lemma.** A callback does the same in other memory, as far as the fields agree. -/
theorem step_patch_some (h : Agrees stale download) {event : Event} (hevent : IsCallback event)
    (hstep : step parseUrl download event = some next) :
    ∃ stale', step parseUrl (patch stale download) event = some (patch stale' next) ∧
      Agrees stale' next := by
  cases event with
  | connected =>
    obtain ⟨hconnection, rfl⟩ := step_connected hstep
    have hup : Agrees stale { download with connection := .up } := ⟨h.kept, h.ready, h.silent⟩
    obtain ⟨stale', heq, hagrees⟩ := follows_connectedCb hup
    exact ⟨stale', (if_pos hconnection).trans (congrArg some heq), hagrees⟩
  | statusComplete statusCode =>
    obtain ⟨request, pending, hpending, hparser, hconnection, rfl⟩ := step_statusComplete hstep
    obtain ⟨stale', heq, hagrees⟩ := follows_statusEvent h hpending statusCode
    refine ⟨stale', ?_, hagrees⟩
    rw [← heq]
    exact step_statusComplete_of (patch stale download) hpending hparser hconnection statusCode
  | headerField fragment =>
    obtain ⟨request, statusCode, received, hparser, rfl⟩ := step_headerField hstep
    rw [step_headerField_of (patch stale download) hparser]
    cases honHeaderField : download.ctx.onHeaderField with
    | false => exact ⟨stale, by simp [patch, honHeaderField], by simpa using h⟩
    | true =>
      obtain ⟨stale', heq, hagrees⟩ := follows_headerFieldCb h honHeaderField fragment
      refine ⟨stale', ?_, by simpa using hagrees⟩
      rw [if_pos (show (patch stale download).ctx.onHeaderField = true from honHeaderField), heq,
        if_pos rfl]
  | headerValue fragment =>
    obtain ⟨request, statusCode, received, hparser, rfl⟩ := step_headerValue hstep
    rw [step_headerValue_of (patch stale download) hparser]
    cases honHeaderValue : download.ctx.onHeaderValue with
    | false => exact ⟨stale, by simp [patch, honHeaderValue], by simpa using h⟩
    | true =>
      obtain ⟨stale', heq, hagrees⟩ := follows_headerValueCb h honHeaderValue fragment
      refine ⟨stale', ?_, by simpa using hagrees⟩
      rw [if_pos (show (patch stale download).ctx.onHeaderValue = true from honHeaderValue), heq,
        if_pos rfl]
  | body fragment =>
    obtain ⟨request, statusCode, received, inBody, hparser, rfl⟩ := step_body hstep
    obtain ⟨stale', heq, hagrees⟩ := follows_bodyEvent h hparser fragment
    refine ⟨stale', ?_, hagrees⟩
    rw [← heq]
    simp [step, patch, hparser]
  | messageComplete pause asks =>
    obtain ⟨request, statusCode, received, inBody, hparser, rfl⟩ := step_messageComplete hstep
    obtain ⟨stale', heq, hagrees⟩ := follows_messageEvent h hparser pause asks
    refine ⟨stale', ?_, hagrees⟩
    rw [← heq]
    simp [step, patch, hparser]
  | closed =>
    obtain ⟨hconnection, rfl⟩ := step_closed hstep
    obtain ⟨stale', heq, hagrees⟩ := follows_closeRedirectCb parseUrl h
    exact ⟨stale', (if_pos hconnection).trans (congrArg some heq), hagrees⟩
  | nextChunk => exact absurd hevent id
  | setPause pause => exact absurd hevent id

/-! ## The mode of a download -/

/-- What decides whether a download is chunked, and ranged. -/
def mode (ctx : Ctx Url) : Bool × ℤ := (ctx.isChunked, ctx.formatContentLength)

theorem ranged_congr {first second : Ctx Url} (h : mode first = mode second) :
    Ranged first ↔ Ranged second := by
  obtain ⟨hchunked, hlength⟩ := Prod.mk.inj h
  rw [Ranged, Ranged, hchunked, hlength]

@[simp] theorem mode_nextChunk (download : Download Url) :
    mode (mediaCtxNextChunk download).ctx = mode download.ctx := by
  obtain ⟨onMessageComplete, lastChunkEnd, request, heq⟩ := nextChunk_eq download
  rw [heq]
  rfl

@[simp] theorem mode_connectedCb (download : Download Url) :
    mode (mediaConnectedCb download).ctx = mode download.ctx := by
  unfold mediaConnectedCb
  dsimp only
  split
  · split <;> rfl
  · rfl

@[simp] theorem mode_chunkCompleteCb (pause asks : Bool) (download : Download Url) :
    mode (mediaChunkCompleteCb pause asks download).ctx = mode download.ctx := by
  have huser : mode (userChunkComplete pause asks download).ctx = mode download.ctx := by
    cases asks with
    | false => rfl
    | true =>
      rw [userChunkComplete_asks, mode_nextChunk]
      rfl
  unfold mediaChunkCompleteCb
  dsimp only
  split_ifs
  · rw [mode_nextChunk, huser]
  · exact huser
  · rw [mode_nextChunk]
  · rfl
  · rfl
  · rfl

/-- No event changes the mode. -/
theorem step_mode {event : Event} (h : step parseUrl download event = some next) :
    mode next.ctx = mode download.ctx := by
  cases event with
  | connected =>
    obtain ⟨-, rfl⟩ := step_connected h
    exact mode_connectedCb _
  | statusComplete statusCode =>
    obtain ⟨request, pending, -, -, -, rfl⟩ := step_statusComplete h
    unfold statusEvent mediaStatusCb
    split_ifs <;> rfl
  | headerField fragment =>
    obtain ⟨request, statusCode, received, -, rfl⟩ := step_headerField h
    unfold mediaHeaderFieldCb
    split_ifs <;> rfl
  | headerValue fragment =>
    obtain ⟨request, statusCode, received, -, rfl⟩ := step_headerValue h
    unfold mediaHeaderValueCb
    split_ifs <;> rfl
  | body fragment =>
    obtain ⟨request, statusCode, received, inBody, -, rfl⟩ := step_body h
    rw [bodyEvent_eq]
  | messageComplete pause asks =>
    obtain ⟨request, statusCode, received, inBody, -, rfl⟩ := step_messageComplete h
    unfold messageEvent messageCompleteCb
    split
    · exact mode_chunkCompleteCb pause asks _
    · unfold mediaChunkFinalCompleteCb
      split_ifs <;> rfl
  | closed =>
    obtain ⟨-, rfl⟩ := step_closed h
    unfold mediaCloseRedirectCb
    dsimp only
    split <;> rfl
  | nextChunk =>
    obtain rfl := step_nextChunk h
    exact mode_nextChunk _
  | setPause pause =>
    obtain rfl := step_setPause h
    rfl

/-! ## Runs -/

/-- Runs in memories whose fields agree show the same, when a ranged download has the same
`on_chunk_complete` in both. -/
theorem observed_patch {first second : Memory Url Callback} (h : Agrees stale download)
    (hcallback : Ranged download.ctx → first.onChunkComplete = second.onChunkComplete)
    {events : List Event} (hevents : ∀ event ∈ events, IsCallback event) :
    observed parseUrl first download events =
      observed parseUrl second (patch stale download) events := by
  induction events generalizing download stale with
  | nil =>
    simp only [observed, run_nil, Option.map_some, patch_trace, Option.some.injEq]
    by_cases hranged : Ranged download.ctx
    · rw [hcallback hranged]
    · refine List.map_congr_left fun effect heffect ↦ ?_
      cases effect with
      | chunkComplete => exact absurd heffect (h.silent hranged)
      | _ => rfl
  | cons event events ih =>
    have hevent := hevents event List.mem_cons_self
    simp only [observed, run_cons]
    cases hstep : step parseUrl download event with
    | none => simp [step_patch_none hstep]
    | some next =>
      obtain ⟨stale', hpatched, hagrees⟩ := step_patch_some h hevent hstep
      rw [hpatched, Option.bind_some, Option.bind_some]
      refine ih hagrees (fun hranged ↦ hcallback ?_) fun later hlater ↦
        hevents later (List.mem_cons_of_mem _ hlater)
      exact (ranged_congr (step_mode hstep)).mp hranged

end Steps

/-! ## What a new download depends on -/

section Init

variable {urlOf : Option String → Option String → Option Bytes} {val : List (String × JsonVal)}
  {mem : Memory Url Callback} {format : InfoFormat} {download : Download Url}

/-- The content length that the object of a format gives. -/
def contentLength (val : List (String × JsonVal)) : ℤ :=
  ((infoFormatPopulate (InfoFormat.calloc val)).map InfoFormat.contentLength).getD 0

/-- The context of a new download. -/
def newCtx (mem : Memory Url Callback) (url : Url) (formatUrl : Bytes) (contentLength : ℤ)
    (isChunked : Bool) : Ctx Url :=
  { mem.ctx with
    url := url
    formatUrl := formatUrl
    formatContentLength := contentLength
    onData := true
    onComplete := true
    onChunkComplete := mem.onChunkComplete.isSome
    pauseBetweenChunks := false
    isChunked := isChunked
    onHeaderField := false
    onHeaderValue := false
    onMessageComplete := .chunkComplete }

/-- Whether `ytdl_dl_media_ctx_init` makes a chunked download. -/
def chunkedMode (format : InfoFormat) : Bool := !format.hasAud || !format.hasVid

/-- A new download depends on the object of its format, and on whether the format was filled in. -/
theorem infoComplete_eq (hprepared : Prepared urlOf val format)
    (h : infoComplete parseUrl urlOf mem format = some download) :
    ∃ filled formatUrl url, infoFormatPopulate (InfoFormat.calloc val) = some filled ∧
      urlOf filled.cipher filled.urlUntouched = some formatUrl ∧ parseUrl formatUrl = some url ∧
      download = Download.ready
        (newCtx mem url formatUrl (contentLength val) (chunkedMode format)) := by
  obtain ⟨ctx, hctx, rfl⟩ := Option.map_eq_some_iff.mp h
  obtain ⟨⟨formatUrl, next⟩, hget, hrest⟩ := Option.bind_eq_some_iff.mp hctx
  obtain ⟨formatUrl, rfl, hinit⟩ := Option.bind_eq_some_iff.mp hrest
  obtain ⟨url, hurl, rfl⟩ := Option.map_eq_some_iff.mp hinit
  obtain ⟨filled, hpopulate, hof, hlength⟩ := getUrl_prepared hprepared hget
  refine ⟨filled, formatUrl, url, hpopulate, hof.symm, hurl, ?_⟩
  simp [newCtx, contentLength, hpopulate, hlength, chunkedMode]

/-- Prepared formats of one object make downloads of the same mode. -/
theorem chunkedMode_eq_iff {first second : InfoFormat} (hfirst : Prepared urlOf val first)
    (hsecond : Prepared urlOf val second) :
    chunkedMode first = chunkedMode second ↔
      first.isPopulated = second.isPopulated ∨
        ¬ (HasKey val "width" ∧ HasKey val "audioChannels") := by
  obtain ⟨hvid, haud⟩ := Prod.mk.inj (flags_prepared hfirst)
  obtain ⟨hvid', haud'⟩ := Prod.mk.inj (flags_prepared hsecond)
  rw [chunkedMode, chunkedMode, hvid, haud, hvid', haud']
  by_cases hwidth : HasKey val "width" <;> by_cases haudio : HasKey val "audioChannels" <;>
    cases first.isPopulated <;> cases second.isPopulated <;> simp [hwidth, haudio]

variable {first second : Memory Url Callback} {url : Url} {formatUrl : Bytes} {length : ℤ}

/-- Downloads of one mode, in any two memories, differ in stale fields. -/
theorem newCtx_patch (first second : Memory Url Callback) (isChunked : Bool) :
    Download.ready (newCtx second url formatUrl length isChunked) =
      patch
        { onChunkComplete := second.onChunkComplete.isSome
          wantRedirect := second.ctx.wantRedirect
          redirectWasLocation := second.ctx.redirectWasLocation
          lastChunkEnd := second.ctx.lastChunkEnd }
        (Download.ready (newCtx first url formatUrl length isChunked)) := rfl

/-- The first request shows the mode. -/
theorem observed_connected (parseUrl : Bytes → Option Url) (first : Memory Url Callback) (url : Url)
    (formatUrl : Bytes) (length : ℤ) (isChunked : Bool) :
    ∃ request : Request Url,
      observed parseUrl first (Download.ready (newCtx first url formatUrl length isChunked))
          [.connected] = some [(.request request, none)] ∧
        (request = .media formatUrl url ↔ isChunked = false) := by
  cases isChunked with
  | false => exact ⟨.media formatUrl url, rfl, by simp⟩
  | true =>
    by_cases hlong : (chunkSize : ℤ) ≥ length
    · refine ⟨.mediaChunk formatUrl url 0 0, ?_, by simp⟩
      simp [observed, step, Download.ready, newCtx, mediaConnectedCb, hlong,
        Download.write, observe]
    · refine ⟨.mediaChunk formatUrl url 0 chunkSize, ?_, by simp⟩
      simp [observed, step, Download.ready, newCtx, mediaConnectedCb, hlong,
        Download.write, observe]

/-- The end of the first chunk shows `on_chunk_complete`. -/
theorem observed_chunk (parseUrl : Bytes → Option Url) (first : Memory Url Callback) (url : Url)
    (formatUrl : Bytes) {length : ℤ} (hlong : (chunkSize : ℤ) < length) :
    ∃ request : Request Url,
      observed parseUrl first (Download.ready (newCtx first url formatUrl length true))
          [.connected, .statusComplete 200, .messageComplete true false] =
        some
          [(.request (.mediaChunk formatUrl url 0 chunkSize), none),
            (.status (.mediaChunk formatUrl url 0 chunkSize) 200, none),
            (.answered (.mediaChunk formatUrl url 0 chunkSize), none),
            match first.onChunkComplete with
            | some callback => (.chunkComplete, some callback)
            | none => (.request request, none)] := by
  have hnot : ¬ length ≤ (chunkSize : ℤ) := not_le.mpr hlong
  let answered : Download Url :=
    { Download.ready (newCtx first url formatUrl length true) with
      ctx := { newCtx first url formatUrl length true with lastChunkEnd := chunkSize }
      connection := .up
      trace :=
        [.request (.mediaChunk formatUrl url 0 chunkSize),
          .status (.mediaChunk formatUrl url 0 chunkSize) 200,
          .answered (.mediaChunk formatUrl url 0 chunkSize)] }
  have hrun : run (step parseUrl) (Download.ready (newCtx first url formatUrl length true))
      [.connected, .statusComplete 200, .messageComplete true false] =
        some (mediaChunkCompleteCb true false answered) := by
    simp [step, Download.ready, newCtx, mediaConnectedCb, hnot, Download.write, statusEvent,
      mediaStatusCb, isRedirect, onStatusComplete, Download.emit, messageEvent, messageCompleteCb,
      answerEnded, answered]
  rw [observed, hrun]
  cases hcallback : first.onChunkComplete with
  | some callback =>
    refine ⟨.media formatUrl url, ?_⟩
    simp [mediaChunkCompleteCb, userChunkComplete, Download.emit, answered, newCtx, hcallback,
      observe]
  | none =>
    obtain ⟨onMessageComplete, lastChunkEnd, request, hnext⟩ := nextChunk_eq answered
    have hcomplete : mediaChunkCompleteCb true false answered = mediaCtxNextChunk answered := by
      simp [mediaChunkCompleteCb, answered, newCtx, hcallback, Download.ready]
    rw [hcomplete, hnext]
    exact ⟨request, rfl⟩

/-- **Stale state.** Two downloads of one format, whatever state the format is in and whatever their
memory held, show the same in every run exactly when they have the same mode and, if the media has
more than one chunk, their memories hold the same `on_chunk_complete`. -/
theorem sameRuns_iff (parseUrl : Bytes → Option Url)
    (urlOf : Option String → Option String → Option Bytes) (val : List (String × JsonVal))
    (firstFormat secondFormat : InfoFormat) (hfirst : Prepared urlOf val firstFormat)
    (hsecond : Prepared urlOf val secondFormat) (first second : Memory Url Callback)
    (download other : Download Url)
    (hdownload : infoComplete parseUrl urlOf first firstFormat = some download)
    (hother : infoComplete parseUrl urlOf second secondFormat = some other) :
    (∀ events : List Event, (∀ event ∈ events, IsCallback event) →
      observed parseUrl first download events = observed parseUrl second other events) ↔
      (firstFormat.isPopulated = secondFormat.isPopulated ∨
        ¬ (HasKey val "width" ∧ HasKey val "audioChannels")) ∧
      (chunkedMode firstFormat = true → (chunkSize : ℤ) < contentLength val →
        first.onChunkComplete = second.onChunkComplete) := by
  obtain ⟨filled, formatUrl, url, hpopulate, hof, hparse, rfl⟩ := infoComplete_eq hfirst hdownload
  obtain ⟨filled', formatUrl', url', hpopulate', hof', hparse', rfl⟩ :=
    infoComplete_eq hsecond hother
  obtain rfl := Option.some.inj (hpopulate.symm.trans hpopulate')
  obtain rfl := Option.some.inj (hof.symm.trans hof')
  obtain rfl := Option.some.inj (hparse.symm.trans hparse')
  rw [← chunkedMode_eq_iff hfirst hsecond]
  constructor
  · intro hsame
    have hmode : chunkedMode firstFormat = chunkedMode secondFormat := by
      obtain ⟨request, hrequest, hiff⟩ := observed_connected parseUrl first url formatUrl
        (contentLength val) (chunkedMode firstFormat)
      obtain ⟨request', hrequest', hiff'⟩ := observed_connected parseUrl second url formatUrl
        (contentLength val) (chunkedMode secondFormat)
      have hconnected := hsame [.connected] (by simp [IsCallback])
      rw [hrequest, hrequest'] at hconnected
      obtain rfl : request = request' := by simpa using hconnected
      rw [hiff] at hiff'
      exact Bool.eq_iff_iff.mpr (by simpa using not_congr hiff')
    refine ⟨hmode, fun hchunked hlong ↦ ?_⟩
    have hchunk := hsame [.connected, .statusComplete 200, .messageComplete true false]
      (by simp [IsCallback])
    rw [← hmode, hchunked] at hchunk
    obtain ⟨request, hfirst⟩ := observed_chunk parseUrl first url formatUrl hlong
    obtain ⟨request', hsecond⟩ := observed_chunk parseUrl second url formatUrl hlong
    rw [hfirst, hsecond] at hchunk
    cases hcallback : first.onChunkComplete <;> cases hcallback' : second.onChunkComplete <;>
      simp_all
  · rintro ⟨hmode, hcallback⟩ events hevents
    rw [← hmode, newCtx_patch first second]
    refine observed_patch ?_ ?_ hevents
    · refine ⟨⟨fun hranged ↦ ?_, by simp [newCtx, Download.ready],
        by simp [newCtx, Download.ready]⟩,
        by simp [Awaiting, Download.ready], by simp [Download.ready]⟩
      exact congrArg Option.isSome (hcallback hranged.1 hranged.2).symm
    · exact fun hranged ↦ hcallback hranged.1 hranged.2

end Init

/-- The object of a video format of two chunks. -/
def videoObject : List (String × JsonVal) :=
  [("url", .str "u"), ("width", .int 640), ("contentLength", .str "131073")]

/-- Untouched URLs are the only ones, and every one of them can be connected to. -/
def plainUrl (_ untouched : Option String) : Option Bytes := untouched.map fun _ ↦ [117]

/-- The video format, filled in. -/
def videoFormat : InfoFormat :=
  { InfoFormat.calloc videoObject with
    isPopulated := true
    hasVid := true
    urlUntouched := some "u"
    width := 640
    contentLength := 131073 }

theorem videoFormat_prepared : Prepared plainUrl videoObject videoFormat :=
  .populate .calloc (by decide)

/-- What the memory holds at `on_chunk_complete` is called at the end of the first chunk. -/
theorem strayCallback_called :
    ∃ download other : Download Unit, Prepared plainUrl videoObject videoFormat ∧
      infoComplete (fun _ ↦ some ()) plainUrl ⟨Ctx.zeroed (), (none : Option Unit)⟩ videoFormat =
        some download ∧
      infoComplete (fun _ ↦ some ()) plainUrl ⟨Ctx.zeroed (), some ()⟩ videoFormat = some other ∧
      observed (fun _ ↦ some ()) ⟨Ctx.zeroed (), (none : Option Unit)⟩ download
          [.connected, .statusComplete 206, .messageComplete true false] ≠
        observed (fun _ ↦ some ()) ⟨Ctx.zeroed (), some ()⟩ other
          [.connected, .statusComplete 206, .messageComplete true false] :=
  ⟨_, _, videoFormat_prepared, rfl, rfl, by decide⟩

theorem sameRuns_iff_videoObject :
    (∀ events : List Event, (∀ event ∈ events, IsCallback event) →
      observed (fun _ ↦ some ()) ⟨Ctx.zeroed (), some true⟩
          (Download.ready (newCtx ⟨Ctx.zeroed (), some true⟩ () [117] 131073 true)) events =
        observed (fun _ ↦ some ())
          ⟨{ Ctx.zeroed () with wantRedirect := true, lastChunkEnd := 7 }, some true⟩
          (Download.ready (newCtx
            ⟨{ Ctx.zeroed () with wantRedirect := true, lastChunkEnd := 7 }, some true⟩ () [117]
            131073 true)) events) ↔
      ((InfoFormat.calloc videoObject).isPopulated = videoFormat.isPopulated ∨
        ¬ (HasKey videoObject "width" ∧ HasKey videoObject "audioChannels")) ∧
      (chunkedMode (InfoFormat.calloc videoObject) = true →
        (chunkSize : ℤ) < contentLength videoObject → some true = some true) :=
  sameRuns_iff _ plainUrl videoObject _ _ .calloc videoFormat_prepared _ _ _ _ rfl rfl

end LibYtdl.Dl.MediaStale
