import LibYtdl.Dl.MediaChunks

/-!
# Redirects of a media download

A redirect is noticed in a header callback: the connection is shut down and made again to the new
location, where the download starts over from the first request. Until the connection has closed,
the callbacks for the body and the end of the message stay installed. A run whose redirects all
answer a first request, deliver no body and end in a place where the end of a message asks for a
second chunk only, downloads the media as if there had been no redirect.
-/

namespace LibYtdl.Dl.MediaRedirect

open Machine Transition MediaDownload ChunkPlan MediaChunks

variable {Url : Type}

/-- The bytes that a request asks for. -/
def content (media : Bytes) : Request Url → Bytes
  | .media .. => media
  | .mediaChunk _ _ startIdx endIdx =>
    (media.take (if endIdx = 0 then media.length else endIdx + 1)).drop startIdx

/-- The request is the first one of a connection. -/
def isOpening : Request Url → Bool
  | .media .. => true
  | .mediaChunk _ _ startIdx _ => startIdx = 0

/-- The server answers with redirects that carry a location and with complete successes; the
location is a URL; the user asks for the next chunk once per chunk while paused. -/
def Served (media : Bytes) (parseUrl : Bytes → Option Url) (download : Download Url) (event : Event)
    (_next : Download Url) : Prop :=
  match event, download.parser, download.pending with
  | .statusComplete statusCode, _, request :: _ =>
    isRedirect statusCode = true ∨ isSuccess request statusCode = true
  | .body fragment, .message request statusCode received _, _ =>
    if isRedirect statusCode then download.connection = .closing
    else received ++ fragment <+: content media request
  | .messageComplete pause asks, .message request statusCode received _, _ =>
    (if isRedirect statusCode then download.connection = .closing
      else received = content media request) ∧
    (download.ctx.onMessageComplete = .chunkComplete → download.ctx.onChunkComplete = true →
      asks = true → pause = true)
  | .closed, _, _ => (parseUrl download.ctx.formatUrl).isSome = true
  | .nextChunk, _, _ => download.owed = true
  | _, _, _ => True

/-- The redirects of a run are harmless: each answers a first request, none of its body arrives
before the connection has closed, and if its end does, then a second chunk is asked for, which the
closing connection drops. -/
def Benign (download : Download Url) (event : Event) (_next : Download Url) : Prop :=
  match event, download.parser, download.pending with
  | .statusComplete statusCode, _, request :: _ =>
    isRedirect statusCode = true → isOpening request = true
  | .body fragment, .message _ statusCode _ _, _ => isRedirect statusCode = true → fragment = []
  | .messageComplete pause asks, .message _ statusCode _ _, _ =>
    isRedirect statusCode = true →
      download.ctx.isChunked = true ∧ (chunkSize : ℤ) < download.ctx.formatContentLength ∧
        (pausedAfter download.ctx pause = true → (download.ctx.onChunkComplete && asks) = true)
  | _, _, _ => True

instance (media : Bytes) (parseUrl : Bytes → Option Url) :
    (download : Download Url) → (event : Event) → (next : Download Url) →
      Decidable (Served media parseUrl download event next)
  | { pending := [], .. }, .statusComplete _, _ => isTrue trivial
  | { pending := request :: _, .. }, .statusComplete statusCode, _ =>
    inferInstanceAs (Decidable (isRedirect statusCode = true ∨ isSuccess request statusCode = true))
  | { parser := .start, .. }, .body _, _ => isTrue trivial
  | { connection, parser := .message request statusCode received _, .. }, .body fragment, _ =>
    inferInstanceAs (Decidable (if isRedirect statusCode then connection = .closing
      else received ++ fragment <+: content media request))
  | { parser := .start, .. }, .messageComplete _ _, _ => isTrue trivial
  | { ctx, connection, parser := .message request statusCode received _, .. },
      .messageComplete pause asks, _ =>
    inferInstanceAs (Decidable
      ((if isRedirect statusCode then connection = .closing
        else received = content media request) ∧
      (ctx.onMessageComplete = .chunkComplete → ctx.onChunkComplete = true → asks = true →
        pause = true)))
  | { ctx, .. }, .closed, _ => inferInstanceAs (Decidable ((parseUrl ctx.formatUrl).isSome = true))
  | { owed, .. }, .nextChunk, _ => inferInstanceAs (Decidable (owed = true))
  | _, .connected, _ | _, .headerField _, _ | _, .headerValue _, _ | _, .setPause _, _ =>
    isTrue trivial

instance : (download : Download Url) → (event : Event) → (next : Download Url) →
    Decidable (Benign download event next)
  | { pending := [], .. }, .statusComplete _, _ => isTrue trivial
  | { pending := request :: _, .. }, .statusComplete statusCode, _ =>
    inferInstanceAs (Decidable (isRedirect statusCode = true → isOpening request = true))
  | { parser := .start, .. }, .body _, _ => isTrue trivial
  | { parser := .message _ statusCode _ _, .. }, .body fragment, _ =>
    inferInstanceAs (Decidable (isRedirect statusCode = true → fragment = []))
  | { parser := .start, .. }, .messageComplete _ _, _ => isTrue trivial
  | { ctx, parser := .message _ statusCode _ _, .. }, .messageComplete pause asks, _ =>
    inferInstanceAs (Decidable (isRedirect statusCode = true →
      ctx.isChunked = true ∧ (chunkSize : ℤ) < ctx.formatContentLength ∧
        (pausedAfter ctx pause = true → (ctx.onChunkComplete && asks) = true)))
  | _, .connected, _ | _, .headerField _, _ | _, .headerValue _, _ | _, .closed, _
  | _, .nextChunk, _ | _, .setPause _, _ => isTrue trivial

/-- No byte of a redirect's body was passed on. -/
def Clean (trace : List (Effect Url)) : Prop :=
  ∀ statusCode fragment, Effect.data statusCode fragment ∈ trace → isRedirect statusCode = true →
    fragment = []

@[simp] theorem clean_append (first second : List (Effect Url)) :
    Clean (first ++ second) ↔ Clean first ∧ Clean second := by
  simp only [Clean, List.mem_append]
  constructor
  · exact fun h ↦ ⟨fun statusCode fragment hmem ↦ h statusCode fragment (.inl hmem),
      fun statusCode fragment hmem ↦ h statusCode fragment (.inr hmem)⟩
  · rintro ⟨hfirst, hsecond⟩ statusCode fragment (hmem | hmem)
    · exact hfirst statusCode fragment hmem
    · exact hsecond statusCode fragment hmem

@[simp] theorem clean_nil : Clean ([] : List (Effect Url)) := by
  simp [Clean]

@[simp] theorem clean_singleton (effect : Effect Url) :
    Clean [effect] ↔
      match effect with
      | .data statusCode fragment => isRedirect statusCode = true → fragment = []
      | _ => True := by
  cases effect with
  | data statusCode fragment =>
    simp only [Clean, List.mem_singleton, Effect.data.injEq]
    constructor
    · exact fun h ↦ h _ _ ⟨rfl, rfl⟩
    · rintro h _ _ ⟨rfl, rfl⟩
      exact h
  | _ => simp [Clean]

/-- What a state owes to the media: the bytes passed on are the media up to some point, none of
them from a redirect, and `on_complete` is called once, at the end. With nothing outstanding, the
download is complete. -/
structure Faithful (media : Bytes) (download : Download Url) : Prop where
  inOrder : delivered download.trace <+: media
  clean : Clean download.trace
  once : completions download.trace ≤ 1
  complete : completions download.trace = 1 → delivered download.trace = media
  finished : download.connection = .up → download.outstanding = [] → download.owed = false →
    completions download.trace = 1

/-! ## The bytes of the requests -/

/-- The request is the one for the chunk `index`, or the only one of a download that is not chunked,
and the context is as it was left by it. -/
def AskedFor (media : Bytes) (index : ℕ) (request : Request Url) (ctx : Ctx Url) : Prop :=
  (ctx.isChunked = true ∧ Asked media.length index ctx ∧ ∃ formatUrl url,
    request = .mediaChunk formatUrl url (chunkRange media.length index).1
      (chunkRange media.length index).2) ∨
  (ctx.isChunked = false ∧ index = 0 ∧ ctx.onMessageComplete = .chunkComplete ∧
    ∃ formatUrl url, request = .media formatUrl url)

/-- Nothing is left to ask for after the request `index`. -/
def IsLast (media : Bytes) (index : ℕ) (ctx : Ctx Url) : Prop :=
  ctx.isChunked = true → index = lastIndex media.length

theorem take_append_slice (media : Bytes) {first last : ℕ} (hle : first ≤ last) :
    media.take first ++ (media.take last).drop first = media.take last := by
  calc
    media.take first ++ (media.take last).drop first =
        (media.take last).take first ++ (media.take last).drop first := by
      rw [List.take_take, min_eq_left hle]
    _ = media.take last := List.take_append_drop first (media.take last)

/-- The last request asks for all that is missing. -/
theorem take_append_content_last {media : Bytes} {index : ℕ} {request : Request Url}
    {ctx : Ctx Url} (h : AskedFor media index request ctx) (hlast : IsLast media index ctx) :
    media.take (chunkStart index) ++ content media request = media := by
  obtain ⟨hchunked, hasked, formatUrl, url, rfl⟩ | ⟨-, rfl, -, formatUrl, url, rfl⟩ := h
  · have hrange : (chunkRange media.length index).2 = 0 := if_pos (hlast hchunked)
    rw [content, hrange, if_pos rfl]
    calc
      media.take (chunkStart index) ++ (media.take media.length).drop (chunkStart index) =
          media.take media.length := take_append_slice media (chunkStart_le hasked.le_last)
      _ = media := List.take_length
  · simp [content, chunkStart]

/-- A request before the last one asks for the bytes up to the next chunk. -/
theorem take_append_content {media : Bytes} {index : ℕ} {request : Request Url}
    {ctx : Ctx Url} (h : AskedFor media index request ctx) (hlast : ¬ IsLast media index ctx) :
    ctx.isChunked = true ∧ index < lastIndex media.length ∧
      media.take (chunkStart index) ++ content media request =
        media.take (chunkStart (index + 1)) := by
  obtain ⟨hchunked, hasked, formatUrl, url, rfl⟩ | ⟨hwhole, -⟩ := h
  · have hne : index ≠ lastIndex media.length := fun heq ↦ hlast fun _ ↦ heq
    have hlt : index < lastIndex media.length := lt_of_le_of_ne hasked.le_last hne
    have hrange : (chunkRange media.length index).2 = (index + 1) * chunkSize := if_neg hne
    have hpos := succ_mul_chunkSize_ne_zero index
    refine ⟨hchunked, hlt, ?_⟩
    rw [content, hrange, if_neg hpos, ← chunkStart_succ]
    refine take_append_slice media ?_
    unfold chunkStart
    split <;> simp [Nat.add_mul]
  · exact absurd (fun hchunked ↦ by simp [hwhole] at hchunked) hlast

/-- In every case the bytes before and those asked for begin the media. -/
theorem take_append_content_isPrefix {media : Bytes} {index : ℕ} {request : Request Url}
    {ctx : Ctx Url} (h : AskedFor media index request ctx) :
    media.take (chunkStart index) ++ content media request <+: media := by
  by_cases hlast : IsLast media index ctx
  · rw [take_append_content_last h hlast]
  · rw [(take_append_content h hlast).2.2]
    exact List.take_prefix _ _

theorem index_eq_zero_of_isOpening {media : Bytes} {index : ℕ} {request : Request Url}
    {ctx : Ctx Url} (h : AskedFor media index request ctx) (hopening : isOpening request = true) :
    index = 0 := by
  obtain ⟨-, -, formatUrl, url, rfl⟩ | ⟨-, rfl, -⟩ := h
  · by_contra hne
    simp [isOpening, chunkRange, chunkStart, hne] at hopening
  · rfl

/-- Only four members of the context count. -/
theorem AskedFor.of_ctx {media : Bytes} {index : ℕ} {request : Request Url} {ctx next : Ctx Url}
    (h : AskedFor media index request ctx) (hchunked : next.isChunked = ctx.isChunked)
    (hlength : next.formatContentLength = ctx.formatContentLength)
    (hhandler : next.onMessageComplete = ctx.onMessageComplete)
    (hend : next.lastChunkEnd = ctx.lastChunkEnd) : AskedFor media index request next := by
  rw [AskedFor, hchunked, hhandler]
  refine h.imp (fun ⟨hchunked, hasked, hrequest⟩ ↦ ⟨hchunked, ?_, hrequest⟩) id
  exact ⟨hlength.trans hasked.length_eq, hasked.le_last, hhandler.trans hasked.handler,
    fun hlt ↦ hend.trans (hasked.lastChunkEnd hlt)⟩

/-! ## The invariant -/

/-- The part of the current answer that has arrived. -/
def received : Parser Url → Bytes
  | .start => []
  | .message _ _ received _ => received

/-- The parser is in the answer `request`, which is a redirect. -/
def InRedirect (parser : Parser Url) (request : Request Url) : Prop :=
  ∃ statusCode received inBody, parser = .message request statusCode received inBody ∧
    isRedirect statusCode = true

/-- What no event changes. -/
structure Lasting (media : Bytes) (download : Download Url) : Prop where
  onData : download.ctx.onData = true
  onComplete : download.ctx.onComplete = true
  length_eq : download.ctx.isChunked = true → download.ctx.formatContentLength = media.length
  clean : Clean download.trace

/-- The connection is being made, and the download is at its start. -/
structure Connecting (download : Download Url) : Prop where
  connection : download.connection = .connecting
  handler : download.ctx.onMessageComplete = .chunkComplete
  onHeaderField : download.ctx.onHeaderField = false
  onHeaderValue : download.ctx.onHeaderValue = false
  parser : download.parser = .start
  pending : download.pending = []
  owed : download.owed = false
  delivered : delivered download.trace = []
  completions : completions download.trace = 0

/-- An answer that is no redirect is on its way. -/
structure Transfer (media : Bytes) (index : ℕ) (request : Request Url)
    (download : Download Url) : Prop where
  connection : download.connection = .up
  asked : AskedFor media index request download.ctx
  onHeaderField : download.ctx.onHeaderField = false
  onHeaderValue : download.ctx.onHeaderValue = false
  outstanding : download.outstanding = [request]
  noRedirect : ∀ request, ¬ InRedirect download.parser request
  owed : download.owed = false
  delivered : delivered download.trace = media.take (chunkStart index) ++ received download.parser
  arrived : received download.parser <+: content media request
  completions : completions download.trace = 0

/-- A chunk has ended and the user has to ask for the next one. -/
structure Owed (media : Bytes) (index : ℕ) (request : Request Url) (download : Download Url) :
    Prop where
  connection : download.connection = .up
  asked : AskedFor media index request download.ctx
  notLast : ¬ IsLast media index download.ctx
  onHeaderField : download.ctx.onHeaderField = false
  onHeaderValue : download.ctx.onHeaderValue = false
  parser : download.parser = .start
  pending : download.pending = []
  owed : download.owed = true
  delivered : delivered download.trace = media.take (chunkStart (index + 1))
  completions : completions download.trace = 0

/-- The download is complete. -/
structure Done (media : Bytes) (download : Download Url) : Prop where
  connection : download.connection = .up
  parser : download.parser = .start
  pending : download.pending = []
  owed : download.owed = false
  delivered : delivered download.trace = media
  completions : completions download.trace = 1

/-- The first request is being answered by a redirect; `phase` tells whether its location was read
yet. -/
structure Redirected (media : Bytes) (phase : Connection) (download : Download Url) : Prop where
  connection : download.connection = phase
  answer : (phase = .closing ∧ download.parser = .start) ∨
    ∃ request, InRedirect download.parser request ∧ AskedFor media 0 request download.ctx
  pending : download.pending = []
  owed : download.owed = false
  delivered : delivered download.trace = []
  completions : completions download.trace = 0

inductive Stage (media : Bytes) (download : Download Url) : Prop
  | connecting (h : Connecting download)
  | transfer (index : ℕ) (request : Request Url) (h : Transfer media index request download)
  | owed (index : ℕ) (request : Request Url) (h : Owed media index request download)
  | done (h : Done media download)
  | redirected (h : Redirected media .up download)
  | closing (h : Redirected media .closing download)

def Inv (media : Bytes) (download : Download Url) : Prop :=
  Lasting media download ∧ Stage media download

/-- The invariant gives what the state owes to the media. -/
theorem Inv.faithful {media : Bytes} {download : Download Url} (h : Inv media download) :
    Faithful media download := by
  obtain ⟨hlasting, hstage⟩ := h
  cases hstage with
  | connecting h =>
    refine ⟨?_, hlasting.clean, ?_, ?_, ?_⟩ <;> simp [h.delivered, h.completions, h.connection]
  | transfer index request h =>
    refine ⟨?_, hlasting.clean, ?_, ?_, ?_⟩
    · have harrived : media.take (chunkStart index) ++ received download.parser <+:
          media.take (chunkStart index) ++ content media request :=
        (List.prefix_append_right_inj _).mpr h.arrived
      rw [h.delivered]
      exact harrived.trans (take_append_content_isPrefix h.asked)
    all_goals simp [h.completions, h.outstanding]
  | owed index request h =>
    refine ⟨?_, hlasting.clean, ?_, ?_, ?_⟩
    · rw [h.delivered]
      exact List.take_prefix _ _
    all_goals simp [h.completions, h.owed]
  | done h =>
    refine ⟨?_, hlasting.clean, ?_, ?_, ?_⟩ <;> simp [h.delivered, h.completions]
  | redirected h =>
    refine ⟨?_, hlasting.clean, ?_, ?_, ?_⟩
    · simp [h.delivered]
    · simp [h.completions]
    · simp [h.completions]
    · obtain ⟨hclosing, -⟩ | ⟨request, ⟨statusCode, received, inBody, hparser, -⟩, -⟩ := h.answer
      · cases hclosing
      · simp [Download.outstanding, hparser]
  | closing h =>
    refine ⟨?_, hlasting.clean, ?_, ?_, ?_⟩ <;> simp [h.delivered, h.completions, h.connection]

/-! ## Steps -/

section Steps

variable {media : Bytes} {index : ℕ} {request : Request Url} {download : Download Url}

/-- Appending effects other than data keeps what lasts. -/
theorem Lasting.of_trace {next : Download Url} {emitted : List (Effect Url)}
    (h : Lasting media download) (hdata : next.ctx.onData = download.ctx.onData)
    (hcomplete : next.ctx.onComplete = download.ctx.onComplete)
    (hchunked : next.ctx.isChunked = download.ctx.isChunked)
    (hlength : next.ctx.formatContentLength = download.ctx.formatContentLength)
    (htrace : next.trace = download.trace ++ emitted) (hclean : Clean emitted) :
    Lasting media next := by
  refine ⟨hdata.trans h.onData, hcomplete.trans h.onComplete, fun hnext ↦ ?_, ?_⟩
  · exact hlength.trans (h.length_eq (hchunked ▸ hnext))
  rw [htrace, clean_append]
  exact ⟨h.clean, hclean⟩

/-- Nothing is outstanding and the user has nothing to do, with `offset` bytes passed on. -/
structure Idle (media : Bytes) (offset : ℕ) (download : Download Url) : Prop where
  connection : download.connection = .up
  onHeaderField : download.ctx.onHeaderField = false
  onHeaderValue : download.ctx.onHeaderValue = false
  parser : download.parser = .start
  pending : download.pending = []
  owed : download.owed = false
  delivered : delivered download.trace = media.take offset
  completions : completions download.trace = 0

/-- Writing the request for the bytes that follow. -/
theorem transfer_write (h : Idle media (chunkStart index) download)
    (hasked : AskedFor media index request download.ctx) :
    Transfer media index request (download.write request) := by
  refine ⟨h.connection, hasked, h.onHeaderField, h.onHeaderValue, ?_, ?_, h.owed, ?_, ?_, ?_⟩
  · simp [Download.write, Download.outstanding, h.parser, h.pending, h.connection]
  · simp [Download.write, InRedirect, h.parser]
  · simp [Download.write, h.delivered, h.parser, received]
  · simp [Download.write, h.parser, received]
  · simp [Download.write, h.completions]

theorem inv_connected (hlasting : Lasting media download) (h : Connecting download) :
    Inv media (mediaConnectedCb { download with connection := .up }) := by
  have hdelivered : delivered download.trace = media.take (chunkStart 0) := by
    simp [h.delivered, chunkStart]
  cases hchunked : download.ctx.isChunked with
  | true =>
    rw [mediaConnectedCb_eq { download with connection := .up } hchunked
      (hlasting.length_eq hchunked)]
    refine ⟨hlasting.of_trace rfl rfl rfl rfl rfl (by simp), .transfer 0 _ (transfer_write
      ⟨rfl, h.onHeaderField, h.onHeaderValue, h.parser, h.pending, h.owed, hdelivered,
        h.completions⟩ (Or.inl ⟨hchunked, ?_, _, _, rfl⟩))⟩
    exact asked_afterAsking (hlasting.length_eq hchunked) (Nat.zero_le _) h.handler
  | false =>
    have hwrite : mediaConnectedCb { download with connection := .up } =
        { download with connection := .up }.write
          (.media download.ctx.formatUrl download.ctx.url) := by
      simp [mediaConnectedCb, hchunked]
    rw [hwrite]
    exact ⟨hlasting.of_trace rfl rfl rfl rfl rfl (by simp), .transfer 0 _ (transfer_write
      ⟨rfl, h.onHeaderField, h.onHeaderValue, h.parser, h.pending, h.owed, hdelivered,
        h.completions⟩ (Or.inr ⟨hchunked, rfl, h.handler, _, _, rfl⟩))⟩

/-- Asking for the next chunk of a chunked download. -/
theorem inv_nextChunk (hlasting : Lasting media download) (hsize : media.length < 2 ^ 63)
    (hchunked : download.ctx.isChunked = true) (hasked : Asked media.length index download.ctx)
    (hlt : index < lastIndex media.length)
    (hidle : Idle media (chunkStart (index + 1)) download) :
    Inv media (mediaCtxNextChunk download) := by
  rw [mediaCtxNextChunk_eq hasked hsize hlt]
  refine ⟨hlasting.of_trace rfl rfl rfl rfl rfl (by simp), .transfer (index + 1) _ (transfer_write
    ⟨hidle.connection, hidle.onHeaderField, hidle.onHeaderValue, hidle.parser, hidle.pending,
      hidle.owed, hidle.delivered, hidle.completions⟩ (Or.inl ⟨hchunked, ?_, _, _, rfl⟩))⟩
  exact asked_afterAsking (hlasting.length_eq hchunked) hlt (hasked.handler_of_lt hlt)

theorem asked_of_askedFor {ctx : Ctx Url} (h : AskedFor media index request ctx)
    (hchunked : ctx.isChunked = true) : Asked media.length index ctx := by
  obtain ⟨-, hasked, -⟩ | ⟨hwhole, -⟩ := h
  · exact hasked
  · simp [hwhole] at hchunked

/-- The status of an answer: a redirect of the first request, or a success. -/
theorem inv_statusComplete {pending : List (Request Url)} {first : Request Url} {statusCode : ℕ}
    (hlasting : Lasting media download) (h : Transfer media index request download)
    (hparser : download.parser = .start) (hpending : download.pending = first :: pending)
    (hopening : isRedirect statusCode = true → isOpening first = true) :
    Inv media (statusEvent first statusCode { download with pending := pending }) := by
  have hout := h.outstanding
  simp only [Download.outstanding, hparser, Parser.current_start, hpending, List.nil_append,
    List.cons.injEq] at hout
  obtain ⟨rfl, rfl⟩ := hout
  have hdelivered := h.delivered
  simp only [hparser, received, List.append_nil] at hdelivered
  cases hstatus : isRedirect statusCode with
  | true =>
    have hzero := index_eq_zero_of_isOpening h.asked (hopening hstatus)
    subst hzero
    have hevent : statusEvent first statusCode { download with pending := [] } =
        { download with
          ctx := { download.ctx with wantRedirect := true, onHeaderField := true }
          pending := []
          parser := .message first statusCode [] false
          trace := download.trace ++ [.status first statusCode] } := by
      simp [statusEvent, mediaStatusCb, hstatus, onStatusComplete, Download.emit]
    rw [hevent]
    refine ⟨hlasting.of_trace rfl rfl rfl rfl rfl (by simp), .redirected
      ⟨h.connection, Or.inr ⟨first, ⟨_, _, _, rfl, hstatus⟩, h.asked.of_ctx rfl rfl rfl rfl⟩, rfl,
        h.owed, ?_, ?_⟩⟩
    · simp [hdelivered, chunkStart]
    · simp [h.completions]
  | false =>
    rw [statusEvent_of_not_redirect hstatus]
    refine ⟨hlasting.of_trace rfl rfl rfl rfl rfl (by simp), .transfer index first
      ⟨h.connection, h.asked, h.onHeaderField, h.onHeaderValue, ?_, ?_, h.owed, ?_, ?_, ?_⟩⟩
    · simp [Download.outstanding]
    · rintro other ⟨_, _, _, heq, hredirect⟩
      cases heq
      simp [hstatus] at hredirect
    · simp [hdelivered, received]
    · simp [received]
    · simp [h.completions]

theorem redirected_headerField {phase : Connection} (h : Redirected media phase download)
    (fragment : Bytes) : Redirected media phase (mediaHeaderFieldCb fragment download) := by
  unfold mediaHeaderFieldCb
  split
  · refine ⟨h.connection, h.answer.imp id ?_, h.pending, h.owed, h.delivered, h.completions⟩
    exact fun ⟨request, hparser, hasked⟩ ↦ ⟨request, hparser, hasked.of_ctx rfl rfl rfl rfl⟩
  · exact h

/-- The value of a header does nothing, or it is the location and the connection is shut down. -/
theorem stage_headerValue {phase : Connection} (h : Redirected media phase download)
    (fragment : Bytes) : Redirected media phase (mediaHeaderValueCb fragment download) ∨
      Redirected media .closing (mediaHeaderValueCb fragment download) := by
  unfold mediaHeaderValueCb
  split
  · refine Or.inr ⟨rfl, ?_, h.pending, h.owed, by simp [h.delivered], by simp [h.completions]⟩
    obtain ⟨-, hparser⟩ | ⟨request, hparser, hasked⟩ := h.answer
    · exact Or.inl ⟨rfl, hparser⟩
    · exact Or.inr ⟨request, hparser, hasked.of_ctx rfl rfl rfl rfl⟩
  · exact Or.inl h

theorem lasting_headerField (hlasting : Lasting media download) (fragment : Bytes) :
    Lasting media (mediaHeaderFieldCb fragment download) := by
  unfold mediaHeaderFieldCb
  split <;> exact hlasting.of_trace rfl rfl rfl rfl (List.append_nil _).symm clean_nil

theorem lasting_headerValue (hlasting : Lasting media download) (fragment : Bytes) :
    Lasting media (mediaHeaderValueCb fragment download) := by
  unfold mediaHeaderValueCb
  split
  · exact hlasting.of_trace rfl rfl rfl rfl rfl (by simp)
  · exact hlasting

/-- A header callback that is not installed, or one in a redirect. -/
theorem inv_headerField (h : Inv media download) (fragment : Bytes) {statusCode : ℕ}
    {arrived : Bytes} (hparser : download.parser = .message request statusCode arrived false) :
    Inv media (if download.ctx.onHeaderField then mediaHeaderFieldCb fragment download
      else download) := by
  split
  case isFalse => exact h
  case isTrue hset =>
    obtain ⟨hlasting, hstage⟩ := h
    refine ⟨lasting_headerField hlasting fragment, ?_⟩
    cases hstage with
    | connecting h => simp [h.onHeaderField] at hset
    | transfer index request h => simp [h.onHeaderField] at hset
    | owed index request h => simp [h.onHeaderField] at hset
    | done h => simp [h.parser] at hparser
    | redirected h => exact .redirected (redirected_headerField h fragment)
    | closing h => exact .closing (redirected_headerField h fragment)

theorem inv_headerValue (h : Inv media download) (fragment : Bytes) {statusCode : ℕ}
    {arrived : Bytes} (hparser : download.parser = .message request statusCode arrived false) :
    Inv media (if download.ctx.onHeaderValue then mediaHeaderValueCb fragment download
      else download) := by
  split
  case isFalse => exact h
  case isTrue hset =>
    obtain ⟨hlasting, hstage⟩ := h
    refine ⟨lasting_headerValue hlasting fragment, ?_⟩
    cases hstage with
    | connecting h => simp [h.onHeaderValue] at hset
    | transfer index request h => simp [h.onHeaderValue] at hset
    | owed index request h => simp [h.onHeaderValue] at hset
    | done h => simp [h.parser] at hparser
    | redirected h => exact (stage_headerValue h fragment).elim .redirected .closing
    | closing h => exact (stage_headerValue h fragment).elim .closing .closing

/-- The answer that arrives during a transfer is a success, and the only one outstanding. -/
theorem Transfer.of_message {current : Request Url} {statusCode : ℕ} {arrived : Bytes}
    {inBody : Bool} (h : Transfer media index current download)
    (hparser : download.parser = .message request statusCode arrived inBody) :
    request = current ∧ download.pending = [] ∧ isRedirect statusCode = false := by
  have hout := h.outstanding
  simp only [Download.outstanding, hparser, Parser.current_message, List.singleton_append,
    List.cons.injEq] at hout
  refine ⟨hout.1, hout.2, ?_⟩
  by_contra hredirect
  exact h.noRedirect request ⟨_, _, _, hparser, by simpa using hredirect⟩

/-- The answer that arrives during a redirect is the redirect. -/
theorem Redirected.of_message {phase : Connection} {statusCode : ℕ} {arrived : Bytes}
    {inBody : Bool} (h : Redirected media phase download)
    (hparser : download.parser = .message request statusCode arrived inBody) :
    isRedirect statusCode = true ∧ AskedFor media 0 request download.ctx := by
  obtain ⟨-, hstart⟩ | ⟨other, ⟨_, _, _, heq, hredirect⟩, hasked⟩ := h.answer
  · simp [hparser] at hstart
  · rw [hparser] at heq
    cases heq
    exact ⟨hredirect, hasked⟩

/-- A fragment of a success goes to the user, and one of a redirect is empty. -/
theorem inv_body {statusCode : ℕ} {arrived fragment : Bytes} {inBody : Bool}
    (h : Inv media download)
    (hparser : download.parser = .message request statusCode arrived inBody)
    (hserved : if isRedirect statusCode then download.connection = .closing
      else arrived ++ fragment <+: content media request)
    (hbenign : isRedirect statusCode = true → fragment = []) :
    Inv media (bodyEvent request statusCode arrived fragment download) := by
  obtain ⟨hlasting, hstage⟩ := h
  rw [bodyEvent_eq, if_pos hlasting.onData]
  refine ⟨hlasting.of_trace rfl rfl rfl rfl rfl (by simpa using hbenign), ?_⟩
  cases hstage with
  | connecting h => simp [h.parser] at hparser
  | owed index request h => simp [h.parser] at hparser
  | done h => simp [h.parser] at hparser
  | transfer index current h =>
    obtain ⟨rfl, hpending, hstatus⟩ := h.of_message hparser
    rw [hstatus] at hserved
    refine .transfer index request ⟨h.connection, h.asked, h.onHeaderField, h.onHeaderValue, ?_, ?_,
      h.owed, ?_, ?_, ?_⟩
    · simp [Download.outstanding, hpending]
    · rintro other ⟨_, _, _, heq, hredirect⟩
      cases heq
      simp [hstatus] at hredirect
    · simp [h.delivered, hparser, received]
    · simpa [received] using hserved
    · simp [h.completions]
  | redirected h => simp [(h.of_message hparser).1, h.connection] at hserved
  | closing h =>
    obtain ⟨hredirect, hasked⟩ := h.of_message hparser
    refine .closing ⟨h.connection, Or.inr ⟨_, ⟨_, _, _, rfl, hredirect⟩, hasked⟩, h.pending,
      h.owed, ?_, ?_⟩
    · simp [h.delivered, hbenign hredirect]
    · simp [h.completions]

/-- The connection has closed, and the download starts over. -/
theorem inv_closed {parseUrl : Bytes → Option Url} (h : Inv media download)
    (hclosing : download.connection = .closing)
    (hparse : (parseUrl download.ctx.formatUrl).isSome = true) :
    Inv media (mediaCloseRedirectCb parseUrl download) := by
  obtain ⟨hlasting, hstage⟩ := h
  obtain ⟨url, hurl⟩ := Option.isSome_iff_exists.mp hparse
  have hevent : mediaCloseRedirectCb parseUrl download =
      { download with
        ctx :=
          { download.ctx with
            url := url
            onHeaderField := false
            onHeaderValue := false
            onMessageComplete := .chunkComplete }
        connection := .connecting
        pending := []
        parser := .start
        trace := download.trace ++ [.connect] } := by
    simp [mediaCloseRedirectCb, hurl, mediaCtxConnect]
  rw [hevent]
  refine ⟨hlasting.of_trace rfl rfl rfl rfl rfl (by simp), ?_⟩
  cases hstage with
  | connecting h => simp [h.connection] at hclosing
  | transfer index request h => simp [h.connection] at hclosing
  | owed index request h => simp [h.connection] at hclosing
  | done h => simp [h.connection] at hclosing
  | redirected h => simp [h.connection] at hclosing
  | closing h =>
    exact .connecting ⟨rfl, rfl, rfl, rfl, rfl, rfl, h.owed, by simp [h.delivered],
      by simp [h.completions]⟩

theorem lasting_chunkEnded (h : Lasting media download) (pause asks : Bool) :
    Lasting media (chunkEnded pause asks download) := by
  refine h.of_trace rfl rfl rfl rfl rfl ?_
  split <;> simp

@[simp] theorem delivered_chunkEnded (pause asks : Bool) :
    delivered (chunkEnded pause asks download).trace = delivered download.trace := by
  cases hcallback : download.ctx.onChunkComplete <;> simp [chunkEnded, hcallback]

@[simp] theorem completions_chunkEnded (pause asks : Bool) :
    completions (chunkEnded pause asks download).trace = completions download.trace := by
  cases hcallback : download.ctx.onChunkComplete <;> simp [chunkEnded, hcallback]

/-- The end of the last answer completes the download. -/
theorem inv_lastMessage {pause asks : Bool} (hlasting : Lasting media download)
    (hasked : AskedFor media index request download.ctx)
    (hlast : IsLast media index download.ctx) (hidle : Idle media media.length download) :
    Inv media (messageCompleteCb pause asks download) := by
  have hcomplete : messageCompleteCb pause asks download = download.emit .complete := by
    obtain ⟨hchunked, hasked, -⟩ | ⟨hwhole, -, hhandler, -⟩ := hasked
    · have hhandler : download.ctx.onMessageComplete = .chunkFinalComplete := by
        rw [hasked.handler, if_pos (hlast hchunked)]
      simp [messageCompleteCb, hhandler, mediaChunkFinalCompleteCb, hlasting.onComplete]
    · simp [messageCompleteCb, hhandler, mediaChunkCompleteCb, hwhole, hlasting.onComplete]
  rw [hcomplete]
  refine ⟨hlasting.of_trace rfl rfl rfl rfl rfl (by simp), .done ⟨hidle.connection, hidle.parser,
    hidle.pending, hidle.owed, ?_, ?_⟩⟩
  · simp [Download.emit, hidle.delivered]
  · simp [Download.emit, hidle.completions]

/-- The end of an earlier chunk asks for the next one, or leaves that to the user. -/
theorem inv_chunkMessage {pause asks : Bool} (hlasting : Lasting media download)
    (hsize : media.length < 2 ^ 63) (hasked : AskedFor media index request download.ctx)
    (hchunked : download.ctx.isChunked = true) (hlt : index < lastIndex media.length)
    (hidle : Idle media (chunkStart (index + 1)) download)
    (honce : download.ctx.onMessageComplete = .chunkComplete →
      download.ctx.onChunkComplete = true → asks = true → pause = true) :
    Inv media (messageCompleteCb pause asks download) := by
  have hcontrol := asked_of_askedFor hasked hchunked
  have hhandler := hcontrol.handler_of_lt hlt
  have hended := lasting_chunkEnded hlasting pause asks
  have hdelivered := (delivered_chunkEnded pause asks).trans hidle.delivered
  have hcompletions := (completions_chunkEnded pause asks).trans hidle.completions
  simp only [messageCompleteCb, hhandler]
  rw [mediaChunkCompleteCb_eq hchunked (honce hhandler)]
  split
  case isTrue hstill =>
    refine ⟨hended, .owed index request ⟨hidle.connection, hasked.of_ctx rfl rfl rfl rfl, ?_,
      hidle.onHeaderField, hidle.onHeaderValue, hidle.parser, hidle.pending, hstill, hdelivered,
      hcompletions⟩⟩
    exact fun hlast ↦ hlt.ne (hlast hchunked)
  case isFalse hdone =>
    exact inv_nextChunk hended hsize hchunked (hcontrol.setPause _) hlt
      ⟨hidle.connection, hidle.onHeaderField, hidle.onHeaderValue, hidle.parser, hidle.pending,
        by simpa using hdone, hdelivered, hcompletions⟩

/-- The end of a redirect, where the next chunk is asked for in vain. -/
theorem closing_messageComplete {pause asks : Bool} (hsize : media.length < 2 ^ 63)
    (hlasting : Lasting media download) (h : Redirected media .closing download)
    (hasked : AskedFor media 0 request download.ctx) (hparser : download.parser = .start)
    (hchunked : download.ctx.isChunked = true)
    (hlong : (chunkSize : ℤ) < download.ctx.formatContentLength)
    (honce : download.ctx.onMessageComplete = .chunkComplete →
      download.ctx.onChunkComplete = true → asks = true → pause = true)
    (hpaused : pausedAfter download.ctx pause = true →
      (download.ctx.onChunkComplete && asks) = true) :
    Inv media (messageCompleteCb pause asks download) := by
  have hcontrol := asked_of_askedFor hasked hchunked
  have hlt : 0 < lastIndex media.length := by
    rw [lt_lastIndex_iff]
    have := hlasting.length_eq hchunked
    omega
  have hhandler := hcontrol.handler_of_lt hlt
  have hdone : (chunkEnded pause asks download).owed = false := by
    cases hcase : pausedAfter download.ctx pause with
    | false => simp [chunkEnded, hcase]
    | true => simp only [chunkEnded, hcase, hpaused hcase, Bool.not_true, Bool.and_false]
  have hended := lasting_chunkEnded hlasting pause asks
  have hasked : Asked media.length 0 (chunkEnded pause asks download).ctx :=
    hcontrol.setPause _
  simp only [messageCompleteCb, hhandler]
  rw [mediaChunkCompleteCb_eq hchunked (honce hhandler), if_neg (by simp [hdone]),
    mediaCtxNextChunk_eq hasked hsize hlt]
  have hconnection : (chunkEnded pause asks download).connection = .closing := h.connection
  refine ⟨hended.of_trace rfl rfl rfl rfl rfl (by simp),
    .closing ⟨hconnection, Or.inl ⟨rfl, hparser⟩, ?_, hdone, ?_, ?_⟩⟩
  · simp [Download.write, chunkEnded, h.pending, h.connection]
  · simp [Download.write, h.delivered]
  · simp [Download.write, h.completions]

theorem lasting_answerEnded (h : Lasting media download) (request : Request Url) :
    Lasting media (answerEnded request download) :=
  h.of_trace rfl rfl rfl rfl rfl (by simp)

/-- A complete answer leaves the download idle, with the bytes it asked for passed on. -/
theorem idle_answerEnded {offset : ℕ} (h : Transfer media index request download)
    (hparser : download.parser.current = [request])
    (harrived : received download.parser = content media request)
    (hoffset : media.take (chunkStart index) ++ content media request = media.take offset) :
    Idle media offset (answerEnded request download) := by
  have hpending : download.pending = [] := by
    simpa [Download.outstanding, hparser] using h.outstanding
  refine ⟨h.connection, h.onHeaderField, h.onHeaderValue, rfl, hpending, h.owed, ?_, ?_⟩
  · simp [answerEnded, Download.emit, h.delivered, harrived, hoffset]
  · simp [answerEnded, Download.emit, h.completions]

theorem inv_messageComplete {statusCode : ℕ} {arrived : Bytes} {inBody pause asks : Bool}
    (h : Inv media download) (hsize : media.length < 2 ^ 63)
    (hparser : download.parser = .message request statusCode arrived inBody)
    (hserved : if isRedirect statusCode then download.connection = .closing
      else arrived = content media request)
    (honce : download.ctx.onMessageComplete = .chunkComplete →
      download.ctx.onChunkComplete = true → asks = true → pause = true)
    (hbenign : isRedirect statusCode = true →
      download.ctx.isChunked = true ∧ (chunkSize : ℤ) < download.ctx.formatContentLength ∧
        (pausedAfter download.ctx pause = true → (download.ctx.onChunkComplete && asks) = true)) :
    Inv media (messageEvent request pause asks download) := by
  obtain ⟨hlasting, hstage⟩ := h
  have hended := lasting_answerEnded hlasting request
  rw [messageEvent]
  cases hstage with
  | connecting h => simp [h.parser] at hparser
  | owed index request h => simp [h.parser] at hparser
  | done h => simp [h.parser] at hparser
  | transfer index current h =>
    obtain ⟨rfl, -, hstatus⟩ := h.of_message hparser
    have hcurrent : download.parser.current = [request] := by simp [hparser]
    have harrived : received download.parser = content media request := by
      simpa [hparser, received, hstatus] using hserved
    by_cases hlast : IsLast media index download.ctx
    · have hall := take_append_content_last h.asked hlast
      exact inv_lastMessage hended (h.asked.of_ctx rfl rfl rfl rfl) hlast
        (idle_answerEnded h hcurrent harrived (by rw [hall, List.take_length]))
    · obtain ⟨hchunked, hlt, hnext⟩ := take_append_content h.asked hlast
      exact inv_chunkMessage hended hsize (h.asked.of_ctx rfl rfl rfl rfl) hchunked hlt
        (idle_answerEnded h hcurrent harrived hnext) honce
  | redirected h => simp [(h.of_message hparser).1, h.connection] at hserved
  | closing h =>
    obtain ⟨hredirect, hasked⟩ := h.of_message hparser
    obtain ⟨hchunked, hlong, hpaused⟩ := hbenign hredirect
    have hclosing : Redirected media .closing (answerEnded request download) :=
      ⟨h.connection, Or.inl ⟨rfl, rfl⟩, h.pending, h.owed,
        by simp [answerEnded, Download.emit, h.delivered],
        by simp [answerEnded, Download.emit, h.completions]⟩
    exact closing_messageComplete hsize hended hclosing (hasked.of_ctx rfl rfl rfl rfl) rfl
      hchunked hlong honce hpaused

/-- The user asks for the chunk that is owed. -/
theorem inv_owedChunk (h : Inv media download) (hsize : media.length < 2 ^ 63)
    (howed : download.owed = true) :
    Inv media (mediaCtxNextChunk { download with owed := false }) := by
  obtain ⟨hlasting, hstage⟩ := h
  cases hstage with
  | owed index request h =>
    obtain ⟨hchunked, hlt, -⟩ := take_append_content h.asked h.notLast
    exact inv_nextChunk (hlasting.of_trace rfl rfl rfl rfl (List.append_nil _).symm clean_nil) hsize
      hchunked (asked_of_askedFor h.asked hchunked) hlt
      ⟨h.connection, h.onHeaderField, h.onHeaderValue, h.parser, h.pending, rfl, h.delivered,
        h.completions⟩
  | connecting h => simp [h.owed] at howed
  | transfer index request h => simp [h.owed] at howed
  | done h => simp [h.owed] at howed
  | redirected h => simp [h.owed] at howed
  | closing h => simp [h.owed] at howed

theorem redirected_setPause {phase : Connection} (h : Redirected media phase download)
    (pause : Bool) :
    Redirected media phase
      { download with ctx := { download.ctx with pauseBetweenChunks := pause } } :=
  ⟨h.connection, h.answer.imp id fun ⟨request, hparser, hasked⟩ ↦
    ⟨request, hparser, hasked.of_ctx rfl rfl rfl rfl⟩, h.pending, h.owed, h.delivered,
    h.completions⟩

theorem inv_setPause (h : Inv media download) (pause : Bool) :
    Inv media { download with ctx := { download.ctx with pauseBetweenChunks := pause } } := by
  obtain ⟨hlasting, hstage⟩ := h
  refine ⟨hlasting.of_trace rfl rfl rfl rfl (List.append_nil _).symm clean_nil, ?_⟩
  cases hstage with
  | connecting h =>
    exact .connecting ⟨h.connection, h.handler, h.onHeaderField, h.onHeaderValue, h.parser,
      h.pending, h.owed, h.delivered, h.completions⟩
  | transfer index request h =>
    exact .transfer index request ⟨h.connection, h.asked.of_ctx rfl rfl rfl rfl, h.onHeaderField,
      h.onHeaderValue, h.outstanding, h.noRedirect, h.owed, h.delivered, h.arrived, h.completions⟩
  | owed index request h =>
    exact .owed index request ⟨h.connection, h.asked.of_ctx rfl rfl rfl rfl, h.notLast,
      h.onHeaderField, h.onHeaderValue, h.parser, h.pending, h.owed, h.delivered, h.completions⟩
  | done h => exact .done ⟨h.connection, h.parser, h.pending, h.owed, h.delivered, h.completions⟩
  | redirected h => exact .redirected (redirected_setPause h pause)
  | closing h => exact .closing (redirected_setPause h pause)

end Steps

theorem inv_step {media : Bytes} {parseUrl : Bytes → Option Url} (hsize : media.length < 2 ^ 63)
    {download next : Download Url} {event : Event} (hinv : Inv media download)
    (hserved : Served media parseUrl download event next) (hbenign : Benign download event next)
    (hstep : step parseUrl download event = some next) : Inv media next := by
  cases event with
  | connected =>
    obtain ⟨hconnecting, rfl⟩ := step_connected hstep
    obtain ⟨hlasting, hstage⟩ := hinv
    cases hstage with
    | connecting h => exact inv_connected hlasting h
    | transfer index request h => simp [h.connection] at hconnecting
    | owed index request h => simp [h.connection] at hconnecting
    | done h => simp [h.connection] at hconnecting
    | redirected h => simp [h.connection] at hconnecting
    | closing h => simp [h.connection] at hconnecting
  | statusComplete statusCode =>
    obtain ⟨request, pending, hpending, hparser, -, rfl⟩ := step_statusComplete hstep
    obtain ⟨hlasting, hstage⟩ := hinv
    cases hstage with
    | transfer index current h =>
      simp only [Benign, hpending] at hbenign
      exact inv_statusComplete hlasting h hparser hpending hbenign
    | connecting h => simp [h.pending] at hpending
    | owed index request h => simp [h.pending] at hpending
    | done h => simp [h.pending] at hpending
    | redirected h => simp [h.pending] at hpending
    | closing h => simp [h.pending] at hpending
  | headerField fragment =>
    obtain ⟨request, statusCode, arrived, hparser, rfl⟩ := step_headerField hstep
    exact inv_headerField hinv fragment hparser
  | headerValue fragment =>
    obtain ⟨request, statusCode, arrived, hparser, rfl⟩ := step_headerValue hstep
    exact inv_headerValue hinv fragment hparser
  | body fragment =>
    obtain ⟨request, statusCode, arrived, inBody, hparser, rfl⟩ := step_body hstep
    simp only [Served, hparser] at hserved
    simp only [Benign, hparser] at hbenign
    exact inv_body hinv hparser hserved hbenign
  | messageComplete pause asks =>
    obtain ⟨request, statusCode, arrived, inBody, hparser, rfl⟩ := step_messageComplete hstep
    simp only [Served, hparser] at hserved
    simp only [Benign, hparser] at hbenign
    exact inv_messageComplete hinv hsize hparser hserved.1 hserved.2 hbenign
  | closed =>
    obtain ⟨hclosing, rfl⟩ := step_closed hstep
    exact inv_closed hinv hclosing hserved
  | nextChunk =>
    obtain rfl := step_nextChunk hstep
    exact inv_owedChunk hinv hsize hserved
  | setPause pause =>
    obtain rfl := step_setPause hstep
    exact inv_setPause hinv pause

/-! ## Runs -/

theorem inv_ready {media : Bytes} {parseUrl : Bytes → Option Url} {mem ctx : Ctx Url}
    {format : Format} {formatUrl : Bytes}
    (hinit : mediaCtxInit parseUrl mem format formatUrl = some ctx)
    (hlength : (format.hasAud && format.hasVid) = false → format.contentLength = media.length)
    (hdata : mem.onData = true)
    (hcomplete : mem.onComplete = true) : Inv media (Download.ready ctx) := by
  obtain ⟨url, -, rfl⟩ := Option.map_eq_some_iff.mp hinit
  refine ⟨⟨hdata, hcomplete, fun hchunked ↦ hlength ?_, clean_nil⟩,
    .connecting ⟨rfl, rfl, rfl, rfl, rfl, rfl, rfl, rfl, rfl⟩⟩
  simpa [Download.ready, ← Bool.not_and] using hchunked

/-- **Redirects.** In every run whose redirects are benign, and in every state of it, the bytes
passed on are the media up to some point, none of them comes from a redirect, and `on_complete` is
called once, after the last byte. -/
theorem redirects_faithful (parseUrl : Bytes → Option Url) (mem ctx : Ctx Url) (format : Format)
    (formatUrl media : Bytes) (hinit : mediaCtxInit parseUrl mem format formatUrl = some ctx)
    (hlength : (format.hasAud && format.hasVid) = false → format.contentLength = media.length)
    (hsize : media.length < 2 ^ 63)
    (hdata : mem.onData = true) (hcomplete : mem.onComplete = true) (events : List Event)
    (hserved : Each (step parseUrl) (Served media parseUrl) (Download.ready ctx) events)
    (hbenign : Each (step parseUrl) Benign (Download.ready ctx) events) :
    Always (step parseUrl) (Faithful media) (Download.ready ctx) events := by
  have halways := always_of_invariant
    (Q := fun download event next ↦
      Served media parseUrl download event next ∧ Benign download event next)
    (fun _ _ _ hinv hguard hstep ↦ inv_step hsize hinv hguard.1 hguard.2 hstep)
    (inv_ready hinit hlength hdata hcomplete) (hserved.and hbenign)
  exact halways.mono fun _ hinv ↦ hinv.faithful

/-- The header callbacks of a redirect to the location `u`. -/
def redirect : List Event :=
  [.statusComplete 302, .headerField locationName, .headerValue [117]]

/-- The body of a redirect is passed on as media. -/
theorem redirectBody_delivered :
    Each (step fun _ ↦ some ()) (Served [7] fun _ ↦ some ()) (Download.ready (Ctx.zeroed ()))
        (.connected :: (redirect ++ [.body [60]])) ∧
      ∃ last, run (step fun _ ↦ some ()) (Download.ready (Ctx.zeroed ()))
          (.connected :: (redirect ++ [.body [60]])) = some last ∧
        ¬ Faithful [7] last := by
  constructor
  · decide
  · exact ⟨_, rfl, fun hfaithful ↦ absurd hfaithful.inOrder (by decide)⟩

theorem redirects_faithful_oneRedirect :
    Always (step fun _ ↦ some ()) (Faithful [7]) (Download.ready (Ctx.zeroed ()))
      (.connected :: (redirect ++
        [.closed, .connected, .statusComplete 200, .body [7], .messageComplete false false])) :=
  redirects_faithful (fun _ ↦ some ()) (Ctx.zeroed ()) _ ⟨true, true, 0⟩ [] [7] rfl
    (fun hchunked ↦ by simp at hchunked) (by decide) rfl rfl _ (by decide) (by decide)

end LibYtdl.Dl.MediaRedirect
