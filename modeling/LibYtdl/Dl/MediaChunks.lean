import LibYtdl.Dl.ChunkPlan

/-!
# The requests of a chunked download

The callbacks ask for the ranges of the plan, one after the other: the end of a chunk, or the user
when the download is paused, asks for the next one, and after the last one `on_complete` is called.
The invariant `Inv` says which chunk was asked for last and that exactly one of four things holds:
its answer is outstanding, the user has to ask for the next one, or the download is complete.
-/

namespace LibYtdl.Dl.MediaChunks

open Machine Transition MediaDownload ChunkPlan

variable {Url : Type} {called : Bool}

/-! ## Asking for one chunk -/

/-- The request for a chunk. -/
def chunkRequest (length index : ℕ) (ctx : Ctx Url) : Request Url :=
  .mediaChunk ctx.formatUrl ctx.url (chunkRange length index).1 (chunkRange length index).2

/-- The context after the request for a chunk. -/
def afterAsking (length index : ℕ) (ctx : Ctx Url) : Ctx Url :=
  { ctx with
    onMessageComplete :=
      if index = lastIndex length then .chunkFinalComplete else ctx.onMessageComplete
    lastChunkEnd :=
      if index = lastIndex length then ctx.lastChunkEnd else (index + 1) * chunkSize }

/-- What the context keeps about the last chunk asked for. -/
structure Asked (length index : ℕ) (ctx : Ctx Url) : Prop where
  length_eq : ctx.formatContentLength = length
  le_last : index ≤ lastIndex length
  handler : ctx.onMessageComplete =
    if index = lastIndex length then .chunkFinalComplete else .chunkComplete
  lastChunkEnd : index < lastIndex length → ctx.lastChunkEnd = (index + 1) * chunkSize

theorem asked_afterAsking {length index : ℕ} {ctx : Ctx Url}
    (hlength : ctx.formatContentLength = length) (hle : index ≤ lastIndex length)
    (hhandler : ctx.onMessageComplete = .chunkComplete) :
    Asked length index (afterAsking length index ctx) where
  length_eq := hlength
  le_last := hle
  handler := by
    simp only [afterAsking, hhandler]
  lastChunkEnd hlt := by
    simp [afterAsking, Nat.ne_of_lt hlt]

theorem Asked.handler_of_lt {length index : ℕ} {ctx : Ctx Url} (h : Asked length index ctx)
    (hlt : index < lastIndex length) : ctx.onMessageComplete = .chunkComplete := by
  rw [h.handler, if_neg (Nat.ne_of_lt hlt)]

/-- The sums of `ytdl_dl_media_ctx_next_chunk` do not wrap. -/
theorem Asked.noWrap {length index : ℕ} {ctx : Ctx Url} (h : Asked length index ctx)
    (hlength : length < 2 ^ 63) (hlt : index < lastIndex length) :
    ctx.lastChunkEnd + chunkSize < 2 ^ 64 := by
  have hbound := lt_lastIndex_iff.mp hlt
  rw [h.lastChunkEnd hlt]
  have hsize := chunkSize_eq
  omega

theorem sizeT_length {length : ℕ} {value : ℤ} (hvalue : value = length)
    (hlength : length < 2 ^ 63) : sizeT value = length := by
  have hnonneg : 0 ≤ value := by omega
  have hlt : value < 2 ^ 64 := by omega
  rw [sizeT_of_nonneg hnonneg hlt, hvalue, Int.toNat_natCast]

/-- `ytdl_dl_media_ctx_next_chunk` asks for the chunk after the last one asked for. -/
theorem mediaCtxNextChunk_eq {length index : ℕ} {download : Download Url}
    (h : Asked length index download.ctx) (hlength : length < 2 ^ 63)
    (hlt : index < lastIndex length) :
    mediaCtxNextChunk download =
      { download with ctx := afterAsking length (index + 1) download.ctx }.write
        (chunkRequest length (index + 1) download.ctx) := by
  have hwrap := h.noWrap hlength hlt
  have hend := h.lastChunkEnd hlt
  have hmul : (index + 1 + 1) * chunkSize = (index + 1) * chunkSize + chunkSize :=
    Nat.succ_mul (index + 1) chunkSize
  unfold mediaCtxNextChunk
  dsimp only
  rw [sizeT_length h.length_eq hlength, Nat.mod_eq_of_lt hwrap,
    Nat.mod_eq_of_lt (a := download.ctx.lastChunkEnd + 1) (by have := chunkSize_eq; omega)]
  have hstart : chunkStart (index + 1) = download.ctx.lastChunkEnd + 1 := by
    rw [chunkStart_succ, hend]
  by_cases hlast : index + 1 = lastIndex length
  · have hstop : download.ctx.lastChunkEnd + chunkSize ≥ length := by
      have := le_mul_chunkSize length
      rwa [← hlast, hmul, ← hend] at this
    rw [if_pos hstop, afterAsking, chunkRequest, chunkRange, hstart, if_pos hlast, if_pos hlast,
      if_pos hlast]
  · have hgo : ¬ download.ctx.lastChunkEnd + chunkSize ≥ length := by
      have := lt_lastIndex_iff.mp (show index + 1 < lastIndex length by omega)
      rw [hmul] at this
      omega
    rw [if_neg hgo, afterAsking, chunkRequest, chunkRange, hstart, if_neg hlast, if_neg hlast,
      if_neg hlast, hmul, ← hend]

/-- `ytdl__media_connected_cb` asks for the first chunk. -/
theorem mediaConnectedCb_eq {length : ℕ} (download : Download Url)
    (hchunked : download.ctx.isChunked = true)
    (hlength : download.ctx.formatContentLength = length) :
    mediaConnectedCb download =
      { download with ctx := afterAsking length 0 download.ctx }.write
        (chunkRequest length 0 download.ctx) := by
  have hlast : 0 = lastIndex length ↔ (chunkSize : ℤ) ≥ download.ctx.formatContentLength := by
    have hone : 0 < lastIndex length ↔ (0 + 1) * chunkSize < length := lt_lastIndex_iff
    omega
  unfold mediaConnectedCb
  dsimp only
  rw [if_pos hchunked, afterAsking, chunkRequest, chunkRange]
  by_cases hstop : (chunkSize : ℤ) ≥ download.ctx.formatContentLength
  · have heq := hlast.mpr hstop
    rw [if_pos hstop, if_pos heq, if_pos heq, if_pos heq]
    rfl
  · have hne := fun heq ↦ hstop (hlast.mp heq)
    rw [if_neg hstop, if_neg hne, if_neg hne, if_neg hne, Nat.zero_add, Nat.one_mul]
    rfl

/-! ## The invariant -/

/-- What no event of a download without redirects changes; `called` says whether `on_complete` is
set. -/
structure Fixed (length : ℕ) (called : Bool) (ctx : Ctx Url) : Prop where
  isChunked : ctx.isChunked = true
  onComplete : ctx.onComplete = called
  length_eq : ctx.formatContentLength = length
  onHeaderField : ctx.onHeaderField = false
  onHeaderValue : ctx.onHeaderValue = false

/-- The chunks up to `index` were asked for and answered. -/
structure Answered (length index : ℕ) (download : Download Url) : Prop where
  connection : download.connection = .up
  asked : Asked length index download.ctx
  ranges : (sent download.trace).map Request.range =
    (List.range (index + 1)).map fun asked ↦ some (chunkRange length asked)
  inOrder : answered download.trace = sent download.trace
  parser : download.parser = .start
  pending : download.pending = []
  completions : completions download.trace = 0

/-- The things that are due or done: an answer or the rest of it, the user's call, `on_complete`. -/
def dueCount (download : Download Url) : ℕ :=
  download.outstanding.length + (if download.owed then 1 else 0) + completions download.trace

/-- The chunks up to `index` were asked for, and one thing is due or done; nothing at all is left
after the last chunk when `on_complete` is not set. -/
structure Asking (length index : ℕ) (download : Download Url) : Prop where
  connection : download.connection = .up
  asked : Asked length index download.ctx
  ranges : (sent download.trace).map Request.range =
    (List.range (index + 1)).map fun asked ↦ some (chunkRange length asked)
  inOrder : sent download.trace = answered download.trace ++ download.outstanding
  due_le : dueCount download ≤ 1
  due : download.ctx.onComplete = true → dueCount download = 1
  owed : download.owed = true → index < lastIndex length
  complete : completions download.trace ≠ 0 → index = lastIndex length

/-- Before the connection is made nothing has happened. -/
structure Waiting (download : Download Url) : Prop where
  eq_ready : download = Download.ready download.ctx
  handler : download.ctx.onMessageComplete = .chunkComplete

section

variable {download : Download Url}

theorem Waiting.connection (h : Waiting download) : download.connection = .connecting := by
  rw [h.eq_ready]
  rfl

theorem Waiting.parser (h : Waiting download) : download.parser = .start := by
  rw [h.eq_ready]
  rfl

theorem Waiting.pending (h : Waiting download) : download.pending = [] := by
  rw [h.eq_ready]
  rfl

theorem Waiting.owed (h : Waiting download) : download.owed = false := by
  rw [h.eq_ready]
  rfl

theorem Waiting.trace (h : Waiting download) : download.trace = [] := by
  rw [h.eq_ready]
  rfl

end

def Inv (length : ℕ) (called : Bool) (download : Download Url) : Prop :=
  Fixed length called download.ctx ∧ (Waiting download ∨ ∃ index, Asking length index download)

section Steps

variable {length index : ℕ} {download : Download Url}

theorem fixed_afterAsking (h : Fixed length called download.ctx) :
    Fixed length called (afterAsking length index download.ctx) :=
  ⟨h.isChunked, h.onComplete, h.length_eq, h.onHeaderField, h.onHeaderValue⟩

/-- The first request, written when the connection is made. -/
theorem mediaConnectedCb_ready (hfixed : Fixed length called download.ctx)
    (hwaiting : Waiting download) :
    mediaConnectedCb { download with connection := .up } =
      { Download.ready (afterAsking length 0 download.ctx) with
        connection := .up
        pending := [chunkRequest length 0 download.ctx]
        trace := [.request (chunkRequest length 0 download.ctx)] } := by
  rw [mediaConnectedCb_eq { download with connection := .up } hfixed.isChunked
    hfixed.length_eq, hwaiting.eq_ready]
  simp [Download.write, Download.ready]

theorem asking_connected (hfixed : Fixed length called download.ctx) (hwaiting : Waiting download) :
    Asking length 0 (mediaConnectedCb { download with connection := .up }) := by
  rw [mediaConnectedCb_ready hfixed hwaiting]
  refine ⟨rfl, ?_, ?_, ?_, ?_, ?_, ?_, ?_⟩
  · exact asked_afterAsking hfixed.length_eq (Nat.zero_le _) hwaiting.handler
  all_goals simp [Download.ready, Download.outstanding, dueCount, chunkRequest, Request.range]

theorem fixed_connected (hfixed : Fixed length called download.ctx) (hwaiting : Waiting download) :
    Fixed length called (mediaConnectedCb { download with connection := .up }).ctx := by
  rw [mediaConnectedCb_ready hfixed hwaiting]
  exact fixed_afterAsking hfixed

/-- Asking for the next chunk when the ones before it are answered. -/
theorem asking_nextChunk (h : Answered length index download) (hlength : length < 2 ^ 63)
    (hlt : index < lastIndex length) (howed : download.owed = false) :
    Asking length (index + 1) (mediaCtxNextChunk download) := by
  rw [mediaCtxNextChunk_eq h.asked hlength hlt]
  have hdue : dueCount ({ download with ctx := afterAsking length (index + 1) download.ctx }.write
      (chunkRequest length (index + 1) download.ctx)) = 1 := by
    simp [dueCount, Download.write, Download.outstanding, h.parser, h.pending, h.connection, howed,
      h.completions]
  refine ⟨h.connection, ?_, ?_, ?_, hdue.le, fun _ ↦ hdue, ?_, ?_⟩
  · exact asked_afterAsking h.asked.length_eq hlt (h.asked.handler_of_lt hlt)
  · rw [List.range_succ, List.map_append, ← h.ranges]
    simp [Download.write, chunkRequest, Request.range]
  · simp [Download.write, Download.outstanding, h.inOrder, h.parser, h.pending, h.connection]
  · simp [Download.write, howed]
  · simp [Download.write, h.completions]

theorem fixed_nextChunk (hfixed : Fixed length called download.ctx)
    (hasked : Asked length index download.ctx) (hlength : length < 2 ^ 63)
    (hlt : index < lastIndex length) :
    Fixed length called (mediaCtxNextChunk download).ctx := by
  rw [mediaCtxNextChunk_eq hasked hlength hlt]
  exact fixed_afterAsking hfixed

theorem inv_nextChunk (hfixed : Fixed length called download.ctx)
    (h : Answered length index download) (hlength : length < 2 ^ 63)
    (hlt : index < lastIndex length) (howed : download.owed = false) :
    Inv length called (mediaCtxNextChunk download) :=
  ⟨fixed_nextChunk hfixed h.asked hlength hlt,
    Or.inr ⟨index + 1, asking_nextChunk h hlength hlt howed⟩⟩

/-- The parser moves on inside the same list of outstanding requests. -/
theorem Asking.of_outstanding {next : Download Url} (h : Asking length index download)
    (hconnection : next.connection = download.connection) (hctx : Asked length index next.ctx)
    (honComplete : next.ctx.onComplete = download.ctx.onComplete)
    (houtstanding : next.outstanding = download.outstanding) (howed : next.owed = download.owed)
    (hsent : sent next.trace = sent download.trace)
    (hanswered : answered next.trace = answered download.trace)
    (hcompletions : completions next.trace = completions download.trace) :
    Asking length index next where
  connection := hconnection.trans h.connection
  asked := hctx
  ranges := by rw [hsent, h.ranges]
  inOrder := by rw [hsent, hanswered, houtstanding, h.inOrder]
  due_le := by
    rw [dueCount, houtstanding, howed, hcompletions]
    exact h.due_le
  due := by
    rw [honComplete, dueCount, houtstanding, howed, hcompletions]
    exact h.due
  owed := by
    rw [howed]
    exact h.owed
  complete := by
    rw [hcompletions]
    exact h.complete

theorem Asked.setPause {ctx : Ctx Url} (h : Asked length index ctx) (pause : Bool) :
    Asked length index { ctx with pauseBetweenChunks := pause } :=
  ⟨h.length_eq, h.le_last, h.handler, h.lastChunkEnd⟩

theorem Fixed.setPause {ctx : Ctx Url} (h : Fixed length called ctx) (pause : Bool) :
    Fixed length called { ctx with pauseBetweenChunks := pause } :=
  ⟨h.isChunked, h.onComplete, h.length_eq, h.onHeaderField, h.onHeaderValue⟩

/-- When an answer is outstanding, it is the only one, and nothing else is due. -/
theorem Asking.of_message {request : Request Url} {statusCode : ℕ} {received : Bytes}
    {inBody : Bool} (h : Asking length index download)
    (hparser : download.parser = .message request statusCode received inBody) :
    Answered length index (answerEnded request download) ∧
      (answerEnded request download).owed = false := by
  have hdue := h.due_le
  simp only [dueCount, Download.outstanding, hparser, Parser.current_message, List.length_append,
    List.length_singleton] at hdue
  have hpending : download.pending = [] := List.eq_nil_of_length_eq_zero (by omega)
  have howed : download.owed = false := by
    by_contra hnot
    simp only [Bool.not_eq_false] at hnot
    simp only [hnot, if_true] at hdue
    omega
  refine ⟨⟨h.connection, h.asked, ?_, ?_, rfl, hpending, ?_⟩, howed⟩
  · simpa [answerEnded, Download.emit] using h.ranges
  · simp [answerEnded, Download.emit, h.inOrder, Download.outstanding, hparser, hpending]
  · simp [answerEnded, Download.emit]
    omega

theorem Asking.statusComplete {request : Request Url} {pending : List (Request Url)}
    {statusCode : ℕ} (h : Asking length index download) (hparser : download.parser = .start)
    (hpending : download.pending = request :: pending) (hstatus : isRedirect statusCode = false) :
    Asking length index (statusEvent request statusCode { download with pending := pending }) := by
  rw [statusEvent_of_not_redirect hstatus]
  refine h.of_outstanding rfl h.asked rfl ?_ rfl ?_ ?_ ?_
  · simp [Download.outstanding, hparser, hpending]
  all_goals simp

theorem answered_chunkEnded (pause asks : Bool) (h : Answered length index download) :
    Answered length index (chunkEnded pause asks download) := by
  refine ⟨h.connection, h.asked.setPause _, ?_, ?_, h.parser, h.pending, ?_⟩
  · have := h.ranges
    cases hcallback : download.ctx.onChunkComplete <;> simpa [chunkEnded, hcallback] using this
  · have := h.inOrder
    cases hcallback : download.ctx.onChunkComplete <;> simpa [chunkEnded, hcallback] using this
  · have := h.completions
    cases hcallback : download.ctx.onChunkComplete <;> simpa [chunkEnded, hcallback] using this

theorem asking_of_owed (h : Answered length index download) (howed : download.owed = true)
    (hlt : index < lastIndex length) : Asking length index download := by
  have hdue : dueCount download = 1 := by
    simp [dueCount, Download.outstanding, h.parser, h.pending, howed, h.completions]
  refine ⟨h.connection, h.asked, h.ranges, ?_, hdue.le, fun _ ↦ hdue, fun _ ↦ hlt, ?_⟩
  · simp [h.inOrder, Download.outstanding, h.parser, h.pending]
  · simp [h.completions]

/-- While the user owes a call, no answer is outstanding. -/
theorem Asking.of_owed (h : Asking length index download) (howed : download.owed = true) :
    Answered length index { download with owed := false } := by
  have hdue := h.due_le
  simp only [dueCount, howed, if_true] at hdue
  have hout : download.outstanding = [] := List.eq_nil_of_length_eq_zero (by omega)
  obtain ⟨hcurrent, hpending⟩ := List.append_eq_nil_iff.mp hout
  have hparser : download.parser = .start := by
    cases hparser : download.parser <;> simp_all
  refine ⟨h.connection, h.asked, h.ranges, ?_, hparser, hpending, ?_⟩
  · rw [h.inOrder, hout, List.append_nil]
  · change completions download.trace = 0
    omega

/-- The end of an answer. -/
theorem inv_messageComplete {pause asks : Bool} (hfixed : Fixed length called download.ctx)
    (h : Answered length index download) (howed : download.owed = false)
    (hlength : length < 2 ^ 63)
    (honce : download.ctx.onMessageComplete = .chunkComplete →
      download.ctx.onChunkComplete = true → asks = true → pause = true) :
    Inv length called (messageCompleteCb pause asks download) := by
  unfold messageCompleteCb
  rcases h.asked.le_last.lt_or_eq with hlt | hlast
  · have hhandler := h.asked.handler_of_lt hlt
    simp only [hhandler]
    rw [mediaChunkCompleteCb_eq hfixed.isChunked (honce hhandler)]
    split
    case isTrue hstill =>
      have hasking := asking_of_owed (answered_chunkEnded _ _ h) hstill hlt
      exact ⟨hfixed.setPause _, Or.inr ⟨index, hasking⟩⟩
    case isFalse hdone =>
      exact inv_nextChunk (hfixed.setPause _) (answered_chunkEnded _ _ h) hlength hlt
        (Bool.not_eq_true _ ▸ hdone)
  · have hhandler : download.ctx.onMessageComplete = .chunkFinalComplete := by
      rw [h.asked.handler, if_pos hlast]
    simp only [hhandler, mediaChunkFinalCompleteCb]
    cases hcallback : download.ctx.onComplete with
    | true =>
      refine ⟨hfixed, Or.inr ⟨index, h.connection, h.asked, ?_, ?_, ?_, ?_, ?_, fun _ ↦ hlast⟩⟩
      · simpa [Download.emit] using h.ranges
      · simp [Download.emit, h.inOrder, Download.outstanding, h.parser, h.pending]
      all_goals
        simp [Download.emit, dueCount, h.completions, Download.outstanding, h.parser, h.pending,
          howed]
    | false =>
      refine ⟨hfixed, Or.inr ⟨index, h.connection, h.asked, h.ranges, ?_, ?_, ?_, ?_, ?_⟩⟩
      · simp [h.inOrder, Download.outstanding, h.parser, h.pending]
      all_goals
        simp [dueCount, h.completions, Download.outstanding, h.parser, h.pending, howed, hcallback]

end Steps

/-! ## Runs -/

/-- No answer is a redirect, and the user asks for the next chunk once per chunk while paused:
inside `on_chunk_complete` or later. -/
def OncePerChunk : Download Url → Event → Download Url → Prop
  | _, .statusComplete statusCode, _ => isRedirect statusCode = false
  | download, .messageComplete pause asks, _ =>
    download.ctx.onMessageComplete = .chunkComplete → download.ctx.onChunkComplete = true →
      asks = true → pause = true
  | download, .nextChunk, _ => download.owed = true
  | _, _, _ => True

instance (download : Download Url) : (event : Event) → (next : Download Url) →
    Decidable (OncePerChunk download event next)
  | .statusComplete _, _ => inferInstanceAs (Decidable (_ = _))
  | .messageComplete _ _, _ => inferInstanceAs (Decidable (_ → _))
  | .nextChunk, _ => inferInstanceAs (Decidable (_ = _))
  | .connected, _ | .headerField _, _ | .headerValue _, _ | .body _, _ | .closed, _
  | .setPause _, _ => isTrue trivial

theorem inv_step {parseUrl : Bytes → Option Url} {length : ℕ} (hlength : length < 2 ^ 63)
    {download next : Download Url} {event : Event} (hinv : Inv length called download)
    (honce : OncePerChunk download event next) (hstep : step parseUrl download event = some next) :
    Inv length called next := by
  obtain ⟨hfixed, hstate⟩ := hinv
  cases event with
  | connected =>
    obtain ⟨hconnecting, rfl⟩ := step_connected hstep
    obtain hwaiting | ⟨index, h⟩ := hstate
    · exact ⟨fixed_connected hfixed hwaiting, Or.inr ⟨0, asking_connected hfixed hwaiting⟩⟩
    · simp [h.connection] at hconnecting
  | statusComplete statusCode =>
    obtain ⟨request, pending, hpending, hparser, -, rfl⟩ := step_statusComplete hstep
    have hstatus : isRedirect statusCode = false := honce
    obtain hwaiting | ⟨index, h⟩ := hstate
    · simp [hwaiting.pending] at hpending
    · refine ⟨?_, Or.inr ⟨index, h.statusComplete hparser hpending hstatus⟩⟩
      rw [statusEvent_of_not_redirect hstatus]
      exact hfixed
  | headerField fragment =>
    obtain ⟨-, -, -, -, rfl⟩ := step_headerField hstep
    simpa [hfixed.onHeaderField] using ⟨hfixed, hstate⟩
  | headerValue fragment =>
    obtain ⟨-, -, -, -, rfl⟩ := step_headerValue hstep
    simpa [hfixed.onHeaderValue] using ⟨hfixed, hstate⟩
  | body fragment =>
    obtain ⟨request, statusCode, received, inBody, hparser, rfl⟩ := step_body hstep
    obtain hwaiting | ⟨index, h⟩ := hstate
    · simp [hwaiting.parser] at hparser
    · rw [bodyEvent_eq]
      refine ⟨hfixed, Or.inr ⟨index, h.of_outstanding rfl h.asked rfl ?_ rfl ?_ ?_ ?_⟩⟩
      · simp [Download.outstanding, hparser]
      all_goals cases download.ctx.onData <;> simp
  | messageComplete pause asks =>
    obtain ⟨request, statusCode, received, inBody, hparser, rfl⟩ := step_messageComplete hstep
    obtain hwaiting | ⟨index, h⟩ := hstate
    · simp [hwaiting.parser] at hparser
    · obtain ⟨hanswered, howed⟩ := h.of_message hparser
      have hended : Fixed length called (answerEnded request download).ctx := hfixed
      exact inv_messageComplete hended hanswered howed hlength honce
  | closed =>
    obtain ⟨hclosing, -⟩ := step_closed hstep
    obtain hwaiting | ⟨index, h⟩ := hstate
    · simp [hwaiting.connection] at hclosing
    · simp [h.connection] at hclosing
  | nextChunk =>
    obtain rfl := step_nextChunk hstep
    have howed : download.owed = true := honce
    obtain hwaiting | ⟨index, h⟩ := hstate
    · simp [hwaiting.owed] at howed
    · exact inv_nextChunk hfixed (h.of_owed howed) hlength (h.owed howed) rfl
  | setPause pause =>
    obtain rfl := step_setPause hstep
    refine ⟨hfixed.setPause pause, hstate.imp (fun hwaiting ↦ ⟨?_, hwaiting.handler⟩) ?_⟩
    · rw [hwaiting.eq_ready]
      rfl
    · rintro ⟨index, h⟩
      exact ⟨index, h.of_outstanding rfl (h.asked.setPause pause) rfl rfl rfl rfl rfl rfl⟩

/-- Two events that answer a request in full. -/
def answer : List Event := [.statusComplete 200, .messageComplete false false]

/-- What a state of the download owes to the plan. -/
structure Follows (length : ℕ) (download : Download Url) : Prop where
  planned : (sent download.trace).map Request.range <+: (plan length).map some
  noWrap : download.connection = .up → download.ctx.onMessageComplete = .chunkComplete →
    download.ctx.lastChunkEnd + chunkSize < 2 ^ 64 ∧
      sizeT download.ctx.formatContentLength = length
  inOrder : answered download.trace <+: sent download.trace
  once : completions download.trace =
    if (answered download.trace).length = (plan length).length then 1 else 0
  covered : completions download.trace = 1 →
    (sent download.trace).map Request.range = (plan length).map some
  finished : download.connection = .up → download.outstanding = [] → download.owed = false →
    completions download.trace = 1

theorem map_range_prefix_plan {length index : ℕ} (hle : index ≤ lastIndex length) :
    ((List.range (index + 1)).map fun asked ↦ some (chunkRange length asked)) <+:
      (plan length).map some := by
  have htake : List.range (index + 1) = (List.range (lastIndex length + 1)).take (index + 1) := by
    rw [List.take_range, min_eq_left (by omega)]
  rw [plan, List.map_map, htake]
  exact (List.take_prefix _ _).map _

theorem Asking.once {length index : ℕ} {download : Download Url}
    (h : Asking length index download) (hcalled : download.ctx.onComplete = true) :
    completions download.trace =
      if (answered download.trace).length = (plan length).length then 1 else 0 := by
  have hsent : (sent download.trace).length = index + 1 := by
    rw [← List.length_map (f := Request.range), h.ranges]
    simp
  have hplan : (plan length).length = lastIndex length + 1 := by simp [plan]
  have hcount := congrArg List.length h.inOrder
  have hdue := h.due hcalled
  have hle := h.asked.le_last
  have howed := h.owed
  have hcomplete := h.complete
  rw [List.length_append] at hcount
  rw [hplan]
  cases hcase : download.owed <;> simp only [dueCount, hcase] at hdue howed <;> split <;>
    simp at * <;> omega

theorem Inv.planned {length : ℕ} {download : Download Url} (h : Inv length called download) :
    (sent download.trace).map Request.range <+: (plan length).map some := by
  obtain ⟨-, hwaiting | ⟨index, h⟩⟩ := h
  · simp [hwaiting.trace]
  · rw [h.ranges]
    exact map_range_prefix_plan h.asked.le_last

theorem Inv.follows {length : ℕ} {download : Download Url} (h : Inv length true download)
    (hlength : length < 2 ^ 63) : Follows length download := by
  have hplanned := h.planned
  obtain ⟨hfixed, hwaiting | ⟨index, h⟩⟩ := h
  · rw [hwaiting.eq_ready]
    constructor <;> simp [Download.ready, plan]
  · refine ⟨hplanned, fun _ hhandler ↦ ?_, ?_, h.once hfixed.onComplete, fun hdone ↦ ?_,
      fun _ hout howed ↦ ?_⟩
    · have hlt : index < lastIndex length := by
        refine lt_of_le_of_ne h.asked.le_last fun heq ↦ ?_
        simp [h.asked.handler, heq] at hhandler
      exact ⟨h.asked.noWrap hlength hlt, sizeT_length hfixed.length_eq hlength⟩
    · rw [h.inOrder]
      exact List.prefix_append _ _
    · rw [h.ranges, h.complete (by omega), plan, List.map_map]
      rfl
    · have hdue := h.due hfixed.onComplete
      simpa [dueCount, hout, howed] using hdue

/-- What `ytdl_dl_media_ctx_init` and `ytdl_dl_media_ctx_connect` leave. -/
theorem inv_ready {parseUrl : Bytes → Option Url} {mem ctx : Ctx Url} {format : Format}
    {formatUrl : Bytes} {length : ℕ} (hinit : mediaCtxInit parseUrl mem format formatUrl = some ctx)
    (hchunked : (format.hasAud && format.hasVid) = false)
    (hlength : format.contentLength = length) :
    Inv length mem.onComplete (Download.ready ctx) := by
  obtain ⟨url, -, rfl⟩ := Option.map_eq_some_iff.mp hinit
  refine ⟨⟨?_, rfl, hlength, rfl, rfl⟩, Or.inl ⟨rfl, rfl⟩⟩
  rcases Bool.and_eq_false_iff.mp hchunked with haud | hvid
  · simp [Download.ready, haud]
  · simp [Download.ready, hvid]

/-- **Chunked download.** For every content length, the requests of every run are the ranges of the
plan in order, and the plan covers the file; no sum wraps, and `on_complete` is called exactly once,
when all of the plan is answered. A run with nothing outstanding and nothing for the user to do is
complete. -/
theorem requests_cover_file (parseUrl : Bytes → Option Url) (mem ctx : Ctx Url) (format : Format)
    (formatUrl : Bytes) (length : ℕ)
    (hinit : mediaCtxInit parseUrl mem format formatUrl = some ctx)
    (hchunked : (format.hasAud && format.hasVid) = false)
    (hlength : format.contentLength = length) (hlt : length < 2 ^ 63)
    (hcomplete : mem.onComplete = true) (events : List Event)
    (honce : Each (step parseUrl) OncePerChunk (Download.ready ctx) events) :
    CoversFile length (plan length) ∧
      Always (step parseUrl) (Follows length) (Download.ready ctx) events := by
  refine ⟨plan_coversFile length, ?_⟩
  have hready := inv_ready hinit hchunked hlength
  rw [hcomplete] at hready
  have halways := always_of_invariant (fun _ _ _ hinv hguard ↦ inv_step hlt hinv hguard) hready
    honce
  exact halways.mono fun _ hinv ↦ hinv.follows hlt

/-- A download of one byte more than a chunk. -/
theorem requests_cover_file_twoChunks :
    CoversFile 131073 (plan 131073) ∧
      Always (step fun _ ↦ some ()) (Follows 131073)
        (Download.ready
          { Ctx.zeroed () with formatContentLength := 131073, isChunked := true })
        (.connected :: (answer ++ answer)) :=
  requests_cover_file (fun _ ↦ some ()) (Ctx.zeroed ()) _ ⟨true, false, 131073⟩ [] 131073 rfl rfl
    rfl (by decide) rfl _ (by decide)

/-! ## Where the ranges start -/

/-- A download that is not paused, after the request for a chunk and some of its answer. -/
structure Running (length : ℕ) (called : Bool) (index : ℕ) (download : Download Url) : Prop where
  fixed : Fixed length called download.ctx
  asking : Asking length index download
  running : download.ctx.pauseBetweenChunks = false

/-- The request for a chunk was just written. -/
structure JustAsked (length : ℕ) (called : Bool) (index : ℕ) (download : Download Url) : Prop
    extends Running length called index download where
  parser : download.parser = .start
  pending : ∃ request, download.pending = [request]

theorem justAsked_connected {length : ℕ} {ctx : Ctx Url} (hfixed : Fixed length called ctx)
    (hhandler : ctx.onMessageComplete = .chunkComplete)
    (hrunning : ctx.pauseBetweenChunks = false) :
    JustAsked length called 0 (mediaConnectedCb { Download.ready ctx with connection := .up }) := by
  have hwaiting : Waiting (Download.ready ctx) := ⟨rfl, hhandler⟩
  refine ⟨⟨fixed_connected hfixed hwaiting, asking_connected hfixed hwaiting, ?_⟩, ?_, ?_⟩
  all_goals rw [mediaConnectedCb_ready hfixed hwaiting]
  · exact hrunning
  · rfl
  · exact ⟨_, rfl⟩

/-- The status line of the answer. -/
theorem running_statusComplete (parseUrl : Bytes → Option Url) {length index : ℕ}
    {download : Download Url} (h : JustAsked length called index download) :
    ∃ request next, step parseUrl download (.statusComplete 200) = some next ∧
      Running length called index next ∧ next.parser = .message request 200 [] false := by
  obtain ⟨request, hpending⟩ := h.pending
  have hredirect : isRedirect 200 = false := rfl
  refine ⟨request, statusEvent request 200 { download with pending := [] }, ?_, ⟨?_, ?_, ?_⟩, ?_⟩
  · simp [step, h.asking.connection, h.parser, hpending]
  · rw [statusEvent_of_not_redirect hredirect]
    exact h.fixed
  · exact h.asking.statusComplete h.parser hpending hredirect
  · rw [statusEvent_of_not_redirect hredirect]
    exact h.running
  · rw [statusEvent_of_not_redirect hredirect]

/-- The end of the answer, unless it was the last one. -/
theorem justAsked_messageComplete (parseUrl : Bytes → Option Url) {length index : ℕ}
    {download : Download Url} {request : Request Url} (h : Running length called index download)
    (hparser : download.parser = .message request 200 [] false) (hlength : length < 2 ^ 63)
    (hlt : index < lastIndex length) :
    ∃ next, step parseUrl download (.messageComplete false false) = some next ∧
      JustAsked length called (index + 1) next := by
  obtain ⟨hanswered, howed⟩ := h.asking.of_message hparser
  refine ⟨messageEvent request false false download, by simp [step, hparser], ?_⟩
  have hfixed : Fixed length called (answerEnded request download).ctx := h.fixed
  have hrunning : (answerEnded request download).ctx.pauseBetweenChunks = false := h.running
  rw [messageEvent]
  generalize answerEnded request download = ended at hanswered howed hfixed hrunning ⊢
  have hpaused : pausedAfter ended.ctx false = false := by simp [pausedAfter, hrunning]
  have hnext : messageCompleteCb false false ended =
      mediaCtxNextChunk (chunkEnded false false ended) := by
    simp only [messageCompleteCb, hanswered.asked.handler_of_lt hlt]
    rw [mediaChunkCompleteCb_eq hfixed.isChunked (by simp), if_neg]
    simp [chunkEnded, hpaused]
  have hchunk := answered_chunkEnded false false hanswered
  have hdone : (chunkEnded false false ended).owed = false := by simp [chunkEnded, hpaused]
  rw [hnext]
  refine ⟨⟨fixed_nextChunk (hfixed.setPause _) hchunk.asked hlength hlt,
    asking_nextChunk hchunk hlength hlt hdone, ?_⟩, ?_, ?_⟩
  · simpa [chunkEnded] using hpaused
  · rw [mediaCtxNextChunk_eq hchunk.asked hlength hlt]
    exact hchunk.parser
  · rw [mediaCtxNextChunk_eq hchunk.asked hlength hlt]
    exact ⟨_, by simp [Download.write, hchunk.connection, hchunk.pending]; rfl⟩

/-- A run of complete answers reaches every chunk of the plan. -/
theorem exists_run_asking (parseUrl : Bytes → Option Url) {length : ℕ} {ctx : Ctx Url}
    (hfixed : Fixed length called ctx) (hhandler : ctx.onMessageComplete = .chunkComplete)
    (hrunning : ctx.pauseBetweenChunks = false) (hlength : length < 2 ^ 63) (index : ℕ)
    (hle : index ≤ lastIndex length) :
    ∃ events last, run (step parseUrl) (Download.ready ctx) events = some last ∧
      Each (step parseUrl) OncePerChunk (Download.ready ctx) events ∧
      JustAsked length called index last := by
  induction index with
  | zero =>
    refine ⟨[.connected], _, rfl, fun next hnext ↦ ⟨trivial, trivial⟩, ?_⟩
    exact justAsked_connected hfixed hhandler hrunning
  | succ index ih =>
    obtain ⟨events, middle, hrun, honce, hasked⟩ := ih (by omega)
    obtain ⟨request, reading, hstatus, hreading, hparser⟩ :=
      running_statusComplete parseUrl hasked
    obtain ⟨last, hmessage, hlast⟩ :=
      justAsked_messageComplete parseUrl hreading hparser hlength hle
    have hanswer : run (step parseUrl) middle answer = some last := by
      simp [answer, hstatus, hmessage]
    have heach : Each (step parseUrl) OncePerChunk middle answer := by
      simp [answer, Each, hstatus, OncePerChunk, isRedirect]
    refine ⟨events ++ answer, last, ?_, honce.append hrun heach, hlast⟩
    rw [run_append, hrun]
    exact hanswer

/-- **Satisfiable ranges.** For every positive content length, every range of every run starts below
the length exactly when the length does not exceed a positive multiple of the chunk size by one. -/
theorem starts_below_iff (parseUrl : Bytes → Option Url) (mem ctx : Ctx Url) (format : Format)
    (formatUrl : Bytes) (length : ℕ)
    (hinit : mediaCtxInit parseUrl mem format formatUrl = some ctx)
    (hchunked : (format.hasAud && format.hasVid) = false)
    (hlength : format.contentLength = length) (hpos : 0 < length) (hlt : length < 2 ^ 63) :
    (∀ events last, Each (step parseUrl) OncePerChunk (Download.ready ctx) events →
      run (step parseUrl) (Download.ready ctx) events = some last →
      ∀ range, some range ∈ (sent last.trace).map Request.range → range.1 < length) ↔
      length ≤ chunkSize ∨ length % chunkSize ≠ 1 := by
  have hready := inv_ready hinit hchunked hlength
  rw [← plan_start_lt_iff hpos]
  constructor
  · intro hall range hrange
    have hfixed := hready.1
    obtain ⟨url, -, rfl⟩ := Option.map_eq_some_iff.mp hinit
    obtain ⟨events, last, hrun, honce, hasked⟩ :=
      exists_run_asking parseUrl hfixed rfl rfl hlt _ le_rfl
    refine hall events last honce hrun range ?_
    rw [hasked.asking.ranges]
    simpa [plan] using hrange
  · intro hplan events last honce hrun range hrange
    have hinv := run_invariant (fun _ _ _ hinv hguard ↦ inv_step hlt hinv hguard) hready honce hrun
    have hmem := hinv.planned.subset hrange
    exact hplan range (by simpa using hmem)

/-- One byte more than a chunk: the second range starts one past the last byte. -/
theorem secondRange_starts_at_end :
    ∃ last, run (step fun _ ↦ some ())
        (Download.ready
          { Ctx.zeroed () with formatContentLength := 131073, isChunked := true })
        (.connected :: answer) = some last ∧
      ¬ ∀ range, some range ∈ (sent last.trace).map Request.range → range.1 < 131073 :=
  ⟨_, rfl, fun hall ↦ absurd (hall (131073, 0) (by decide)) (by decide)⟩

theorem starts_below_iff_twoChunks :
    (∀ events last,
      Each (step fun _ ↦ some ()) OncePerChunk
        (Download.ready
          { Ctx.zeroed () with formatContentLength := 262144, isChunked := true }) events →
      run (step fun _ ↦ some ())
        (Download.ready
          { Ctx.zeroed () with formatContentLength := 262144, isChunked := true }) events =
        some last →
      ∀ range, some range ∈ (sent last.trace).map Request.range → range.1 < 262144) ↔
      262144 ≤ chunkSize ∨ 262144 % chunkSize ≠ 1 :=
  starts_below_iff (fun _ ↦ some ()) (Ctx.zeroed ()) _ ⟨true, false, 262144⟩ [] 262144 rfl rfl rfl
    (by decide) (by decide)

end LibYtdl.Dl.MediaChunks
