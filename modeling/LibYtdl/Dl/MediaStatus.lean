import LibYtdl.Dl.MediaDownload

/-!
# Error responses of a media download

The status callback reports an unexpected status by its value, and the parser does not look at it.
The body of an error response therefore reaches `on_data`, and its end asks for the next chunk or
completes the download. A run keeps its error responses out exactly when they deliver no byte and
end without a visible effect.
-/

namespace LibYtdl.Dl.MediaStatus

open Machine Transition MediaDownload

variable {Url : Type}

/-- An answer was neither a success nor a redirect. -/
def failed (trace : List (Effect Url)) : Bool :=
  trace.any fun
    | .status request statusCode => !isSuccess request statusCode && !isRedirect statusCode
    | _ => false

/-- The answer that the parser is in has a success status. -/
def InSuccess (download : Download Url) : Prop :=
  ∃ request statusCode received inBody,
    download.parser = .message request statusCode received inBody ∧
      isSuccess request statusCode = true

/-- No chunk is asked for and the download is not completed. -/
def Quiet (emitted : List (Effect Url)) : Prop := sent emitted = [] ∧ completions emitted = 0

/-- A step passes bytes on only from a success, and after a failed answer it neither asks for a
chunk nor completes the download. -/
def Contained (download : Download Url) (_event : Event) (next : Download Url) : Prop :=
  ∃ emitted, next.trace = download.trace ++ emitted ∧
    (delivered emitted ≠ [] → InSuccess download) ∧
    (failed download.trace = true → Quiet emitted)

/-- The end of a message has no visible effect: the download pauses and the user does not ask for
the next chunk, or there is no `on_complete` to call. -/
def QuietEnd (ctx : Ctx Url) (pause asks : Bool) : Prop :=
  match ctx.onMessageComplete with
  | .chunkFinalComplete => ctx.onComplete = false
  | .chunkComplete =>
    if ctx.isChunked then
      pausedAfter ctx pause = true ∧ (ctx.onChunkComplete && asks) = false
    else
      ctx.onComplete = false

/-- What the server and the user have to do for that. -/
def Harmless : Download Url → Event → Download Url → Prop
  | download, .body fragment, _ =>
    download.ctx.onData = true → fragment ≠ [] → InSuccess download
  | download, .messageComplete pause asks, _ =>
    failed download.trace = true → QuietEnd download.ctx pause asks
  | download, .nextChunk, _ | download, .connected, _ => failed download.trace = false
  | _, _, _ => True

/-! ## What the callbacks emit -/

theorem mediaCtxNextChunk_trace (download : Download Url) :
    ∃ request, (mediaCtxNextChunk download).trace = download.trace ++ [.request request] := by
  unfold mediaCtxNextChunk
  dsimp only
  split <;> exact ⟨_, rfl⟩

theorem mediaConnectedCb_trace (download : Download Url) :
    ∃ request, (mediaConnectedCb download).trace = download.trace ++ [.request request] := by
  unfold mediaConnectedCb
  dsimp only
  split
  · split <;> exact ⟨_, rfl⟩
  · exact ⟨_, rfl⟩

theorem quiet_requests (requests : List (Request Url)) :
    Quiet (requests.map Effect.request) ↔ requests = [] := by
  cases requests with
  | nil => simp [Quiet]
  | cons request requests => simp [Quiet, sent]

theorem delivered_requests (requests : List (Request Url)) :
    delivered (requests.map Effect.request) = [] := by
  simp [delivered]

theorem quiet_append (first second : List (Effect Url)) :
    Quiet (first ++ second) ↔ Quiet first ∧ Quiet second := by
  simp only [Quiet, sent_append, completions_append, List.append_eq_nil_iff,
    Nat.add_eq_zero_iff]
  exact and_and_and_comm

theorem userChunkComplete_trace (pause asks : Bool) (download : Download Url) :
    ∃ requests, (userChunkComplete pause asks download).trace =
        download.trace ++ ([.chunkComplete] ++ requests.map .request) ∧
      (requests = [] ↔ asks = false) ∧
      (userChunkComplete pause asks download).ctx.pauseBetweenChunks = pause := by
  cases asks with
  | false => exact ⟨[], by simp [userChunkComplete, Download.emit]⟩
  | true =>
    obtain ⟨request, hrequest⟩ := mediaCtxNextChunk_trace
      { download.emit .chunkComplete with
        ctx := { download.ctx with pauseBetweenChunks := pause }
        owed := pause && !true }
    refine ⟨[request], ?_, by simp, by simp [userChunkComplete]⟩
    simpa [userChunkComplete, Download.emit] using hrequest

/-- The end of a chunk emits marks and requests only. -/
theorem chunkCallback_trace (pause asks : Bool) (download : Download Url) :
    ∃ marks requests, (if download.ctx.onChunkComplete then userChunkComplete pause asks download
        else { download with owed := download.ctx.pauseBetweenChunks }).trace =
        download.trace ++ (marks ++ requests.map .request) ∧
      delivered marks = [] ∧ Quiet marks ∧
      (requests = [] ↔ (download.ctx.onChunkComplete && asks) = false) ∧
      (if download.ctx.onChunkComplete then userChunkComplete pause asks download
        else { download with owed := download.ctx.pauseBetweenChunks }).ctx.pauseBetweenChunks =
        pausedAfter download.ctx pause := by
  cases hcallback : download.ctx.onChunkComplete with
  | false => exact ⟨[], [], by simp [Quiet, pausedAfter, hcallback]⟩
  | true =>
    obtain ⟨requests, htrace, hrequests, hpause⟩ := userChunkComplete_trace pause asks download
    exact ⟨[.chunkComplete], requests, by simpa using htrace, by simp, by simp [Quiet],
      by simpa using hrequests, by simpa [pausedAfter, hcallback] using hpause⟩

theorem mediaChunkCompleteCb_trace (pause asks : Bool) (download : Download Url)
    (hhandler : download.ctx.onMessageComplete = .chunkComplete) :
    ∃ emitted, (mediaChunkCompleteCb pause asks download).trace = download.trace ++ emitted ∧
      delivered emitted = [] ∧ (Quiet emitted ↔ QuietEnd download.ctx pause asks) := by
  unfold mediaChunkCompleteCb QuietEnd
  simp only [hhandler]
  cases hchunked : download.ctx.isChunked with
  | false =>
    cases hcomplete : download.ctx.onComplete with
    | false => exact ⟨[], by simp [Quiet]⟩
    | true => exact ⟨[.complete], by simp [Quiet, Download.emit]⟩
  | true =>
    obtain ⟨marks, requests, htrace, hmarks, hquiet, hrequests, hpause⟩ :=
      chunkCallback_trace pause asks download
    simp only [if_true]
    generalize (if download.ctx.onChunkComplete then userChunkComplete pause asks download
      else { download with owed := download.ctx.pauseBetweenChunks }) = called at htrace hpause ⊢
    rw [hpause]
    cases hpaused : pausedAfter download.ctx pause with
    | true =>
      refine ⟨marks ++ requests.map .request, by simpa using htrace, ?_, ?_⟩
      · simp [hmarks, delivered_requests]
      · simp [quiet_append, hquiet, quiet_requests, hrequests]
    | false =>
      obtain ⟨request, hrequest⟩ := mediaCtxNextChunk_trace called
      refine ⟨marks ++ (requests ++ [request]).map .request, ?_, ?_, ?_⟩
      · simp [hrequest, htrace]
      · simp [hmarks, delivered_requests, -List.map_append]
      · simp [quiet_append, quiet_requests, -List.map_append]

theorem messageEvent_trace (request : Request Url) (pause asks : Bool) (download : Download Url) :
    ∃ emitted, (messageEvent request pause asks download).trace = download.trace ++ emitted ∧
      delivered emitted = [] ∧ (Quiet emitted ↔ QuietEnd download.ctx pause asks) := by
  cases hhandler : download.ctx.onMessageComplete with
  | chunkComplete =>
    obtain ⟨emitted, htrace, hdelivered, hquiet⟩ := mediaChunkCompleteCb_trace pause asks
      (answerEnded request download) hhandler
    refine ⟨.answered request :: emitted, ?_, ?_, ?_⟩
    · simpa [messageEvent, messageCompleteCb, answerEnded, hhandler, Download.emit] using htrace
    · simpa [delivered] using hdelivered
    · have hend : Quiet emitted ↔ QuietEnd download.ctx pause asks := hquiet
      rw [← List.singleton_append, quiet_append, ← hend]
      simp [Quiet]
  | chunkFinalComplete =>
    cases hcomplete : download.ctx.onComplete with
    | false =>
      refine ⟨[.answered request], ?_, by simp, ?_⟩
      · simp [messageEvent, messageCompleteCb, answerEnded, hhandler, Download.emit,
          mediaChunkFinalCompleteCb, hcomplete]
      · simp [Quiet, QuietEnd, hhandler, hcomplete]
    | true =>
      refine ⟨[.answered request, .complete], ?_, by simp [delivered], ?_⟩
      · simp [messageEvent, messageCompleteCb, answerEnded, hhandler, Download.emit,
          mediaChunkFinalCompleteCb, hcomplete]
      · simp [Quiet, QuietEnd, hhandler, hcomplete, completions]

/-! ## Runs -/

/-- A step that appends `emitted` is contained exactly when `emitted` is. -/
theorem contained_iff {download next : Download Url} {event : Event} {emitted : List (Effect Url)}
    (htrace : next.trace = download.trace ++ emitted) :
    Contained download event next ↔
      (delivered emitted ≠ [] → InSuccess download) ∧
        (failed download.trace = true → Quiet emitted) := by
  constructor
  · rintro ⟨other, hother, hdata, hquiet⟩
    obtain rfl := List.append_cancel_left (htrace.symm.trans hother)
    exact ⟨hdata, hquiet⟩
  · rintro ⟨hdata, hquiet⟩
    exact ⟨emitted, htrace, hdata, hquiet⟩

/-- A step that emits nothing of concern. -/
theorem contained_of_silent {download next : Download Url} {event : Event}
    (emitted : List (Effect Url)) (htrace : next.trace = download.trace ++ emitted)
    (hdelivered : delivered emitted = []) (hquiet : Quiet emitted) :
    Contained download event next :=
  (contained_iff htrace).mpr ⟨fun hne ↦ absurd hdelivered hne, fun _ ↦ hquiet⟩

/-- A step that asks for a chunk must not come after a failed answer. -/
theorem contained_request_iff {download next : Download Url} {event : Event}
    {request : Request Url} (htrace : next.trace = download.trace ++ [.request request]) :
    Contained download event next ↔ failed download.trace = false := by
  rw [contained_iff htrace]
  simp [Quiet]

theorem contained_iff_harmless {parseUrl : Bytes → Option Url} {download next : Download Url}
    {event : Event} (hstep : step parseUrl download event = some next) :
    Contained download event next ↔ Harmless download event next := by
  cases event with
  | connected =>
    obtain ⟨-, rfl⟩ := step_connected hstep
    obtain ⟨request, htrace⟩ := mediaConnectedCb_trace { download with connection := .up }
    exact contained_request_iff htrace
  | statusComplete statusCode =>
    obtain ⟨request, pending, -, -, -, rfl⟩ := step_statusComplete hstep
    refine iff_of_true (contained_of_silent [.status request statusCode] ?_ rfl
      ⟨rfl, rfl⟩) trivial
    simp only [statusEvent, mediaStatusCb]
    split <;> [rfl; split] <;> rfl
  | headerField fragment =>
    obtain ⟨-, -, -, -, rfl⟩ := step_headerField hstep
    refine iff_of_true (contained_of_silent [] ?_ rfl ⟨rfl, rfl⟩) trivial
    unfold mediaHeaderFieldCb
    split <;> [split; skip] <;> simp
  | headerValue fragment =>
    obtain ⟨-, -, -, -, rfl⟩ := step_headerValue hstep
    refine iff_of_true ?_ trivial
    unfold mediaHeaderValueCb
    split
    · split
      · exact contained_of_silent [.shutdown] rfl rfl ⟨rfl, rfl⟩
      · exact contained_of_silent [] (by simp) rfl ⟨rfl, rfl⟩
    · exact contained_of_silent [] (by simp) rfl ⟨rfl, rfl⟩
  | body fragment =>
    obtain ⟨request, statusCode, received, inBody, -, rfl⟩ := step_body hstep
    rw [bodyEvent_eq, contained_iff rfl]
    cases hdata : download.ctx.onData <;> simp [Harmless, hdata, Quiet]
  | messageComplete pause asks =>
    obtain ⟨request, statusCode, received, inBody, -, rfl⟩ := step_messageComplete hstep
    obtain ⟨emitted, htrace, hdelivered, hquiet⟩ :=
      messageEvent_trace request pause asks download
    rw [contained_iff htrace, hquiet]
    simp [hdelivered, Harmless]
  | closed =>
    obtain ⟨-, rfl⟩ := step_closed hstep
    refine iff_of_true ?_ trivial
    unfold mediaCloseRedirectCb
    dsimp only
    split
    · exact contained_of_silent [] (by simp) rfl ⟨rfl, rfl⟩
    · exact contained_of_silent [.connect] rfl rfl ⟨rfl, rfl⟩
  | nextChunk =>
    obtain rfl := step_nextChunk hstep
    obtain ⟨request, htrace⟩ := mediaCtxNextChunk_trace { download with owed := false }
    exact contained_request_iff htrace
  | setPause pause =>
    obtain rfl := step_setPause hstep
    exact iff_of_true (contained_of_silent [] (by simp) rfl ⟨rfl, rfl⟩) trivial

/-- **Error responses.** Along every run and for every sequence of statuses, error responses stay
out of the output and stop the download exactly when each of them delivers no byte and ends without
a visible effect. -/
theorem contained_iff_harmless_run (parseUrl : Bytes → Option Url) (ctx : Ctx Url)
    (events : List Event) :
    Each (step parseUrl) Contained (Download.ready ctx) events ↔
      Each (step parseUrl) Harmless (Download.ready ctx) events :=
  each_congr fun _ _ _ ↦ contained_iff_harmless

/-- The body of a 404 is passed to `on_data`, in a download of one request. -/
theorem notFound_delivered :
    ¬ Each (step fun _ ↦ some ()) Contained (Download.ready (Ctx.zeroed ()))
        [.connected, .statusComplete 404, .body [60]] := by
  rw [each_congr fun _ _ _ ↦ contained_iff_harmless]
  intro hharmless
  have hbody := (((hharmless _ rfl).2 _ rfl).2 _ rfl).1
  obtain ⟨request, statusCode, received, inBody, hparser, hsuccess⟩ := hbody rfl (by simp)
  cases hparser
  exact absurd hsuccess (by decide)

end LibYtdl.Dl.MediaStatus
