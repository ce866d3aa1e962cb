import LibYtdl.Dl.InfoPhase

/-!
# Progress of the info queue

A connected queue that holds videos should have a request outstanding, so that the answer can move
it on, and an empty one should be idle. The completion callbacks return early for an answer that
cannot be used; the video then stays first in the queue, and nothing is requested any more.
-/

namespace LibYtdl.Dl.QueueProgress

open InfoPhase InfoQueue Machine Transition

variable {Id Info Sig Callback : Type}

/-- A connected queue waits for exactly one answer while it holds videos, and is idle once it holds
none. -/
def Live (session : Session Id Info Sig Callback) : Prop :=
  session.ctx.isConnected = true →
    (session.ctx.videos ≠ [] → session.outstanding.length = 1) ∧
      (session.ctx.videos = [] → session.ctx.isIdle = true)

/-- A connected queue whose videos wait for nothing. -/
structure Stalled (session : Session Id Info Sig Callback) : Prop where
  connected : session.ctx.isConnected = true
  notIdle : session.ctx.isIdle = false
  nonempty : session.ctx.videos ≠ []
  outstanding : session.outstanding = []

section

variable {extractors : Extractors Info Sig} {players : List (Bytes × Sig)}
  {session next : Session Id Info Sig Callback} {video : Video Id Info Sig Callback}
  {videos : List (Video Id Info Sig Callback)}

theorem Stalled.not_live (h : Stalled session) : ¬ Live session := by
  intro hlive
  have hone := (hlive h.connected).1 h.nonempty
  simp [h.outstanding] at hone

theorem live_of_phase {pending : List (Id × Bytes)} (h : Phase extractors session pending) :
    Live session := by
  intro hconnected
  cases h with
  | unconnected quiet connected notIdle => simp [connected] at hconnected
  | idle quiet connected idle empty => exact ⟨fun hne ↦ absurd empty hne, fun _ ↦ idle⟩
  | watch video videos watch => simp [watch.outstanding, watch.queue]
  | player video videos player => simp [player.outstanding, player.queue]

theorem live_of_invariant (h : Invariant extractors players session) : Live session := by
  obtain ⟨pending, hphase, -⟩ := h
  exact live_of_phase hphase

/-- A watch page that cannot be used stalls the queue. -/
theorem stalled_watchPage (watch : InWatch extractors session video videos)
    (hunusable : ¬ PageUsable extractors extractors.infoCtxInit session.fragments.flatten)
    (nested : List (Id × Callback)) :
    Stalled (messageEvent extractors nested (.watchHtml video.id) [] session) := by
  have hpage : ¬ PageUsable extractors video.info video.response.bytes := by
    rwa [watch.info, watch.response]
  have hqueue : (answeredSession session (.watchHtml video.id) []).ctx.videos = video :: videos :=
    watch.queue
  obtain ⟨info, report, heq⟩ := watchHtmlComplete_unusable hqueue hpage nested
  rw [messageEvent_watchHtml watch.onMessageComplete, heq]
  exact ⟨watch.connected, watch.notIdle, List.cons_ne_nil _ _, rfl⟩

/-- A player script that does not extract stalls the queue. -/
theorem stalled_playerScript (player : InPlayer extractors session video videos)
    (hunusable : (extractors.sigActionsExtract session.fragments.flatten).1 ≠ 0)
    (nested : List (Id × Callback)) :
    Stalled (messageEvent extractors nested (.playerJs (extractors.playerUrl video.info)) []
      session) := by
  have hqueue : (answeredSession session
      (.playerJs (extractors.playerUrl video.info)) []).ctx.videos = video :: videos := player.queue
  have hscript : (extractors.sigActionsExtract (answeredSession session
      (.playerJs (extractors.playerUrl video.info)) []).ctx.playerJs.bytes).1 ≠ 0 := by
    simpa [answeredSession, player.playerJs] using hunusable
  rw [messageEvent_playerJs player.onMessageComplete,
    playerJsComplete_unusable hqueue hscript nested]
  exact ⟨player.connected, player.notIdle, by simp [answeredSession, player.queue], rfl⟩

/-- Every answer that cannot be used stalls the queue. -/
theorem stalled_of_unusable {event : Event Id Callback}
    (h : Invariant extractors players session)
    (hunusable : ¬ UsableAnswer extractors session event next)
    (hstep : step extractors session event = some next) : Stalled next := by
  obtain ⟨pending, hphase, -⟩ := h
  cases event with
  | getInfo id onComplete => exact absurd trivial hunusable
  | connected => exact absurd trivial hunusable
  | body fragment => exact absurd trivial hunusable
  | messageComplete nested =>
    cases hphase with
    | unconnected quiet connected notIdle => simp [step, quiet.outstanding] at hstep
    | idle quiet connected idle empty => simp [step, quiet.outstanding] at hstep
    | watch video videos watch =>
      obtain rfl : messageEvent extractors nested (.watchHtml video.id) [] session = next := by
        simpa [step, watch.outstanding] using hstep
      refine stalled_watchPage watch ?_ nested
      simpa [UsableAnswer, watch.outstanding, Usable] using hunusable
    | player video videos player =>
      obtain rfl : messageEvent extractors nested
          (.playerJs (extractors.playerUrl video.info)) [] session = next := by
        simpa [step, player.outstanding] using hstep
      refine stalled_playerScript player ?_ nested
      simpa [UsableAnswer, player.outstanding, Usable] using hunusable

/-- Nothing gets a stalled queue going again: a call only adds its video. -/
theorem stalled_step {event : Event Id Callback} (h : Stalled session)
    (hstep : step extractors session event = some next) : Stalled next := by
  cases event with
  | getInfo id onComplete =>
    obtain rfl := Option.some.inj hstep
    obtain ⟨size, hcall⟩ := dlGetInfo_of_not_idle extractors h.notIdle id onComplete
    rw [hcall]
    exact ⟨h.connected, h.notIdle, by simp, h.outstanding⟩
  | connected =>
    obtain ⟨hconnected, -⟩ := step_connected hstep
    simp [h.connected] at hconnected
  | body fragment => exact absurd h.outstanding (step_body hstep).1
  | messageComplete nested =>
    obtain ⟨request, outstanding, houtstanding, -⟩ := step_messageComplete hstep
    simp [h.outstanding] at houtstanding

/-- Once stalled, the queue stays so along every run. -/
theorem stalled_always (h : Stalled session) (events : List (Event Id Callback)) :
    Always (step extractors) Stalled session events := by
  refine always_of_invariant ?_ h (each_of_forall (fun _ _ _ ↦ trivial) session events)
  exact fun session event next h _ hstep ↦ stalled_step h hstep

end

/-- **Progress.** Along every run, the queue is live in every state exactly when every answer of the
run can be used: the watch pages extract and are playable, and the player scripts extract. -/
theorem live_iff_usable (extractors : Extractors Info Sig) (players : List (Bytes × Sig))
    (events : List (Event Id Callback)) :
    Always (step extractors) Live (Session.init players) events ↔
      Each (step extractors) (UsableAnswer extractors) (Session.init players) events := by
  refine always_iff_each
    (fun session (h : Invariant extractors players session) ↦ live_of_invariant h) ?_ ?_
    (invariant_init players) (each_of_forall (fun _ _ _ ↦ trivial) _ _)
  · exact fun session event next hinv _ husable hstep ↦ invariant_step hinv husable hstep
  · exact fun session event next hinv _ hunusable hstep ↦
      (stalled_of_unusable hinv hunusable hstep).not_live

/-- Watch pages that extract, of videos that require a login. -/
def loginRequired : Extractors Unit Unit where
  infoCtxInit := ()
  extractWatchHtml := fun info _ ↦ (0, info)
  getPlayabilityStatus := fun info ↦ (2, info)
  getPlayabilityStatusMessage := fun _ ↦ []
  playerUrl := fun _ ↦ []
  sigActionsExtract := fun _ ↦ (0, ())

/-- Two videos are queued. The first one turns out to require a login: both stay in the queue, and
nothing is requested for the second one. -/
theorem loginRequired_stalls :
    ¬ Always (step loginRequired) Live (Session.init [] : Session ℕ Unit Unit Unit)
      [.getInfo 1 (), .getInfo 2 (), .connected, .body [60], .messageComplete []] := by
  intro halways
  have hlive := halways.last rfl
  have hone := (hlive rfl).1 (List.cons_ne_nil _ _)
  exact Nat.zero_ne_one hone

end LibYtdl.Dl.QueueProgress
