import LibYtdl.Dl.InfoPhase
import LibYtdl.Dl.QueueCapacity

/-!
# A server that sends what it likes

The parser callbacks stay installed when the queue drains, and they run for every response that the
server sends, asked for or not. They all use the first video. What they find is right exactly as
long as the responses come while a video is in the queue, and that is so for a server that only
answers requests.
-/

namespace LibYtdl.Dl.InfoServer

open InfoPhase InfoQueue Machine Transition

variable {Id Info Sig Callback : Type}

/-- The completion callback that is installed. -/
def messageCompleteCb (extractors : Extractors Info Sig) (nested : List (Id × Callback))
    (session : Session Id Info Sig Callback) : Session Id Info Sig Callback :=
  match session.ctx.onMessageComplete with
  | .watchHtmlComplete => watchHtmlComplete extractors nested session
  | .playerJsComplete => playerJsComplete extractors nested session

/-- The end of a response that answers no request. -/
def unaskedEvent (extractors : Extractors Info Sig) (nested : List (Id × Callback))
    (session : Session Id Info Sig Callback) : Session Id Info Sig Callback :=
  messageCompleteCb extractors nested { session with fragments := [] }

/-- The server sends any responses, from the moment at which the connection is made. -/
def serverStep (extractors : Extractors Info Sig) :
    Step (Session Id Info Sig Callback) (Event Id Callback)
  | session, .getInfo id onComplete => some (dlGetInfo extractors id onComplete session)
  | session, .connected => if session.ctx.isConnected then none else some (connectedCb session)
  | session, .body fragment =>
    if session.ctx.isConnected then some (bodyEvent fragment session) else none
  | session, .messageComplete nested =>
    if session.ctx.isConnected then
      match session.outstanding with
      | [] => some (unaskedEvent extractors nested session)
      | request :: outstanding =>
        some (messageEvent extractors nested request outstanding session)
    else
      none

/-- No callback missed its video, and the videos in the queue are those that were put there and not
released: the calls are those of the released videos, then those of the videos in the queue. -/
structure Safe (session : Session Id Info Sig Callback) : Prop where
  found : Effect.noVideo ∉ session.trace
  held :
    (completed session.trace).map callOf ++ session.ctx.videos.map callOf =
      getInfos session.trace

/-- The callback that a response runs finds a video. -/
def FindsVideo (session : Session Id Info Sig Callback) (event : Event Id Callback)
    (_ : Session Id Info Sig Callback) : Prop :=
  match event with
  | .body _ => session.ctx.onBody = .watchBody → session.ctx.videos ≠ []
  | .messageComplete _ => session.ctx.videos ≠ []
  | _ => True

section Steps

variable {extractors : Extractors Info Sig} {session middle next : Session Id Info Sig Callback}
  {video : Video Id Info Sig Callback} {videos : List (Video Id Info Sig Callback)}

/-! ## What is added to the queue -/

/-- From `session` to `next` the videos of `calls` joined the queue, and none was released. -/
structure Grows (session next : Session Id Info Sig Callback) (calls : List (Id × Callback)) :
    Prop where
  videos : next.ctx.videos.map callOf = session.ctx.videos.map callOf ++ calls
  completed : completed next.trace = completed session.trace
  getInfos : getInfos next.trace = getInfos session.trace ++ calls
  found : Effect.noVideo ∈ next.trace → Effect.noVideo ∈ session.trace

theorem Grows.trans {first second : List (Id × Callback)} (hfirst : Grows session middle first)
    (hsecond : Grows middle next second) : Grows session next (first ++ second) where
  videos := by rw [hsecond.videos, hfirst.videos, List.append_assoc]
  completed := hsecond.completed.trans hfirst.completed
  getInfos := by rw [hsecond.getInfos, hfirst.getInfos, List.append_assoc]
  found := fun hmem ↦ hfirst.found (hsecond.found hmem)

/-- Every video that was put in the queue was released or is in the queue. -/
def Held (session : Session Id Info Sig Callback) : Prop :=
  (completed session.trace).map callOf ++ session.ctx.videos.map callOf = getInfos session.trace

/-- From `session` to `next` no callback missed its video, and no video was lost. -/
structure Kept (session next : Session Id Info Sig Callback) : Prop where
  found : Effect.noVideo ∈ next.trace → Effect.noVideo ∈ session.trace
  held : Held session → Held next

theorem Kept.trans (hfirst : Kept session middle) (hsecond : Kept middle next) :
    Kept session next where
  found := fun hmem ↦ hfirst.found (hsecond.found hmem)
  held := fun h ↦ hsecond.held (hfirst.held h)

theorem Kept.safe (hkept : Kept session next) (h : Safe session) : Safe next where
  found := fun hmem ↦ h.found (hkept.found hmem)
  held := hkept.held h.held

theorem Grows.kept {calls : List (Id × Callback)} (hgrows : Grows session next calls) :
    Kept session next where
  found := hgrows.found
  held := by
    intro h
    rw [Held] at h ⊢
    rw [hgrows.completed, hgrows.videos, hgrows.getInfos, ← h, List.append_assoc]

theorem grows_dlWake (session : Session Id Info Sig Callback) :
    Grows session (dlWake session) [] := by
  obtain heq | ⟨video, videos, -, heq⟩ := dlWake_cases session
  · rw [heq]
    exact ⟨by simp, rfl, by simp, id⟩
  · rw [heq]
    exact ⟨by simp, by simp, by simp, by simp⟩

theorem grows_dlGetInfo (extractors : Extractors Info Sig) (id : Id) (onComplete : Callback)
    (session : Session Id Info Sig Callback) :
    Grows session (dlGetInfo extractors id onComplete session) [(id, onComplete)] := by
  have hpushed : Grows session
      { session with
        ctx :=
          { session.ctx with
            videos := session.ctx.videos ++ [newVideo extractors id onComplete]
            size :=
              if session.ctx.size = session.ctx.videos.length then grow session.ctx.size
              else session.ctx.size }
        trace := session.trace ++ [.getInfo id onComplete, .slot session.ctx.videos.length
          (if session.ctx.size = session.ctx.videos.length then grow session.ctx.size
            else session.ctx.size)] }
      [(id, onComplete)] :=
    ⟨by simp [callOf, newVideo], by simp, by simp, by simp⟩
  exact hpushed.trans (grows_dlWake _)

theorem grows_nestedGetInfo (extractors : Extractors Info Sig) (nested : List (Id × Callback))
    (session : Session Id Info Sig Callback) :
    Grows session (nestedGetInfo extractors nested session) nested := by
  induction nested generalizing session with
  | nil => exact ⟨by simp [nestedGetInfo], rfl, by simp [nestedGetInfo], id⟩
  | cons call nested ih =>
    exact (grows_dlGetInfo extractors call.1 call.2 session).trans (ih _)

/-! ## What leaves it -/

/-- Finalising releases the first video and no other. -/
theorem kept_dlFinalize (hvideos : session.ctx.videos = video :: videos) (sigActions : Sig)
    (nested : List (Id × Callback)) :
    Kept session (dlFinalize extractors sigActions nested session) := by
  have hnested :=
    grows_nestedGetInfo extractors nested (handedSession session video videos sigActions)
  rw [dlFinalize_eq hvideos, popVideo_eq]
  refine Kept.trans ⟨?_, ?_⟩ (grows_dlWake _).kept
  · intro hmem
    obtain hold | hslot := List.mem_append.mp hmem
    · have hhanded := hnested.found hold
      simpa [handedSession] using hhanded
    · simp [shiftSlots] at hslot
  · intro hheld
    rw [Held, hvideos] at hheld
    have hqueue := hnested.videos
    have hshift (len size : ℕ) :
        completed (shiftSlots len size : List (Effect Id Info Sig Callback)) = [] :=
      (shiftSlots_silent len size).completed
    simp only [Held, completed_append, getInfos_append, getInfos_shiftSlots, hshift,
      List.append_nil, List.map_tail, hqueue, hnested.completed, hnested.getInfos]
    simp only [handedSession, completed_append, getInfos_append, ← hheld]
    simp [callOf]

/-- A completion callback that finds its video keeps the queue as it should be. -/
theorem kept_messageCompleteCb (hvideos : session.ctx.videos = video :: videos)
    (nested : List (Id × Callback)) :
    Kept session (messageCompleteCb extractors nested session) := by
  cases hhandler : session.ctx.onMessageComplete with
  | watchHtmlComplete =>
    rw [messageCompleteCb, hhandler]
    dsimp only
    by_cases hpage : PageUsable extractors video.info video.response.bytes
    · cases hplayer : session.ctx.playerMap.lookup
          (extractors.playerUrl (pageInfo extractors video.info video.response.bytes)) with
      | some sigActions =>
        rw [watchHtmlComplete_known hvideos hpage hplayer]
        refine (Grows.kept (?_ : Grows session _ [])).trans
          (kept_dlFinalize rfl sigActions nested)
        exact ⟨by simp [hvideos, callOf], rfl, (List.append_nil _).symm, id⟩
      | none =>
        rw [watchHtmlComplete_unknown hvideos hpage hplayer]
        refine Grows.kept (?_ : Grows session _ [])
        exact ⟨by simp [hvideos, callOf], by simp, by simp, by simp⟩
    · obtain ⟨info, report, heq⟩ := watchHtmlComplete_unusable hvideos hpage nested
      rw [heq]
      refine Grows.kept (?_ : Grows session _ [])
      exact ⟨by simp [hvideos, callOf], by simp, by simp, by simp⟩
  | playerJsComplete =>
    rw [messageCompleteCb, hhandler]
    dsimp only
    by_cases hscript : (extractors.sigActionsExtract session.ctx.playerJs.bytes).1 = 0
    · cases hplayer : session.ctx.playerMap.lookup (extractors.playerUrl video.info) with
      | some sigActions =>
        rw [playerJsComplete_known hvideos hscript (by simp [hplayer])]
        refine Grows.kept (?_ : Grows session _ [])
        exact ⟨by simp, by simp, by simp, by simp⟩
      | none =>
        rw [playerJsComplete_unknown hvideos hscript hplayer]
        refine (Grows.kept (?_ : Grows session _ [])).trans
          (kept_dlFinalize (?_ : _ = video :: videos) _ nested)
        · exact ⟨by simp, rfl, (List.append_nil _).symm, id⟩
        · exact hvideos
    · rw [playerJsComplete_unusable hvideos hscript]
      refine Grows.kept (?_ : Grows session _ [])
      exact ⟨by simp, by simp, by simp, by simp⟩

/-- A completion callback that finds no video. -/
theorem messageCompleteCb_nil (hvideos : session.ctx.videos = [])
    (nested : List (Id × Callback)) :
    messageCompleteCb extractors nested session = session.emit .noVideo := by
  cases hhandler : session.ctx.onMessageComplete with
  | watchHtmlComplete => simp [messageCompleteCb, hhandler, watchHtmlComplete, hvideos]
  | playerJsComplete => simp [messageCompleteCb, hhandler, playerJsComplete, hvideos]

theorem held_emit_noVideo (h : Held session) : Held (session.emit .noVideo) := by
  simpa [Held, Session.emit] using h

/-! ## The events -/

theorem serverStep_connected
    (h : serverStep extractors session .connected = some next) :
    session.ctx.isConnected = false ∧ connectedCb session = next := by
  simpa [serverStep] using h

theorem serverStep_body {fragment : Bytes}
    (h : serverStep extractors session (.body fragment) = some next) :
    session.ctx.isConnected = true ∧ bodyEvent fragment session = next := by
  simpa [serverStep] using h

/-- The end of a response runs the completion callback, on a queue as it was before. -/
theorem serverStep_messageComplete {nested : List (Id × Callback)}
    (h : serverStep extractors session (.messageComplete nested) = some next) :
    session.ctx.isConnected = true ∧
      ∃ arrived : Session Id Info Sig Callback, arrived.ctx = session.ctx ∧
        Grows session arrived [] ∧ arrived.outstanding = session.outstanding.tail ∧
        messageCompleteCb extractors nested arrived = next := by
  have hconnected : session.ctx.isConnected = true := by
    cases hcase : session.ctx.isConnected with
    | true => rfl
    | false => simp [serverStep, hcase] at h
  refine ⟨hconnected, ?_⟩
  cases houtstanding : session.outstanding with
  | nil =>
    refine ⟨{ session with fragments := [] }, rfl, ?_, houtstanding, ?_⟩
    · exact ⟨by simp, rfl, by simp, id⟩
    · simpa [serverStep, hconnected, houtstanding, unaskedEvent] using h
  | cons request outstanding =>
    refine ⟨answeredSession session request outstanding, rfl, ?_, rfl, ?_⟩
    · exact ⟨by simp [answeredSession], by simp [answeredSession], by simp [answeredSession],
        by simp [answeredSession]⟩
    · have hnext : messageEvent extractors nested request outstanding session = next := by
        simpa [serverStep, hconnected, houtstanding] using h
      exact hnext

theorem grows_connectedCb (session : Session Id Info Sig Callback) :
    Grows session (connectedCb session) [] := by
  have hconnected : Grows session
      { session with ctx := { session.ctx with isConnected := true, isIdle := true } } [] :=
    ⟨by simp, rfl, by simp, id⟩
  exact hconnected.trans (grows_dlWake _)

theorem kept_bodyEvent (hfinds : session.ctx.onBody = .watchBody → session.ctx.videos ≠ [])
    (fragment : Bytes) : Kept session (bodyEvent fragment session) := by
  cases honBody : session.ctx.onBody with
  | watchBody =>
    obtain ⟨video, videos, hvideos⟩ := List.exists_cons_of_ne_nil (hfinds honBody)
    rw [bodyEvent_watchBody honBody hvideos]
    refine Grows.kept (?_ : Grows session _ [])
    exact ⟨by simp [hvideos, callOf], rfl, (List.append_nil _).symm, id⟩
  | playerBody =>
    rw [bodyEvent_playerBody honBody]
    refine Grows.kept (?_ : Grows session _ [])
    exact ⟨by simp, rfl, (List.append_nil _).symm, id⟩

/-- What a step does to the queue when its callback finds its video. -/
theorem kept_step {event : Event Id Callback} (hfinds : FindsVideo session event next)
    (hstep : serverStep extractors session event = some next) : Kept session next := by
  cases event with
  | getInfo id onComplete =>
    obtain rfl := Option.some.inj hstep
    exact (grows_dlGetInfo extractors id onComplete session).kept
  | connected =>
    obtain ⟨-, rfl⟩ := serverStep_connected hstep
    exact (grows_connectedCb session).kept
  | body fragment =>
    obtain ⟨-, rfl⟩ := serverStep_body hstep
    exact kept_bodyEvent hfinds fragment
  | messageComplete nested =>
    obtain ⟨-, arrived, hctx, hgrows, -, rfl⟩ := serverStep_messageComplete hstep
    obtain ⟨video, videos, hvideos⟩ := List.exists_cons_of_ne_nil hfinds
    exact hgrows.kept.trans (kept_messageCompleteCb (hctx ▸ hvideos) nested)

/-- A step whose callback finds its video keeps the queue safe. -/
theorem safe_step {event : Event Id Callback} (h : Safe session)
    (hfinds : FindsVideo session event next)
    (hstep : serverStep extractors session event = some next) : Safe next :=
  (kept_step hfinds hstep).safe h

/-- No step loses a video. -/
theorem held_step {event : Event Id Callback} (h : Held session)
    (hstep : serverStep extractors session event = some next) : Held next := by
  by_cases hfinds : FindsVideo session event next
  · exact (kept_step hfinds hstep).held h
  · cases event with
    | getInfo id onComplete => exact absurd trivial hfinds
    | connected => exact absurd trivial hfinds
    | body fragment =>
      obtain ⟨honBody, hvideos⟩ := Classical.not_imp.mp hfinds
      obtain ⟨-, rfl⟩ := serverStep_body hstep
      simp only [bodyEvent, honBody, watchBodyCb, not_not.mp hvideos]
      apply held_emit_noVideo
      simpa [Held] using h
    | messageComplete nested =>
      obtain ⟨-, arrived, hctx, hgrows, -, rfl⟩ := serverStep_messageComplete hstep
      rw [messageCompleteCb_nil (hctx ▸ not_not.mp hfinds)]
      exact held_emit_noVideo (hgrows.kept.held h)

/-- A step whose callback finds no video is not safe. -/
theorem not_safe_step {event : Event Id Callback} (hmisses : ¬ FindsVideo session event next)
    (hstep : serverStep extractors session event = some next) : ¬ Safe next := by
  intro hsafe
  cases event with
  | getInfo id onComplete => exact hmisses trivial
  | connected => exact hmisses trivial
  | body fragment =>
    obtain ⟨honBody, hvideos⟩ := Classical.not_imp.mp hmisses
    obtain ⟨-, rfl⟩ := serverStep_body hstep
    refine hsafe.found ?_
    simp [bodyEvent, honBody, watchBodyCb, not_not.mp hvideos, Session.emit]
  | messageComplete nested =>
    obtain ⟨-, arrived, hctx, -, -, rfl⟩ := serverStep_messageComplete hstep
    refine hsafe.found ?_
    rw [messageCompleteCb_nil (hctx ▸ not_not.mp hmisses)]
    simp [Session.emit]

theorem safe_init (players : List (Bytes × Sig)) :
    Safe (Session.init players : Session Id Info Sig Callback) :=
  ⟨by simp [Session.init], by simp [Session.init, dlCtxInit]⟩

end Steps

/-- **Any server.** Whatever the server sends, every access of the callbacks to the first video
finds a video that is in the queue and was not released, exactly when every response comes while the
queue holds a video (a body for the player callback apart, which uses none). -/
theorem safe_iff_findsVideo (extractors : Extractors Info Sig) (players : List (Bytes × Sig))
    (events : List (Event Id Callback)) :
    Always (serverStep extractors) Safe (Session.init players) events ↔
      Each (serverStep extractors) FindsVideo (Session.init players) events := by
  refine always_iff_each (fun _ h ↦ h) ?_ ?_ (safe_init players)
    (each_of_forall (fun _ _ _ ↦ trivial) _ _)
  · exact fun session event next h _ hfinds hstep ↦ safe_step h hfinds hstep
  · exact fun session event next _ _ hmisses hstep ↦ not_safe_step hmisses hstep

/-- A body fragment that arrives when nothing was asked for uses the video of an empty queue. -/
theorem earlyBody_unsafe :
    ¬ Always (serverStep QueueCapacity.playable) Safe
      (Session.init [] : Session ℕ Unit Unit Unit) [.connected, .body [60]] := by
  intro halways
  have hsafe := halways.last rfl
  exact hsafe.found (by simp [connectedCb, dlWake, Session.init, dlCtxInit, bodyEvent, watchBodyCb,
    Session.emit])

/-! ## A server that only answers -/

/-- A response belongs to an outstanding request. -/
def Asked (session : Session Id Info Sig Callback) (event : Event Id Callback)
    (_ : Session Id Info Sig Callback) : Prop :=
  match event with
  | .body _ | .messageComplete _ => session.outstanding ≠ []
  | _ => True

/-- At most one request is outstanding, and then a video is in the queue. -/
structure Paced (session : Session Id Info Sig Callback) : Prop where
  unconnected : session.ctx.isConnected = false → session.outstanding = []
  idle : session.ctx.isIdle = true → session.ctx.isConnected = true ∧ session.outstanding = []
  single : session.outstanding.length ≤ 1
  busy : session.outstanding ≠ [] → session.ctx.videos ≠ []

section Pace

variable {extractors : Extractors Info Sig} {session next : Session Id Info Sig Callback}
  {video : Video Id Info Sig Callback} {videos : List (Video Id Info Sig Callback)}

theorem paced_init (players : List (Bytes × Sig)) :
    Paced (Session.init players : Session Id Info Sig Callback) :=
  ⟨fun _ ↦ rfl, by simp [Session.init, dlCtxInit], by simp [Session.init], by simp [Session.init]⟩

/-- Nothing is outstanding, on a connection. -/
theorem paced_of_quiet (hconnected : session.ctx.isConnected = true)
    (houtstanding : session.outstanding = []) : Paced session :=
  ⟨fun _ ↦ houtstanding, fun _ ↦ ⟨hconnected, houtstanding⟩, by simp [houtstanding],
    fun hne ↦ absurd houtstanding hne⟩

theorem paced_dlWake (h : Paced session) : Paced (dlWake session) := by
  cases hidle : session.ctx.isIdle with
  | false =>
    rw [dlWake_of_not_idle hidle]
    exact h
  | true =>
    cases hvideos : session.ctx.videos with
    | nil =>
      rw [dlWake_nil hvideos]
      exact h
    | cons video videos =>
      obtain ⟨hconnected, hquiet⟩ := h.idle hidle
      rw [dlWake_cons hidle hvideos]
      exact ⟨by simp [hconnected], by simp, by simp [hquiet], by simp [hvideos]⟩

theorem paced_dlGetInfo (h : Paced session) (id : Id) (onComplete : Callback) :
    Paced (dlGetInfo extractors id onComplete session) := by
  refine paced_dlWake ⟨h.unconnected, h.idle, h.single, fun hne ↦ ?_⟩
  simp

theorem paced_connectedCb (h : Paced session) (hconnected : session.ctx.isConnected = false) :
    Paced (connectedCb session) :=
  paced_dlWake (paced_of_quiet rfl (h.unconnected hconnected))

theorem paced_bodyEvent (h : Paced session) (fragment : Bytes) :
    Paced (bodyEvent fragment session) := by
  cases honBody : session.ctx.onBody with
  | playerBody =>
    rw [bodyEvent_playerBody honBody]
    exact ⟨h.unconnected, h.idle, h.single, h.busy⟩
  | watchBody =>
    cases hvideos : session.ctx.videos with
    | nil =>
      rw [bodyEvent, honBody]
      dsimp only
      rw [watchBodyCb, hvideos]
      exact ⟨h.unconnected, h.idle, h.single, h.busy⟩
    | cons video videos =>
      rw [bodyEvent_watchBody honBody hvideos]
      exact ⟨h.unconnected, h.idle, h.single, by simp⟩

theorem paced_dlFinalize (hconnected : session.ctx.isConnected = true)
    (hidle : session.ctx.isIdle = false) (houtstanding : session.outstanding = [])
    (hvideos : session.ctx.videos = video :: videos) (sigActions : Sig)
    (nested : List (Id × Callback)) :
    Paced (dlFinalize extractors sigActions nested session) := by
  obtain ⟨size, effects, heq, -, -⟩ :=
    dlFinalize_cons extractors hidle hvideos sigActions nested
  rw [heq]
  exact paced_dlWake (paced_of_quiet hconnected houtstanding)

/-- The completion callback, when the only request has been answered. -/
theorem paced_messageCompleteCb (hconnected : session.ctx.isConnected = true)
    (hidle : session.ctx.isIdle = false) (houtstanding : session.outstanding = [])
    (hvideos : session.ctx.videos = video :: videos) (nested : List (Id × Callback)) :
    Paced (messageCompleteCb extractors nested session) := by
  cases hhandler : session.ctx.onMessageComplete with
  | watchHtmlComplete =>
    rw [messageCompleteCb, hhandler]
    dsimp only
    by_cases hpage : PageUsable extractors video.info video.response.bytes
    · cases hplayer : session.ctx.playerMap.lookup
          (extractors.playerUrl (pageInfo extractors video.info video.response.bytes)) with
      | some sigActions =>
        rw [watchHtmlComplete_known hvideos hpage hplayer]
        refine paced_dlFinalize ?_ ?_ ?_ (?_ : _ =
          { video with info := pageInfo extractors video.info video.response.bytes } :: videos)
          _ nested
        exacts [hconnected, hidle, houtstanding, rfl]
      | none =>
        rw [watchHtmlComplete_unknown hvideos hpage hplayer]
        exact ⟨by simp [hconnected], by simp [hidle], by simp [houtstanding], by simp⟩
    · obtain ⟨info, report, heq⟩ := watchHtmlComplete_unusable hvideos hpage nested
      rw [heq]
      exact paced_of_quiet hconnected houtstanding
  | playerJsComplete =>
    rw [messageCompleteCb, hhandler]
    dsimp only
    by_cases hscript : (extractors.sigActionsExtract session.ctx.playerJs.bytes).1 = 0
    · cases hplayer : session.ctx.playerMap.lookup (extractors.playerUrl video.info) with
      | some sigActions =>
        rw [playerJsComplete_known hvideos hscript (by simp [hplayer])]
        exact paced_of_quiet hconnected houtstanding
      | none =>
        rw [playerJsComplete_unknown hvideos hscript hplayer]
        refine paced_dlFinalize ?_ ?_ ?_ (?_ : _ = video :: videos) _ nested
        exacts [hconnected, hidle, houtstanding, hvideos]
    · rw [playerJsComplete_unusable hvideos hscript]
      exact paced_of_quiet hconnected houtstanding

theorem Paced.tail_nil (h : Paced session) : session.outstanding.tail = [] := by
  refine List.eq_nil_of_length_eq_zero ?_
  rw [List.length_tail]
  have hsingle := h.single
  omega

/-- A step that belongs to a request keeps the pace. -/
theorem paced_step {event : Event Id Callback} (h : Paced session)
    (hasked : Asked session event next)
    (hstep : serverStep extractors session event = some next) : Paced next := by
  cases event with
  | getInfo id onComplete =>
    obtain rfl := Option.some.inj hstep
    exact paced_dlGetInfo h id onComplete
  | connected =>
    obtain ⟨hconnected, rfl⟩ := serverStep_connected hstep
    exact paced_connectedCb h hconnected
  | body fragment =>
    obtain ⟨-, rfl⟩ := serverStep_body hstep
    exact paced_bodyEvent h fragment
  | messageComplete nested =>
    obtain ⟨hconnected, arrived, hctx, -, houtstanding, rfl⟩ := serverStep_messageComplete hstep
    obtain ⟨video, videos, hvideos⟩ := List.exists_cons_of_ne_nil (h.busy hasked)
    have hidle : session.ctx.isIdle = false := by
      refine Bool.eq_false_iff.mpr fun hidle ↦ ?_
      exact hasked (h.idle hidle).2
    rw [← hctx] at hconnected hidle hvideos
    exact paced_messageCompleteCb hconnected hidle (houtstanding.trans h.tail_nil) hvideos nested

theorem Paced.isConnected (h : Paced session) (houtstanding : session.outstanding ≠ []) :
    session.ctx.isConnected = true := by
  by_contra hnot
  exact houtstanding (h.unconnected (Bool.eq_false_iff.mpr hnot))

/-- The steps of a server that answers are among those of any server. -/
theorem serverStep_of_step {event : Event Id Callback} (h : Paced session)
    (hstep : step extractors session event = some next) :
    serverStep extractors session event = some next := by
  cases event with
  | getInfo id onComplete => exact hstep
  | connected => exact hstep
  | body fragment =>
    obtain ⟨houtstanding, heq⟩ := step_body hstep
    rw [serverStep, if_pos (h.isConnected houtstanding), heq]
  | messageComplete nested =>
    obtain ⟨request, outstanding, houtstanding, heq⟩ := step_messageComplete hstep
    have hconnected := h.isConnected (by simp [houtstanding])
    simp only [serverStep, hconnected, houtstanding, if_true, heq]

end Pace

/-- A server that sends one response to each request, whatever is in it, is met with care. -/
theorem asked_findsVideo (extractors : Extractors Info Sig) (players : List (Bytes × Sig))
    (events : List (Event Id Callback))
    (hasked : Each (serverStep extractors) Asked (Session.init players) events) :
    Each (serverStep extractors) FindsVideo (Session.init players) events := by
  refine each_of_invariant ?_ (paced_init players) hasked
  intro session event next (h : Paced session) hasked hstep
  refine ⟨?_, paced_step h hasked hstep⟩
  cases event with
  | getInfo id onComplete => trivial
  | connected => trivial
  | body fragment => exact fun _ ↦ h.busy hasked
  | messageComplete nested => exact h.busy hasked

end LibYtdl.Dl.InfoServer
