import LibYtdl.Dl.InfoQueue

/-!
# The phases of the info queue

Between two callbacks the queue is in one of four phases: it has not been connected, it is idle, it
waits for the watch page of its first video, or it waits for the player script of that video. The
phase fixes the parser callbacks, the idle bit, the outstanding request and the contents of the
buffers. With it goes the history: what the trace says about the videos that were completed.

Every step keeps both, provided that the answer which ends in the step is usable.
-/

namespace LibYtdl.Dl.InfoPhase

open InfoQueue Machine Transition

variable {Id Info Sig Callback : Type}

/-- The call that put a video in the queue. -/
def callOf (video : Video Id Info Sig Callback) : Id × Callback := (video.id, video.onComplete)

/-- A video's id with the document its info is extracted from. -/
def documentOf (video : Video Id Info Sig Callback) : Id × Bytes :=
  (video.id, video.response.bytes)

/-- The watch pages received, each with the id it was requested for. -/
def watchPages (trace : List (Effect Id Info Sig Callback)) : List (Id × Bytes) :=
  (answers trace).filterMap fun
    | (.watchHtml id, fragments) => some (id, fragments.flatten)
    | (.playerJs _, _) => none

/-- The player scripts received, each with the path it was requested for. -/
def playerScripts (trace : List (Effect Id Info Sig Callback)) : List (Bytes × Bytes) :=
  (answers trace).filterMap fun
    | (.watchHtml _, _) => none
    | (.playerJs path, fragments) => some (path, fragments.flatten)

@[simp] theorem watchPages_nil :
    watchPages ([] : List (Effect Id Info Sig Callback)) = [] := rfl

@[simp] theorem playerScripts_nil :
    playerScripts ([] : List (Effect Id Info Sig Callback)) = [] := rfl

@[simp] theorem watchPages_cons (effect : Effect Id Info Sig Callback)
    (trace : List (Effect Id Info Sig Callback)) :
    watchPages (effect :: trace) =
      (match effect with
        | .answered (.watchHtml id) fragments => [(id, fragments.flatten)]
        | _ => []) ++ watchPages trace := by
  cases effect with
  | answered request fragments => cases request <;> rfl
  | _ => rfl

@[simp] theorem playerScripts_cons (effect : Effect Id Info Sig Callback)
    (trace : List (Effect Id Info Sig Callback)) :
    playerScripts (effect :: trace) =
      (match effect with
        | .answered (.playerJs path) fragments => [(path, fragments.flatten)]
        | _ => []) ++ playerScripts trace := by
  cases effect with
  | answered request fragments => cases request <;> rfl
  | _ => rfl

@[simp] theorem watchPages_append (first second : List (Effect Id Info Sig Callback)) :
    watchPages (first ++ second) = watchPages first ++ watchPages second := by
  simp [watchPages]

@[simp] theorem playerScripts_append (first second : List (Effect Id Info Sig Callback)) :
    playerScripts (first ++ second) = playerScripts first ++ playerScripts second := by
  simp [playerScripts]

theorem watchPages_silent {effects : List (Effect Id Info Sig Callback)} (h : Silent effects) :
    watchPages effects = [] := by
  simp [watchPages, h.answers]

theorem playerScripts_silent {effects : List (Effect Id Info Sig Callback)} (h : Silent effects) :
    playerScripts effects = [] := by
  simp [playerScripts, h.answers]

/-- An answer is usable when the watch page extracts and is playable, or the script extracts. -/
def Usable (extractors : Extractors Info Sig) : Request Id → Bytes → Prop
  | .watchHtml _, page => PageUsable extractors extractors.infoCtxInit page
  | .playerJs _, script => (extractors.sigActionsExtract script).1 = 0

instance (extractors : Extractors Info Sig) :
    (request : Request Id) → (answer : Bytes) → Decidable (Usable extractors request answer)
  | .watchHtml _, _ => inferInstanceAs (Decidable (PageUsable _ _ _))
  | .playerJs _, _ => inferInstanceAs (Decidable (_ = _))

/-- The answer that ends in the step, if one does, is usable. -/
def UsableAnswer (extractors : Extractors Info Sig) (session : Session Id Info Sig Callback)
    (event : Event Id Callback) (_ : Session Id Info Sig Callback) : Prop :=
  match event with
  | .messageComplete _ =>
    ∀ request ∈ session.outstanding.head?, Usable extractors request session.fragments.flatten
  | _ => True

instance (extractors : Extractors Info Sig) (session : Session Id Info Sig Callback) :
    (event : Event Id Callback) → (next : Session Id Info Sig Callback) →
      Decidable (UsableAnswer extractors session event next)
  | .messageComplete _, _ =>
    inferInstanceAs (Decidable (∀ request ∈ session.outstanding.head?,
      Usable extractors request session.fragments.flatten))
  | .getInfo _ _, _ => isTrue trivial
  | .connected, _ => isTrue trivial
  | .body _, _ => isTrue trivial

/-! ## The invariant -/

/-- A video that has not been looked up yet. -/
structure Waiting (extractors : Extractors Info Sig) (video : Video Id Info Sig Callback) :
    Prop where
  info : video.info = extractors.infoCtxInit
  response : video.response.bytes = []

/-- No request is outstanding, and nothing has been received for the videos in the queue. -/
structure Quiet (extractors : Extractors Info Sig) (session : Session Id Info Sig Callback) :
    Prop where
  outstanding : session.outstanding = []
  fragments : session.fragments = []
  playerJs : session.ctx.playerJs.bytes = []
  waiting : ∀ video ∈ session.ctx.videos, Waiting extractors video

/-- The queue waits for the watch page of `video`. -/
structure InWatch (extractors : Extractors Info Sig) (session : Session Id Info Sig Callback)
    (video : Video Id Info Sig Callback) (videos : List (Video Id Info Sig Callback)) : Prop where
  connected : session.ctx.isConnected = true
  notIdle : session.ctx.isIdle = false
  queue : session.ctx.videos = video :: videos
  outstanding : session.outstanding = [.watchHtml video.id]
  onBody : session.ctx.onBody = .watchBody
  onMessageComplete : session.ctx.onMessageComplete = .watchHtmlComplete
  info : video.info = extractors.infoCtxInit
  response : video.response.bytes = session.fragments.flatten
  playerJs : session.ctx.playerJs.bytes = []
  waiting : ∀ later ∈ videos, Waiting extractors later

/-- The queue waits for the player script of `video`. -/
structure InPlayer (extractors : Extractors Info Sig) (session : Session Id Info Sig Callback)
    (video : Video Id Info Sig Callback) (videos : List (Video Id Info Sig Callback)) : Prop where
  connected : session.ctx.isConnected = true
  notIdle : session.ctx.isIdle = false
  queue : session.ctx.videos = video :: videos
  outstanding : session.outstanding = [.playerJs (extractors.playerUrl video.info)]
  onBody : session.ctx.onBody = .playerBody
  onMessageComplete : session.ctx.onMessageComplete = .playerJsComplete
  info : video.info = pageInfo extractors extractors.infoCtxInit video.response.bytes
  unknown : session.ctx.playerMap.lookup (extractors.playerUrl video.info) = none
  playerJs : session.ctx.playerJs.bytes = session.fragments.flatten
  waiting : ∀ later ∈ videos, Waiting extractors later

/-- The phase, with the watch page received for a video that is not completed yet. -/
inductive Phase (extractors : Extractors Info Sig) (session : Session Id Info Sig Callback) :
    List (Id × Bytes) → Prop
  | unconnected (quiet : Quiet extractors session) (connected : session.ctx.isConnected = false)
      (notIdle : session.ctx.isIdle = false) : Phase extractors session []
  | idle (quiet : Quiet extractors session) (connected : session.ctx.isConnected = true)
      (idle : session.ctx.isIdle = true) (empty : session.ctx.videos = []) :
      Phase extractors session []
  | watch (video : Video Id Info Sig Callback) (videos : List (Video Id Info Sig Callback))
      (watch : InWatch extractors session video videos) : Phase extractors session []
  | player (video : Video Id Info Sig Callback) (videos : List (Video Id Info Sig Callback))
      (player : InPlayer extractors session video videos) :
      Phase extractors session [documentOf video]

/-- A completed video was extracted from its document and has the actions of its player. -/
structure Served (extractors : Extractors Info Sig) (playerMap : List (Bytes × Sig))
    (video : Video Id Info Sig Callback) : Prop where
  info : video.info = pageInfo extractors extractors.infoCtxInit video.response.bytes
  known : (playerMap.lookup (extractors.playerUrl video.info)).isSome
  sigActions : video.sigActions = playerMap.lookup (extractors.playerUrl video.info)

/-- What the trace says, for a queue that started with the players of `players`. -/
structure History (extractors : Extractors Info Sig) (players : List (Bytes × Sig))
    (session : Session Id Info Sig Callback) (pending : List (Id × Bytes)) : Prop where
  ordered :
    (completed session.trace).map callOf ++ session.ctx.videos.map callOf =
      getInfos session.trace
  answered :
    requests session.trace = (answers session.trace).map Prod.fst ++ session.outstanding
  documents : watchPages session.trace = (completed session.trace).map documentOf ++ pending
  learned :
    session.ctx.playerMap = players ++
      (playerScripts session.trace).map fun script ↦
        (script.1, (extractors.sigActionsExtract script.2).2)
  distinct : (players.map Prod.fst).Nodup → (session.ctx.playerMap.map Prod.fst).Nodup
  served : ∀ video ∈ completed session.trace, Served extractors session.ctx.playerMap video

/-- The invariant of the queue. -/
def Invariant (extractors : Extractors Info Sig) (players : List (Bytes × Sig))
    (session : Session Id Info Sig Callback) : Prop :=
  ∃ pending, Phase extractors session pending ∧ History extractors players session pending

section Steps

variable {extractors : Extractors Info Sig} {players : List (Bytes × Sig)}
  {session : Session Id Info Sig Callback} {video : Video Id Info Sig Callback}
  {videos : List (Video Id Info Sig Callback)} {pending : List (Id × Bytes)}

theorem newVideo_waiting (id : Id) (onComplete : Callback) :
    Waiting extractors (newVideo extractors id onComplete) where
  info := rfl
  response := rfl

/-- A fresh queue is not connected. -/
theorem invariant_init (players : List (Bytes × Sig)) :
    Invariant extractors players (Session.init players : Session Id Info Sig Callback) := by
  refine ⟨[], .unconnected ⟨rfl, rfl, rfl, ?_⟩ rfl rfl, ?_⟩
  · simp [Session.init, dlCtxInit]
  · constructor <;>
      simp [Session.init, dlCtxInit]

/-- Waking a connected queue with nothing in flight leaves it idle or waiting for a watch page. -/
theorem invariant_dlWake (quiet : Quiet extractors session)
    (hconnected : session.ctx.isConnected = true) (hidle : session.ctx.isIdle = true)
    (history : History extractors players session []) :
    Invariant extractors players (dlWake session) := by
  cases hvideos : session.ctx.videos with
  | nil =>
    rw [dlWake_nil hvideos]
    exact ⟨[], .idle quiet hconnected hidle hvideos, history⟩
  | cons video videos =>
    have hwaiting := quiet.waiting
    rw [hvideos, List.forall_mem_cons] at hwaiting
    rw [dlWake_cons hidle hvideos]
    refine ⟨[], .watch video videos ?_, ?_⟩
    · exact
        { connected := hconnected
          notIdle := rfl
          queue := hvideos
          outstanding := by simp [quiet.outstanding]
          onBody := rfl
          onMessageComplete := rfl
          info := hwaiting.1.info
          response := by simp [hwaiting.1.response, quiet.fragments]
          playerJs := quiet.playerJs
          waiting := hwaiting.2 }
    · exact
        { ordered := by simpa using history.ordered
          answered := by
            rw [requests_append, answers_append, history.answered]
            simp
          documents := by simpa using history.documents
          learned := by simpa using history.learned
          distinct := history.distinct
          served := by simpa using history.served }

theorem waiting_append_newVideo (hwaiting : ∀ later ∈ videos, Waiting extractors later)
    (nested : List (Id × Callback)) :
    ∀ later ∈ videos ++ nested.map fun call ↦ newVideo extractors call.1 call.2,
      Waiting extractors later := by
  intro later hlater
  obtain hold | hnew := List.mem_append.mp hlater
  · exact hwaiting later hold
  · obtain ⟨call, -, rfl⟩ := List.mem_map.mp hnew
    exact newVideo_waiting call.1 call.2

theorem map_callOf_newVideo (nested : List (Id × Callback)) :
    (nested.map fun call ↦ newVideo extractors call.1 call.2).map callOf = nested := by
  simp [Function.comp_def, callOf, newVideo]

/-- The phase depends on the queue, the buffers and the flags, not on the queue's size. -/
theorem Phase.append_newVideo (hphase : Phase extractors session pending)
    (hidle : session.ctx.isIdle = false) (id : Id) (onComplete : Callback) (size : ℕ)
    (trace : List (Effect Id Info Sig Callback)) :
    Phase extractors
      { session with
        ctx :=
          { session.ctx with
            videos := session.ctx.videos ++ [newVideo extractors id onComplete]
            size := size }
        trace := trace } pending := by
  cases hphase with
  | unconnected quiet connected notIdle =>
    exact .unconnected
      { quiet with waiting := waiting_append_newVideo quiet.waiting [(id, onComplete)] }
      connected notIdle
  | idle quiet connected idle empty => simp [idle] at hidle
  | watch video videos watch =>
    exact .watch video _
      { watch with
        queue := by simp [watch.queue]
        waiting := waiting_append_newVideo watch.waiting [(id, onComplete)] }
  | player video videos player =>
    exact .player video _
      { player with
        queue := by simp [player.queue]
        waiting := waiting_append_newVideo player.waiting [(id, onComplete)] }

theorem History.append_newVideo (history : History extractors players session pending) (id : Id)
    (onComplete : Callback) (index size : ℕ) :
    History extractors players
      { session with
        ctx :=
          { session.ctx with
            videos := session.ctx.videos ++ [newVideo extractors id onComplete]
            size := size }
        trace := session.trace ++ [.getInfo id onComplete, .slot index size] } pending where
  ordered := by
    have hordered := history.ordered
    simp only [completed_append, getInfos_append, ← hordered, List.map_append]
    simp [callOf, newVideo]
  answered := by simpa using history.answered
  documents := by simpa using history.documents
  learned := by simpa using history.learned
  distinct := history.distinct
  served := by simpa using history.served

/-- A call of `ytdl_dl_get_info` keeps the invariant. -/
theorem invariant_dlGetInfo (h : Invariant extractors players session) (id : Id)
    (onComplete : Callback) :
    Invariant extractors players (dlGetInfo extractors id onComplete session) := by
  obtain ⟨pending, hphase, history⟩ := h
  cases hidle : session.ctx.isIdle with
  | false =>
    obtain ⟨size, hcall⟩ := dlGetInfo_of_not_idle extractors hidle id onComplete
    rw [hcall]
    exact ⟨pending, hphase.append_newVideo hidle id onComplete size _,
      history.append_newVideo id onComplete _ size⟩
  | true =>
    cases hphase with
    | unconnected quiet connected notIdle => simp [notIdle] at hidle
    | watch video videos watch => simp [watch.notIdle] at hidle
    | player video videos player => simp [player.notIdle] at hidle
    | idle quiet connected idle empty =>
      exact invariant_dlWake
        { quiet with waiting := waiting_append_newVideo quiet.waiting [(id, onComplete)] }
        connected idle (history.append_newVideo id onComplete _ _)

/-- Connecting keeps the invariant. -/
theorem invariant_connectedCb (h : Invariant extractors players session)
    (hconnected : session.ctx.isConnected = false) :
    Invariant extractors players (connectedCb session) := by
  obtain ⟨pending, hphase, history⟩ := h
  cases hphase with
  | unconnected quiet connected notIdle =>
    exact invariant_dlWake { quiet with } rfl rfl { history with }
  | idle quiet connected idle empty => simp [connected] at hconnected
  | watch video videos watch => simp [watch.connected] at hconnected
  | player video videos player => simp [player.connected] at hconnected

/-- A body fragment keeps the invariant. -/
theorem invariant_bodyEvent (h : Invariant extractors players session)
    (houtstanding : session.outstanding ≠ []) (fragment : Bytes) :
    Invariant extractors players (bodyEvent fragment session) := by
  obtain ⟨pending, hphase, history⟩ := h
  cases hphase with
  | unconnected quiet connected notIdle => exact absurd quiet.outstanding houtstanding
  | idle quiet connected idle empty => exact absurd quiet.outstanding houtstanding
  | watch video videos watch =>
    rw [bodyEvent_watchBody watch.onBody watch.queue]
    refine ⟨[], .watch { video with response := video.response.append fragment } videos ?_, ?_⟩
    · exact
        { watch with
          queue := rfl
          response := by simp [Buf.append, watch.response] }
    · have hordered := history.ordered
      rw [watch.queue] at hordered
      exact { history with ordered := by simpa [callOf] using hordered }
  | player video videos player =>
    rw [bodyEvent_playerBody player.onBody]
    refine ⟨[documentOf video], .player video videos ?_, { history with }⟩
    exact { player with playerJs := by simp [Buf.append, player.playerJs] }

/-! ### The end of an answer -/

/-- The history after the first video has been completed, with the calls of `on_complete`. -/
theorem History.complete (history : History extractors players session [documentOf video])
    (hvideos : session.ctx.videos = video :: videos)
    (hinfo : video.info = pageInfo extractors extractors.infoCtxInit video.response.bytes)
    {sigActions : Sig}
    (hplayer :
      session.ctx.playerMap.lookup (extractors.playerUrl video.info) = some sigActions)
    {nested : List (Id × Callback)} {effects : List (Effect Id Info Sig Callback)}
    (hgetInfos : getInfos effects = nested) (hsilent : Silent effects) (size : ℕ)
    (isIdle : Bool) :
    History extractors players
      { session with
        ctx :=
          { session.ctx with
            videos := videos ++ nested.map fun call ↦ newVideo extractors call.1 call.2
            size := size
            isIdle := isIdle }
        trace :=
          session.trace ++ [.complete { video with sigActions := some sigActions }] ++
            effects } [] where
  ordered := by
    have hordered := history.ordered
    rw [hvideos] at hordered
    simp only [completed_append, getInfos_append, hsilent.completed, hgetInfos, ← hordered,
      List.map_append, map_callOf_newVideo]
    simp [callOf]
  answered := by
    rw [requests_append, requests_append, answers_append, answers_append, hsilent.requests,
      hsilent.answers, history.answered]
    simp
  documents := by
    calc
      watchPages (session.trace ++ [.complete { video with sigActions := some sigActions }] ++
            effects) = watchPages session.trace := by
        rw [watchPages_append, watchPages_append, watchPages_silent hsilent]
        simp
      _ = (completed session.trace).map documentOf ++ [documentOf video] := history.documents
      _ = (completed (session.trace ++ [.complete { video with sigActions := some sigActions }] ++
            effects)).map documentOf ++ [] := by
        rw [completed_append, completed_append, hsilent.completed]
        simp [documentOf]
  learned := by
    rw [playerScripts_append, playerScripts_append, playerScripts_silent hsilent]
    simpa using history.learned
  distinct := history.distinct
  served := by
    intro served hserved
    rw [completed_append, completed_append, hsilent.completed, List.append_nil] at hserved
    obtain hold | hnew := List.mem_append.mp hserved
    · exact history.served served hold
    · obtain rfl := List.mem_singleton.mp hnew
      exact ⟨hinfo, by simp [hplayer], hplayer.symm⟩

/-- The first video has its page and its player, and nothing is outstanding. -/
structure Complete (extractors : Extractors Info Sig) (session : Session Id Info Sig Callback)
    (video : Video Id Info Sig Callback) (videos : List (Video Id Info Sig Callback))
    (sigActions : Sig) : Prop where
  connected : session.ctx.isConnected = true
  notIdle : session.ctx.isIdle = false
  queue : session.ctx.videos = video :: videos
  outstanding : session.outstanding = []
  fragments : session.fragments = []
  playerJs : session.ctx.playerJs.bytes = []
  info : video.info = pageInfo extractors extractors.infoCtxInit video.response.bytes
  player : session.ctx.playerMap.lookup (extractors.playerUrl video.info) = some sigActions
  waiting : ∀ later ∈ videos, Waiting extractors later

/-- Finalising keeps the invariant, whatever `on_complete` calls. -/
theorem invariant_dlFinalize (video : Video Id Info Sig Callback)
    (videos : List (Video Id Info Sig Callback)) {sigActions : Sig}
    (complete : Complete extractors session video videos sigActions)
    (history : History extractors players session [documentOf video])
    (nested : List (Id × Callback)) :
    Invariant extractors players (dlFinalize extractors sigActions nested session) := by
  obtain ⟨size, effects, heq, hgetInfos, hsilent⟩ :=
    dlFinalize_cons extractors complete.notIdle complete.queue sigActions nested
  have hquiet := waiting_append_newVideo complete.waiting nested
  rw [heq]
  exact invariant_dlWake
    ⟨complete.outstanding, complete.fragments, complete.playerJs, hquiet⟩
    complete.connected rfl
    (history.complete complete.queue complete.info complete.player hgetInfos hsilent size true)

/-- The history once the watch page of `video` has been received and extracted. -/
theorem History.page (history : History extractors players session [])
    (hvideos : session.ctx.videos = video :: videos)
    (houtstanding : session.outstanding = [.watchHtml video.id])
    (hresponse : video.response.bytes = session.fragments.flatten) (info : Info) :
    History extractors players
      { session with
        ctx := { session.ctx with videos := { video with info := info } :: videos }
        outstanding := []
        fragments := []
        trace := session.trace ++ [.answered (.watchHtml video.id) session.fragments] }
      [documentOf video] where
  ordered := by
    have hordered := history.ordered
    rw [hvideos] at hordered
    rw [completed_append, getInfos_append, ← hordered]
    simp [callOf]
  answered := by
    rw [requests_append, answers_append, history.answered, houtstanding]
    simp
  documents := by
    rw [watchPages_append, completed_append, history.documents]
    simp [documentOf, hresponse]
  learned := by
    rw [playerScripts_append]
    simpa using history.learned
  distinct := history.distinct
  served := by simpa using history.served

/-- A key that a list does not hold is not among its keys. -/
theorem notMem_keys_of_lookup_eq_none {map : List (Bytes × Sig)} {key : Bytes}
    (h : map.lookup key = none) : key ∉ map.map Prod.fst := by
  intro hmem
  obtain ⟨entry, hentry, rfl⟩ := List.mem_map.mp hmem
  have hkey := List.lookup_eq_none_iff.mp h entry hentry
  simp at hkey

/-- The history once the player script for `video` has been received and put in the map. -/
theorem History.script (history : History extractors players session [documentOf video])
    {path : Bytes} (houtstanding : session.outstanding = [.playerJs path])
    (hunknown : session.ctx.playerMap.lookup path = none) (playerJs : Buf) :
    History extractors players
      { session with
        ctx :=
          { session.ctx with
            playerMap := session.ctx.playerMap ++
              [(path, (extractors.sigActionsExtract session.fragments.flatten).2)]
            playerJs := playerJs }
        outstanding := []
        fragments := []
        trace := session.trace ++ [.answered (.playerJs path) session.fragments] }
      [documentOf video] where
  ordered := by
    rw [completed_append, getInfos_append, ← history.ordered]
    simp
  answered := by
    rw [requests_append, answers_append, history.answered, houtstanding]
    simp
  documents := by
    rw [watchPages_append, completed_append, history.documents]
    simp
  learned := by
    rw [playerScripts_append, history.learned]
    simp
  distinct := by
    intro hdistinct
    rw [List.map_append, List.nodup_append]
    refine ⟨history.distinct hdistinct, by simp, ?_⟩
    intro old hold new hnew
    obtain rfl := List.mem_singleton.mp hnew
    exact fun heq ↦ notMem_keys_of_lookup_eq_none hunknown (heq ▸ hold)
  served := by
    intro served hserved
    rw [completed_append] at hserved
    have hold := history.served served (by simpa using hserved)
    obtain ⟨sigActions, hsome⟩ := Option.isSome_iff_exists.mp hold.known
    have hkept : (session.ctx.playerMap ++
        [(path, (extractors.sigActionsExtract session.fragments.flatten).2)]).lookup
          (extractors.playerUrl served.info) = some sigActions := by
      rw [List.lookup_append, hsome, Option.some_or]
    exact ⟨hold.info, by simp [hkept], by rw [hold.sigActions, hsome, hkept]⟩

/-- The history once a player script has been requested. -/
theorem History.request (history : History extractors players session pending)
    (request : Request Id) (onBody : BodyCb) (onMessageComplete : MessageCompleteCb) :
    History extractors players
      { session with
        ctx := { session.ctx with onBody := onBody, onMessageComplete := onMessageComplete }
        outstanding := session.outstanding ++ [request]
        trace := session.trace ++ [.request request] } pending where
  ordered := by simpa using history.ordered
  answered := by
    rw [requests_append, answers_append, history.answered]
    simp
  documents := by simpa using history.documents
  learned := by simpa using history.learned
  distinct := history.distinct
  served := by simpa using history.served

/-- A usable watch page keeps the invariant: its video is completed, or its player is requested. -/
theorem invariant_watchPage (watch : InWatch extractors session video videos)
    (history : History extractors players session [])
    (husable : PageUsable extractors extractors.infoCtxInit session.fragments.flatten)
    (nested : List (Id × Callback)) :
    Invariant extractors players
      (messageEvent extractors nested (.watchHtml video.id) [] session) := by
  have hpage : PageUsable extractors video.info video.response.bytes := by
    rwa [watch.info, watch.response]
  have hinfo : pageInfo extractors video.info video.response.bytes =
      pageInfo extractors extractors.infoCtxInit video.response.bytes := by rw [watch.info]
  have hqueue : (answeredSession session (.watchHtml video.id) []).ctx.videos = video :: videos :=
    watch.queue
  have hhistory := history.page watch.queue watch.outstanding watch.response
    (pageInfo extractors video.info video.response.bytes)
  rw [messageEvent_watchHtml watch.onMessageComplete]
  cases hplayer : session.ctx.playerMap.lookup
      (extractors.playerUrl (pageInfo extractors video.info video.response.bytes)) with
  | some sigActions =>
    rw [watchHtmlComplete_known hqueue hpage hplayer]
    refine invariant_dlFinalize
      { video with info := pageInfo extractors video.info video.response.bytes } videos ?_
      hhistory nested
    exact
      { connected := watch.connected
        notIdle := watch.notIdle
        queue := rfl
        outstanding := rfl
        fragments := rfl
        playerJs := watch.playerJs
        info := hinfo
        player := hplayer
        waiting := watch.waiting }
  | none =>
    rw [watchHtmlComplete_unknown hqueue hpage hplayer]
    refine ⟨[documentOf video], .player
      { video with info := pageInfo extractors video.info video.response.bytes } videos ?_,
      hhistory.request _ _ _⟩
    exact
      { connected := watch.connected
        notIdle := watch.notIdle
        queue := rfl
        outstanding := rfl
        onBody := rfl
        onMessageComplete := rfl
        info := hinfo
        unknown := hplayer
        playerJs := watch.playerJs
        waiting := watch.waiting }

/-- A usable player script keeps the invariant: its video is completed. -/
theorem invariant_playerScript (player : InPlayer extractors session video videos)
    (history : History extractors players session [documentOf video])
    (husable : (extractors.sigActionsExtract session.fragments.flatten).1 = 0)
    (nested : List (Id × Callback)) :
    Invariant extractors players
      (messageEvent extractors nested (.playerJs (extractors.playerUrl video.info)) []
        session) := by
  have hqueue : (answeredSession session
      (.playerJs (extractors.playerUrl video.info)) []).ctx.videos = video :: videos := player.queue
  have hplayerJs : (answeredSession session
      (.playerJs (extractors.playerUrl video.info)) []).ctx.playerJs.bytes =
        session.fragments.flatten := player.playerJs
  have hscript := husable
  rw [← hplayerJs] at hscript
  rw [messageEvent_playerJs player.onMessageComplete,
    playerJsComplete_unknown hqueue hscript player.unknown, hplayerJs]
  refine invariant_dlFinalize video videos ?_
    (history.script player.outstanding player.unknown session.ctx.playerJs.clear) nested
  exact
    { connected := player.connected
      notIdle := player.notIdle
      queue := player.queue
      outstanding := rfl
      fragments := rfl
      playerJs := rfl
      info := player.info
      player := by simp [List.lookup_append, player.unknown]
      waiting := player.waiting }

/-- **The step lemma.** Every step whose answer is usable keeps the invariant. -/
theorem invariant_step {event : Event Id Callback} {next : Session Id Info Sig Callback}
    (h : Invariant extractors players session)
    (husable : UsableAnswer extractors session event next)
    (hstep : step extractors session event = some next) : Invariant extractors players next := by
  cases event with
  | getInfo id onComplete =>
    obtain rfl := Option.some.inj hstep
    exact invariant_dlGetInfo h id onComplete
  | connected =>
    obtain ⟨hconnected, rfl⟩ := step_connected hstep
    exact invariant_connectedCb h hconnected
  | body fragment =>
    obtain ⟨houtstanding, rfl⟩ := step_body hstep
    exact invariant_bodyEvent h houtstanding fragment
  | messageComplete nested =>
    obtain ⟨pending, hphase, history⟩ := h
    cases hphase with
    | unconnected quiet connected notIdle => simp [step, quiet.outstanding] at hstep
    | idle quiet connected idle empty => simp [step, quiet.outstanding] at hstep
    | watch video videos watch =>
      obtain rfl : messageEvent extractors nested (.watchHtml video.id) [] session = next := by
        simpa [step, watch.outstanding] using hstep
      refine invariant_watchPage watch history ?_ nested
      simpa [UsableAnswer, watch.outstanding, Usable] using husable
    | player video videos player =>
      obtain rfl : messageEvent extractors nested
          (.playerJs (extractors.playerUrl video.info)) [] session = next := by
        simpa [step, player.outstanding] using hstep
      refine invariant_playerScript player history ?_ nested
      simpa [UsableAnswer, player.outstanding, Usable] using husable

end Steps

end LibYtdl.Dl.InfoPhase
