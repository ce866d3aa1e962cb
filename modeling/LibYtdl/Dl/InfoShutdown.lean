import LibYtdl.Http.Connection
import LibYtdl.Dl.InfoServer

/-!
# The end of the info queue

`ytdl_dl_shutdown` starts an idle handle, and what the context holds is released when the handle
runs. The connection is closed there only when it was made: one that is still being set up goes on,
and its callback finds the queue that was released.
-/

namespace LibYtdl.Dl.InfoShutdown

open Machine Transition Http.Connection InfoPhase InfoQueue InfoServer

variable {Id Info Sig Callback : Type}

/-- What the context holds in memory of its own. -/
inductive Owned (Id Info Sig Callback : Type)
  | playerJs
  | player (playerPath : Bytes) (sigActions : Sig)
  | playerMap
  | video (video : Video Id Info Sig Callback)
  | queue

/-- What a callback reads of it. -/
inductive Use
  | playerJs
  | playerMap
  | video
  | queue
  deriving DecidableEq, Repr

/-- A context from its initialization to the end: the connection of its client, the idle handles
that `ytdl_dl_shutdown` has started, what was released, and what callbacks have read after that. -/
structure Life (Id Info Sig Callback : Type) where
  session : Session Id Info Sig Callback
  connection : Phase
  idles : ℕ
  released : List (Owned Id Info Sig Callback)
  uses : List Use

/-- The idle step has run. -/
def Life.isReleased (life : Life Id Info Sig Callback) : Bool := !life.released.isEmpty

/-! ## The functions of `dl.c` -/

/-- What `ytdl__dl_shutdown` releases, in this order. -/
def releases (ctx : Ctx Id Info Sig Callback) : List (Owned Id Info Sig Callback) :=
  .playerJs :: ctx.playerMap.map (fun player ↦ .player player.1 player.2) ++
    .playerMap :: ctx.videos.map .video ++ [.queue]

/-- `ytdl__dl_shutdown`. -/
def dlShutdown (life : Life Id Info Sig Callback) : Life Id Info Sig Callback :=
  let ctx := life.session.ctx
  { life with
    connection := if ctx.isConnected then life.connection.shutDown else life.connection
    idles := life.idles - 1
    released := life.released ++ releases ctx
    uses :=
      if life.isReleased then
        life.uses ++ .playerJs :: .playerMap :: .queue :: ctx.videos.map fun _ ↦ .video
      else
        life.uses }

/-- What the callback of the end of a response reads. -/
def messageUses (extractors : Extractors Info Sig) (ctx : Ctx Id Info Sig Callback) : List Use :=
  match ctx.videos with
  | [] => [.queue]
  | video :: _ =>
    match ctx.onMessageComplete with
    | .watchHtmlComplete =>
      if PageUsable extractors video.info video.response.bytes then [.queue, .video, .playerMap]
      else [.queue, .video]
    | .playerJsComplete =>
      if (extractors.sigActionsExtract ctx.playerJs.bytes).1 = 0 then
        [.queue, .video, .playerJs, .playerMap]
      else
        [.queue, .video, .playerJs]

/-- What the callbacks read: `ytdl__connected_cb` through `ytdl__dl_wake` the length of the queue
and the first video, the parser callbacks the first video or the buffer of the script. -/
def callbackUses (extractors : Extractors Info Sig) (ctx : Ctx Id Info Sig Callback) :
    InfoQueue.Event Id Callback → List Use
  | .getInfo _ _ => [.queue]
  | .connected => if ctx.videos.isEmpty then [.queue] else [.queue, .video]
  | .body _ =>
    match ctx.onBody with
    | .watchBody => [.queue, .video]
    | .playerBody => [.playerJs]
  | .messageComplete _ => messageUses extractors ctx

/-- A function of the queue runs. -/
def Life.react (extractors : Extractors Info Sig) (life : Life Id Info Sig Callback)
    (event : InfoQueue.Event Id Callback) : Option (Life Id Info Sig Callback) :=
  (serverStep extractors life.session event).map fun session ↦
    { life with
      session := session
      uses :=
        if life.isReleased then life.uses ++ callbackUses extractors life.session.ctx event
        else life.uses }

/-! ## The event loop -/

/-- The calls of the user, what happens to the connection and on it, and the idle step. A call that
the user makes in a callback comes right after it. -/
inductive Event (Id Callback : Type)
  | getInfo (id : Id) (onComplete : Callback)
  | connect
  | network (event : ClientEvent)
  | body (fragment : Bytes)
  | messageComplete (nested : List (Id × Callback))
  | shutdown
  | idle

/-- The user calls nothing on a context that was released. Responses come while the connection is
up, asked for or not. -/
def step (extractors : Extractors Info Sig) :
    Step (Life Id Info Sig Callback) (Event Id Callback)
  | life, .getInfo id onComplete =>
    if life.isReleased then none else life.react extractors (.getInfo id onComplete)
  | life, .connect =>
    if life.isReleased || !life.connection.connectable then none
    else some { life with connection := httpClientConnect false }
  | life, .network event =>
    (advance life.connection event).bind fun phase ↦
      if event = .ready then ({ life with connection := phase }).react extractors .connected
      else some { life with connection := phase }
  | life, .body fragment =>
    if life.connection = .up then life.react extractors (.body fragment) else none
  | life, .messageComplete nested =>
    if life.connection = .up then life.react extractors (.messageComplete nested) else none
  | life, .shutdown =>
    if life.isReleased then none else some { life with idles := life.idles + 1 }
  | life, .idle => if life.idles = 0 then none else some (dlShutdown life)

attribute [local simp] step

/-- After `ytdl_dl_ctx_init`, with the players of `players` loaded. -/
def Life.init (players : List (Bytes × Sig)) : Life Id Info Sig Callback where
  session := .init players
  connection := .unconnected
  idles := 0
  released := []
  uses := []

/-- The videos among what was released. -/
def releasedVideos (released : List (Owned Id Info Sig Callback)) :
    List (Video Id Info Sig Callback) :=
  released.filterMap fun
    | .video video => some video
    | _ => none

/-- The shutdown of `life` was final: what the context held was released, each once; the video of
every call was released when it was complete or then; and no callback has read any of it since. -/
structure Final (life last : Life Id Info Sig Callback) : Prop where
  released : last.released = releases life.session.ctx
  videos :
    (completed last.session.trace).map callOf ++ (releasedVideos last.released).map callOf =
      getInfos last.session.trace
  unused : last.uses = []

/-! ## The connected bit -/

section Connected

variable {extractors : Extractors Info Sig} {session next : Session Id Info Sig Callback}

@[simp] theorem dlWake_isConnected (session : Session Id Info Sig Callback) :
    (dlWake session).ctx.isConnected = session.ctx.isConnected := by
  obtain heq | ⟨video, videos, -, heq⟩ := dlWake_cases session <;> rw [heq]

@[simp] theorem dlGetInfo_isConnected (id : Id) (onComplete : Callback) :
    (dlGetInfo extractors id onComplete session).ctx.isConnected = session.ctx.isConnected :=
  dlWake_isConnected _

theorem nestedGetInfo_isConnected (nested : List (Id × Callback)) :
    (nestedGetInfo extractors nested session).ctx.isConnected = session.ctx.isConnected := by
  induction nested generalizing session with
  | nil => rfl
  | cons call nested ih => exact ih.trans (dlGetInfo_isConnected call.1 call.2)

theorem dlFinalize_isConnected (sigActions : Sig) (nested : List (Id × Callback)) :
    (dlFinalize extractors sigActions nested session).ctx.isConnected =
      session.ctx.isConnected := by
  cases hvideos : session.ctx.videos with
  | nil => simp [dlFinalize, hvideos, Session.emit]
  | cons video videos =>
    rw [dlFinalize_eq hvideos, popVideo_eq, dlWake_isConnected]
    exact nestedGetInfo_isConnected nested

theorem messageCompleteCb_isConnected (nested : List (Id × Callback)) :
    (messageCompleteCb extractors nested session).ctx.isConnected = session.ctx.isConnected := by
  cases hvideos : session.ctx.videos with
  | nil => simp [messageCompleteCb_nil hvideos, Session.emit]
  | cons video videos =>
    cases hhandler : session.ctx.onMessageComplete with
    | watchHtmlComplete =>
      simp only [messageCompleteCb, hhandler, watchHtmlComplete, hvideos]
      split
      · rfl
      split
      · rfl
      split
      · exact dlFinalize_isConnected _ nested
      · rfl
    | playerJsComplete =>
      simp only [messageCompleteCb, hhandler, playerJsComplete, hvideos]
      split
      · rfl
      split
      · rfl
      · exact dlFinalize_isConnected _ nested

theorem bodyEvent_isConnected (fragment : Bytes) :
    (bodyEvent fragment session).ctx.isConnected = session.ctx.isConnected := by
  cases honBody : session.ctx.onBody with
  | playerBody => rw [bodyEvent_playerBody honBody]
  | watchBody =>
    cases hvideos : session.ctx.videos with
    | nil => simp [bodyEvent, honBody, watchBodyCb, hvideos, Session.emit]
    | cons video videos => rw [bodyEvent_watchBody honBody hvideos]

/-- Only the callback of the connection sets the bit, and no function clears it. -/
theorem serverStep_isConnected {event : InfoQueue.Event Id Callback} (hevent : event ≠ .connected)
    (hstep : serverStep extractors session event = some next) :
    next.ctx.isConnected = session.ctx.isConnected := by
  cases event with
  | getInfo id onComplete =>
    obtain rfl := Option.some.inj hstep
    exact dlGetInfo_isConnected id onComplete
  | connected => exact absurd rfl hevent
  | body fragment =>
    obtain ⟨-, rfl⟩ := serverStep_body hstep
    exact bodyEvent_isConnected fragment
  | messageComplete nested =>
    obtain ⟨-, arrived, hctx, -, -, rfl⟩ := serverStep_messageComplete hstep
    rw [messageCompleteCb_isConnected, hctx]

end Connected

/-! ## Before the idle step -/

section Steps

variable {extractors : Extractors Info Sig} {life next : Life Id Info Sig Callback}

theorem react_eq_some {event : InfoQueue.Event Id Callback}
    (h : life.react extractors event = some next) :
    ∃ session, serverStep extractors life.session event = some session ∧
      next =
        { life with
          session := session
          uses :=
            if life.isReleased then life.uses ++ callbackUses extractors life.session.ctx event
            else life.uses } := by
  obtain ⟨session, hsession, heq⟩ := Option.map_eq_some_iff.mp h
  exact ⟨session, hsession, heq.symm⟩

theorem isReleased_eq_false (h : life.released = []) : life.isReleased = false := by
  simp [Life.isReleased, h]

theorem step_getInfo {id : Id} {onComplete : Callback}
    (h : step extractors life (.getInfo id onComplete) = some next) :
    life.react extractors (.getInfo id onComplete) = some next := by
  cases hreleased : life.isReleased with
  | true => simp [hreleased] at h
  | false => simpa [hreleased] using h

theorem step_connect (h : step extractors life .connect = some next) :
    life.connection.connectable = true ∧ { life with connection := .resolving } = next := by
  cases hreleased : life.isReleased with
  | true => simp [hreleased] at h
  | false => simpa [hreleased, httpClientConnect] using h

/-- A callback of the connection: `ready` runs a function of the queue, the others run none. -/
theorem step_network {event : ClientEvent}
    (h : step extractors life (.network event) = some next) :
    ∃ phase, advance life.connection event = some phase ∧
      (event = .ready ∧
          ({ life with connection := phase }).react extractors .connected = some next ∨
        event ≠ .ready ∧ { life with connection := phase } = next) := by
  obtain ⟨phase, hphase, hnext⟩ := Option.bind_eq_some_iff.mp h
  refine ⟨phase, hphase, ?_⟩
  by_cases hready : event = .ready
  · rw [if_pos hready] at hnext
    exact .inl ⟨hready, hnext⟩
  · rw [if_neg hready] at hnext
    exact .inr ⟨hready, Option.some.inj hnext⟩

theorem step_body {fragment : Bytes} (h : step extractors life (.body fragment) = some next) :
    life.connection = .up ∧ life.react extractors (.body fragment) = some next := by
  simpa using h

theorem step_messageComplete {nested : List (Id × Callback)}
    (h : step extractors life (.messageComplete nested) = some next) :
    life.connection = .up ∧ life.react extractors (.messageComplete nested) = some next := by
  simpa using h

theorem step_shutdown (h : step extractors life .shutdown = some next) :
    life.isReleased = false ∧ { life with idles := life.idles + 1 } = next := by
  simpa using h

theorem step_idle (h : step extractors life .idle = some next) :
    life.idles ≠ 0 ∧ dlShutdown life = next := by
  simpa using h

/-- Before the idle step: no video is lost, the connected bit says whether the connection was made,
and nothing was released. -/
structure Running (life : Life Id Info Sig Callback) : Prop where
  held : Held life.session
  connected : life.session.ctx.isConnected = life.connection.connected
  released : life.released = []
  unused : life.uses = []

theorem running_init (players : List (Bytes × Sig)) :
    Running (Life.init players : Life Id Info Sig Callback) where
  held := rfl
  connected := rfl
  released := rfl
  unused := rfl

/-- A function of the queue other than the callback of the connection. -/
theorem running_react {event : InfoQueue.Event Id Callback} (h : Running life)
    (hreact : life.react extractors event = some next) (hevent : event ≠ .connected) :
    Running next := by
  obtain ⟨session, hsession, rfl⟩ := react_eq_some hreact
  exact
    { held := held_step h.held hsession
      connected := (serverStep_isConnected hevent hsession).trans h.connected
      released := h.released
      unused := by simp [isReleased_eq_false h.released, h.unused] }

theorem running_ready (h : Running life)
    (hreact : ({ life with connection := Phase.up }).react extractors .connected = some next) :
    Running next := by
  obtain ⟨session, hsession, rfl⟩ := react_eq_some hreact
  obtain ⟨-, hconnected⟩ := serverStep_connected hsession
  exact
    { held := held_step h.held hsession
      connected := by
        rw [← hconnected]
        exact dlWake_isConnected _
      released := h.released
      unused := by
        simp only [Life.isReleased, h.released, List.isEmpty_nil, Bool.not_true,
          Bool.false_eq_true, if_false]
        exact h.unused }

theorem running_step {event : Event Id Callback} (h : Running life) (hevent : event ≠ .idle)
    (hstep : step extractors life event = some next) : Running next := by
  cases event with
  | getInfo id onComplete => exact running_react h (step_getInfo hstep) nofun
  | connect =>
    obtain ⟨hconnectable, rfl⟩ := step_connect hstep
    refine ⟨h.held, h.connected.trans ?_, h.released, h.unused⟩
    exact connected_of_connectable hconnectable
  | network event =>
    obtain ⟨phase, hphase, ⟨rfl, hreact⟩ | ⟨hready, rfl⟩⟩ := step_network hstep
    · obtain ⟨-, rfl⟩ := advance_ready hphase
      exact running_ready h hreact
    · refine ⟨h.held, h.connected.trans ?_, h.released, h.unused⟩
      exact (connected_advance hready hphase).symm
  | body fragment => exact running_react h (step_body hstep).2 nofun
  | messageComplete nested => exact running_react h (step_messageComplete hstep).2 nofun
  | shutdown =>
    obtain ⟨-, rfl⟩ := step_shutdown hstep
    exact ⟨h.held, h.connected, h.released, h.unused⟩
  | idle => exact absurd rfl hevent

/-- What was released stays released. -/
theorem released_step {event : Event Id Callback} (hstep : step extractors life event = some next)
    (h : next.released = []) : life.released = [] ∧ event ≠ .idle := by
  cases event with
  | getInfo id onComplete =>
    obtain ⟨session, -, rfl⟩ := react_eq_some (step_getInfo hstep)
    exact ⟨h, nofun⟩
  | connect =>
    obtain ⟨-, rfl⟩ := step_connect hstep
    exact ⟨h, nofun⟩
  | network event =>
    obtain ⟨phase, -, ⟨-, hreact⟩ | ⟨-, rfl⟩⟩ := step_network hstep
    · obtain ⟨session, -, rfl⟩ := react_eq_some hreact
      exact ⟨h, nofun⟩
    · exact ⟨h, nofun⟩
  | body fragment =>
    obtain ⟨session, -, rfl⟩ := react_eq_some (step_body hstep).2
    exact ⟨h, nofun⟩
  | messageComplete nested =>
    obtain ⟨session, -, rfl⟩ := react_eq_some (step_messageComplete hstep).2
    exact ⟨h, nofun⟩
  | shutdown =>
    obtain ⟨-, rfl⟩ := step_shutdown hstep
    exact ⟨h, nofun⟩
  | idle =>
    obtain ⟨-, rfl⟩ := step_idle hstep
    simp [dlShutdown, releases] at h

/-- A context from which nothing was released is running. -/
theorem running_of_run {players : List (Bytes × Sig)} {events : List (Event Id Callback)}
    (hrun : run (step extractors) (Life.init players) events = some life)
    (hreleased : life.released = []) : Running life := by
  have hkept (life : Life Id Info Sig Callback) (event : Event Id Callback)
      (next : Life Id Info Sig Callback) (hlife : life.released = [] → Running life) (_ : True)
      (hstep : step extractors life event = some next) : next.released = [] → Running next := by
    intro hnext
    obtain ⟨hbefore, hevent⟩ := released_step hstep hnext
    exact running_step (hlife hbefore) hevent hstep
  exact run_invariant hkept (fun _ ↦ running_init players)
    (each_of_forall (fun _ _ _ ↦ trivial) _ _) hrun hreleased

/-! ## After it -/

/-- Nothing can happen to the context any more but the end of its connection. -/
structure Settled (life last : Life Id Info Sig Callback) : Prop where
  session : last.session = life.session
  establishing : last.connection.establishing = false
  connected : last.connection.connected = false
  idles : last.idles = 0
  released : last.released = releases life.session.ctx
  unused : last.uses = []

theorem Settled.final {last : Life Id Info Sig Callback} (h : Settled life last)
    (hheld : Held life.session) : Final life last where
  released := h.released
  videos := by
    have hvideos : releasedVideos (releases life.session.ctx) = life.session.ctx.videos := by
      simp [releasedVideos, releases, List.filterMap_append, List.filterMap_map]
    rw [h.session, h.released, hvideos]
    exact hheld
  unused := h.unused

theorem settled_dlShutdown (h : Running life) (hestablishing : life.connection.establishing = false)
    (hidles : life.idles = 1) : Settled life (dlShutdown life) := by
  have hconnected := h.connected
  exact
    { session := rfl
      establishing := by
        simp only [dlShutdown]
        split
        · exact establishing_shutDown hestablishing
        · exact hestablishing
      connected := by
        simp only [dlShutdown]
        split
        · next hbit => exact connected_shutDown (hconnected ▸ hbit)
        · next hbit => exact hconnected ▸ Bool.eq_false_iff.mpr hbit
      idles := by simp [dlShutdown, hidles]
      released := by simp [dlShutdown, h.released]
      unused := by simp [dlShutdown, isReleased_eq_false h.released, h.unused] }

theorem settled_step {last : Life Id Info Sig Callback} {event : Event Id Callback}
    (h : Settled life last) (hstep : step extractors last event = some next) :
    Settled life next := by
  have hreleased : last.isReleased = true := by
    simp [Life.isReleased, h.released, releases]
  have hup : last.connection ≠ .up := by
    intro hup
    simpa [hup, Phase.connected] using h.connected
  cases event with
  | getInfo id onComplete => simp [hreleased] at hstep
  | connect => simp [hreleased] at hstep
  | network event =>
    obtain ⟨phase, hphase, hnext⟩ := step_network hstep
    obtain ⟨hestablishing, hready⟩ := establishing_advance h.establishing hphase
    obtain ⟨hready', -⟩ | ⟨-, rfl⟩ := hnext
    · exact absurd hready' hready
    · exact ⟨h.session, hestablishing, (connected_advance hready hphase).trans h.connected,
        h.idles, h.released, h.unused⟩
  | body fragment => exact absurd (step_body hstep).1 hup
  | messageComplete nested => exact absurd (step_messageComplete hstep).1 hup
  | shutdown => simp [hreleased] at hstep
  | idle => exact absurd h.idles (step_idle hstep).1

/-- Once everything is released, the connection that comes up reads the queue. -/
theorem ready_reads (extractors : Extractors Info Sig) (late : Life Id Info Sig Callback)
    (hphase : late.connection = .handshaking) (hreleased : late.isReleased = true)
    (hconnected : late.session.ctx.isConnected = false) :
    ∃ last, run (step extractors) late [.network .ready] = some last ∧ Use.queue ∈ last.uses := by
  have hsession : serverStep extractors late.session .connected =
      some (connectedCb late.session) := by
    simp [serverStep, hconnected]
  have hlate : Life.isReleased { late with connection := .up } = true := hreleased
  obtain ⟨last, hreact, huses⟩ : ∃ last,
      ({ late with connection := .up }).react extractors .connected = some last ∧
        last.uses = late.uses ++ callbackUses extractors late.session.ctx .connected := by
    simp only [Life.react, hsession, Option.map_some, hlate, if_true]
    exact ⟨_, rfl, rfl⟩
  refine ⟨last, ?_, ?_⟩
  · have hadvance : advance late.connection .ready = some .up := by
      rw [hphase]
      rfl
    simp only [run_cons, step, hadvance, Option.bind_some, if_true, hreact, run_nil]
  · rw [huses]
    apply List.mem_append_right
    simp only [callbackUses]
    split <;> simp

/-- A connection that is being set up comes up in some run. -/
theorem setup_reads (extractors : Extractors Info Sig) {late : Life Id Info Sig Callback}
    (hestablishing : late.connection.establishing = true) (hreleased : late.isReleased = true)
    (hconnected : late.session.ctx.isConnected = false) :
    ∃ more last, run (step extractors) late more = some last ∧ Use.queue ∈ last.uses := by
  cases hphase : late.connection with
  | handshaking => exact ⟨_, ready_reads extractors late hphase hreleased hconnected⟩
  | connecting =>
    obtain ⟨last, hrun, huses⟩ :=
      ready_reads extractors { late with connection := .handshaking } rfl hreleased hconnected
    refine ⟨[.network .tcpConnected, .network .ready], last, ?_, huses⟩
    rw [run_cons, step, hphase]
    exact hrun
  | resolving =>
    obtain ⟨last, hrun, huses⟩ :=
      ready_reads extractors { late with connection := .handshaking } rfl hreleased hconnected
    refine ⟨[.network .resolved, .network .tcpConnected, .network .ready], last, ?_, huses⟩
    rw [run_cons, step, hphase]
    exact hrun
  | _ => simp [hphase, Phase.establishing] at hestablishing

end Steps

/-- What the idle step needs to be final: the connection is not being set up, and this is the idle
step of the only call of `ytdl_dl_shutdown`. -/
structure Undisturbed (life : Life Id Info Sig Callback) : Prop where
  established : life.connection.establishing = false
  single : life.idles = 1
  first : life.released = []

/-- **The shutdown of the info queue.** Let the idle step run in any state that a run reaches. What
the context holds is released exactly once, and no later callback reads it, whatever happens then,
exactly when the connection is not being set up at that point and `ytdl_dl_shutdown` was called
once. -/
theorem infoShutdown_final_iff (extractors : Extractors Info Sig) (players : List (Bytes × Sig))
    (events : List (Event Id Callback)) (life next : Life Id Info Sig Callback)
    (hrun : run (step extractors) (Life.init players) events = some life)
    (hidle : step extractors life .idle = some next) :
    (∀ more last, run (step extractors) next more = some last → Final life last) ↔
      Undisturbed life := by
  obtain ⟨hidles, rfl⟩ := step_idle hidle
  constructor
  · intro hfinal
    have hfirst : life.released = [] := by
      simpa [dlShutdown] using (hfinal [] _ rfl).released
    have hrunning := running_of_run hrun hfirst
    have hreleased : (dlShutdown life).isReleased = true := by
      simp [Life.isReleased, dlShutdown, releases]
    refine ⟨?_, ?_, hfirst⟩
    · by_contra hestablishing
      rw [Bool.not_eq_false] at hestablishing
      have hconnected : life.session.ctx.isConnected = false :=
        hrunning.connected.trans (connected_of_establishing hestablishing)
      have hlate : (dlShutdown life).connection = life.connection := by
        simp [dlShutdown, hconnected]
      obtain ⟨more, last, hmore, huses⟩ :=
        setup_reads extractors (hlate ▸ hestablishing) hreleased hconnected
      simp [(hfinal more last hmore).unused] at huses
    · by_contra hsingle
      have hpending : (dlShutdown life).idles ≠ 0 := by
        simp only [dlShutdown]
        omega
      have hagain : run (step extractors) (dlShutdown life) [.idle] =
          some (dlShutdown (dlShutdown life)) := by
        simp [hpending]
      have htwice := (hfinal [.idle] _ hagain).released
      simp [dlShutdown, hfirst, releases] at htwice
  · intro hundisturbed more last hmore
    have hrunning := running_of_run hrun hundisturbed.first
    have hsettled := settled_dlShutdown hrunning hundisturbed.established hundisturbed.single
    apply Settled.final _ hrunning.held
    exact run_invariant (fun _ _ _ h _ hstep ↦ settled_step h hstep) hsettled
      (each_of_forall (fun _ _ _ ↦ trivial) _ _ : Each _ (fun _ _ _ ↦ True) _ _) hmore

/-- A shutdown while a video is being looked up. -/
def inFlight : List (Event ℕ Unit) :=
  [.getInfo 7 (), .connect, .network .resolved, .network .tcpConnected, .network .ready,
    .body [60], .shutdown]

theorem inFlight_final :
    ∃ life next,
      run (step QueueCapacity.playable) (Life.init [] : Life ℕ Unit Unit Unit) inFlight =
          some life ∧
        step QueueCapacity.playable life .idle = some next ∧
        ∀ more last, run (step QueueCapacity.playable) next more = some last → Final life last := by
  refine ⟨_, _, rfl, rfl, ?_⟩
  exact (infoShutdown_final_iff QueueCapacity.playable [] inFlight _ _ rfl rfl).mpr ⟨rfl, rfl, rfl⟩

/-- A shutdown while the host is being looked up: the connection is made all the same, and its
callback requests the watch page of the first video, which was released. -/
theorem lookup_not_final :
    ∃ life next last,
      run (step QueueCapacity.playable) (Life.init [] : Life ℕ Unit Unit Unit)
          [.getInfo 7 (), .connect, .shutdown] = some life ∧
        step QueueCapacity.playable life .idle = some next ∧
        run (step QueueCapacity.playable) next
          [.network .resolved, .network .tcpConnected, .network .ready] = some last ∧
        ¬ Final life last := by
  refine ⟨_, _, _, rfl, rfl, rfl, fun hfinal ↦ ?_⟩
  exact absurd hfinal.unused (by decide)

end LibYtdl.Dl.InfoShutdown
