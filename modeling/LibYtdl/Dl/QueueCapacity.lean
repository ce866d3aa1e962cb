import LibYtdl.Dl.InfoQueue

/-!
# The capacity of the info queue

The queue's array starts with one slot, and is to grow by half when it is full. Half of one is
truncated away: the array never grows, in any run. The slots accessed stay inside the array exactly
as long as every call of `ytdl_dl_get_info` finds the queue empty. A call made inside `on_complete`
never does, since the completed video is removed afterwards.
-/

namespace LibYtdl.Dl.QueueCapacity

open InfoQueue Machine Transition

variable {Id Info Sig Callback : Type}

/-- The queue fits its array, and so did every slot accessed. -/
structure Fits (session : Session Id Info Sig Callback) : Prop where
  length : session.ctx.videos.length ≤ session.ctx.size
  slots : ∀ access ∈ slots session.trace, access.1 < access.2

/-- The answer that ends now completes the first video. -/
def Finalizes (extractors : Extractors Info Sig) (session : Session Id Info Sig Callback) : Prop :=
  match session.ctx.videos, session.ctx.onMessageComplete with
  | [], _ => False
  | video :: _, .watchHtmlComplete =>
    PageUsable extractors video.info video.response.bytes ∧
      (session.ctx.playerMap.lookup
        (extractors.playerUrl (pageInfo extractors video.info video.response.bytes))).isSome
  | video :: _, .playerJsComplete =>
    (extractors.sigActionsExtract session.ctx.playerJs.bytes).1 = 0 ∧
      session.ctx.playerMap.lookup (extractors.playerUrl video.info) = none

/-- Every call of `ytdl_dl_get_info` in the step finds the queue empty. -/
def FindsEmpty (extractors : Extractors Info Sig) (session : Session Id Info Sig Callback)
    (event : Event Id Callback) (_ : Session Id Info Sig Callback) : Prop :=
  match event with
  | .getInfo _ _ => session.ctx.videos = []
  | .messageComplete nested => Finalizes extractors session → nested = []
  | _ => True

/-! ## Steps that leave the queue alone -/

/-- The queue keeps its length and its array, and no slot is accessed. -/
structure SameQueue (session next : Session Id Info Sig Callback) : Prop where
  length : next.ctx.videos.length = session.ctx.videos.length
  size : next.ctx.size = session.ctx.size
  slots : slots next.trace = slots session.trace

section

variable {extractors : Extractors Info Sig} {session next : Session Id Info Sig Callback}
  {video : Video Id Info Sig Callback} {videos : List (Video Id Info Sig Callback)}

theorem SameQueue.fits (hsame : SameQueue session next) (h : Fits session) : Fits next where
  length := by
    rw [hsame.length, hsame.size]
    exact h.length
  slots := by
    rw [hsame.slots]
    exact h.slots

theorem sameQueue_connectedCb : SameQueue session (connectedCb session) := by
  constructor <;> simp [connectedCb]

theorem sameQueue_bodyEvent (fragment : Bytes) :
    SameQueue session (bodyEvent fragment session) := by
  cases honBody : session.ctx.onBody with
  | watchBody =>
    cases hvideos : session.ctx.videos with
    | nil =>
      constructor <;>
        simp [bodyEvent, honBody, watchBodyCb, hvideos, Session.emit]
    | cons video videos =>
      rw [bodyEvent_watchBody honBody hvideos]
      exact ⟨by simp [hvideos], rfl, rfl⟩
  | playerBody =>
    rw [bodyEvent_playerBody honBody]
    exact ⟨rfl, rfl, rfl⟩

theorem finalizes_watchHtml (hvideos : session.ctx.videos = video :: videos)
    (hhandler : session.ctx.onMessageComplete = .watchHtmlComplete) :
    Finalizes extractors session ↔
      PageUsable extractors video.info video.response.bytes ∧
        (session.ctx.playerMap.lookup
          (extractors.playerUrl (pageInfo extractors video.info video.response.bytes))).isSome := by
  simp [Finalizes, hvideos, hhandler]

theorem finalizes_playerJs (hvideos : session.ctx.videos = video :: videos)
    (hhandler : session.ctx.onMessageComplete = .playerJsComplete) :
    Finalizes extractors session ↔
      (extractors.sigActionsExtract session.ctx.playerJs.bytes).1 = 0 ∧
        session.ctx.playerMap.lookup (extractors.playerUrl video.info) = none := by
  simp [Finalizes, hvideos, hhandler]

/-- An answer that completes a video runs `ytdl__dl_finalize` on the queue as it is. -/
theorem messageEvent_finalizes (h : Finalizes extractors session) (nested : List (Id × Callback))
    (request : Request Id) (outstanding : List (Request Id)) :
    ∃ sigActions handed, SameQueue session handed ∧
      messageEvent extractors nested request outstanding session =
        dlFinalize extractors sigActions nested handed := by
  cases hvideos : session.ctx.videos with
  | nil => simp [Finalizes, hvideos] at h
  | cons video videos =>
    have hqueue : (answeredSession session request outstanding).ctx.videos = video :: videos :=
      hvideos
    cases hhandler : session.ctx.onMessageComplete with
    | watchHtmlComplete =>
      obtain ⟨hpage, hplayer⟩ := (finalizes_watchHtml hvideos hhandler).mp h
      obtain ⟨sigActions, hlookup⟩ := Option.isSome_iff_exists.mp hplayer
      rw [messageEvent_watchHtml hhandler, watchHtmlComplete_known hqueue hpage hlookup]
      refine ⟨sigActions, _, ?_, rfl⟩
      exact ⟨by simp [hvideos], rfl, by simp [answeredSession]⟩
    | playerJsComplete =>
      obtain ⟨hscript, hplayer⟩ := (finalizes_playerJs hvideos hhandler).mp h
      rw [messageEvent_playerJs hhandler, playerJsComplete_unknown hqueue hscript hplayer]
      refine ⟨_, _, ?_, rfl⟩
      exact ⟨rfl, rfl, by simp [answeredSession]⟩

/-- Any other answer leaves the queue alone. -/
theorem sameQueue_messageEvent (h : ¬ Finalizes extractors session)
    (nested : List (Id × Callback)) (request : Request Id) (outstanding : List (Request Id)) :
    SameQueue session (messageEvent extractors nested request outstanding session) := by
  cases hvideos : session.ctx.videos with
  | nil =>
    cases hhandler : session.ctx.onMessageComplete <;> constructor <;>
      simp [messageEvent, hhandler, watchHtmlComplete, playerJsComplete, hvideos, Session.emit,
        slots]
  | cons video videos =>
    have hqueue : (answeredSession session request outstanding).ctx.videos = video :: videos :=
      hvideos
    cases hhandler : session.ctx.onMessageComplete with
    | watchHtmlComplete =>
      have hnot := mt (finalizes_watchHtml hvideos hhandler).mpr h
      rw [messageEvent_watchHtml hhandler]
      by_cases hpage : PageUsable extractors video.info video.response.bytes
      · have hplayer := Option.not_isSome_iff_eq_none.mp (not_and.mp hnot hpage)
        rw [watchHtmlComplete_unknown hqueue hpage hplayer]
        exact ⟨by simp [hvideos], rfl, by simp [answeredSession]⟩
      · obtain ⟨info, report, heq⟩ := watchHtmlComplete_unusable hqueue hpage nested
        rw [heq]
        exact ⟨by simp [hvideos], rfl, by simp [answeredSession]⟩
    | playerJsComplete =>
      have hnot := mt (finalizes_playerJs hvideos hhandler).mpr h
      rw [messageEvent_playerJs hhandler]
      by_cases hscript : (extractors.sigActionsExtract session.ctx.playerJs.bytes).1 = 0
      · have hplayer := Option.isSome_iff_ne_none.mpr (not_and.mp hnot hscript)
        rw [playerJsComplete_known hqueue hscript hplayer]
        exact ⟨rfl, rfl, by simp [answeredSession]⟩
      · rw [playerJsComplete_unusable hqueue hscript]
        exact ⟨rfl, rfl, by simp [answeredSession]⟩

/-! ## Calls of `ytdl_dl_get_info` -/

@[simp] theorem dlGetInfo_videos (id : Id) (onComplete : Callback) :
    (dlGetInfo extractors id onComplete session).ctx.videos =
      session.ctx.videos ++ [newVideo extractors id onComplete] := by
  simp [dlGetInfo]

theorem dlGetInfo_size (id : Id) (onComplete : Callback) :
    (dlGetInfo extractors id onComplete session).ctx.size =
      if session.ctx.size = session.ctx.videos.length then grow session.ctx.size
      else session.ctx.size := by
  simp [dlGetInfo]

/-- The slot written, with the size of the array after the growth step. -/
theorem slots_dlGetInfo (id : Id) (onComplete : Callback) :
    slots (dlGetInfo extractors id onComplete session).trace =
      slots session.trace ++
        [(session.ctx.videos.length, (dlGetInfo extractors id onComplete session).ctx.size)] := by
  rw [dlGetInfo_size]
  simp only [dlGetInfo, slots_dlWake, slots_append]
  rfl

theorem grow_one : grow 1 = 1 := rfl

/-- Growing by half leaves an array of one slot as it is. -/
theorem dlGetInfo_size_one (hsize : session.ctx.size = 1) (id : Id) (onComplete : Callback) :
    (dlGetInfo extractors id onComplete session).ctx.size = 1 := by
  rw [dlGetInfo_size, hsize, grow_one, ite_self]

theorem nestedGetInfo_size_one (hsize : session.ctx.size = 1) (nested : List (Id × Callback)) :
    (nestedGetInfo extractors nested session).ctx.size = 1 := by
  induction nested generalizing session with
  | nil => exact hsize
  | cons call nested ih => exact ih (dlGetInfo_size_one hsize call.1 call.2)

/-- The calls only add slots to those accessed before. -/
theorem slots_nestedGetInfo (nested : List (Id × Callback)) :
    slots session.trace <+: slots (nestedGetInfo extractors nested session).trace := by
  induction nested generalizing session with
  | nil => exact List.prefix_rfl
  | cons call nested ih =>
    refine List.IsPrefix.trans ?_ ih
    rw [slots_dlGetInfo]
    exact List.prefix_append _ _

/-! ## Finalising -/

theorem sameQueue_handedSession (hvideos : session.ctx.videos = video :: videos)
    (sigActions : Sig) :
    SameQueue session (handedSession session video videos sigActions) :=
  ⟨by simp [handedSession, hvideos], rfl, by simp [handedSession]⟩

theorem popVideo_videos (session : Session Id Info Sig Callback) :
    (popVideo session).ctx.videos = session.ctx.videos.tail := by
  rw [popVideo_eq, dlWake_videos]

theorem popVideo_size (session : Session Id Info Sig Callback) :
    (popVideo session).ctx.size = session.ctx.size := by
  rw [popVideo_eq, dlWake_size]

theorem slots_popVideo (session : Session Id Info Sig Callback) :
    slots (popVideo session).trace =
      slots session.trace ++
        slots (shiftSlots session.ctx.videos.length session.ctx.size :
          List (Effect Id Info Sig Callback)) := by
  rw [popVideo_eq, slots_dlWake, slots_append]

theorem dlFinalize_size_one (hsize : session.ctx.size = 1) (sigActions : Sig)
    (nested : List (Id × Callback)) :
    (dlFinalize extractors sigActions nested session).ctx.size = 1 := by
  cases hvideos : session.ctx.videos with
  | nil => simpa [dlFinalize, hvideos, Session.emit] using hsize
  | cons video videos =>
    rw [dlFinalize_eq hvideos, popVideo_size]
    exact nestedGetInfo_size_one ((sameQueue_handedSession hvideos sigActions).size.trans hsize)
      nested

/-- Finalising the only video, with no call made inside `on_complete`, shifts no slot. -/
theorem fits_dlFinalize (h : Fits session) (hlength : session.ctx.videos.length ≤ 1)
    (sigActions : Sig) : Fits (dlFinalize extractors sigActions [] session) := by
  cases hvideos : session.ctx.videos with
  | nil =>
    have hsame : SameQueue session (dlFinalize extractors sigActions [] session) := by
      constructor <;> simp [dlFinalize, hvideos, Session.emit]
    exact hsame.fits h
  | cons video videos =>
    have honly : videos = [] := by
      rw [hvideos, List.length_cons] at hlength
      exact List.eq_nil_of_length_eq_zero (by omega)
    subst honly
    have hhanded := (sameQueue_handedSession hvideos sigActions).fits h
    have hempty : (dlFinalize extractors sigActions [] session).ctx.videos = [] := by
      rw [dlFinalize_eq hvideos, popVideo_videos]
      rfl
    refine ⟨by simp [hempty], ?_⟩
    rw [dlFinalize_eq hvideos, slots_popVideo]
    simpa [nestedGetInfo, handedSession, shiftSlots] using hhanded.slots

/-- A call made inside `on_complete` writes past the only slot. -/
theorem not_fits_dlFinalize (hsize : session.ctx.size = 1) (hlength : session.ctx.videos.length = 1)
    (sigActions : Sig) (call : Id × Callback) (nested : List (Id × Callback)) :
    ¬ Fits (dlFinalize extractors sigActions (call :: nested) session) := by
  obtain ⟨video, hvideos⟩ := List.length_eq_one_iff.mp hlength
  intro hfits
  let handed : Session Id Info Sig Callback := handedSession session video [] sigActions
  let called : Session Id Info Sig Callback := dlGetInfo extractors call.1 call.2 handed
  have hmem : (1, 1) ∈ slots called.trace := by
    have hhanded : handed.ctx.size = 1 := hsize
    rw [slots_dlGetInfo, dlGetInfo_size_one hhanded]
    exact List.mem_append_right _ List.mem_cons_self
  have hlater : (1, 1) ∈ slots (nestedGetInfo extractors nested called).trace :=
    (slots_nestedGetInfo nested).subset hmem
  have hfinal := hfits.slots (1, 1) (by
    rw [dlFinalize_eq hvideos, slots_popVideo]
    exact List.mem_append_left _ hlater)
  exact absurd hfinal (Nat.lt_irrefl 1)

/-! ## Runs -/

/-- One slot, and at most one video. -/
structure Single (session : Session Id Info Sig Callback) : Prop where
  size : session.ctx.size = 1
  fits : Fits session

theorem Single.length_le (h : Single session) : session.ctx.videos.length ≤ 1 :=
  h.size ▸ h.fits.length

theorem single_init (players : List (Bytes × Sig)) :
    Single (Session.init players : Session Id Info Sig Callback) :=
  ⟨rfl, by simp [Session.init, dlCtxInit], by simp [Session.init]⟩

/-- A call that finds the queue empty uses the only slot. -/
theorem fits_dlGetInfo (h : Single session) (hempty : session.ctx.videos = []) (id : Id)
    (onComplete : Callback) : Fits (dlGetInfo extractors id onComplete session) := by
  constructor
  · rw [dlGetInfo_videos, hempty, dlGetInfo_size_one h.size]
    exact Nat.le_refl 1
  · rw [slots_dlGetInfo, hempty, dlGetInfo_size_one h.size]
    intro access haccess
    obtain hold | hnew := List.mem_append.mp haccess
    · exact h.fits.slots access hold
    · simp_all

/-- A call that finds a video in the queue overflows the array. -/
theorem not_fits_dlGetInfo (h : Single session) (hne : session.ctx.videos ≠ []) (id : Id)
    (onComplete : Callback) : ¬ Fits (dlGetInfo extractors id onComplete session) := by
  intro hfits
  have hlength := hfits.length
  rw [dlGetInfo_videos, dlGetInfo_size_one h.size, List.length_append] at hlength
  have hpos := List.length_pos_iff.mpr hne
  simp at hlength
  exact hne hlength

/-- No step grows the array. -/
theorem step_size_one {event : Event Id Callback} (hsize : session.ctx.size = 1)
    (hstep : step extractors session event = some next) : next.ctx.size = 1 := by
  cases event with
  | getInfo id onComplete =>
    obtain rfl := Option.some.inj hstep
    exact dlGetInfo_size_one hsize id onComplete
  | connected =>
    obtain ⟨-, rfl⟩ := step_connected hstep
    exact sameQueue_connectedCb.size.trans hsize
  | body fragment =>
    obtain ⟨-, rfl⟩ := step_body hstep
    exact (sameQueue_bodyEvent fragment).size.trans hsize
  | messageComplete nested =>
    obtain ⟨request, outstanding, -, rfl⟩ := step_messageComplete hstep
    by_cases hfinalizes : Finalizes extractors session
    · obtain ⟨sigActions, handed, hsame, heq⟩ :=
        messageEvent_finalizes hfinalizes nested request outstanding
      rw [heq]
      exact dlFinalize_size_one (hsame.size.trans hsize) sigActions nested
    · exact (sameQueue_messageEvent hfinalizes nested request outstanding).size.trans hsize

/-- A step whose calls all find the queue empty keeps the array large enough. -/
theorem fits_step {event : Event Id Callback} (h : Single session)
    (hempty : FindsEmpty extractors session event next)
    (hstep : step extractors session event = some next) : Fits next := by
  cases event with
  | getInfo id onComplete =>
    obtain rfl := Option.some.inj hstep
    exact fits_dlGetInfo h hempty id onComplete
  | connected =>
    obtain ⟨-, rfl⟩ := step_connected hstep
    exact sameQueue_connectedCb.fits h.fits
  | body fragment =>
    obtain ⟨-, rfl⟩ := step_body hstep
    exact (sameQueue_bodyEvent fragment).fits h.fits
  | messageComplete nested =>
    obtain ⟨request, outstanding, -, rfl⟩ := step_messageComplete hstep
    by_cases hfinalizes : Finalizes extractors session
    · obtain ⟨sigActions, handed, hsame, heq⟩ :=
        messageEvent_finalizes hfinalizes nested request outstanding
      obtain rfl : nested = [] := hempty hfinalizes
      rw [heq]
      exact fits_dlFinalize (hsame.fits h.fits) (hsame.length ▸ h.length_le) sigActions
    · exact (sameQueue_messageEvent hfinalizes nested request outstanding).fits h.fits

/-- A step with a call that finds a video in the queue overflows the array. -/
theorem not_fits_step {event : Event Id Callback} (h : Single session)
    (hfull : ¬ FindsEmpty extractors session event next)
    (hstep : step extractors session event = some next) : ¬ Fits next := by
  cases event with
  | getInfo id onComplete =>
    obtain rfl := Option.some.inj hstep
    exact not_fits_dlGetInfo h hfull id onComplete
  | connected => exact absurd trivial hfull
  | body fragment => exact absurd trivial hfull
  | messageComplete nested =>
    obtain ⟨hfinalizes, hnested⟩ := Classical.not_imp.mp hfull
    obtain ⟨request, outstanding, -, rfl⟩ := step_messageComplete hstep
    obtain ⟨sigActions, handed, hsame, heq⟩ :=
      messageEvent_finalizes hfinalizes nested request outstanding
    obtain ⟨call, rest, rfl⟩ := List.exists_cons_of_ne_nil hnested
    have hne : session.ctx.videos ≠ [] := fun hnil ↦ by simp [Finalizes, hnil] at hfinalizes
    have hone : handed.ctx.videos.length = 1 := by
      rw [hsame.length]
      exact Nat.le_antisymm h.length_le (List.length_pos_iff.mpr hne)
    rw [heq]
    exact not_fits_dlFinalize (hsame.size.trans h.size) hone sigActions call rest

end

/-- The array has one slot in every state of every run. -/
theorem size_always_one (extractors : Extractors Info Sig) (players : List (Bytes × Sig))
    (events : List (Event Id Callback)) :
    Always (step extractors) (fun session ↦ session.ctx.size = 1) (Session.init players)
      events := by
  refine always_of_invariant ?_ rfl (each_of_forall (fun _ _ _ ↦ trivial) _ _)
  exact fun session event next hsize _ hstep ↦ step_size_one hsize hstep

/-- **Capacity.** Along every run, the queue and the slots accessed stay inside the array exactly
when every call of `ytdl_dl_get_info` finds the queue empty. -/
theorem fits_iff_findsEmpty (extractors : Extractors Info Sig) (players : List (Bytes × Sig))
    (events : List (Event Id Callback)) :
    Always (step extractors) Fits (Session.init players) events ↔
      Each (step extractors) (FindsEmpty extractors) (Session.init players) events := by
  refine always_iff_each (fun session (h : Single session) ↦ h.fits) ?_ ?_ (single_init players)
    (each_of_forall (fun _ _ _ ↦ trivial) _ _)
  · exact fun session event next h _ hempty hstep ↦
      ⟨step_size_one h.size hstep, fits_step h hempty hstep⟩
  · exact fun session event next h _ hfull hstep ↦ not_fits_step h hfull hstep

/-- Pages and scripts that always extract. -/
def playable : Extractors Unit Unit where
  infoCtxInit := ()
  extractWatchHtml := fun info _ ↦ (0, info)
  getPlayabilityStatus := fun info ↦ (0, info)
  getPlayabilityStatusMessage := fun _ ↦ []
  playerUrl := fun _ ↦ []
  sigActionsExtract := fun _ ↦ (0, ())

/-- The second of two calls on a fresh queue writes to the second slot of an array of one. -/
theorem secondCall_overflows :
    ¬ Always (step playable) Fits (Session.init [] : Session ℕ Unit Unit Unit)
      [.getInfo 1 (), .getInfo 2 ()] := by
  intro halways
  have hfits := halways.last rfl
  exact absurd hfits.length (by decide)

end LibYtdl.Dl.QueueCapacity
