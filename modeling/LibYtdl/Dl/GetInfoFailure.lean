import LibYtdl.Dl.InfoQueue

/-!
# A call that runs out of memory

`ytdl_dl_get_info` allocates up to three times: when the queue is full its array is reallocated,
then the video is allocated, then the buffer for its response. The pointer to the array is
overwritten by the result, the pointer to the video is used unchecked, and the length is incremented
before the buffer is there. None of the three failures leaves the queue as it was.
-/

namespace LibYtdl.Dl.GetInfoFailure

open InfoQueue Transition

variable {Id Info Sig Callback : Type}

/-- Which allocations of a call succeed: the array of the queue, the video and its response. -/
structure Allocs where
  queue : Bool
  video : Bool
  response : Bool

/-- What a call leaves behind. Without its array the queue has a length, but no videos. -/
structure Called (Id Info Sig Callback : Type) where
  ret : ℤ
  hasArray : Bool
  session : Session Id Info Sig (Option Callback)

/-- A video with its id only. Its response has a size but no memory, its `info` is whatever the
memory held, and there is no callback. -/
def halfVideo (garbage : Info) (id : Id) : Video Id Info Sig (Option Callback) where
  id := id
  info := garbage
  response := Buf.alloc 1
  onComplete := none
  sigActions := none

/-- `ytdl_dl_get_info`, with allocations that may fail. A null pointer that is written through has
no value. -/
def dlGetInfoAlloc (garbage : Info) (allocs : Allocs) (extractors : Extractors Info Sig) (id : Id)
    (onComplete : Callback) (session : Session Id Info Sig (Option Callback)) :
    Option (Called Id Info Sig Callback) :=
  let ctx := session.ctx
  let full : Bool := ctx.size = ctx.videos.length
  let size := if full then grow ctx.size else ctx.size
  if full && !allocs.queue then
    some ⟨-1, false, { session with ctx := { ctx with size := size } }⟩
  else if !allocs.video then
    none
  else if !allocs.response then
    some ⟨-1, true,
      { session with
        ctx := { ctx with videos := ctx.videos ++ [halfVideo garbage id], size := size }
        trace := session.trace ++ [.slot ctx.videos.length size] }⟩
  else
    some ⟨0, true, dlGetInfo extractors id (some onComplete) session⟩

/-- An allocation that the call makes fails. -/
def Fails (allocs : Allocs) (session : Session Id Info Sig (Option Callback)) : Prop :=
  (session.ctx.size = session.ctx.videos.length ∧ allocs.queue = false) ∨ allocs.video = false ∨
    allocs.response = false

/-- The videos that the queue holds. -/
def Called.videos (called : Called Id Info Sig Callback) :
    List (Video Id Info Sig (Option Callback)) :=
  if called.hasArray then called.session.ctx.videos else []

/-! ## Later runs -/

/-- A call, or an answer, of a program that gives a callback with every call. -/
def withCallback : Event Id Callback → Event Id (Option Callback)
  | .getInfo id onComplete => .getInfo id (some onComplete)
  | .connected => .connected
  | .body fragment => .body fragment
  | .messageComplete nested =>
    .messageComplete (nested.map fun call ↦ (call.1, some call.2))

/-- The first video, the one that is requested and completed, is initialised in every state of
every run. -/
def Served (extractors : Extractors Info Sig) (session : Session Id Info Sig (Option Callback)) :
    Prop :=
  ∀ events : List (Event Id Callback),
    Always (step extractors) (fun state ↦ ∀ video ∈ state.ctx.videos.head?, video.onComplete ≠ none)
      session (events.map withCallback)

/-- The queue is as it was before the call, and no half-initialised video is served. -/
structure Restored (extractors : Extractors Info Sig)
    (session : Session Id Info Sig (Option Callback)) (called : Called Id Info Sig Callback) :
    Prop where
  videos : called.videos = session.ctx.videos
  len : called.session.ctx.videos.length = session.ctx.videos.length
  served : Served extractors called.session

section Runs

variable {extractors : Extractors Info Sig} {session next : Session Id Info Sig (Option Callback)}

/-- Every video in the queue is initialised. -/
def Ready (session : Session Id Info Sig (Option Callback)) : Prop :=
  ∀ video ∈ session.ctx.videos, video.onComplete ≠ none

theorem Ready.same (h : Ready session) (hvideos : next.ctx.videos = session.ctx.videos) :
    Ready next := by
  rwa [Ready, hvideos]

theorem ready_dlWake (h : Ready session) : Ready (dlWake session) := by
  obtain heq | ⟨video, videos, -, heq⟩ := dlWake_cases session
  · rwa [heq]
  · rw [heq]
    exact h

theorem ready_dlGetInfo (h : Ready session) (id : Id) (onComplete : Callback) :
    Ready (dlGetInfo extractors id (some onComplete) session) := by
  refine ready_dlWake fun video hvideo ↦ ?_
  obtain hold | hnew := List.mem_append.mp hvideo
  · exact h video hold
  · rw [List.mem_singleton.mp hnew]
    exact Option.some_ne_none onComplete

theorem ready_nestedGetInfo (h : Ready session) (nested : List (Id × Callback)) :
    Ready (nestedGetInfo extractors (nested.map fun call ↦ (call.1, some call.2)) session) := by
  induction nested generalizing session with
  | nil => exact h
  | cons call nested ih => exact ih (ready_dlGetInfo h call.1 call.2)

/-- The first video may change, but for its callback. -/
theorem Ready.first {video first : Video Id Info Sig (Option Callback)}
    {videos : List (Video Id Info Sig (Option Callback))} (h : Ready session)
    (hvideos : session.ctx.videos = video :: videos) (hnext : next.ctx.videos = first :: videos)
    (hfirst : first.onComplete = video.onComplete) : Ready next := by
  intro other hother
  rw [hnext] at hother
  obtain rfl | hother := List.mem_cons.mp hother
  · rw [hfirst]
    exact h video (hvideos ▸ List.mem_cons_self)
  · exact h other (hvideos ▸ List.mem_cons_of_mem _ hother)

theorem ready_dlFinalize (h : Ready session) (sigActions : Sig) (nested : List (Id × Callback)) :
    Ready (dlFinalize extractors sigActions (nested.map fun call ↦ (call.1, some call.2))
      session) := by
  cases hvideos : session.ctx.videos with
  | nil =>
    rw [dlFinalize, hvideos]
    exact h
  | cons video videos =>
    rw [dlFinalize_eq hvideos, popVideo_eq]
    have hhanded : Ready (handedSession session video videos sigActions) :=
      h.first hvideos rfl rfl
    refine ready_dlWake fun other hother ↦ ?_
    exact ready_nestedGetInfo hhanded nested other (List.mem_of_mem_tail hother)

theorem ready_watchHtmlComplete (h : Ready session) (nested : List (Id × Callback)) :
    Ready (watchHtmlComplete extractors (nested.map fun call ↦ (call.1, some call.2))
      session) := by
  rw [watchHtmlComplete]
  split
  · exact h
  · next video videos hvideos =>
    dsimp only
    split
    · exact h.first hvideos rfl rfl
    · split
      · exact h.first hvideos rfl rfl
      · split
        · refine ready_dlFinalize ?_ _ nested
          exact h.first hvideos rfl rfl
        · exact h.first hvideos rfl rfl

theorem ready_playerJsComplete (h : Ready session) (nested : List (Id × Callback)) :
    Ready (playerJsComplete extractors (nested.map fun call ↦ (call.1, some call.2)) session) := by
  rw [playerJsComplete]
  split
  · exact h
  · dsimp only
    split
    · exact h
    · split
      · exact h
      · refine ready_dlFinalize ?_ _ nested
        exact h.same rfl

theorem ready_step {event : Event Id Callback} (h : Ready session)
    (hstep : step extractors session (withCallback event) = some next) : Ready next := by
  cases event with
  | getInfo id onComplete =>
    obtain rfl := Option.some.inj hstep
    exact ready_dlGetInfo h id onComplete
  | connected =>
    obtain ⟨-, rfl⟩ := step_connected hstep
    exact ready_dlWake h
  | body fragment =>
    obtain ⟨-, rfl⟩ := step_body hstep
    rw [bodyEvent]
    dsimp only
    split
    · rw [watchBodyCb]
      split
      · exact h
      · next video videos hvideos => exact h.first hvideos rfl rfl
    · exact h
  | messageComplete nested =>
    obtain ⟨request, outstanding, -, rfl⟩ := step_messageComplete hstep
    rw [messageEvent]
    dsimp only
    split
    · refine ready_watchHtmlComplete ?_ nested
      exact h.same rfl
    · refine ready_playerJsComplete ?_ nested
      exact h.same rfl

/-- A queue of initialised videos serves initialised videos only. -/
theorem served_of_ready (h : Ready session) : Served extractors session := by
  have hready (events : List (Event Id Callback)) {state : Session Id Info Sig (Option Callback)}
      (h : Ready state) : Always (step extractors) Ready state (events.map withCallback) := by
    induction events generalizing state with
    | nil => exact h
    | cons event events ih => exact ⟨h, fun next hnext ↦ ih (ready_step h hnext)⟩
  intro events
  refine (hready events h).mono fun state hstate video hvideo ↦ ?_
  exact hstate video (List.mem_of_mem_head? hvideo)

end Runs

/-! ## Calls -/

section Calls

variable {garbage : Info} {allocs : Allocs} {extractors : Extractors Info Sig} {id : Id}
  {onComplete : Callback} {session : Session Id Info Sig (Option Callback)}

/-- A call whose allocations all succeed is a call of the queue. -/
theorem dlGetInfoAlloc_of_not_fails (h : ¬ Fails allocs session) :
    dlGetInfoAlloc garbage allocs extractors id onComplete session =
      some ⟨0, true, dlGetInfo extractors id (some onComplete) session⟩ := by
  obtain ⟨hqueue, hvideo, hresponse⟩ :
      ¬ (session.ctx.size = session.ctx.videos.length ∧ allocs.queue = false) ∧
        allocs.video = true ∧ allocs.response = true := by
    simpa [Fails] using h
  have hgrown : ¬ (decide (session.ctx.size = session.ctx.videos.length) &&
      !allocs.queue) = true := by
    simpa using hqueue
  simp [dlGetInfoAlloc, hgrown, hvideo, hresponse]

/-- The reallocation of an array without slots or videos: it fails, but nothing is lost. No queue
that `ytdl_dl_ctx_init` has made is ever without slots. -/
def NothingLost (allocs : Allocs) (session : Session Id Info Sig (Option Callback)) : Prop :=
  session.ctx.size = 0 ∧ session.ctx.videos = [] ∧ allocs.queue = false

theorem dlGetInfoAlloc_of_nothingLost (h : NothingLost allocs session) :
    dlGetInfoAlloc garbage allocs extractors id onComplete session = some ⟨-1, false, session⟩ := by
  obtain ⟨hsize, hvideos, hqueue⟩ := h
  have hgrown : grow session.ctx.size = session.ctx.size := by rw [hsize, grow]
  simp only [dlGetInfoAlloc, hvideos, List.length_nil, hsize, hqueue, decide_true, Bool.not_false,
    Bool.and_self, if_true]
  rw [← hsize, hgrown, ← hvideos]

/-- Pages and scripts of which nothing is extracted. -/
def noExtractors : Extractors Unit Unit where
  infoCtxInit := ()
  extractWatchHtml := fun _ _ ↦ (1, ())
  getPlayabilityStatus := fun _ ↦ (1, ())
  getPlayabilityStatusMessage := fun _ ↦ []
  playerUrl := fun _ ↦ []
  sigActionsExtract := fun _ ↦ (1, ())

/-- **A call that fails** returns a code that is not zero and leaves the queue as it was, exactly
when no allocation that it makes fails, or there was nothing to lose. -/
theorem restored_iff (garbage : Info) (allocs : Allocs) (extractors : Extractors Info Sig) (id : Id)
    (onComplete : Callback) (session : Session Id Info Sig (Option Callback)) :
    (∃ called, dlGetInfoAlloc garbage allocs extractors id onComplete session = some called ∧
        (Fails allocs session → called.ret ≠ 0) ∧
        (called.ret ≠ 0 → Restored extractors session called)) ↔
      ¬ Fails allocs session ∨ NothingLost allocs session := by
  constructor
  · rintro ⟨called, hcalled, hret, hrestored⟩
    by_contra hlost
    obtain ⟨hfails, hlost⟩ := not_or.mp hlost
    have hfails := not_not.mp hfails
    have h := hrestored (hret hfails)
    have hvideos := h.videos
    have hlen := h.len
    rw [dlGetInfoAlloc] at hcalled
    split at hcalled
    · next hqueue =>
      -- the array is gone, so there were no videos, although the queue was full
      obtain rfl := Option.some.inj hcalled
      obtain ⟨hfull, hqueue⟩ := Bool.and_eq_true_iff.mp hqueue
      have hnil : session.ctx.videos = [] := hvideos.symm
      rw [decide_eq_true_eq, hnil] at hfull
      exact hlost ⟨hfull, hnil, by simpa using hqueue⟩
    · split at hcalled
      · cases hcalled
      · split at hcalled
        · -- the queue is longer
          obtain rfl := Option.some.inj hcalled
          simp at hlen
        · obtain rfl := Option.some.inj hcalled
          exact hret hfails rfl
  · rintro (hfails | hlost)
    · exact ⟨_, dlGetInfoAlloc_of_not_fails hfails, fun h ↦ absurd h hfails,
        fun hne ↦ absurd rfl hne⟩
    · have hready : Ready session := by
        rw [Ready, hlost.2.1]
        exact fun video hvideo ↦ absurd hvideo List.not_mem_nil
      refine ⟨_, dlGetInfoAlloc_of_nothingLost hlost, fun _ ↦ Int.neg_ne_zero.mpr one_ne_zero,
        fun _ ↦ ?_⟩
      exact ⟨hlost.2.1.symm, rfl, served_of_ready hready⟩

/-- The first call of a context, without memory for the response: it fails, and the queue has got a
video. -/
theorem noResponse_not_restored :
    ∃ called : Called ℕ Unit Unit Unit,
      dlGetInfoAlloc () ⟨true, true, false⟩ noExtractors 7 () (Session.init []) = some called ∧
        called.ret ≠ 0 ∧ ¬ Restored noExtractors (Session.init []) called := by
  refine ⟨_, rfl, by decide, fun h ↦ ?_⟩
  have hlen : 1 = 0 := h.len
  cases hlen

/-- The half-initialised video is requested when its turn comes. -/
theorem half_requested (garbage : Info) (extractors : Extractors Info Sig) (id : Id)
    (onComplete : Callback) (hempty : session.ctx.videos = [])
    (hdisconnected : session.ctx.isConnected = false) (hqueue : session.ctx.size ≠ 0)
    (hvideo : allocs.video = true) (hresponse : allocs.response = false) :
    ∃ called next, dlGetInfoAlloc garbage allocs extractors id onComplete session = some called ∧
      called.ret = -1 ∧ step extractors called.session .connected = some next ∧
      next.ctx.videos = [halfVideo garbage id] ∧
      next.outstanding = session.outstanding ++ [.watchHtml id] := by
  have hcalled : dlGetInfoAlloc garbage allocs extractors id onComplete session =
      some ⟨-1, true,
        { session with
          ctx := { session.ctx with videos := [halfVideo garbage id] }
          trace := session.trace ++ [.slot 0 session.ctx.size] }⟩ := by
    simp [dlGetInfoAlloc, hempty, hqueue, hvideo, hresponse]
  refine ⟨_, _, hcalled, rfl, if_neg (by simp [hdisconnected]), ?_, ?_⟩
  · exact (dlWake_videos _).trans rfl
  · rw [connectedCb, dlWake_cons rfl rfl]
    rfl

end Calls

end LibYtdl.Dl.GetInfoFailure
