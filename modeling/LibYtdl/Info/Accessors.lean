import LibYtdl.Info.ExtractFormats

/-!
# The accessors of the info context

The accessors look up the members of the player's response when they are first needed, and keep what
they found in the context. A client may call them in any order and any number of times.
`ytdl_info_extract_video_details` alone does not look through the response: where it is the first
accessor that is called, it finds no details and marks them as read.
-/

namespace LibYtdl.Info.Accessors

open Slots Format ExtractFormats

/-- `ytdl_info_playability_status_t`. -/
inductive PlayabilityStatus
  | ok | unknown | loginRequired | liveStreamOffline | unplayable
  deriving DecidableEq

/-- The members of `ytdl_info_ctx_t` that hold details of the video. Of the rating the JSON value
is kept. -/
structure VideoDetails where
  title : Option String
  lengthSeconds : Option String
  channelId : Option String
  shortDescription : Option String
  viewCount : Option String
  author : Option String
  averageRating : Option Val

/-- No details, as `ytdl_info_ctx_init` leaves them. -/
def VideoDetails.blank : VideoDetails := ⟨none, none, none, none, none, none, none⟩

/-- `ytdl_info_ctx_t`, with what its accessors keep. -/
structure VideoInfo extends InfoCtx where
  playabilityStatus : PlayabilityStatus
  psMessage : Option String
  details : VideoDetails
  isDetailsPopulated : Bool

/-- A context after `ytdl_info_ctx_init`, with the player's response of a page. -/
def infoInit (playerResponse : Option Val) : VideoInfo where
  toInfoCtx := infoCtxInit playerResponse
  playabilityStatus := .ok
  psMessage := none
  details := .blank
  isDetailsPopulated := false

/-! ## Reading JSON -/

/-- `yyjson_obj_get`. -/
def objGet (key : String) (val : Val) : Option Val := (val.members.find? (·.1 = key)).map Prod.snd

/-- `yyjson_equals_str`. -/
def equalsStr (val : Val) (text : String) : Bool := val.asked.getStr = some text

/-- `yyjson_get_str`, which takes a null pointer. -/
def getStr (val : Option Val) : Option String := val.bind fun val ↦ val.asked.getStr

/-! ## The accessors of `info.c` -/

/-- The status that is kept for a playability status. -/
def readStatus (ps : Val) : PlayabilityStatus :=
  match objGet "status" ps with
  | none => .unknown
  | some stat =>
    if equalsStr stat "OK" then .ok
    else if equalsStr stat "LOGIN_REQUIRED" then .loginRequired
    else if equalsStr stat "UNPLAYABLE" then .unplayable
    else .unknown

/-- `ytdl_info_get_playability_status`. The status that is zero is taken for none. -/
def infoGetPlayabilityStatus (info : VideoInfo) : PlayabilityStatus × VideoInfo :=
  if info.playabilityStatus ≠ .ok then (info.playabilityStatus, info)
  else if info.playerResponse.isNone then (.unknown, info)
  else
    let info := { info with toInfoCtx := populatePrDat info.toInfoCtx }
    match info.ps with
    | none => (.unknown, info)
    | some ps => (readStatus ps, { info with playabilityStatus := readStatus ps })

/-- The message of a playability status. -/
def readMessage (ps : Val) : Option String :=
  match objGet "messages" ps with
  | none => getStr (objGet "reason" ps)
  | some messages => getStr messages.elements.head?

/-- `ytdl_info_get_playability_status_message`. -/
def infoGetPlayabilityStatusMessage (info : VideoInfo) : Option String × VideoInfo :=
  if info.psMessage.isSome then (info.psMessage, info)
  else if info.playerResponse.isNone then (none, info)
  else
    let info := { info with toInfoCtx := populatePrDat info.toInfoCtx }
    match info.ps with
    | none => (none, info)
    | some ps => (readMessage ps, info)

/-- One member of the video's details. -/
def detailMember (details : VideoDetails) : String × Val → VideoDetails
  | ("title", val) => { details with title := val.asked.getStr }
  | ("lengthSeconds", val) => { details with lengthSeconds := val.asked.getStr }
  | ("channelId", val) => { details with channelId := val.asked.getStr }
  | ("shortDescription", val) => { details with shortDescription := val.asked.getStr }
  | ("viewCount", val) => { details with viewCount := val.asked.getStr }
  | ("author", val) => { details with author := val.asked.getStr }
  | ("averageRating", val) => { details with averageRating := some val }
  | _ => details

/-- `ytdl_info_extract_video_details`. -/
def infoExtractVideoDetails (info : VideoInfo) : VideoInfo :=
  if info.isDetailsPopulated then info
  else
    { info with
      details := (info.videoDetails.elim [] Val.members).foldl detailMember info.details
      isDetailsPopulated := true }

/-! ## Calls -/

inductive Call
  | getPlayabilityStatus
  | getPlayabilityStatusMessage
  | extractFormats (allocs : Allocs)
  | extractVideoDetails

/-- What a client gets: a value that is returned, or what is found in the context then. -/
inductive Answer
  | status (status : PlayabilityStatus)
  | message (message : Option String)
  | formats (code : ℤ) (formats : Option (List (Slot Val))) (formatsSize : ℕ)
    (dashManifestUrl : Option String)
  | details (details : VideoDetails)

/-- The answer of `ytdl_info_extract_formats`. -/
def formatsAnswer (result : ℤ × InfoCtx) : Answer :=
  .formats result.1 result.2.formats result.2.formatsSize result.2.dashManifestUrl

def call (info : VideoInfo) : Call → Answer × VideoInfo
  | .getPlayabilityStatus =>
    let (status, info) := infoGetPlayabilityStatus info
    (.status status, info)
  | .getPlayabilityStatusMessage =>
    let (message, info) := infoGetPlayabilityStatusMessage info
    (.message message, info)
  | .extractFormats allocs =>
    let result := infoExtractFormats allocs info.toInfoCtx
    (formatsAnswer result, { info with toInfoCtx := result.2 })
  | .extractVideoDetails =>
    let info := infoExtractVideoDetails info
    (.details info.details, info)

/-- Calls in a row. -/
def answers : VideoInfo → List Call → List Answer
  | _, [] => []
  | info, first :: calls => (call info first).1 :: answers (call info first).2 calls

/-! ## What a response answers -/

/-- The status of a response. -/
def statusIn (response : Option Val) : PlayabilityStatus :=
  (response.bind (lastMember "playabilityStatus")).elim .unknown readStatus

/-- The message of a response. -/
def messageIn (response : Option Val) : Option String :=
  (response.bind (lastMember "playabilityStatus")).bind readMessage

/-- The details of a response. -/
def detailsIn (response : Option Val) : VideoDetails :=
  ((response.bind (lastMember "videoDetails")).elim [] Val.members).foldl detailMember .blank

/-- What a call answers for a response; the details are `details`. -/
def answerIn (response : Option Val) (details : VideoDetails) : Call → Answer
  | .getPlayabilityStatus => .status (statusIn response)
  | .getPlayabilityStatusMessage => .message (messageIn response)
  | .extractFormats allocs => formatsAnswer (infoExtractFormats allocs (infoCtxInit response))
  | .extractVideoDetails => .details details

/-- The first call is for the details. -/
def detailsFirst : List Call → Bool
  | .extractVideoDetails :: _ => true
  | _ => false

/-- The URL of the manifest in streaming data. -/
def dashIn (sd : Val) : Option String :=
  (lastMember "dashManifestUrl" sd).bind fun val ↦ val.asked.getStr

/-! ## What is kept in a context -/

/-- A context whose response was looked through. -/
def withMembers (response : Option Val) (info : InfoCtx) : InfoCtx :=
  { info with
    ps := response.bind (lastMember "playabilityStatus")
    sd := streamingData response
    videoDetails := response.bind (lastMember "videoDetails")
    isPrPopulated := true }

/-- A context whose streaming data was looked through. -/
def withStreams (sd : Val) (info : InfoCtx) : InfoCtx :=
  { info with
    sdFormats := lastMember "formats" sd
    sdAdaptiveFormats := lastMember "adaptiveFormats" sd
    dashManifestUrl := dashIn sd }

/-- What a context knows is what a full look at its response finds. -/
structure Known (response : Option Val) (info : InfoCtx) : Prop where
  playerResponse : info.playerResponse = response
  unpopulated : info.isPrPopulated = false →
    info.ps = none ∧ info.sd = none ∧ info.videoDetails = none
  populated : info.isPrPopulated = true → withMembers response info = info
  streams : info.sdFormats = none ∧ info.sdAdaptiveFormats = none ∧ info.dashManifestUrl = none ∨
    ∃ sd, streamingData response = some sd ∧ withStreams sd info = info
  blank : (∀ formats adaptiveFormats, formatArrays response = some (formats, adaptiveFormats) →
    formats.length + adaptiveFormats.length = 0) → info.formats = none ∧ info.formatsSize = 0

section Context

variable {response : Option Val} {info other : InfoCtx} {sd : Val} {allocs : Allocs}
  {formats adaptiveFormats : List Val}

theorem known_init (response : Option Val) : Known response (infoCtxInit response) where
  playerResponse := rfl
  unpopulated _ := ⟨rfl, rfl, rfl⟩
  populated h := nomatch h
  streams := .inl ⟨rfl, rfl, rfl⟩
  blank _ := ⟨rfl, rfl⟩

theorem populateMember_ps (info : InfoCtx) (entry : String × Val) :
    (populateMember info entry).ps =
      if entry.1 = "playabilityStatus" then some entry.2 else info.ps := by
  rw [populateMember_eq]

theorem populateMember_videoDetails (info : InfoCtx) (entry : String × Val) :
    (populateMember info entry).videoDetails =
      if entry.1 = "videoDetails" then some entry.2 else info.videoDetails := by
  rw [populateMember_eq]

theorem streamMember_dashManifestUrl (info : InfoCtx) (entry : String × Val) :
    (streamMember info entry).dashManifestUrl =
      if entry.1 = "dashManifestUrl" then entry.2.asked.getStr else info.dashManifestUrl := by
  rw [streamMember_eq]

/-- Looking through the response finds the last value of each of its members. -/
theorem Known.populatePrDat_eq (h : Known response info) :
    populatePrDat info = withMembers response info := by
  rw [populatePrDat]
  split
  · next hpopulated => exact (h.populated hpopulated).symm
  · next hpopulated =>
    obtain ⟨hps, hsd, hdetails⟩ := h.unpopulated (by simpa using hpopulated)
    have hlast {read : InfoCtx → Option Val} {key : String}
        (hstep : ∀ info entry, read (populateMember info entry) =
          if entry.1 = key then some entry.2 else read info) (hnone : read info = none) :
        read ((info.playerResponse.elim [] Val.members).foldl populateMember info) =
          response.bind (lastMember key) := by
      rw [h.playerResponse]
      cases response with
      | none => exact hnone
      | some val =>
        rw [Option.elim_some, foldl_lastMember hstep, hnone, Option.or_none]
        rfl
    have hps := hlast populateMember_ps hps
    have hsd := hlast populateMember_sd hsd
    have hdetails := hlast populateMember_videoDetails hdetails
    obtain ⟨ps, sd, videoDetails, heq⟩ :=
      foldl_populateMember (info.playerResponse.elim [] Val.members) info
    rw [heq] at hps hsd hdetails ⊢
    dsimp only at hps hsd hdetails
    rw [withMembers, hps, hsd, hdetails]
    rfl

theorem foldl_dashManifestUrl (sd : Val) (info : InfoCtx) :
    (sd.members.foldl streamMember info).dashManifestUrl =
      (lastMember "dashManifestUrl" sd).elim info.dashManifestUrl fun val ↦ val.asked.getStr := by
  rw [lastMember]
  induction sd.members using List.reverseRecOn with
  | nil => rfl
  | append_singleton members entry ih =>
    rw [List.foldl_concat, streamMember_dashManifestUrl, List.filter_append]
    by_cases hkey : entry.1 = "dashManifestUrl"
    · simp [hkey]
    · simp [hkey, ih]

/-- Looking through the streaming data, for the first time or once more. -/
theorem foldl_streamed (h : info.sdFormats = none ∧ info.sdAdaptiveFormats = none ∧
    info.dashManifestUrl = none ∨ withStreams sd info = info) :
    sd.members.foldl streamMember info = withStreams sd info := by
  have hknown {found known : Option Val} (h : known = none ∨ known = found) :
    found.or known = found := by
    obtain rfl | rfl := h
    · exact Option.or_none
    · exact Option.or_self
  have hsame {β : Type} (read : InfoCtx → β) (heq : withStreams sd info = info) :
      read info = read (withStreams sd info) := by rw [heq]
  have hformats : (sd.members.foldl streamMember info).sdFormats = lastMember "formats" sd := by
    rw [foldl_lastMember streamMember_formats]
    exact hknown (h.imp (·.1) (hsame InfoCtx.sdFormats))
  have hadaptive : (sd.members.foldl streamMember info).sdAdaptiveFormats =
      lastMember "adaptiveFormats" sd := by
    rw [foldl_lastMember streamMember_adaptiveFormats]
    exact hknown (h.imp (·.2.1) (hsame InfoCtx.sdAdaptiveFormats))
  have hdash : (sd.members.foldl streamMember info).dashManifestUrl = dashIn sd := by
    have hurl : info.dashManifestUrl = none ∨ info.dashManifestUrl = dashIn sd :=
      h.imp (·.2.2) (hsame InfoCtx.dashManifestUrl)
    rw [foldl_dashManifestUrl]
    rw [dashIn] at hurl ⊢
    cases hlast : lastMember "dashManifestUrl" sd with
    | none =>
      rw [hlast] at hurl
      exact hurl.elim id id
    | some val => rfl
  obtain ⟨sdFormats, sdAdaptiveFormats, dashManifestUrl, heq⟩ := foldl_streamMember sd.members info
  rw [heq] at hformats hadaptive hdash ⊢
  dsimp only at hformats hadaptive hdash
  rw [withStreams, hformats, hadaptive, hdash]

/-! ### The extraction -/

theorem formatArrays_eq (hsd : streamingData response = some sd) :
    formatArrays response = (lastMember "formats" sd).bind fun formats ↦
      (lastMember "adaptiveFormats" sd).map fun adaptiveFormats ↦
        (formats.elements, adaptiveFormats.elements) := by
  rw [formatArrays, hsd, Option.bind_eq_bind, Option.bind_some]
  cases lastMember "formats" sd with
  | none => rfl
  | some formats => cases lastMember "adaptiveFormats" sd <;> rfl

/-- Past the response, the extraction goes on with the streaming data that it names. -/
theorem Known.extract (h : Known response info) (hsome : response.isSome = true)
    (hsd : streamingData response = some sd) :
    infoExtractFormats allocs info =
      (formatArrays response).elim (-1, withStreams sd (withMembers response info)) fun arrays ↦
        allocFormats allocs arrays.1 arrays.2 (withStreams sd (withMembers response info)) := by
  have hnone : ¬ info.playerResponse.isNone = true := by
    rw [h.playerResponse]
    simp [Option.isSome_iff_ne_none.mp hsome]
  have hmembers : (withMembers response info).sd = some sd := hsd
  have hsame : info.sdFormats = none ∧ info.sdAdaptiveFormats = none ∧ info.dashManifestUrl = none ∨
      withStreams sd (withMembers response info) = withMembers response info := by
    refine h.streams.imp id fun ⟨also, halso, heq⟩ ↦ ?_
    obtain rfl := Option.some.inj (hsd.symm.trans halso)
    exact congrArg (withMembers response) heq
  have hfold : (if (withMembers response info).sdFormats.isNone ||
      (withMembers response info).sdAdaptiveFormats.isNone then
        sd.members.foldl streamMember (withMembers response info)
      else withMembers response info) = withStreams sd (withMembers response info) := by
    split
    · exact foldl_streamed hsame
    · next hfound =>
      obtain ⟨hformats, -⟩ | heq := hsame
      · refine absurd ?_ hfound
        rw [withMembers, hformats]
        rfl
      · exact heq.symm
  rw [infoExtractFormats, if_neg hnone, h.populatePrDat_eq]
  dsimp only
  rw [hmembers]
  dsimp only
  rw [hfold, formatArrays_eq hsd]
  dsimp only [withStreams]
  cases lastMember "formats" sd with
  | none => rfl
  | some formats => cases lastMember "adaptiveFormats" sd <;> rfl

/-- Without streaming data there is nothing to extract. -/
theorem Known.extract_none (h : Known response info) (allocs : Allocs)
    (hsd : streamingData response = none) :
    ∃ next, infoExtractFormats allocs info = (-1, next) ∧
      (next = info ∧ response.isSome = false ∨
        next = withMembers response info ∧ response.isSome = true) := by
  rw [infoExtractFormats]
  split
  · next hnone =>
    rw [h.playerResponse, Option.isNone_iff_eq_none] at hnone
    exact ⟨info, rfl, .inl ⟨rfl, by rw [hnone]; rfl⟩⟩
  · next hsome =>
    rw [h.playerResponse, Option.isNone_iff_eq_none] at hsome
    have hmembers : (withMembers response info).sd = none := hsd
    refine ⟨withMembers response info, ?_, .inr ⟨rfl, Option.isSome_iff_ne_none.mpr hsome⟩⟩
    rw [h.populatePrDat_eq]
    dsimp only
    rw [hmembers]

/-- The table depends on the arrays and the allocations only. -/
theorem allocFormats_answer (hformats : formats.length + adaptiveFormats.length = 0 →
      info.formats = none ∧ other.formats = none)
    (hdash : info.dashManifestUrl = other.dashManifestUrl) :
    formatsAnswer (allocFormats allocs formats adaptiveFormats info) =
      formatsAnswer (allocFormats allocs formats adaptiveFormats other) := by
  rw [allocFormats, allocFormats]
  dsimp only
  split
  · next hzero =>
    rw [formatsAnswer, formatsAnswer, hdash, (hformats hzero).1, (hformats hzero).2]
  · split
    · rw [formatsAnswer, formatsAnswer, hdash]
    · split
      · rw [formatsAnswer, formatsAnswer, hdash]
      · rw [formatsAnswer, formatsAnswer, hdash]

/-- The table is all that is written past the arrays. -/
theorem allocFormats_snd (allocs : Allocs) (formats adaptiveFormats : List Val) (info : InfoCtx) :
    ∃ table, (allocFormats allocs formats adaptiveFormats info).2 =
      { info with formats := table, formatsSize := formats.length + adaptiveFormats.length } ∧
      (formats.length + adaptiveFormats.length = 0 → table = info.formats) := by
  rw [allocFormats]
  dsimp only
  split
  · exact ⟨info.formats, rfl, fun _ ↦ rfl⟩
  · next hzero =>
    split
    · exact ⟨none, rfl, fun h ↦ absurd h hzero⟩
    · split
      · exact ⟨_, rfl, fun h ↦ absurd h hzero⟩
      · exact ⟨_, rfl, fun h ↦ absurd h hzero⟩

theorem Known.withMembers (h : Known response info) :
    Known response (withMembers response info) where
  playerResponse := h.playerResponse
  unpopulated hnot := nomatch hnot
  populated _ := rfl
  streams := h.streams.imp id fun ⟨sd, hsd, heq⟩ ↦
    ⟨sd, hsd, congrArg (Accessors.withMembers response) heq⟩
  blank := h.blank

theorem Known.withStreams (h : Known response info) (hsd : streamingData response = some sd) :
    Known response (withStreams sd info) where
  playerResponse := h.playerResponse
  unpopulated := h.unpopulated
  populated hpopulated := congrArg (Accessors.withStreams sd) (h.populated hpopulated)
  streams := .inr ⟨sd, hsd, rfl⟩
  blank := h.blank

theorem Known.allocated (h : Known response info) {arrays : List Val × List Val}
    (harrays : formatArrays response = some arrays) :
    Known response (allocFormats allocs arrays.1 arrays.2 info).2 ∧
      (allocFormats allocs arrays.1 arrays.2 info).2.isPrPopulated = info.isPrPopulated := by
  obtain ⟨table, heq, htable⟩ := allocFormats_snd allocs arrays.1 arrays.2 info
  rw [heq]
  refine ⟨⟨h.playerResponse, h.unpopulated, fun hpopulated ↦ ?_, ?_, fun hblank ↦ ?_⟩, rfl⟩
  · exact congrArg (fun info : InfoCtx ↦ { info with
      formats := table, formatsSize := arrays.1.length + arrays.2.length }) (h.populated hpopulated)
  · refine h.streams.imp id fun ⟨sd, hsd, heq⟩ ↦ ⟨sd, hsd, ?_⟩
    exact congrArg (fun info : InfoCtx ↦ { info with
      formats := table, formatsSize := arrays.1.length + arrays.2.length }) heq
  · have hzero := hblank arrays.1 arrays.2 harrays
    exact ⟨(htable hzero).trans (h.blank hblank).1, hzero⟩

/-- An extraction answers as the first one does, and leaves a context that knows its response. -/
theorem Known.extractFormats (h : Known response info) (allocs : Allocs) :
    formatsAnswer (infoExtractFormats allocs info) =
        formatsAnswer (infoExtractFormats allocs (infoCtxInit response)) ∧
      Known response (infoExtractFormats allocs info).2 ∧
      (response.isSome = true → (infoExtractFormats allocs info).2.isPrPopulated = true) := by
  have hinit := known_init response
  cases hsd : streamingData response with
  | none =>
    have harrays : formatArrays response = none := by
      rw [formatArrays, hsd]
      rfl
    have hfields {info next : InfoCtx} (h : Known response info)
        (hnext : next = info ∧ response.isSome = false ∨
          next = Accessors.withMembers response info ∧ response.isSome = true) :
        formatsAnswer (-1, next) = .formats (-1) none 0 none := by
      obtain ⟨hformats, hsize⟩ := h.blank fun _ _ hsome ↦ by rw [harrays] at hsome; cases hsome
      have hdash : info.dashManifestUrl = none := by
        obtain hnone | ⟨sd, hsome, -⟩ := h.streams
        · exact hnone.2.2
        · rw [hsd] at hsome
          cases hsome
      obtain ⟨rfl, -⟩ | ⟨rfl, -⟩ := hnext
      · rw [formatsAnswer, hformats, hsize, hdash]
      · rw [formatsAnswer, Accessors.withMembers, hformats, hsize, hdash]
    obtain ⟨next, heq, hnext⟩ := h.extract_none allocs hsd
    obtain ⟨first, hfirst, hlater⟩ := hinit.extract_none allocs hsd
    rw [heq, hfirst, hfields h hnext, hfields hinit hlater]
    refine ⟨rfl, ?_⟩
    obtain ⟨rfl, hnone⟩ | ⟨rfl, -⟩ := hnext
    · exact ⟨h, fun hsome ↦ by rw [hnone] at hsome; cases hsome⟩
    · exact ⟨h.withMembers, fun _ ↦ rfl⟩
  | some sd =>
    have hsome : response.isSome = true := by
      cases response with
      | none => cases hsd
      | some val => rfl
    rw [h.extract hsome hsd, hinit.extract hsome hsd]
    have hkept := h.withMembers.withStreams hsd
    have hfirst := hinit.withMembers.withStreams hsd
    cases harrays : formatArrays response with
    | none =>
      have hblank {info : InfoCtx} (h : Known response info) := h.blank fun _ _ hsome ↦ by
        rw [harrays] at hsome
        cases hsome
      refine ⟨?_, hkept, fun _ ↦ rfl⟩
      rw [Option.elim_none, Option.elim_none, formatsAnswer, formatsAnswer, (hblank hkept).1,
        (hblank hkept).2, (hblank hfirst).1, (hblank hfirst).2]
      rfl
    | some arrays =>
      refine ⟨allocFormats_answer (fun hzero ↦ ?_) rfl, (hkept.allocated harrays).1, fun _ ↦
        (hkept.allocated harrays).2⟩
      have hblank (formats adaptiveFormats : List Val)
          (hfound : formatArrays response = some (formats, adaptiveFormats)) :
          formats.length + adaptiveFormats.length = 0 := by
        rw [harrays] at hfound
        obtain rfl := Option.some.inj hfound
        exact hzero
      exact ⟨(hkept.blank hblank).1, (hfirst.blank hblank).1⟩

end Context

/-! ## Runs of calls -/

/-- A context in which calls were made. -/
structure Kept (response : Option Val) (info : VideoInfo) : Prop where
  known : Known response info.toInfoCtx
  status : info.playabilityStatus = .ok ∨ info.playabilityStatus = statusIn response ∧
    (response.isSome = true → info.isPrPopulated = true)
  psMessage : info.psMessage = none

/-- A context whose details are `details`, or will be once they are asked for. -/
structure Steady (response : Option Val) (details : VideoDetails) (info : VideoInfo) : Prop
    extends Kept response info where
  read : info.isDetailsPopulated = true → info.details = details
  unread : info.isDetailsPopulated = false → info.details = .blank ∧ details = detailsIn response ∧
    (response.isSome = true → info.isPrPopulated = true)

section Runs

variable {response : Option Val} {info : VideoInfo} {details : VideoDetails}

theorem kept_init (response : Option Val) : Kept response (infoInit response) where
  known := known_init response
  status := .inl rfl
  psMessage := rfl

theorem Kept.status_eq (h : Kept response info) :
    ∃ next status, infoGetPlayabilityStatus info =
        (statusIn response, { info with toInfoCtx := next, playabilityStatus := status }) ∧
      Kept response { info with toInfoCtx := next, playabilityStatus := status } ∧
      (response.isSome = true → next.isPrPopulated = true) := by
  rw [infoGetPlayabilityStatus]
  split
  · next hcached =>
    obtain hok | ⟨hstatus, hpopulated⟩ := h.status
    · exact absurd hok hcached
    · exact ⟨info.toInfoCtx, info.playabilityStatus, by rw [← hstatus], h, hpopulated⟩
  · next hok =>
    rw [not_not] at hok
    rw [h.known.playerResponse, h.known.populatePrDat_eq]
    split
    · next hnone =>
      rw [Option.isNone_iff_eq_none] at hnone
      refine ⟨info.toInfoCtx, info.playabilityStatus, by rw [hnone]; rfl, h, fun hsome ↦ ?_⟩
      rw [hnone] at hsome
      cases hsome
    · have hknown := h.known.withMembers
      have hmembers : (withMembers response info.toInfoCtx).ps =
          response.bind (lastMember "playabilityStatus") := rfl
      have hstatus : statusIn response =
          (response.bind (lastMember "playabilityStatus")).elim .unknown readStatus := rfl
      dsimp only
      rw [hmembers]
      cases hps : response.bind (lastMember "playabilityStatus") with
      | none =>
        rw [hps] at hstatus
        exact ⟨_, info.playabilityStatus, by rw [hstatus]; rfl, ⟨hknown, .inl hok, h.psMessage⟩,
          fun _ ↦ rfl⟩
      | some ps =>
        rw [hps] at hstatus
        exact ⟨_, readStatus ps, by rw [hstatus]; rfl,
          ⟨hknown, .inr ⟨hstatus.symm, fun _ ↦ rfl⟩, h.psMessage⟩, fun _ ↦ rfl⟩

theorem Kept.message_eq (h : Kept response info) :
    ∃ next, infoGetPlayabilityStatusMessage info =
        (messageIn response, { info with toInfoCtx := next }) ∧
      Kept response { info with toInfoCtx := next } ∧
      (response.isSome = true → next.isPrPopulated = true) := by
  have hmessage : ¬ info.psMessage.isSome = true := by
    rw [h.psMessage]
    exact Bool.false_ne_true
  rw [infoGetPlayabilityStatusMessage, if_neg hmessage, h.known.playerResponse,
    h.known.populatePrDat_eq]
  split
  · next hnone =>
    rw [Option.isNone_iff_eq_none] at hnone
    refine ⟨info.toInfoCtx, by rw [hnone]; rfl, h, fun hsome ↦ ?_⟩
    rw [hnone] at hsome
    cases hsome
  · have hkept : Kept response { info with toInfoCtx := withMembers response info.toInfoCtx } :=
      ⟨h.known.withMembers, h.status.imp id fun hstatus ↦ ⟨hstatus.1, fun _ ↦ rfl⟩, h.psMessage⟩
    have hmembers : (withMembers response info.toInfoCtx).ps =
        response.bind (lastMember "playabilityStatus") := rfl
    refine ⟨withMembers response info.toInfoCtx, ?_, hkept, fun _ ↦ rfl⟩
    rw [messageIn]
    dsimp only
    rw [hmembers]
    cases response.bind (lastMember "playabilityStatus") <;> rfl

/-- A call that is not for the details answers as the response says, and looks through it. -/
theorem Kept.call_eq (h : Kept response info) {first : Call} (hfirst : first ≠ .extractVideoDetails)
    (details : VideoDetails) :
    ∃ next, call info first = (answerIn response details first, next) ∧ Kept response next ∧
      (response.isSome = true → next.isPrPopulated = true) ∧ next.details = info.details ∧
      next.isDetailsPopulated = info.isDetailsPopulated := by
  cases first with
  | getPlayabilityStatus =>
    obtain ⟨next, status, heq, hkept, hpopulated⟩ := h.status_eq
    exact ⟨_, by rw [call, heq]; rfl, hkept, hpopulated, rfl, rfl⟩
  | getPlayabilityStatusMessage =>
    obtain ⟨next, heq, hkept, hpopulated⟩ := h.message_eq
    exact ⟨_, by rw [call, heq]; rfl, hkept, hpopulated, rfl, rfl⟩
  | extractFormats allocs =>
    obtain ⟨hanswer, hknown, hpopulated⟩ := h.known.extractFormats allocs
    have hkept : Kept response
        { info with toInfoCtx := (infoExtractFormats allocs info.toInfoCtx).2 } :=
      ⟨hknown, h.status.imp id fun hstatus ↦ ⟨hstatus.1, hpopulated⟩, h.psMessage⟩
    exact ⟨_, by rw [call, hanswer]; rfl, hkept, hpopulated, rfl, rfl⟩
  | extractVideoDetails => exact absurd rfl hfirst

theorem Steady.call_eq (h : Steady response details info) (first : Call) :
    ∃ next, call info first = (answerIn response details first, next) ∧
      Steady response details next := by
  by_cases hfirst : first = .extractVideoDetails
  · subst hfirst
    rw [call, infoExtractVideoDetails]
    split
    · next hread => exact ⟨info, by rw [h.read hread]; rfl, h⟩
    · next hunread =>
      rw [Bool.not_eq_true] at hunread
      obtain ⟨hblank, hdetails, hpopulated⟩ := h.unread hunread
      have hvideo : info.videoDetails = response.bind (lastMember "videoDetails") := by
        cases hdone : info.isPrPopulated with
        | true => exact congrArg InfoCtx.videoDetails (h.known.populated hdone).symm
        | false =>
          rw [(h.known.unpopulated hdone).2.2]
          cases response with
          | none => rfl
          | some val =>
            rw [hpopulated rfl] at hdone
            cases hdone
      have hfold : (info.videoDetails.elim [] Val.members).foldl detailMember info.details =
        details := by
        rw [hblank, hvideo, hdetails, detailsIn]
      rw [hfold]
      exact ⟨_, rfl, ⟨h.known, h.status, h.psMessage⟩, fun _ ↦ rfl, fun hnot ↦ nomatch hnot⟩
  · obtain ⟨next, heq, hkept, hpopulated, hsame, hread⟩ := h.toKept.call_eq hfirst details
    refine ⟨next, heq, hkept, fun hdone ↦ ?_, fun hnot ↦ ?_⟩
    · rw [hsame, h.read (hread ▸ hdone)]
    · obtain ⟨hblank, hdetails, -⟩ := h.unread (hread ▸ hnot)
      exact ⟨hsame.trans hblank, hdetails, hpopulated⟩

theorem Steady.answers_eq (h : Steady response details info) (calls : List Call) :
    answers info calls = calls.map (answerIn response details) := by
  induction calls generalizing info with
  | nil => rfl
  | cons first calls ih =>
    obtain ⟨next, heq, hnext⟩ := h.call_eq first
    rw [answers, heq, List.map_cons, ih hnext]

/-- Every call answers what the response says, whatever was called before; only the details are
lost for good when they are asked for first. -/
theorem accessors_answer (response : Option Val) (calls : List Call) :
    answers (infoInit response) calls =
      calls.map
        (answerIn response (if detailsFirst calls then .blank else detailsIn response)) := by
  have hinit := kept_init response
  cases calls with
  | nil => rfl
  | cons first calls =>
    by_cases hfirst : first = .extractVideoDetails
    · subst hfirst
      have hsteady : Steady response .blank { infoInit response with isDetailsPopulated := true } :=
        ⟨⟨hinit.known, hinit.status, hinit.psMessage⟩, fun _ ↦ rfl, fun hnot ↦ nomatch hnot⟩
      exact congrArg (List.cons (.details .blank)) (hsteady.answers_eq calls)
    · have hlater : detailsFirst (first :: calls) = false := by
        cases first <;> first | rfl | exact absurd rfl hfirst
      obtain ⟨next, heq, hkept, hpopulated, hsame, hread⟩ :=
        hinit.call_eq hfirst (detailsIn response)
      have hsteady : Steady response (detailsIn response) next := by
        refine ⟨hkept, fun hdone ↦ ?_, fun _ ↦ ⟨hsame, rfl, hpopulated⟩⟩
        rw [hread] at hdone
        cases hdone
      rw [hlater, answers, heq, List.map_cons, hsteady.answers_eq calls]
      rfl

end Runs

end LibYtdl.Info.Accessors
