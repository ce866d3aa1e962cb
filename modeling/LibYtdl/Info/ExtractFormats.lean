import LibYtdl.Foundation.Slots
import LibYtdl.Info.BestFormat

/-!
# The table of the formats

`ytdl_info_extract_formats` looks up the two arrays of formats in the streaming data, publishes the
number of their elements, allocates the table and then the formats one after the other. When one of
these allocations fails it returns at once: the number stays, and what goes through the table later
meets pointers that are null or were never written.
-/

namespace LibYtdl.Info.ExtractFormats

open Slots Format BestFormat

/-- A JSON value. -/
inductive Val
  | obj (members : List (String × Val))
  | arr (elements : List Val)
  | scalar (value : JsonVal)

/-- The members that `yyjson_obj_iter_next` goes through: none, if the value is not an object. -/
def Val.members : Val → List (String × Val)
  | .obj members => members
  | _ => []

/-- The elements that `yyjson_arr_foreach` goes through: none, if the value is not an array. -/
def Val.elements : Val → List Val
  | .arr elements => elements
  | _ => []

/-- What a member is asked for when a format is filled in. -/
def Val.asked : Val → JsonVal
  | .scalar value => value
  | _ => .other

/-- The members of `ytdl_info_ctx_t` that the extraction of the formats reads and writes. A format
of the table is known by the value it points to. -/
structure InfoCtx where
  formats : Option (List (Slot Val))
  formatsSize : ℕ
  playerResponse : Option Val
  videoDetails : Option Val
  ps : Option Val
  sd : Option Val
  sdFormats : Option Val
  sdAdaptiveFormats : Option Val
  dashManifestUrl : Option String
  isPrPopulated : Bool

/-- A context after `ytdl_info_ctx_init`, with the player's response of a page. -/
def infoCtxInit (playerResponse : Option Val) : InfoCtx where
  formats := none
  formatsSize := 0
  playerResponse := playerResponse
  videoDetails := none
  ps := none
  sd := none
  sdFormats := none
  sdAdaptiveFormats := none
  dashManifestUrl := none
  isPrPopulated := false

/-! ## The functions of `info.c` -/

/-- One member of the player's response. -/
def populateMember (info : InfoCtx) : String × Val → InfoCtx
  | ("playabilityStatus", val) => { info with ps := some val }
  | ("streamingData", val) => { info with sd := some val }
  | ("videoDetails", val) => { info with videoDetails := some val }
  | _ => info

/-- `ytdl__populate_pr_dat`. -/
def populatePrDat (info : InfoCtx) : InfoCtx :=
  if info.isPrPopulated then info
  else
    { (info.playerResponse.elim [] Val.members).foldl populateMember info with
      isPrPopulated := true }

/-- One member of the streaming data. -/
def streamMember (info : InfoCtx) : String × Val → InfoCtx
  | ("formats", val) => { info with sdFormats := some val }
  | ("adaptiveFormats", val) => { info with sdAdaptiveFormats := some val }
  | ("dashManifestUrl", val) => { info with dashManifestUrl := val.asked.getStr }
  | _ => info

/-- Which allocations succeed: that of the table, and that of the format at each index. -/
structure Allocs where
  table : Bool
  format : ℕ → Bool

/-- `ytdl_info_extract_formats`, from the two arrays on. -/
def allocFormats (allocs : Allocs) (formats adaptiveFormats : List Val) (info : InfoCtx) :
    ℤ × InfoCtx :=
  let adaptiveOffset := formats.length
  let formatsSize := adaptiveOffset + adaptiveFormats.length
  let info := { info with formatsSize := formatsSize }
  if formatsSize = 0 then
    (-1, info)
  else if !allocs.table then
    (1, { info with formats := none })
  else
    let (filled, slots) := fill allocs.format 0 formats (List.replicate formatsSize .uninit)
    if !filled then
      (1, { info with formats := some slots })
    else
      let (filled, slots) := fill allocs.format adaptiveOffset adaptiveFormats slots
      (if filled then 0 else 1, { info with formats := some slots })

/-- `ytdl_info_extract_formats`. -/
def infoExtractFormats (allocs : Allocs) (info : InfoCtx) : ℤ × InfoCtx :=
  if info.playerResponse.isNone then
    (-1, info)
  else
    let info := populatePrDat info
    match info.sd with
    | none => (-1, info)
    | some sd =>
      let info :=
        if info.sdFormats.isNone || info.sdAdaptiveFormats.isNone then
          sd.members.foldl streamMember info
        else
          info
      match info.sdFormats, info.sdAdaptiveFormats with
      | some formats, some adaptiveFormats =>
        allocFormats allocs formats.elements adaptiveFormats.elements info
      | _, _ => (-1, info)

/-- The formats that a loop over the table goes through. A null pointer that is followed has no
value. -/
def InfoCtx.table (info : InfoCtx) : Option (List Val) :=
  readTable info.formatsSize (info.formats.getD [])

/-- The formats that `ytdl_info_ctx_free` frees. -/
def infoCtxFree (info : InfoCtx) : Option (List Val) :=
  if info.formats.isSome then info.table else some []

/-- The formats as `ytdl__info_format_populate_all` finds them. -/
def InfoCtx.toFormats (info : InfoCtx) : Option Formats :=
  info.table.map fun vals ↦
    tableOf (vals.map fun val ↦ val.members.map fun entry ↦ (entry.1, entry.2.asked))

/-! ## What a response holds -/

/-- The value of a member of an object; if there are several, of the last one. -/
def lastMember (key : String) (val : Val) : Option Val :=
  ((val.members.filter (·.1 = key)).getLast?).map Prod.snd

/-- The streaming data of a response. -/
def streamingData (response : Option Val) : Option Val :=
  response.bind (lastMember "streamingData")

/-- The elements of the two arrays, if the response holds both. -/
def formatArrays (response : Option Val) : Option (List Val × List Val) := do
  let sd ← streamingData response
  let formats ← lastMember "formats" sd
  let adaptiveFormats ← lastMember "adaptiveFormats" sd
  some (formats.elements, adaptiveFormats.elements)

/-! ## Calls in a row -/

/-- The calls on a context that read the player's response: those that only look up its members,
such as `ytdl_info_get_playability_status`, and the extraction of the formats. -/
inductive Call
  | populatePrDat
  | extractFormats (allocs : Allocs)

def Call.run (info : InfoCtx) : Call → InfoCtx
  | .populatePrDat =>
    if info.playerResponse.isNone then info else ExtractFormats.populatePrDat info
  | .extractFormats allocs => (infoExtractFormats allocs info).2

/-- The members that are kept in a context are those of its response, and a response without the two
arrays has no table. -/
structure Cached (response : Option Val) (info : InfoCtx) : Prop where
  playerResponse : info.playerResponse = response
  sd : info.sd = if info.isPrPopulated then streamingData response else none
  formats : info.sdFormats = none ∨
    info.sdFormats = (streamingData response).bind (lastMember "formats")
  adaptiveFormats : info.sdAdaptiveFormats = none ∨
    info.sdAdaptiveFormats = (streamingData response).bind (lastMember "adaptiveFormats")
  empty : formatArrays response = none → info.formatsSize = 0

section Members

variable {step : InfoCtx → String × Val → InfoCtx}

/-- A loop over the members keeps the last value of a key. -/
theorem foldl_lastMember {read : InfoCtx → Option Val} {key : String}
    (hstep : ∀ info entry, read (step info entry) =
      if entry.1 = key then some entry.2 else read info)
    (val : Val) (info : InfoCtx) :
    read (val.members.foldl step info) = (lastMember key val).or (read info) := by
  rw [lastMember]
  induction val.members using List.reverseRecOn with
  | nil => rfl
  | append_singleton members entry ih =>
    rw [List.foldl_concat, hstep, List.filter_append]
    by_cases hkey : entry.1 = key
    · simp [hkey]
    · simp [hkey, ih]

theorem populateMember_eq (info : InfoCtx) (entry : String × Val) :
    populateMember info entry =
      { info with
        ps := if entry.1 = "playabilityStatus" then some entry.2 else info.ps
        sd := if entry.1 = "streamingData" then some entry.2 else info.sd
        videoDetails := if entry.1 = "videoDetails" then some entry.2 else info.videoDetails } := by
  obtain ⟨key, val⟩ := entry
  unfold populateMember
  split <;> simp_all

theorem streamMember_eq (info : InfoCtx) (entry : String × Val) :
    streamMember info entry =
      { info with
        sdFormats := if entry.1 = "formats" then some entry.2 else info.sdFormats
        sdAdaptiveFormats :=
          if entry.1 = "adaptiveFormats" then some entry.2 else info.sdAdaptiveFormats
        dashManifestUrl :=
          if entry.1 = "dashManifestUrl" then entry.2.asked.getStr
          else info.dashManifestUrl } := by
  obtain ⟨key, val⟩ := entry
  unfold streamMember
  split <;> simp_all

theorem populateMember_sd (info : InfoCtx) (entry : String × Val) :
    (populateMember info entry).sd =
      if entry.1 = "streamingData" then some entry.2 else info.sd := by
  rw [populateMember_eq]

theorem streamMember_formats (info : InfoCtx) (entry : String × Val) :
    (streamMember info entry).sdFormats =
      if entry.1 = "formats" then some entry.2 else info.sdFormats := by
  rw [streamMember_eq]

theorem streamMember_adaptiveFormats (info : InfoCtx) (entry : String × Val) :
    (streamMember info entry).sdAdaptiveFormats =
      if entry.1 = "adaptiveFormats" then some entry.2 else info.sdAdaptiveFormats := by
  rw [streamMember_eq]

/-- The loop over the player's response writes three members of the context. -/
theorem foldl_populateMember (members : List (String × Val)) (info : InfoCtx) :
    ∃ ps sd videoDetails, members.foldl populateMember info =
      { info with ps := ps, sd := sd, videoDetails := videoDetails } := by
  induction members generalizing info with
  | nil => exact ⟨_, _, _, rfl⟩
  | cons entry members ih =>
    obtain ⟨ps, sd, videoDetails, heq⟩ := ih (populateMember info entry)
    refine ⟨ps, sd, videoDetails, heq.trans ?_⟩
    rw [populateMember_eq]

/-- The loop over the streaming data writes three other members. -/
theorem foldl_streamMember (members : List (String × Val)) (info : InfoCtx) :
    ∃ sdFormats sdAdaptiveFormats dashManifestUrl, members.foldl streamMember info =
      { info with
        sdFormats := sdFormats
        sdAdaptiveFormats := sdAdaptiveFormats
        dashManifestUrl := dashManifestUrl } := by
  induction members generalizing info with
  | nil => exact ⟨_, _, _, rfl⟩
  | cons entry members ih =>
    obtain ⟨sdFormats, sdAdaptiveFormats, dashManifestUrl, heq⟩ := ih (streamMember info entry)
    refine ⟨sdFormats, sdAdaptiveFormats, dashManifestUrl, heq.trans ?_⟩
    rw [streamMember_eq]

end Members

section Extraction

variable {response : Option Val} {info next : InfoCtx} {allocs : Allocs}

theorem cached_init (response : Option Val) : Cached response (infoCtxInit response) where
  playerResponse := rfl
  sd := rfl
  formats := .inl rfl
  adaptiveFormats := .inl rfl
  empty := fun _ ↦ rfl

/-- Once its response has been looked through, a context knows its streaming data. -/
theorem Cached.populated (h : Cached response info) :
    Cached response (populatePrDat info) ∧ (populatePrDat info).sd = streamingData response := by
  rw [populatePrDat]
  split
  · next hpopulated =>
    refine ⟨h, ?_⟩
    rw [h.sd, if_pos hpopulated]
  · next hpopulated =>
    have hsd : ((info.playerResponse.elim [] Val.members).foldl populateMember info).sd =
        streamingData response := by
      rw [h.playerResponse]
      cases response with
      | none =>
        rw [Option.elim_none, List.foldl_nil, h.sd, if_neg hpopulated]
        rfl
      | some val =>
        rw [Option.elim_some, foldl_lastMember populateMember_sd, h.sd, if_neg hpopulated,
          Option.or_none]
        rfl
    obtain ⟨ps, sd, videoDetails, heq⟩ :=
      foldl_populateMember (info.playerResponse.elim [] Val.members) info
    rw [heq] at hsd ⊢
    exact ⟨⟨h.playerResponse, hsd, h.formats, h.adaptiveFormats, h.empty⟩, hsd⟩

/-- Once its streaming data has been looked through, a context knows the two arrays. -/
theorem Cached.streamMembers (h : Cached response info) {val : Val}
    (hval : streamingData response = some val) :
    Cached response (val.members.foldl streamMember info) ∧
      (val.members.foldl streamMember info).sdFormats = lastMember "formats" val ∧
      (val.members.foldl streamMember info).sdAdaptiveFormats =
        lastMember "adaptiveFormats" val := by
  have hknown {found known : Option Val} (h : known = none ∨ known = found) :
      found.or known = found := by
    obtain rfl | rfl := h
    · exact Option.or_none
    · exact Option.or_self
  have hformats := h.formats
  have hadaptive := h.adaptiveFormats
  rw [hval, Option.bind_some] at hformats hadaptive
  have hsdFormats := foldl_lastMember streamMember_formats val info
  have hsdAdaptive := foldl_lastMember streamMember_adaptiveFormats val info
  rw [hknown hformats] at hsdFormats
  rw [hknown hadaptive] at hsdAdaptive
  refine ⟨?_, hsdFormats, hsdAdaptive⟩
  obtain ⟨sdFormats, sdAdaptiveFormats, dashManifestUrl, heq⟩ :=
    foldl_streamMember val.members info
  rw [heq] at hsdFormats hsdAdaptive ⊢
  refine ⟨h.playerResponse, h.sd, .inr ?_, .inr ?_, h.empty⟩
  · rwa [hval]
  · rwa [hval]

/-- The extraction finds the two arrays of the response, if both are there. -/
theorem Cached.extract (h : Cached response info) (allocs : Allocs) :
    ∃ next, Cached response next ∧ infoExtractFormats allocs info =
      match formatArrays response with
      | none => (-1, next)
      | some (formats, adaptiveFormats) => allocFormats allocs formats adaptiveFormats next := by
  rw [infoExtractFormats]
  split
  · next hnone =>
    rw [h.playerResponse, Option.isNone_iff_eq_none] at hnone
    exact ⟨info, h, by rw [hnone]; rfl⟩
  · obtain ⟨hcached, hsd⟩ := h.populated
    generalize populatePrDat info = info at hcached hsd
    dsimp only
    rw [hsd]
    cases hval : streamingData response with
    | none =>
      refine ⟨info, hcached, ?_⟩
      rw [formatArrays, hval]
      rfl
    | some sd =>
      dsimp only
      obtain ⟨next, hnext, hcachedNext, hformats, hadaptive⟩ :
          ∃ next, (if info.sdFormats.isNone || info.sdAdaptiveFormats.isNone then
              sd.members.foldl streamMember info else info) = next ∧
            Cached response next ∧ next.sdFormats = lastMember "formats" sd ∧
              next.sdAdaptiveFormats = lastMember "adaptiveFormats" sd := by
        split
        · exact ⟨_, rfl, hcached.streamMembers hval⟩
        · next hboth =>
          rw [Bool.or_eq_true, not_or, Option.isNone_iff_eq_none, Option.isNone_iff_eq_none]
            at hboth
          have hformats := hcached.formats.resolve_left hboth.1
          have hadaptive := hcached.adaptiveFormats.resolve_left hboth.2
          rw [hval] at hformats hadaptive
          exact ⟨_, rfl, hcached, hformats, hadaptive⟩
      have harrays : formatArrays response = (lastMember "formats" sd).bind fun formats ↦
          (lastMember "adaptiveFormats" sd).bind fun adaptiveFormats ↦
            some (formats.elements, adaptiveFormats.elements) := by
        rw [formatArrays, hval]
        rfl
      refine ⟨next, hcachedNext, ?_⟩
      rw [hnext, hformats, hadaptive, harrays]
      cases lastMember "formats" sd with
      | none => rfl
      | some formats => cases lastMember "adaptiveFormats" sd <;> rfl

/-! ## Allocation -/

/-- The extraction of the formats writes the table and its size. -/
theorem allocFormats_eq (allocs : Allocs) (formats adaptiveFormats : List Val) (info : InfoCtx) :
    ∃ code table size, allocFormats allocs formats adaptiveFormats info =
      (code, { info with formats := table, formatsSize := size }) := by
  rw [allocFormats]
  dsimp only
  split
  · exact ⟨_, _, _, rfl⟩
  · split
    · exact ⟨_, _, _, rfl⟩
    · split
      · exact ⟨_, _, _, rfl⟩
      · exact ⟨_, _, _, rfl⟩

/-- The allocations for some formats all succeed. -/
def Allocs.Succeed (allocs : Allocs) (vals : List Val) : Prop :=
  vals ≠ [] → allocs.table = true ∧ ∀ index < vals.length, allocs.format index = true

variable {formats adaptiveFormats : List Val}

/-- The first loop, when it comes to its end. -/
theorem fill_formats (h : ∀ index < formats.length, allocs.format index = true)
    (adaptiveFormats : List Val) :
    fill allocs.format 0 formats
        (List.replicate (formats.length + adaptiveFormats.length) .uninit) =
      (true, formats.map .full ++ List.replicate adaptiveFormats.length .uninit) := by
  rw [List.replicate_add]
  refine fill_of_succeeds [] _ _ List.length_replicate fun index hindex ↦ ?_
  rw [List.length_nil, Nat.zero_add]
  exact h index hindex

/-- The second loop, when it comes to its end. -/
theorem fill_adaptiveFormats (formats : List Val)
    (h : ∀ index < adaptiveFormats.length, allocs.format (formats.length + index) = true) :
    fill allocs.format formats.length adaptiveFormats
        (formats.map .full ++ List.replicate adaptiveFormats.length .uninit) =
      (true, (formats ++ adaptiveFormats).map .full) := by
  have hlength : (formats.map (Slot.full (α := Val))).length = formats.length := List.length_map _
  have hfilled := fill_of_succeeds (formats.map .full)
    (List.replicate adaptiveFormats.length .uninit) [] List.length_replicate (hlength ▸ h)
  rwa [hlength, List.append_nil, List.append_nil, ← List.map_append] at hfilled

theorem allocFormats_of_succeed (hne : formats ++ adaptiveFormats ≠ [])
    (h : allocs.Succeed (formats ++ adaptiveFormats)) (info : InfoCtx) :
    allocFormats allocs formats adaptiveFormats info =
      (0, { info with
        formats := some ((formats ++ adaptiveFormats).map .full)
        formatsSize := (formats ++ adaptiveFormats).length }) := by
  obtain ⟨htable, hformat⟩ := h hne
  rw [List.length_append] at hformat
  have hfirst := fill_formats (fun index hindex ↦ hformat index (Nat.lt_add_right _ hindex))
    adaptiveFormats
  have hsecond := fill_adaptiveFormats formats fun index hindex ↦
    hformat _ (Nat.add_lt_add_left hindex _)
  simpa [allocFormats, htable, hfirst, hsecond] using hne

/-- When an allocation fails, the size of the table is there already. -/
theorem allocFormats_of_not_succeed (h : ¬ allocs.Succeed (formats ++ adaptiveFormats))
    (info : InfoCtx) :
    ∃ table, allocFormats allocs formats adaptiveFormats info =
        (1, { info with
          formats := table
          formatsSize := formats.length + adaptiveFormats.length }) ∧
      ¬ Initialised (formats.length + adaptiveFormats.length) (table.getD []) := by
  obtain ⟨hne, hfails⟩ := Classical.not_imp.mp h
  have hsize : formats.length + adaptiveFormats.length ≠ 0 := by
    rwa [← List.length_append, Ne, List.length_eq_zero_iff]
  rw [List.length_append] at hfails
  rw [allocFormats]
  dsimp only
  rw [if_neg hsize]
  by_cases htable : allocs.table = true
  · rw [if_neg (by simp [htable])]
    by_cases hfirst : ∀ index < formats.length, allocs.format index = true
    · -- the first loop comes to its end, so the second one does not
      rw [fill_formats hfirst]
      have hsecond : ¬ ∀ index < adaptiveFormats.length,
          allocs.format (formats.length + index) = true := by
        intro hall
        refine hfails ⟨htable, fun index hindex ↦ ?_⟩
        obtain hlt | hge := Nat.lt_or_ge index formats.length
        · exact hfirst index hlt
        · rw [← Nat.add_sub_cancel' hge]
          exact hall _ (by omega)
      obtain ⟨hfst, found, hfound, hnull⟩ := exists_null
        (formats.map .full ++ List.replicate adaptiveFormats.length .uninit) (by simp) hsecond
      exact ⟨some _, by simp [hfst], not_initialised_of_null hfound hnull⟩
    · have hstart : ¬ ∀ index < formats.length, allocs.format (0 + index) = true := by
        simpa using hfirst
      obtain ⟨hfst, found, hfound, hnull⟩ := exists_null
        (List.replicate (formats.length + adaptiveFormats.length) .uninit) (by simp) hstart
      exact ⟨some _, by simp [hfst], not_initialised_of_null (by omega) hnull⟩
  · rw [if_pos (by simp [htable])]
    exact ⟨none, rfl, not_initialised_nil (Nat.pos_of_ne_zero hsize)⟩

/-! ## The table after a call -/

/-- One call keeps what is known of a context. -/
theorem Cached.run (h : Cached response info) (call : Call) : Cached response (call.run info) := by
  cases call with
  | populatePrDat =>
    rw [Call.run]
    split
    · exact h
    · exact h.populated.1
  | extractFormats allocs =>
    obtain ⟨next, hnext, heq⟩ := h.extract allocs
    rw [Call.run, heq]
    cases harrays : formatArrays response with
    | none => exact hnext
    | some arrays =>
      obtain ⟨code, table, size, halloc⟩ := allocFormats_eq allocs arrays.1 arrays.2 next
      dsimp only
      rw [halloc]
      refine ⟨hnext.playerResponse, hnext.sd, hnext.formats, hnext.adaptiveFormats, fun hnone ↦ ?_⟩
      rw [harrays] at hnone
      cases hnone

theorem Cached.foldl (h : Cached response info) (calls : List Call) :
    Cached response (calls.foldl Call.run info) := by
  induction calls generalizing info with
  | nil => exact h
  | cons call calls ih => exact ih (h.run call)

/-- After a call every slot of the table holds a format, so the table can be gone through, and a
call that succeeds has put the formats of both arrays there, in their order. -/
structure Usable (response : Option Val) (result : ℤ × InfoCtx) : Prop where
  initialised : Initialised result.2.formatsSize (result.2.formats.getD [])
  free : (infoCtxFree result.2).isSome
  populate : result.2.toFormats.isSome
  order : result.1 = 0 → ∃ formats adaptiveFormats,
    formatArrays response = some (formats, adaptiveFormats) ∧
      result.2.table = some (formats ++ adaptiveFormats)

/-- What goes through the table meets initialised slots only. -/
theorem usable_of_initialised {result : ℤ × InfoCtx}
    (h : Initialised result.2.formatsSize (result.2.formats.getD []))
    (horder : result.1 = 0 → ∃ formats adaptiveFormats,
      formatArrays response = some (formats, adaptiveFormats) ∧
        result.2.table = some (formats ++ adaptiveFormats)) : Usable response result where
  initialised := h
  free := by
    rw [infoCtxFree]
    split
    · exact readTable_isSome.mpr h
    · rfl
  populate := by
    rw [InfoCtx.toFormats, Option.isSome_map]
    exact readTable_isSome.mpr h
  order := horder

/-- **The table of the formats** can be used after a call, exactly when no allocation of the call
fails. -/
theorem usable_iff (response : Option Val) (calls : List Call) (allocs : Allocs) :
    Usable response (infoExtractFormats allocs (calls.foldl Call.run (infoCtxInit response))) ↔
      ∀ formats adaptiveFormats, formatArrays response = some (formats, adaptiveFormats) →
        allocs.Succeed (formats ++ adaptiveFormats) := by
  obtain ⟨next, hnext, heq⟩ := ((cached_init response).foldl calls).extract allocs
  rw [heq]
  cases harrays : formatArrays response with
  | none =>
    refine iff_of_true (usable_of_initialised ?_ fun hzero ↦ ?_) fun _ _ hsome ↦ ?_
    · rw [show next.formatsSize = 0 from hnext.empty harrays]
      exact fun index hindex ↦ absurd hindex (Nat.not_lt_zero index)
    · cases hzero
    · cases hsome
  | some arrays =>
    obtain ⟨formats, adaptiveFormats⟩ := arrays
    dsimp only
    constructor
    · intro husable formats' adaptiveFormats' hsome
      obtain ⟨rfl, rfl⟩ := Prod.mk.inj (Option.some.inj hsome)
      by_contra hnot
      obtain ⟨table, halloc, hbroken⟩ := allocFormats_of_not_succeed hnot next
      rw [halloc] at husable
      exact hbroken husable.initialised
    · intro hsucceed
      have hsucceed := hsucceed formats adaptiveFormats rfl
      by_cases hne : formats ++ adaptiveFormats = []
      · obtain ⟨rfl, rfl⟩ := List.append_eq_nil_iff.mp hne
        refine usable_of_initialised ?_ fun hzero ↦ ?_
        · exact fun index hindex ↦ absurd hindex (Nat.not_lt_zero index)
        · cases hzero
      · rw [allocFormats_of_succeed hne hsucceed]
        have htable := readTable_full (formats ++ adaptiveFormats)
        refine usable_of_initialised ?_ fun _ ↦ ⟨formats, adaptiveFormats, harrays, htable⟩
        exact readTable_isSome.mp (by rw [Option.getD_some, htable]; rfl)

/-- A response with one format in each array. -/
def twoFormats : Val :=
  .obj [("streamingData", .obj
    [("formats", .arr [.obj [("itag", .scalar (.int 18))]]),
      ("adaptiveFormats", .arr [.obj [("itag", .scalar (.int 137))]])])]

/-- There is no memory for the first format: a null pointer is followed when the context is
freed. -/
theorem noFormat_not_usable :
    (infoExtractFormats ⟨true, fun index ↦ index ≠ 0⟩ (infoCtxInit (some twoFormats))).1 = 1 ∧
      infoCtxFree
        (infoExtractFormats ⟨true, fun index ↦ index ≠ 0⟩ (infoCtxInit (some twoFormats))).2 =
          none ∧
      ¬ Usable (some twoFormats)
        (infoExtractFormats ⟨true, fun index ↦ index ≠ 0⟩ (infoCtxInit (some twoFormats))) := by
  have hfree : infoCtxFree
      (infoExtractFormats ⟨true, fun index ↦ index ≠ 0⟩ (infoCtxInit (some twoFormats))).2 =
        none := rfl
  refine ⟨rfl, hfree, fun h ↦ ?_⟩
  have hsome := h.free
  rw [hfree] at hsome
  cases hsome

end Extraction

end LibYtdl.Info.ExtractFormats
