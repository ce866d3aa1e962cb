import LibYtdl.Dl.DashDownload

/-!
# The segments of a DASH download

The segments of the chosen stream are requested one after the other, the initialization segment
first. What the downloads wait for is always one of four things: the connection, one response, the
user, or nothing any more.
-/

namespace LibYtdl.Dl.DashSegments

open Machine Transition Cursor Dash.Manifest DashDownload

/-! ## What is known of the iterator -/

/-- What stays as it is: the callbacks of the user and where the segments come from. -/
structure Fixed (host path : Bytes) (ctx : Ctx) : Prop where
  onData : ctx.onData = true
  onSegmentComplete : ctx.onSegmentComplete = true
  host : ctx.host = host
  path : ctx.path = path

/-- How many things the download waits for: the connection, responses, the user, or nothing more
once it is complete. -/
def waits (download : Download) : ℕ :=
  (if download.connected then 0 else 1) + download.outstanding.length +
    (if download.owed then 1 else 0) + completions download.trace

/-- What holds of a download of these segments, whatever it waits for: some of them were requested,
and the iterator has the others still to come. -/
structure Ordered (host path : Bytes) (plan : List Bytes) (download : Download) : Prop where
  fixed : Fixed host path download.ctx
  handlers : download.connected = true → download.ctx.handlers = .segment
  inOrder : (answered download.trace).map Prod.fst ++ download.outstanding = sent download.trace
  delivered : delivered download.trace =
    ((answered download.trace).map Prod.snd).flatten ++ download.received
  received : download.outstanding = [] → download.received = []
  segmentCompletions : segmentCompletions download.trace = (answered download.trace).length
  planned : ∃ made ahead, made ++ ahead = plan ∧
    sent download.trace = made.map (⟨path, ·, host⟩) ∧
    (completions download.trace = 0 →
      Yields (nextStreamSegment download.ctx.isVideo) download.ctx.dash ahead) ∧
    (completions download.trace ≠ 0 → ahead = [])

/-- The next segment is due: nothing is waited for. -/
structure Due (host path : Bytes) (plan : List Bytes) (download : Download) : Prop
    extends Ordered host path plan download where
  waits : waits download = 0

/-- Between two events. -/
structure Inv (host path : Bytes) (plan : List Bytes) (download : Download) : Prop
    extends Ordered host path plan download where
  waits : waits download = 1

section Steps

variable {host path : Bytes} {plan : List Bytes} {download next : Download}

theorem Due.connected (h : Due host path plan download) : download.connected = true := by
  have hwaits := h.waits
  by_contra hconnected
  simp [DashSegments.waits, hconnected] at hwaits

theorem Due.outstanding (h : Due host path plan download) : download.outstanding = [] := by
  have hwaits := h.waits
  rw [DashSegments.waits] at hwaits
  exact List.eq_nil_of_length_eq_zero (by omega)

theorem Due.completions (h : Due host path plan download) : completions download.trace = 0 := by
  have hwaits := h.waits
  rw [DashSegments.waits] at hwaits
  omega

/-- A segment that is due is requested; when there is none, the download is complete. -/
theorem inv_requestSegment (h : Due host path plan download) :
    Inv host path plan (requestSegment download) := by
  have hwaits := h.waits
  have houtstanding := h.outstanding
  have hcompletions := h.completions
  have hinOrder := h.inOrder
  have hdelivered := h.delivered
  obtain ⟨made, ahead, hplan, hmade, hahead, -⟩ := h.planned
  have hyields := hahead hcompletions
  rw [houtstanding, List.append_nil] at hinOrder
  cases ahead with
  | nil =>
    obtain ⟨dash, hnext⟩ := hyields.none
    rw [requestSegment_none hnext]
    exact
      { fixed := ⟨h.fixed.onData, h.fixed.onSegmentComplete, h.fixed.host, h.fixed.path⟩
        handlers := h.handlers
        inOrder := by simp [houtstanding, hinOrder]
        delivered := by simpa using hdelivered
        received := h.received
        segmentCompletions := by simpa using h.segmentCompletions
        planned := ⟨made, [], hplan, by simpa using hmade, by simp, by simp⟩
        waits := by simpa [DashSegments.waits, ← add_assoc] using hwaits }
  | cons segment ahead =>
    obtain ⟨dash, hnext, hrest⟩ := hyields.some
    rw [requestSegment_some hnext, h.fixed.path, h.fixed.host]
    exact
      { fixed := ⟨h.fixed.onData, h.fixed.onSegmentComplete, h.fixed.host, h.fixed.path⟩
        handlers := h.handlers
        inOrder := by simp [houtstanding, hinOrder]
        delivered := by simpa using hdelivered
        received := by simp
        segmentCompletions := by simpa using h.segmentCompletions
        planned :=
          ⟨made ++ [segment], ahead, by simpa using hplan, by simp [hmade], fun _ ↦ hrest,
            by simp [hcompletions]⟩
        waits := by
          simp only [DashSegments.waits] at hwaits
          simp [DashSegments.waits]
          omega }

/-- The connection is up. -/
theorem inv_connected (h : Inv host path plan download) (hconnected : download.connected = false) :
    Inv host path plan (dashSegmentConnectedCb { download with connected := true }) := by
  have hwaits := h.waits
  simp only [DashSegments.waits, hconnected, Bool.false_eq_true, if_false] at hwaits
  apply inv_requestSegment
  exact
    { fixed := ⟨h.fixed.onData, h.fixed.onSegmentComplete, h.fixed.host, h.fixed.path⟩
      handlers := fun _ ↦ rfl
      inOrder := h.inOrder
      delivered := h.delivered
      received := h.received
      segmentCompletions := h.segmentCompletions
      planned := h.planned
      waits := by
        simp only [DashSegments.waits, if_true]
        omega }

theorem inv_body (h : Inv host path plan download) (houtstanding : download.outstanding ≠ [])
    (fragment : Bytes) : Inv host path plan (bodyEvent fragment download) := by
  have hbody : bodyEvent fragment download =
      { download with
        received := download.received ++ fragment
        trace := download.trace ++ [.data fragment] } := by
    simp [bodyEvent, dashEchoCb, h.fixed.onData, Download.emit]
  rw [hbody]
  exact
    { fixed := h.fixed
      handlers := h.handlers
      inOrder := by simpa using h.inOrder
      delivered := by simp [h.delivered]
      received := fun hnil ↦ absurd hnil houtstanding
      segmentCompletions := by simpa using h.segmentCompletions
      planned := by simpa using h.planned
      waits := by simpa [DashSegments.waits] using h.waits }

/-- The response to a request has ended, and `on_segment_complete` was called. -/
theorem ordered_segmentEnded {request : Request} {outstanding : List Request}
    (h : Inv host path plan download) (houtstanding : download.outstanding = request :: outstanding)
    (pause asks : Bool) :
    Ordered host path plan
      (segmentEnded pause asks (answerEnded request outstanding download)) := by
  have hinOrder := h.inOrder
  rw [houtstanding] at hinOrder
  exact
    { fixed := ⟨h.fixed.onData, h.fixed.onSegmentComplete, h.fixed.host, h.fixed.path⟩
      handlers := h.handlers
      inOrder := by simpa [segmentEnded, answerEnded] using hinOrder
      delivered := by simp [segmentEnded, answerEnded, h.delivered]
      received := fun _ ↦ rfl
      segmentCompletions := by simp [segmentEnded, answerEnded, h.segmentCompletions]
      planned := by simpa [segmentEnded, answerEnded] using h.planned }

/-- Then the download waits for the user, if it does, and for nothing else. -/
theorem waits_segmentEnded {request : Request} {outstanding : List Request}
    (h : Inv host path plan download) (houtstanding : download.outstanding = request :: outstanding)
    {pause asks owed : Bool} (howed : (pause && !asks) = owed) :
    waits (segmentEnded pause asks (answerEnded request outstanding download)) =
      if owed then 1 else 0 := by
  have hwaits := h.waits
  have hcompletions : completions (download.trace ++ [.answered request download.received] ++
      [.segmentComplete]) = completions download.trace := by
    simp
  simp only [DashSegments.waits, houtstanding, List.length_cons] at hwaits
  simp only [DashSegments.waits, segmentEnded, answerEnded, hcompletions, howed]
  omega

theorem inv_messageComplete {request : Request} {outstanding : List Request}
    (h : Inv host path plan download) (houtstanding : download.outstanding = request :: outstanding)
    {pause asks : Bool} (honce : asks = true → pause = true) :
    Inv host path plan
      (dashSegmentCompleteCb pause asks (answerEnded request outstanding download)) := by
  have hordered := ordered_segmentEnded h houtstanding pause asks
  have hcallback : (answerEnded request outstanding download).ctx.onSegmentComplete = true :=
    h.fixed.onSegmentComplete
  rw [dashSegmentCompleteCb_eq hcallback honce]
  split
  · next howed => exact ⟨hordered, waits_segmentEnded h houtstanding howed⟩
  · next howed =>
    exact inv_requestSegment
      ⟨hordered, waits_segmentEnded h houtstanding (Bool.eq_false_iff.mpr howed)⟩

theorem inv_nextChunk (h : Inv host path plan download) (howed : download.owed = true) :
    Inv host path plan (dashCtxNextChunk { download with owed := false }) := by
  have hwaits := h.waits
  simp only [DashSegments.waits, howed, if_true] at hwaits
  apply inv_requestSegment
  exact
    { fixed := h.fixed
      handlers := h.handlers
      inOrder := h.inOrder
      delivered := h.delivered
      received := h.received
      segmentCompletions := h.segmentCompletions
      planned := h.planned
      waits := by
        simp only [DashSegments.waits, Bool.false_eq_true, if_false]
        omega }

theorem inv_setPause (h : Inv host path plan download) (pause : Bool) :
    Inv host path plan
      { download with ctx := { download.ctx with pauseBetweenChunks := pause } } where
  fixed := ⟨h.fixed.onData, h.fixed.onSegmentComplete, h.fixed.host, h.fixed.path⟩
  handlers := h.handlers
  inOrder := h.inOrder
  delivered := h.delivered
  received := h.received
  segmentCompletions := h.segmentCompletions
  planned := h.planned
  waits := h.waits

end Steps

/-! ## Runs -/

/-- The user asks for the next segment once per segment while paused: inside `on_segment_complete`
or later. -/
def OncePerSegment : Download → Event → Download → Prop
  | _, .messageComplete pause asks, _ => asks = true → pause = true
  | download, .nextChunk, _ => download.owed = true
  | _, _, _ => True

instance (download : Download) : (event : Event) → (next : Download) →
    Decidable (OncePerSegment download event next)
  | .messageComplete _ _, _ => inferInstanceAs (Decidable (_ → _))
  | .nextChunk, _ => inferInstanceAs (Decidable (_ = _))
  | .connected, _ | .body _, _ | .setPause _, _ => isTrue trivial

theorem inv_step {host path : Bytes} {plan : List Bytes} {download next : Download} {event : Event}
    (hinv : Inv host path plan download) (honce : OncePerSegment download event next)
    (hstep : step download event = some next) : Inv host path plan next := by
  cases event with
  | connected =>
    obtain ⟨hconnected, rfl⟩ := step_connected hstep
    exact inv_connected hinv hconnected
  | body fragment =>
    obtain ⟨houtstanding, rfl⟩ := step_body hstep
    exact inv_body hinv houtstanding fragment
  | messageComplete pause asks =>
    obtain ⟨request, outstanding, houtstanding, rfl⟩ := step_messageComplete hstep
    exact inv_messageComplete hinv houtstanding honce
  | nextChunk =>
    obtain rfl := step_nextChunk hstep
    exact inv_nextChunk hinv honce
  | setPause pause =>
    obtain rfl := step_setPause hstep
    exact inv_setPause hinv pause

/-- The download makes these requests in order: one at a time, each once, and each is answered
before the next one is made. `on_data` receives the bodies of the responses in that order,
`on_segment_complete` is called once for each response, and `on_complete` once, when every request
was answered. A download that waits for nothing is complete. -/
structure Follows (plan : List Request) (download : Download) : Prop where
  outstanding_le : download.outstanding.length ≤ 1
  planned : sent download.trace <+: plan
  inOrder : (answered download.trace).map Prod.fst ++ download.outstanding = sent download.trace
  delivered : delivered download.trace =
    ((answered download.trace).map Prod.snd).flatten ++ download.received
  received : download.outstanding = [] → download.received = []
  segmentCompletions : segmentCompletions download.trace = (answered download.trace).length
  completions_le : completions download.trace ≤ 1
  completed : completions download.trace = 1 → (answered download.trace).map Prod.fst = plan
  finished : download.connected = true → download.outstanding = [] → download.owed = false →
    completions download.trace = 1

theorem Inv.follows {host path : Bytes} {plan : List Bytes} {download : Download}
    (h : Inv host path plan download) : Follows (plan.map (⟨path, ·, host⟩)) download := by
  have hwaits := h.waits
  rw [DashSegments.waits] at hwaits
  obtain ⟨made, ahead, rfl, hmade, -, hcomplete⟩ := h.planned
  exact
    { outstanding_le := by omega
      planned := by
        rw [hmade, List.map_append]
        exact List.prefix_append _ _
      inOrder := h.inOrder
      delivered := h.delivered
      received := h.received
      segmentCompletions := h.segmentCompletions
      completions_le := by omega
      completed := by
        intro hcompletions
        have houtstanding : download.outstanding = [] :=
          List.eq_nil_of_length_eq_zero (by omega)
        have hinOrder := h.inOrder
        rw [houtstanding, List.append_nil] at hinOrder
        rw [hinOrder, hmade, hcomplete (by omega), List.append_nil]
      finished := by
        intro hconnected houtstanding howed
        simpa [hconnected, houtstanding, howed] using hwaits }

/-- After `ytdl_dl_dash_load_fork`, the segments of the picked representation are still to come. -/
theorem inv_ready {library : Library} {ctx started : Ctx} (hdata : ctx.onData = true)
    (hsegment : ctx.onSegmentComplete = true) (hload : dashLoadFork library ctx = some started)
    (hmedia : ∀ rep, (started.dash.stream started.isVideo).rep = some rep → Complete rep) :
    ∃ rep, (started.dash.stream started.isVideo).rep = some rep ∧
      Inv started.host started.path (plan rep) (Download.ready started) := by
  simp only [dashLoadFork, Option.bind_eq_bind, Option.bind_eq_some_iff, Option.pure_def,
    Option.some.injEq] at hload
  obtain ⟨root, -, dash, hformat, baseUrl, -, ⟨host, path⟩, -, rfl⟩ := hload
  obtain ⟨rep, hrep, hpending, hcomplete⟩ := getFormat_stream hformat ctx.isVideo
  have hyields := yields_pending (hcomplete (hmedia rep hrep))
  rw [hpending] at hyields
  refine ⟨rep, hrep, ?_⟩
  exact
    { fixed := ⟨hdata, hsegment, rfl, rfl⟩
      handlers := nofun
      inOrder := rfl
      delivered := rfl
      received := fun _ ↦ rfl
      segmentCompletions := rfl
      planned := ⟨[], plan rep, rfl, rfl, fun _ ↦ yields_nextStreamSegment ctx.isVideo hyields rfl,
        fun h ↦ absurd rfl h⟩
      waits := rfl }

/-- **DASH download order.** For every manifest with a format and a base URL, and every run in which
the user asks once per segment, the download makes the requests for the segments of the chosen
representation in order. -/
theorem segments_in_order (library : Library) (ctx started : Ctx) (hdata : ctx.onData = true)
    (hsegment : ctx.onSegmentComplete = true) (hload : dashLoadFork library ctx = some started)
    (hmedia : ∀ rep, (started.dash.stream started.isVideo).rep = some rep → Complete rep)
    (events : List Event) (honce : Each step OncePerSegment (Download.ready started) events) :
    ∃ rep, (started.dash.stream started.isVideo).rep = some rep ∧
      Always step (Follows ((plan rep).map fun segment ↦ ⟨started.path, segment, started.host⟩))
        (Download.ready started) events := by
  obtain ⟨rep, hrep, hready⟩ := inv_ready hdata hsegment hload hmedia
  have halways := always_of_invariant (fun _ _ _ hinv hguard ↦ inv_step hinv hguard) hready honce
  exact ⟨rep, hrep, halways.mono fun _ hinv ↦ hinv.follows⟩

/-- A representation with an initialization segment and two others. -/
def exampleRepresentation : XmlNode :=
  .element representation []
    [.element baseURL [] [.other [104]],
      .element segmentListName []
        [.element initialization [(sourceURL, [48])] [], .other [10],
          .element segmentURL [(media, [49])] [], .element segmentURL [(media, [50])] []]]

def exampleManifest : XmlNode :=
  .element mpd []
    [.element period []
      [.element adaptationSet [(mimeType, audio)] [exampleRepresentation],
        .element adaptationSet [(mimeType, video)] [exampleRepresentation]]]

def exampleLibrary : Library where
  xmlReadMemory _ := some exampleManifest
  nodeListGetString _ := some [104]
  parseUrl _ := some ([104], [47])

/-- A context whose callbacks are set, before its manifest is read. -/
def exampleCtx : Ctx where
  onData := true
  onSegmentComplete := true
  onPickFilter bandwidth _ _ _ := (true, bandwidth)
  manifest := []
  dash := ⟨.zeroed, .zeroed⟩
  host := []
  path := []
  isVideo := true
  pauseBetweenChunks := false
  handlers := .manifest

/-- The context with the manifest read. -/
def exampleStarted : Ctx :=
  let stream : Stream :=
    { rep := some exampleRepresentation
      bandwidth := 0
      baseUrl := some [104]
      segmentPath := none
      initialSegment := some [48]
      segmentList :=
        [.element initialization [(sourceURL, [48])] [], .other [10],
          .element segmentURL [(media, [49])] [], .element segmentURL [(media, [50])] []]
      segmentCount := 3 }
  { exampleCtx with dash := ⟨stream, stream⟩, host := [104], path := [47] }

theorem segments_in_order_example :
    ∃ rep, (exampleStarted.dash.stream exampleStarted.isVideo).rep = some rep ∧
      Always step
        (Follows ((plan rep).map fun segment ↦ ⟨exampleStarted.path, segment, exampleStarted.host⟩))
        (Download.ready exampleStarted)
        [.connected, .body [1], .messageComplete false false, .messageComplete true false,
          .nextChunk, .body [2], .body [3], .messageComplete true true] :=
  segments_in_order exampleLibrary exampleCtx exampleStarted rfl rfl rfl
    (by
      rintro rep ⟨⟩ segmentList ⟨⟩
      decide)
    _ (by decide)

end LibYtdl.Dl.DashSegments
