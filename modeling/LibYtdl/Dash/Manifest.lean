import LibYtdl.Foundation.Machine
import LibYtdl.Foundation.Cursor

/-!
# The manifest of a DASH stream

`ytdl_dash_get_format` picks a representation for the audio and one for the video of a manifest.
Each has a base URL and a segment list; `ytdl_dash_next_video_segment` and
`ytdl_dash_next_audio_segment` go through the latter.

The XML library is a parameter: what it finds of a document, and the text of a list of nodes.
-/

namespace LibYtdl.Dash.Manifest

open Machine Cursor

/-- A node of a document; the nodes that are not elements are not told apart. -/
inductive XmlNode
  | element (name : Bytes) (properties : List (Bytes × Bytes)) (children : List XmlNode)
  | other (content : Bytes)

def XmlNode.children : XmlNode → List XmlNode
  | .element _ _ children => children
  | .other _ => []

/-- Whether a node is an element of this name. -/
def XmlNode.isElement (name : Bytes) : XmlNode → Bool
  | .element name' _ _ => name' = name
  | .other _ => false

/-- `xmlGetProp`. -/
def XmlNode.getProp (name : Bytes) : XmlNode → Option Bytes
  | .element _ properties _ => properties.lookup name
  | .other _ => none

/-! ## The names that are looked for -/

/-- The string `MPD`. -/
def mpd : Bytes := [77, 80, 68]

/-- The string `Period`. -/
def period : Bytes := [80, 101, 114, 105, 111, 100]

/-- The string `AdaptationSet`. -/
def adaptationSet : Bytes := [65, 100, 97, 112, 116, 97, 116, 105, 111, 110, 83, 101, 116]

/-- The string `Representation`. -/
def representation : Bytes :=
  [82, 101, 112, 114, 101, 115, 101, 110, 116, 97, 116, 105, 111, 110]

/-- The string `BaseURL`. -/
def baseURL : Bytes := [66, 97, 115, 101, 85, 82, 76]

/-- The string `SegmentList`. -/
def segmentListName : Bytes := [83, 101, 103, 109, 101, 110, 116, 76, 105, 115, 116]

/-- The string `Initialization`. -/
def initialization : Bytes :=
  [73, 110, 105, 116, 105, 97, 108, 105, 122, 97, 116, 105, 111, 110]

/-- The string `SegmentURL`. -/
def segmentURL : Bytes := [83, 101, 103, 109, 101, 110, 116, 85, 82, 76]

/-- The string `mimeType`. -/
def mimeType : Bytes := [109, 105, 109, 101, 84, 121, 112, 101]

/-- The string `audio`. -/
def audio : Bytes := [97, 117, 100, 105, 111]

/-- The string `video`. -/
def video : Bytes := [118, 105, 100, 101, 111]

/-- The string `sourceURL`. -/
def sourceURL : Bytes := [115, 111, 117, 114, 99, 101, 85, 82, 76]

/-- The string `bandwidth`. -/
def bandwidthName : Bytes := [98, 97, 110, 100, 119, 105, 100, 116, 104]

/-- The string `media`. -/
def media : Bytes := [109, 101, 100, 105, 97]

/-! ## The functions of `dash.c` -/

/-- The fields of one stream in `ytdl_dash_ctx_t`: those that begin with `a_` or with `v_`. The node
`segmentList` is kept with the siblings behind it. -/
structure Stream where
  rep : Option XmlNode
  bandwidth : ℤ
  baseUrl : Option Bytes
  segmentPath : Option Bytes
  initialSegment : Option Bytes
  segmentList : List XmlNode
  segmentCount : ℕ

/-- `ytdl_dash_ctx_t`, next to its document. -/
structure DashCtx where
  audio : Stream
  video : Stream

def DashCtx.stream (ctx : DashCtx) (isVideo : Bool) : Stream :=
  if isVideo then ctx.video else ctx.audio

def DashCtx.setStream (ctx : DashCtx) (isVideo : Bool) (stream : Stream) : DashCtx :=
  if isVideo then { ctx with video := stream } else { ctx with audio := stream }

/-- `memset`. -/
def Stream.zeroed : Stream := ⟨none, 0, none, none, none, [], 0⟩

/-- A filter is given the bandwidth of the stream that was picked last, the adaptation set and the
representation; it may change the bandwidth. -/
abbrev PickFilter := ℤ → XmlNode → XmlNode → Bool → Bool × ℤ

/-- `ytdl_dash_get_best_representation`; `atoll` is the one of the C library. -/
def getBestRepresentation (atoll : Bytes → ℤ) : PickFilter :=
  fun bandwidth _ representation _ ↦
    match representation.getProp bandwidthName with
    | none => (false, bandwidth)
    | some attr => if bandwidth < atoll attr then (true, atoll attr) else (false, bandwidth)

/-- One iteration of `ytdl__dash_representation_pick`. -/
def pickRepresentation (onPickFilter : PickFilter) (adaptation : XmlNode) (isVideo : Bool)
    (stream : Stream) (repNode : XmlNode) : Stream :=
  if repNode.isElement representation then
    let (picked, bandwidth) := onPickFilter stream.bandwidth adaptation repNode isVideo
    let stream := { stream with bandwidth := bandwidth }
    if picked then { stream with rep := some repNode } else stream
  else
    stream

/-- `ytdl__dash_representation_pick`. -/
def representationPick (onPickFilter : PickFilter) (adaptation : XmlNode) (isVideo : Bool)
    (ctx : DashCtx) : DashCtx :=
  ctx.setStream isVideo
    (adaptation.children.foldl (pickRepresentation onPickFilter adaptation isVideo)
      (ctx.stream isVideo))

/-- What `ytdl_dash_get_format` does with an attribute of an adaptation set. -/
def pickAttribute (onPickFilter : PickFilter) (adaptation : XmlNode) (ctx : DashCtx)
    (attr : Bytes × Bytes) : DashCtx :=
  if attr.1 = mimeType then
    if audio.isPrefixOf attr.2 then representationPick onPickFilter adaptation false ctx
    else if video.isPrefixOf attr.2 then representationPick onPickFilter adaptation true ctx
    else ctx
  else
    ctx

/-- What `ytdl_dash_get_format` does with a child of the period. -/
def pickAdaptation (onPickFilter : PickFilter) (ctx : DashCtx) : XmlNode → DashCtx
  | .element name properties children =>
    if name = adaptationSet then
      properties.foldl (pickAttribute onPickFilter (.element name properties children)) ctx
    else
      ctx
  | .other _ => ctx

/-- The loop over the children of a representation, with the base URL and the segment list found so
far. -/
def readRepresentation (nodeListGetString : List XmlNode → Option Bytes)
    (found : Option Bytes × Option XmlNode) (node : XmlNode) : Option Bytes × Option XmlNode :=
  if node.isElement baseURL then (nodeListGetString node.children, found.2)
  else if node.isElement segmentListName then (found.1, some node)
  else found

/-- The loop over the children of a segment list. -/
def countSegment (stream : Stream) (node : XmlNode) : Stream :=
  if node.isElement initialization then
    { stream with
      initialSegment := node.getProp sourceURL
      segmentCount := stream.segmentCount + 1 }
  else if node.isElement segmentURL then
    { stream with segmentCount := stream.segmentCount + 1 }
  else
    stream

/-- What `ytdl_dash_get_format` fills in of a stream, from its representation. -/
def readStream (nodeListGetString : List XmlNode → Option Bytes) (stream : Stream) :
    Option Stream := do
  let rep ← stream.rep
  let (baseUrl, segmentList) :=
    rep.children.foldl (readRepresentation nodeListGetString) (stream.baseUrl, none)
  let baseUrl ← baseUrl
  let segmentList ← segmentList
  let stream := segmentList.children.foldl countSegment { stream with baseUrl := some baseUrl }
  return { stream with segmentList := segmentList.children }

/-- `ytdl_dash_get_format`, for a context that was just initialised. The value is `none` where it
returns -1, and where the root has no element to be the period. -/
def getFormat (nodeListGetString : List XmlNode → Option Bytes) (onPickFilter : PickFilter)
    (root : XmlNode) : Option DashCtx := do
  guard (root.isElement mpd)
  let periodEl ← root.children.find? fun node ↦ node matches .element ..
  guard (periodEl.isElement period)
  let ctx := periodEl.children.foldl (pickAdaptation onPickFilter) ⟨.zeroed, .zeroed⟩
  let audio ← readStream nodeListGetString ctx.audio
  let video ← readStream nodeListGetString ctx.video
  return ⟨audio, video⟩

/-- The loop of `ytdl_dash_next_video_segment` and `ytdl_dash_next_audio_segment`. -/
def nextSegmentUrl (stream : Stream) : List XmlNode → Option Bytes × Stream
  | [] => (none, { stream with segmentList := [] })
  | node :: segmentList =>
    if node.isElement segmentURL then
      (node.getProp media,
        { stream with segmentPath := node.getProp media, segmentList := segmentList })
    else
      nextSegmentUrl stream segmentList

/-- What the two functions do with their stream. -/
def nextSegment (stream : Stream) : Option Bytes × Stream :=
  if stream.segmentPath = none ∧ stream.initialSegment ≠ none then
    (stream.initialSegment, { stream with segmentPath := stream.initialSegment })
  else
    nextSegmentUrl { stream with segmentPath := none } stream.segmentList

/-- `ytdl_dash_next_video_segment`. -/
def nextVideoSegment (ctx : DashCtx) : Option Bytes × DashCtx :=
  let (segment, stream) := nextSegment ctx.video
  (segment, { ctx with video := stream })

/-- `ytdl_dash_next_audio_segment`. -/
def nextAudioSegment (ctx : DashCtx) : Option Bytes × DashCtx :=
  let (segment, stream) := nextSegment ctx.audio
  (segment, { ctx with audio := stream })

/-- The function for the stream that is downloaded. -/
def nextStreamSegment (isVideo : Bool) (ctx : DashCtx) : Option Bytes × DashCtx :=
  if isVideo then nextVideoSegment ctx else nextAudioSegment ctx

/-! ## The segments of a representation -/

/-- The segment list of a representation, the last one if there are several. -/
def segmentListOf (rep : XmlNode) : Option XmlNode :=
  (rep.children.filter (XmlNode.isElement segmentListName)).getLast?

/-- The URL of the initialization segment, the last one if there are several. -/
def initialOf (segmentList : XmlNode) : Option Bytes :=
  (segmentList.children.filter (XmlNode.isElement initialization)).getLast?.bind
    (XmlNode.getProp sourceURL)

/-- The elements for the other segments. -/
def segmentNodes (nodes : List XmlNode) : List XmlNode :=
  nodes.filter (XmlNode.isElement segmentURL)

/-- The segments of a representation: the initialization segment, if there is one, and each segment
URL in document order. -/
def plan (rep : XmlNode) : List Bytes :=
  match segmentListOf rep with
  | none => []
  | some segmentList =>
    (initialOf segmentList).toList ++
      (segmentNodes segmentList.children).filterMap (XmlNode.getProp media)

/-- Every segment URL has a `media` attribute. -/
def HasMedia (nodes : List XmlNode) : Prop :=
  ∀ node ∈ segmentNodes nodes, (node.getProp media).isSome

instance (nodes : List XmlNode) : Decidable (HasMedia nodes) :=
  inferInstanceAs (Decidable (∀ node ∈ segmentNodes nodes, (node.getProp media).isSome = true))

/-- Every segment URL of the representation has a `media` attribute. -/
def Complete (rep : XmlNode) : Prop :=
  ∀ segmentList, segmentListOf rep = some segmentList → HasMedia segmentList.children

/-! ## The segments of a stream -/

/-- What is still to come of a stream. -/
def pending (stream : Stream) : List Bytes :=
  (if stream.segmentPath = none then stream.initialSegment.toList else []) ++
    (segmentNodes stream.segmentList).filterMap (XmlNode.getProp media)

theorem segmentNodes_cons_of_isElement {node : XmlNode} (hnode : node.isElement segmentURL = true)
    (nodes : List XmlNode) : segmentNodes (node :: nodes) = node :: segmentNodes nodes :=
  List.filter_cons_of_pos hnode

theorem segmentNodes_cons_of_not_isElement {node : XmlNode}
    (hnode : ¬ node.isElement segmentURL = true) (nodes : List XmlNode) :
    segmentNodes (node :: nodes) = segmentNodes nodes :=
  List.filter_cons_of_neg hnode

/-- The loop stops at the next segment URL. -/
theorem nextSegmentUrl_eq (stream : Stream) (nodes : List XmlNode) :
    (segmentNodes nodes = [] ∧
      nextSegmentUrl stream nodes = (none, { stream with segmentList := [] })) ∨
      ∃ node rest, segmentNodes nodes = node :: segmentNodes rest ∧
        nextSegmentUrl stream nodes =
          (node.getProp media,
            { stream with segmentPath := node.getProp media, segmentList := rest }) := by
  induction nodes with
  | nil => exact .inl ⟨rfl, rfl⟩
  | cons node nodes ih =>
    by_cases hnode : node.isElement segmentURL = true
    · right
      exact ⟨node, nodes, segmentNodes_cons_of_isElement hnode nodes,
        by rw [nextSegmentUrl, if_pos hnode]⟩
    · rw [nextSegmentUrl, if_neg hnode, segmentNodes_cons_of_not_isElement hnode]
      exact ih

/-- The first call gives the initialization segment, if there is one. -/
theorem nextSegment_initial {stream : Stream} {initial : Bytes}
    (hpath : stream.segmentPath = none) (hinitial : stream.initialSegment = some initial) :
    nextSegment stream = (some initial, { stream with segmentPath := some initial }) := by
  rw [nextSegment, if_pos ⟨hpath, by simp [hinitial]⟩, hinitial]

/-- Every other call goes on in the segment list. -/
theorem nextSegment_listed {stream : Stream}
    (hlisted : ¬ (stream.segmentPath = none ∧ stream.initialSegment ≠ none)) :
    nextSegment stream = nextSegmentUrl { stream with segmentPath := none } stream.segmentList ∧
      pending stream = (segmentNodes stream.segmentList).filterMap (XmlNode.getProp media) := by
  refine ⟨if_neg hlisted, ?_⟩
  rw [pending]
  by_cases hpath : stream.segmentPath = none
  · have hinitial : stream.initialSegment = none := by
      by_contra hne
      exact hlisted ⟨hpath, hne⟩
    rw [if_pos hpath, hinitial]
    rfl
  · rw [if_neg hpath]
    rfl

theorem nextSegment_done {stream : Stream} (hpending : pending stream = []) :
    ∃ last, nextSegment stream = (none, last) := by
  by_cases hfirst : stream.segmentPath = none ∧ stream.initialSegment ≠ none
  · obtain ⟨hpath, hinitial⟩ := hfirst
    obtain ⟨initial, hinitial⟩ := Option.ne_none_iff_exists'.mp hinitial
    simp [pending, hpath, hinitial] at hpending
  · obtain ⟨hnext, heq⟩ := nextSegment_listed hfirst
    rw [hnext]
    rw [heq] at hpending
    obtain ⟨-, hloop⟩ | ⟨node, rest, hnodes, hloop⟩ :=
      nextSegmentUrl_eq { stream with segmentPath := none } stream.segmentList
    · exact ⟨_, hloop⟩
    · have hmedia : node.getProp media = none := by
        rw [hnodes] at hpending
        exact List.filterMap_eq_nil_iff.mp hpending node List.mem_cons_self
      rw [hmedia] at hloop
      exact ⟨_, hloop⟩

theorem nextSegment_item {stream : Stream} {segment : Bytes} {segments : List Bytes}
    (hmedia : HasMedia stream.segmentList) (hpending : pending stream = segment :: segments) :
    ∃ rest, nextSegment stream = (some segment, rest) ∧ HasMedia rest.segmentList ∧
      pending rest = segments := by
  by_cases hfirst : stream.segmentPath = none ∧ stream.initialSegment ≠ none
  · obtain ⟨hpath, hinitial⟩ := hfirst
    obtain ⟨initial, hinitial⟩ := Option.ne_none_iff_exists'.mp hinitial
    rw [pending, if_pos hpath, hinitial] at hpending
    obtain ⟨rfl, rfl⟩ := List.cons.inj hpending
    exact ⟨_, nextSegment_initial hpath hinitial, hmedia, by simp [pending]⟩
  · obtain ⟨hnext, heq⟩ := nextSegment_listed hfirst
    rw [heq] at hpending
    obtain ⟨hnodes, -⟩ | ⟨node, rest, hnodes, hloop⟩ :=
      nextSegmentUrl_eq { stream with segmentPath := none } stream.segmentList
    · rw [hnodes] at hpending
      cases hpending
    · rw [HasMedia, hnodes] at hmedia
      obtain ⟨path, hpath⟩ := Option.isSome_iff_exists.mp (hmedia node List.mem_cons_self)
      rw [hnodes, List.filterMap_cons_some hpath] at hpending
      obtain ⟨rfl, rfl⟩ := List.cons.inj hpending
      rw [hpath] at hloop
      refine ⟨_, hnext.trans hloop, ?_, by simp [pending]⟩
      exact fun other hother ↦ hmedia other (List.mem_cons_of_mem node hother)

/-- A stream gives its pending segments. -/
theorem yields_pending {stream : Stream} (hmedia : HasMedia stream.segmentList) :
    Yields nextSegment stream (pending stream) :=
  yields_of_pending (fun _ _ ↦ nextSegment_done) (fun _ _ _ ↦ nextSegment_item) hmedia

/-! ## What is picked -/

/-- A loop that keeps what it reads of the last node of a kind. -/
theorem foldl_last {α β γ : Type} (step : β → α → β) (kind : α → Bool) (read : α → Option γ)
    (field : β → Option γ)
    (hkind : ∀ found node, kind node = true → field (step found node) = read node)
    (hother : ∀ found node, kind node = false → field (step found node) = field found)
    (nodes : List α) (found : β) :
    field (nodes.foldl step found) =
      match (nodes.filter kind).getLast? with
      | none => field found
      | some node => read node := by
  induction nodes generalizing found with
  | nil => rfl
  | cons node nodes ih =>
    rw [List.foldl_cons, ih]
    by_cases hnode : kind node = true
    · rw [List.filter_cons_of_pos hnode, List.getLast?_cons, hkind found node hnode]
      cases (nodes.filter kind).getLast? <;> rfl
    · rw [List.filter_cons_of_neg hnode, hother found node (Bool.eq_false_iff.mpr hnode)]

theorem isElement_unique {node : XmlNode} {name other : Bytes} (hnode : node.isElement name = true)
    (hne : name ≠ other) : node.isElement other = false := by
  cases node with
  | other content => rfl
  | element name' properties children =>
    simp only [XmlNode.isElement, decide_eq_true_eq, decide_eq_false_iff_not] at hnode ⊢
    rw [hnode]
    exact hne

/-- The segment list is the last one of the representation. -/
theorem readRepresentation_segmentList (nodeListGetString : List XmlNode → Option Bytes)
    (rep : XmlNode) (baseUrl : Option Bytes) :
    (rep.children.foldl (readRepresentation nodeListGetString) (baseUrl, none)).2 =
      segmentListOf rep := by
  have hlast := foldl_last (readRepresentation nodeListGetString)
    (XmlNode.isElement segmentListName) some Prod.snd
    (fun found node hnode ↦ by
      rw [readRepresentation, isElement_unique hnode (by decide), if_neg (by simp), if_pos hnode])
    (fun found node hnode ↦ by
      rw [readRepresentation, hnode]
      split <;> rfl)
    rep.children (baseUrl, none)
  rw [hlast, segmentListOf]
  cases (rep.children.filter (XmlNode.isElement segmentListName)).getLast? <;> rfl

/-- The initialization segment is the last one of the segment list. -/
theorem countSegment_initialSegment (segmentList : XmlNode) {stream : Stream}
    (hinitial : stream.initialSegment = none) :
    (segmentList.children.foldl countSegment stream).initialSegment = initialOf segmentList := by
  have hlast := foldl_last countSegment (XmlNode.isElement initialization)
    (XmlNode.getProp sourceURL) Stream.initialSegment
    (fun stream node hnode ↦ by rw [countSegment, if_pos hnode])
    (fun stream node hnode ↦ by
      rw [countSegment, hnode, if_neg (by simp)]
      split <;> rfl)
    segmentList.children stream
  rw [hlast, hinitial, initialOf]
  cases (segmentList.children.filter (XmlNode.isElement initialization)).getLast? <;> rfl

theorem countSegment_keeps (nodes : List XmlNode) (stream : Stream) :
    (nodes.foldl countSegment stream).segmentPath = stream.segmentPath ∧
      (nodes.foldl countSegment stream).rep = stream.rep := by
  induction nodes generalizing stream with
  | nil => exact ⟨rfl, rfl⟩
  | cons node nodes ih =>
    rw [List.foldl_cons, (ih _).1, (ih _).2, countSegment]
    split
    · exact ⟨rfl, rfl⟩
    · split <;> exact ⟨rfl, rfl⟩

/-- A stream that was read has the segments of its representation still to come. -/
theorem pending_readStream {nodeListGetString : List XmlNode → Option Bytes}
    {stream read : Stream} (hpath : stream.segmentPath = none)
    (hinitial : stream.initialSegment = none)
    (h : readStream nodeListGetString stream = some read) :
    ∃ rep, read.rep = some rep ∧ pending read = plan rep ∧
      (Complete rep → HasMedia read.segmentList) := by
  simp only [readStream, Option.bind_eq_bind, Option.bind_eq_some_iff, Option.pure_def,
    Option.some.injEq] at h
  obtain ⟨rep, hrep, baseUrl, hbaseUrl, segmentList, hlist, rfl⟩ := h
  rw [readRepresentation_segmentList] at hlist
  have hkeeps := countSegment_keeps segmentList.children { stream with baseUrl := some baseUrl }
  refine ⟨rep, hkeeps.2.trans hrep, ?_, fun hcomplete ↦ hcomplete segmentList hlist⟩
  simp only [pending, plan, hlist]
  rw [if_pos (hkeeps.1.trans hpath)]
  exact congrArg (· ++ _)
    (congrArg Option.toList (countSegment_initialSegment segmentList hinitial))

/-- A stream of which no segment was read yet. -/
def Unread (stream : Stream) : Prop := stream.segmentPath = none ∧ stream.initialSegment = none

theorem unread_pickRepresentation (onPickFilter : PickFilter) (adaptation : XmlNode)
    (isVideo : Bool) {stream : Stream} (h : Unread stream) (repNode : XmlNode) :
    Unread (pickRepresentation onPickFilter adaptation isVideo stream repNode) := by
  rw [pickRepresentation]
  split
  · dsimp only
    split <;> exact h
  · exact h

/-- A context of which no segment was read yet. -/
def Fresh (ctx : DashCtx) : Prop := ∀ isVideo, Unread (ctx.stream isVideo)

theorem fresh_zeroed : Fresh ⟨.zeroed, .zeroed⟩
  | false => ⟨rfl, rfl⟩
  | true => ⟨rfl, rfl⟩

theorem Fresh.setStream {ctx : DashCtx} (h : Fresh ctx) (isVideo : Bool) {stream : Stream}
    (hstream : Unread stream) : Fresh (ctx.setStream isVideo stream) := by
  intro other
  cases isVideo with
  | false =>
    cases other with
    | false => exact hstream
    | true => exact h true
  | true =>
    cases other with
    | false => exact h false
    | true => exact hstream

theorem fresh_representationPick (onPickFilter : PickFilter) (adaptation : XmlNode)
    (isVideo : Bool) {ctx : DashCtx} (h : Fresh ctx) :
    Fresh (representationPick onPickFilter adaptation isVideo ctx) := by
  apply h.setStream
  exact List.foldlRecOn _ _ (h isVideo) fun _ hstream node _ ↦
    unread_pickRepresentation onPickFilter adaptation isVideo hstream node

theorem fresh_pickAttribute (onPickFilter : PickFilter) (adaptation : XmlNode) {ctx : DashCtx}
    (h : Fresh ctx) (attr : Bytes × Bytes) :
    Fresh (pickAttribute onPickFilter adaptation ctx attr) := by
  rw [pickAttribute]
  split
  · split
    · exact fresh_representationPick onPickFilter _ false h
    · split
      · exact fresh_representationPick onPickFilter _ true h
      · exact h
  · exact h

theorem fresh_pickAdaptation (onPickFilter : PickFilter) {ctx : DashCtx} (h : Fresh ctx)
    (node : XmlNode) : Fresh (pickAdaptation onPickFilter ctx node) := by
  cases node with
  | other content => exact h
  | element name properties children =>
    rw [pickAdaptation]
    split
    · exact List.foldlRecOn properties _ h fun _ hctx attr _ ↦
        fresh_pickAttribute onPickFilter _ hctx attr
    · exact h

/-- A manifest with a format has the segments of the two picked representations still to come. -/
theorem getFormat_stream {nodeListGetString : List XmlNode → Option Bytes}
    {onPickFilter : PickFilter} {root : XmlNode} {ctx : DashCtx}
    (h : getFormat nodeListGetString onPickFilter root = some ctx) (isVideo : Bool) :
    ∃ rep, (ctx.stream isVideo).rep = some rep ∧ pending (ctx.stream isVideo) = plan rep ∧
      (Complete rep → HasMedia (ctx.stream isVideo).segmentList) := by
  simp only [getFormat, Option.bind_eq_bind, Option.bind_eq_some_iff, Option.pure_def,
    Option.some.injEq] at h
  obtain ⟨-, -, periodEl, -, -, -, audio, haudio, video, hvideo, rfl⟩ := h
  have hfresh : Fresh
      (periodEl.children.foldl (pickAdaptation onPickFilter) ⟨.zeroed, .zeroed⟩) :=
    List.foldlRecOn _ _ fresh_zeroed fun _ hctx node _ ↦
      fresh_pickAdaptation onPickFilter hctx node
  cases isVideo with
  | false => exact pending_readStream (hfresh false).1 (hfresh false).2 haudio
  | true => exact pending_readStream (hfresh true).1 (hfresh true).2 hvideo

theorem stream_setStream (ctx : DashCtx) (isVideo : Bool) (stream : Stream) :
    (ctx.setStream isVideo stream).stream isVideo = stream := by
  cases isVideo <;> rfl

theorem nextStreamSegment_eq (isVideo : Bool) (ctx : DashCtx) :
    nextStreamSegment isVideo ctx =
      ((nextSegment (ctx.stream isVideo)).1,
        ctx.setStream isVideo (nextSegment (ctx.stream isVideo)).2) := by
  cases isVideo <;> rfl

/-- The function for the stream that is downloaded gives what the stream gives. -/
theorem yields_nextStreamSegment (isVideo : Bool) {stream : Stream} {segments : List Bytes}
    (h : Yields nextSegment stream segments) {ctx : DashCtx} (hctx : ctx.stream isVideo = stream) :
    Yields (nextStreamSegment isVideo) ctx segments := by
  induction h generalizing ctx with
  | done hnext =>
    apply Yields.done
    rw [nextStreamSegment_eq, hctx, hnext]
  | item hnext _ ih =>
    apply Yields.item
    · rw [nextStreamSegment_eq, hctx, hnext]
    · exact ih (stream_setStream _ _ _)

end LibYtdl.Dash.Manifest
