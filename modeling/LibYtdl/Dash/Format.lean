import Mathlib.Data.List.MinMax
import LibYtdl.Dash.Manifest

/-!
# The format of a manifest

`ytdl_dash_get_format` with what it leaves in its context where it fails, and the null pointers it
reads. Its first loop asks the filter for the representations of the audio and for those of the
video, in document order: what becomes of one stream depends on the representations of its kind
only.

With `ytdl_dash_get_best_representation` the picked representation is the first one with the largest
positive bandwidth.
-/

namespace LibYtdl.Dash.Format

open Machine Manifest

/-! ## The whole function -/

/-- The loop over the children of a picked representation. A segment list is kept with the siblings
behind it. -/
def readChildren (nodeListGetString : List XmlNode → Option Bytes) : Stream → List XmlNode → Stream
  | stream, [] => stream
  | stream, node :: nodes =>
    let stream :=
      if node.isElement baseURL then { stream with baseUrl := nodeListGetString node.children }
      else stream
    let stream :=
      if node.isElement segmentListName then { stream with segmentList := node :: nodes }
      else stream
    readChildren nodeListGetString stream nodes

/-- The loop over the children of the segment list, which the cursor is moved to. -/
def countSegments (stream : Stream) : Stream :=
  let nodes := (stream.segmentList.head?.map XmlNode.children).getD []
  { nodes.foldl countSegment stream with segmentList := nodes }

/-- Whether there is a base URL and a segment list. -/
def isRead (stream : Stream) : Bool :=
  stream.baseUrl.isSome && !stream.segmentList.isEmpty

/-- What `ytdl_dash_get_format` does once the filter was asked. -/
def readFormat (nodeListGetString : List XmlNode → Option Bytes) (ctx : DashCtx) : ℤ × DashCtx :=
  match ctx.video.rep, ctx.audio.rep with
  | some videoRep, some audioRep =>
    let video := readChildren nodeListGetString ctx.video videoRep.children
    let audio := readChildren nodeListGetString ctx.audio audioRep.children
    if isRead audio && isRead video then
      (0, ⟨countSegments audio, countSegments video⟩)
    else
      (-1, ⟨audio, video⟩)
  | _, _ => (-1, ctx)

/-- A context that was just initialised. -/
def initialised : DashCtx := ⟨.zeroed, .zeroed⟩

@[simp] theorem stream_initialised (isVideo : Bool) : initialised.stream isVideo = .zeroed := by
  cases isVideo <;> rfl

/-- The first child that is an element. -/
def firstElement (nodes : List XmlNode) : Option XmlNode :=
  nodes.find? fun node ↦ node matches .element ..

/-- `ytdl_dash_get_format` on a document with this root: what is returned, and the context
afterwards. The value is `none` where a null pointer is read, because there is no root or because
the root has no element to be the period. -/
def dashGetFormat (nodeListGetString : List XmlNode → Option Bytes) (onPickFilter : PickFilter)
    (root : Option XmlNode) (ctx : DashCtx) : Option (ℤ × DashCtx) :=
  match root with
  | none => none
  | some root =>
    if root.isElement mpd then
      match firstElement root.children with
      | none => none
      | some periodEl =>
        if periodEl.isElement period then
          some (readFormat nodeListGetString
            (periodEl.children.foldl (pickAdaptation onPickFilter) ctx))
        else
          some (-1, ctx)
    else
      some (-1, ctx)

theorem rep_readChildren (nodeListGetString : List XmlNode → Option Bytes) (nodes : List XmlNode)
    (stream : Stream) : (readChildren nodeListGetString stream nodes).rep = stream.rep := by
  induction nodes generalizing stream with
  | nil => rfl
  | cons node nodes ih =>
    rw [readChildren, ih]
    by_cases hbase : node.isElement baseURL = true
    · by_cases hlist : node.isElement segmentListName = true <;> simp [hbase, hlist]
    · by_cases hlist : node.isElement segmentListName = true <;> simp [hbase, hlist]

theorem rep_countSegments (stream : Stream) : (countSegments stream).rep = stream.rep :=
  (countSegment_keeps _ _).2

/-- What the loop over the children of a representation does to its stream. -/
theorem readChildren_eq (nodeListGetString : List XmlNode → Option Bytes) (nodes : List XmlNode)
    (stream : Stream) :
    ∃ list,
      readChildren nodeListGetString stream nodes =
          { stream with
            baseUrl :=
              (nodes.foldl (readRepresentation nodeListGetString)
                (stream.baseUrl, stream.segmentList.head?)).1
            segmentList := list } ∧
        list.head? =
          (nodes.foldl (readRepresentation nodeListGetString)
            (stream.baseUrl, stream.segmentList.head?)).2 := by
  induction nodes generalizing stream with
  | nil => exact ⟨stream.segmentList, rfl, rfl⟩
  | cons node nodes ih =>
    rw [readChildren, List.foldl_cons, readRepresentation]
    by_cases hbase : node.isElement baseURL = true
    · have hlist : node.isElement segmentListName = false := isElement_unique hbase (by decide)
      simp only [hbase, hlist, if_true, Bool.false_eq_true, if_false]
      exact ih { stream with baseUrl := nodeListGetString node.children }
    · by_cases hlist : node.isElement segmentListName = true
      · simp only [hbase, hlist, if_true]
        exact ih { stream with segmentList := node :: nodes }
      · simp only [hbase, hlist]
        exact ih stream

theorem countSegment_cursor (stream : Stream) (list nodes : List XmlNode) :
    nodes.foldl countSegment { stream with segmentList := list } =
      { nodes.foldl countSegment stream with segmentList := list } := by
  induction nodes generalizing stream with
  | nil => rfl
  | cons node nodes ih =>
    rw [List.foldl_cons, List.foldl_cons, ← ih, countSegment, countSegment]
    split
    · rfl
    · split <;> rfl

/-- A stream is read when there is a base URL and a segment list. -/
theorem readStream_eq (nodeListGetString : List XmlNode → Option Bytes) {stream : Stream}
    {rep : XmlNode} (hrep : stream.rep = some rep) (hlist : stream.segmentList = []) :
    readStream nodeListGetString stream =
      if isRead (readChildren nodeListGetString stream rep.children) then
        some (countSegments (readChildren nodeListGetString stream rep.children))
      else
        none := by
  obtain ⟨list, hread, hhead⟩ := readChildren_eq nodeListGetString rep.children stream
  rw [hlist, List.head?_nil] at hread hhead
  simp only [readStream, hrep, Option.bind_eq_bind, Option.bind_some]
  generalize rep.children.foldl (readRepresentation nodeListGetString) (stream.baseUrl, none) =
    found at hread hhead ⊢
  obtain ⟨baseUrl, segmentList⟩ := found
  rw [hread, isRead]
  cases baseUrl with
  | none => rfl
  | some baseUrl =>
    cases list with
    | nil =>
      obtain rfl : none = segmentList := hhead
      rfl
    | cons node nodes =>
      obtain rfl : some node = segmentList := hhead
      have hcursor := countSegment_cursor { stream with baseUrl := some baseUrl } (node :: nodes)
        node.children
      simp only [hrep] at hcursor
      simp [countSegments, hrep, hcursor]

/-- The base URL of a representation, the last one if there are several. -/
def baseUrlOf (nodeListGetString : List XmlNode → Option Bytes) (rep : XmlNode) : Option Bytes :=
  (rep.children.filter (XmlNode.isElement baseURL)).getLast?.bind fun node ↦
    nodeListGetString node.children

theorem readRepresentation_baseUrl (nodeListGetString : List XmlNode → Option Bytes)
    (rep : XmlNode) (segmentList : Option XmlNode) :
    (rep.children.foldl (readRepresentation nodeListGetString) (none, segmentList)).1 =
      baseUrlOf nodeListGetString rep := by
  have hlast := foldl_last (readRepresentation nodeListGetString) (XmlNode.isElement baseURL)
    (fun node ↦ nodeListGetString node.children) Prod.fst
    (fun found node hnode ↦ by rw [readRepresentation, if_pos hnode])
    (fun found node hnode ↦ by
      rw [readRepresentation, hnode, if_neg (by simp)]
      split <;> rfl)
    rep.children (none, segmentList)
  rw [hlast, baseUrlOf]
  cases (rep.children.filter (XmlNode.isElement baseURL)).getLast? <;> rfl

theorem baseUrl_countSegments (stream : Stream) :
    (countSegments stream).baseUrl = stream.baseUrl := by
  rw [countSegments]
  dsimp only
  generalize (stream.segmentList.head?.map XmlNode.children).getD [] = nodes
  induction nodes generalizing stream with
  | nil => rfl
  | cons node nodes ih =>
    rw [List.foldl_cons, ih, countSegment]
    split
    · rfl
    · split <;> rfl

theorem baseUrl_readChildren (nodeListGetString : List XmlNode → Option Bytes) (rep : XmlNode)
    {stream : Stream} (hbase : stream.baseUrl = none) :
    (readChildren nodeListGetString stream rep.children).baseUrl =
      baseUrlOf nodeListGetString rep := by
  obtain ⟨list, hread, -⟩ := readChildren_eq nodeListGetString rep.children stream
  rw [hread, hbase]
  exact readRepresentation_baseUrl nodeListGetString rep _

/-- With both representations picked each base URL is read, also where something else is missing. -/
theorem baseUrl_readFormat {nodeListGetString : List XmlNode → Option Bytes} {ctx : DashCtx}
    {audioRep videoRep : XmlNode} (haudio : ctx.audio.rep = some audioRep)
    (hvideo : ctx.video.rep = some videoRep)
    (hbase : ∀ isVideo, (ctx.stream isVideo).baseUrl = none) (isVideo : Bool) :
    ((readFormat nodeListGetString ctx).2.stream isVideo).baseUrl =
      baseUrlOf nodeListGetString (if isVideo then videoRep else audioRep) := by
  have haudioUrl := baseUrl_readChildren nodeListGetString audioRep (hbase false)
  have hvideoUrl := baseUrl_readChildren nodeListGetString videoRep (hbase true)
  rw [readFormat, hvideo, haudio]
  dsimp only
  split
  · cases isVideo with
    | false => exact (baseUrl_countSegments _).trans haudioUrl
    | true => exact (baseUrl_countSegments _).trans hvideoUrl
  · cases isVideo with
    | false => exact haudioUrl
    | true => exact hvideoUrl

theorem readFormat_of_missing (nodeListGetString : List XmlNode → Option Bytes) {ctx : DashCtx}
    {isVideo : Bool} (h : (ctx.stream isVideo).rep = none) :
    readFormat nodeListGetString ctx = (-1, ctx) := by
  rw [readFormat]
  cases isVideo with
  | false =>
    rw [show ctx.audio.rep = none from h]
    cases ctx.video.rep <;> rfl
  | true => rw [show ctx.video.rep = none from h]

/-- What is read of the representations leaves them picked. -/
theorem rep_readFormat (nodeListGetString : List XmlNode → Option Bytes) (ctx : DashCtx)
    (isVideo : Bool) :
    ((readFormat nodeListGetString ctx).2.stream isVideo).rep = (ctx.stream isVideo).rep := by
  rw [readFormat]
  split
  · next videoRep audioRep _ _ =>
    dsimp only
    split
    · cases isVideo with
      | false => exact (rep_countSegments _).trans (rep_readChildren _ _ _)
      | true => exact (rep_countSegments _).trans (rep_readChildren _ _ _)
    · cases isVideo with
      | false => exact rep_readChildren _ _ _
      | true => exact rep_readChildren _ _ _
  · rfl

/-- On a document whose root is `MPD` and whose first element in it is a `Period`, nothing null is
read. -/
theorem dashGetFormat_of_period (nodeListGetString : List XmlNode → Option Bytes)
    (onPickFilter : PickFilter) {root periodEl : XmlNode} (hroot : root.isElement mpd = true)
    (hfirst : firstElement root.children = some periodEl)
    (hperiod : periodEl.isElement period = true) (ctx : DashCtx) :
    dashGetFormat nodeListGetString onPickFilter (some root) ctx =
      some (readFormat nodeListGetString
        (periodEl.children.foldl (pickAdaptation onPickFilter) ctx)) := by
  simp only [dashGetFormat, hroot, hfirst, hperiod, if_true]

/-- What is read of a manifest, when nothing is missing. -/
theorem readFormat_eq_zero {nodeListGetString : List XmlNode → Option Bytes} {ctx read : DashCtx}
    (hlist : ∀ isVideo, (ctx.stream isVideo).segmentList = []) :
    readFormat nodeListGetString ctx = (0, read) ↔
      ((readStream nodeListGetString ctx.audio).bind fun audio ↦
        (readStream nodeListGetString ctx.video).bind fun video ↦ some ⟨audio, video⟩) =
          some read := by
  rw [readFormat]
  cases hvideo : ctx.video.rep with
  | none => simp [readStream, hvideo]
  | some videoRep =>
    cases haudio : ctx.audio.rep with
    | none => simp [readStream, haudio]
    | some audioRep =>
      rw [readStream_eq nodeListGetString haudio (hlist false),
        readStream_eq nodeListGetString hvideo (hlist true)]
      dsimp only
      cases isRead (readChildren nodeListGetString ctx.audio audioRep.children) with
      | false => simp
      | true =>
        cases isRead (readChildren nodeListGetString ctx.video videoRep.children) with
        | false => simp
        | true => simp

/-- Without a period in an `MPD`, a null pointer is read or the context stays as it is. -/
theorem dashGetFormat_cases (nodeListGetString : List XmlNode → Option Bytes)
    (onPickFilter : PickFilter) (document : Option XmlNode) (ctx : DashCtx) :
    dashGetFormat nodeListGetString onPickFilter document ctx = none ∨
      dashGetFormat nodeListGetString onPickFilter document ctx = some (-1, ctx) ∨
      ∃ root periodEl, document = some root ∧ root.isElement mpd = true ∧
        firstElement root.children = some periodEl ∧ periodEl.isElement period = true := by
  cases document with
  | none => exact .inl rfl
  | some root =>
    rw [dashGetFormat]
    by_cases hroot : root.isElement mpd = true
    · rw [if_pos hroot]
      cases hfirst : firstElement root.children with
      | none => exact .inl rfl
      | some periodEl =>
        by_cases hperiod : periodEl.isElement period = true
        · exact .inr (.inr ⟨root, periodEl, rfl, hroot, hfirst, hperiod⟩)
        · exact .inr (.inl (if_neg hperiod))
    · exact .inr (.inl (if_neg hroot))

/-! ## The representations of one kind -/

/-- What the type of the stream begins with. -/
def kindName (isVideo : Bool) : Bytes := if isVideo then video else audio

/-- Whether an attribute says that the representations are of this kind. -/
def saysKind (isVideo : Bool) (attr : Bytes × Bytes) : Bool :=
  attr.1 = mimeType && (kindName isVideo).isPrefixOf attr.2

/-- The elements `Representation` of an adaptation set. -/
def representations (adaptation : XmlNode) : List XmlNode :=
  adaptation.children.filter (XmlNode.isElement representation)

/-- What the filter is asked for with a child of the period: the adaptation set and each of its
representations, once for every attribute that says the kind. -/
def candidatesIn (isVideo : Bool) : XmlNode → List (XmlNode × XmlNode)
  | .element name properties children =>
    if name = adaptationSet then
      (properties.filter (saysKind isVideo)).flatMap fun _ ↦
        (representations (.element name properties children)).map
          (Prod.mk (.element name properties children))
    else
      []
  | .other _ => []

/-- What the filter is asked for, in document order. -/
def candidates (isVideo : Bool) (periodEl : XmlNode) : List (XmlNode × XmlNode) :=
  periodEl.children.flatMap (candidatesIn isVideo)

theorem isElement_candidatesIn {isVideo : Bool} {node : XmlNode} {candidate : XmlNode × XmlNode}
    (h : candidate ∈ candidatesIn isVideo node) :
    candidate.2.isElement representation = true := by
  cases node with
  | other content => cases h
  | element name properties children =>
    rw [candidatesIn] at h
    split at h
    · obtain ⟨-, -, h⟩ := List.mem_flatMap.mp h
      obtain ⟨rep, hrep, rfl⟩ := List.mem_map.mp h
      exact List.of_mem_filter hrep
    · cases h

theorem isElement_candidates {isVideo : Bool} {periodEl : XmlNode} {candidate : XmlNode × XmlNode}
    (h : candidate ∈ candidates isVideo periodEl) :
    candidate.2.isElement representation = true := by
  obtain ⟨node, -, hnode⟩ := List.mem_flatMap.mp h
  exact isElement_candidatesIn hnode

/-- What becomes of a stream when the filter is asked for a representation. -/
def ask (onPickFilter : PickFilter) (isVideo : Bool) (stream : Stream)
    (candidate : XmlNode × XmlNode) : Stream :=
  pickRepresentation onPickFilter candidate.1 isVideo stream candidate.2

theorem foldl_pickRepresentation (onPickFilter : PickFilter) (adaptation : XmlNode)
    (isVideo : Bool) (nodes : List XmlNode) (stream : Stream) :
    nodes.foldl (pickRepresentation onPickFilter adaptation isVideo) stream =
      (nodes.filter (XmlNode.isElement representation)).foldl
        (pickRepresentation onPickFilter adaptation isVideo) stream := by
  rw [List.foldl_filter]
  congr 1
  funext stream node
  split
  · rfl
  · next hnode => rw [pickRepresentation, if_neg hnode]

theorem stream_representationPick (onPickFilter : PickFilter) (adaptation : XmlNode)
    (kind isVideo : Bool) (ctx : DashCtx) :
    (representationPick onPickFilter adaptation kind ctx).stream isVideo =
      if kind = isVideo then
        ((representations adaptation).map (Prod.mk adaptation)).foldl (ask onPickFilter isVideo)
          (ctx.stream isVideo)
      else
        ctx.stream isVideo := by
  rw [representationPick, foldl_pickRepresentation, List.foldl_map]
  cases kind <;> cases isVideo <;> rfl

theorem audio_of_video {value : Bytes} (h : video.isPrefixOf value = true) :
    audio.isPrefixOf value = false := by
  obtain ⟨rest, rfl⟩ := List.isPrefixOf_iff_prefix.mp h
  rfl

/-- An attribute makes the filter be asked for the stream whose kind it says. -/
theorem stream_pickAttribute (onPickFilter : PickFilter) (adaptation : XmlNode) (isVideo : Bool)
    (ctx : DashCtx) (attr : Bytes × Bytes) :
    (pickAttribute onPickFilter adaptation ctx attr).stream isVideo =
      if saysKind isVideo attr then
        ((representations adaptation).map (Prod.mk adaptation)).foldl (ask onPickFilter isVideo)
          (ctx.stream isVideo)
      else
        ctx.stream isVideo := by
  rw [pickAttribute, saysKind, kindName]
  by_cases hname : attr.1 = mimeType
  · rw [if_pos hname]
    by_cases haudio : audio.isPrefixOf attr.2 = true
    · have hvideo : video.isPrefixOf attr.2 = false := by
        by_contra h
        rw [audio_of_video (Bool.eq_true_of_not_eq_false h)] at haudio
        exact Bool.false_ne_true haudio
      rw [if_pos haudio, stream_representationPick]
      cases isVideo <;> simp [hname, haudio, hvideo]
    · rw [if_neg haudio]
      by_cases hvideo : video.isPrefixOf attr.2 = true
      · rw [if_pos hvideo, stream_representationPick]
        cases isVideo <;> simp [hname, haudio, hvideo]
      · rw [if_neg hvideo]
        cases isVideo <;> simp [haudio, hvideo]
  · simp [hname]

theorem stream_pickAdaptation (onPickFilter : PickFilter) (isVideo : Bool) (ctx : DashCtx)
    (node : XmlNode) :
    (pickAdaptation onPickFilter ctx node).stream isVideo =
      (candidatesIn isVideo node).foldl (ask onPickFilter isVideo) (ctx.stream isVideo) := by
  cases node with
  | other content => rfl
  | element name properties children =>
    rw [pickAdaptation, candidatesIn]
    split
    · rw [List.foldl_flatMap, List.foldl_filter]
      symm
      apply List.foldl_hom (DashCtx.stream · isVideo)
      intro ctx attr
      rw [stream_pickAttribute]
    · rfl

/-- Each stream is what the representations of its kind make of it. -/
theorem stream_picked (onPickFilter : PickFilter) (isVideo : Bool) (periodEl : XmlNode)
    (ctx : DashCtx) :
    (periodEl.children.foldl (pickAdaptation onPickFilter) ctx).stream isVideo =
      (candidates isVideo periodEl).foldl (ask onPickFilter isVideo) (ctx.stream isVideo) := by
  rw [candidates, List.foldl_flatMap]
  symm
  apply List.foldl_hom (DashCtx.stream · isVideo)
  intro ctx node
  rw [stream_pickAdaptation]

/-- The filter changes the representation and the bandwidth only. -/
theorem foldl_ask_keeps {γ : Type} (field : Manifest.Stream → γ)
    (hrep : ∀ stream rep, field { stream with rep := rep } = field stream)
    (hbandwidth : ∀ stream bandwidth, field { stream with bandwidth := bandwidth } = field stream)
    (onPickFilter : PickFilter) (isVideo : Bool) (asked : List (XmlNode × XmlNode))
    (stream : Manifest.Stream) :
    field (asked.foldl (ask onPickFilter isVideo) stream) = field stream := by
  induction asked generalizing stream with
  | nil => rfl
  | cons candidate asked ih =>
    rw [List.foldl_cons, ih, ask, pickRepresentation]
    split
    · dsimp only
      split
      · exact (hrep _ _).trans (hbandwidth _ _)
      · exact hbandwidth _ _
    · rfl

theorem segmentList_picked (onPickFilter : PickFilter) (periodEl : XmlNode) (isVideo : Bool) :
    ((periodEl.children.foldl (pickAdaptation onPickFilter) initialised).stream
      isVideo).segmentList = [] := by
  rw [stream_picked, stream_initialised,
    foldl_ask_keeps Manifest.Stream.segmentList (fun _ _ ↦ rfl) (fun _ _ ↦ rfl)]
  rfl

theorem baseUrl_picked (onPickFilter : PickFilter) (periodEl : XmlNode) (isVideo : Bool) :
    ((periodEl.children.foldl (pickAdaptation onPickFilter) initialised).stream
      isVideo).baseUrl = none := by
  rw [stream_picked, stream_initialised,
    foldl_ask_keeps Manifest.Stream.baseUrl (fun _ _ ↦ rfl) (fun _ _ ↦ rfl)]
  rfl

/-- The representation that the filter accepts last, when the bandwidth is this one before it is
asked. -/
def accepted (onPickFilter : PickFilter) (isVideo : Bool) :
    ℤ → List (XmlNode × XmlNode) → Option XmlNode
  | _, [] => none
  | bandwidth, (adaptation, rep) :: asked =>
    let (picked, bandwidth) := onPickFilter bandwidth adaptation rep isVideo
    (accepted onPickFilter isVideo bandwidth asked).or (if picked then some rep else none)

theorem rep_foldl_ask (onPickFilter : PickFilter) (isVideo : Bool)
    (asked : List (XmlNode × XmlNode))
    (hasked : ∀ candidate ∈ asked, candidate.2.isElement representation = true)
    (stream : Manifest.Stream) :
    (asked.foldl (ask onPickFilter isVideo) stream).rep =
      (accepted onPickFilter isVideo stream.bandwidth asked).or stream.rep := by
  induction asked generalizing stream with
  | nil => rfl
  | cons candidate asked ih =>
    obtain ⟨adaptation, rep⟩ := candidate
    rw [List.foldl_cons, ih fun other hother ↦ hasked other (List.mem_cons_of_mem _ hother), ask,
      pickRepresentation, if_pos (hasked _ List.mem_cons_self), accepted]
    obtain ⟨picked, bandwidth⟩ := onPickFilter stream.bandwidth adaptation rep isVideo
    cases picked <;> simp

theorem rep_accepted (onPickFilter : PickFilter) (periodEl : XmlNode) (isVideo : Bool) :
    ((periodEl.children.foldl (pickAdaptation onPickFilter) initialised).stream isVideo).rep =
      accepted onPickFilter isVideo 0 (candidates isVideo periodEl) := by
  rw [stream_picked, stream_initialised,
    rep_foldl_ask onPickFilter isVideo _ fun _ ↦ isElement_candidates]
  exact Option.or_none

/-- Where `ytdl_dash_get_format` returns 0, the manifest has a format. -/
theorem dashGetFormat_eq_zero {nodeListGetString : List XmlNode → Option Bytes}
    {onPickFilter : PickFilter} {root : XmlNode} {ctx : DashCtx} :
    dashGetFormat nodeListGetString onPickFilter (some root) initialised = some (0, ctx) ↔
      getFormat nodeListGetString onPickFilter root = some ctx := by
  simp only [dashGetFormat, getFormat, firstElement]
  by_cases hroot : root.isElement mpd = true
  · rw [if_pos hroot]
    cases root.children.find? fun node ↦ node matches .element .. with
    | none => simp
    | some periodEl =>
      by_cases hperiod : periodEl.isElement period = true
      · have hread := @readFormat_eq_zero nodeListGetString _ ctx
          (segmentList_picked onPickFilter periodEl)
        simp only [hroot, hperiod, if_true, Option.some.injEq, guard_true, Option.pure_def,
          Option.bind_eq_bind, Option.bind_some]
        exact hread
      · simp [hperiod]
  · simp [hroot]

/-! ## The best representation -/

section Best

variable (atoll : Bytes → ℤ)

/-- The bandwidth of a representation, 0 when it has none. -/
def bandwidthOf (rep : XmlNode) : ℤ := ((rep.getProp bandwidthName).map atoll).getD 0

/-- Whether a child of the period is an adaptation set of this kind. -/
def isOfKind (isVideo : Bool) : XmlNode → Bool
  | .element name properties _ => name = adaptationSet && properties.any (saysKind isVideo)
  | .other _ => false

/-- The representations of this kind, in document order. -/
def representationsOf (isVideo : Bool) (periodEl : XmlNode) : List XmlNode :=
  (periodEl.children.filter (isOfKind isVideo)).flatMap representations

/-- The first representation with the largest positive bandwidth. -/
noncomputable def bestOf (reps : List XmlNode) : Option XmlNode :=
  (reps.filter fun rep ↦ 0 < bandwidthOf atoll rep).argmax (bandwidthOf atoll)

/-- What becomes of a stream when `ytdl_dash_get_best_representation` is asked. -/
def improve (stream : Stream) (rep : XmlNode) : Stream :=
  if stream.bandwidth < bandwidthOf atoll rep then
    { stream with bandwidth := bandwidthOf atoll rep, rep := some rep }
  else
    stream

theorem ask_getBestRepresentation (isVideo : Bool) {stream : Stream} (adaptation : XmlNode)
    {rep : XmlNode} (hrep : rep.isElement representation = true) (hstream : 0 ≤ stream.bandwidth) :
    ask (getBestRepresentation atoll) isVideo stream (adaptation, rep) =
      improve atoll stream rep := by
  rw [ask, pickRepresentation, if_pos hrep, getBestRepresentation, improve, bandwidthOf]
  cases rep.getProp bandwidthName with
  | none =>
    rw [if_neg]
    · rfl
    · exact not_lt.mpr hstream
  | some attr =>
    by_cases hattr : stream.bandwidth < atoll attr
    · simp [hattr]
    · simp [hattr]

theorem bandwidth_le_improve (stream : Stream) (rep : XmlNode) :
    stream.bandwidth ≤ (improve atoll stream rep).bandwidth ∧
      bandwidthOf atoll rep ≤ (improve atoll stream rep).bandwidth := by
  rw [improve]
  split
  · next h => exact ⟨h.le, le_rfl⟩
  · next h => exact ⟨le_rfl, not_lt.mp h⟩

theorem bandwidth_le_foldl_improve (reps : List XmlNode) (stream : Stream) :
    stream.bandwidth ≤ (reps.foldl (improve atoll) stream).bandwidth ∧
      ∀ rep ∈ reps, bandwidthOf atoll rep ≤ (reps.foldl (improve atoll) stream).bandwidth := by
  induction reps generalizing stream with
  | nil => simp
  | cons rep reps ih =>
    obtain ⟨hstream, hreps⟩ := ih (improve atoll stream rep)
    obtain ⟨hold, hnew⟩ := bandwidth_le_improve atoll stream rep
    refine ⟨hold.trans hstream, ?_⟩
    intro other hother
    obtain rfl | hother := List.mem_cons.mp hother
    · exact hnew.trans hstream
    · exact hreps other hother

/-- Representations that are asked for again do not improve a stream. -/
theorem foldl_improve_of_le (reps : List XmlNode) {stream : Stream}
    (h : ∀ rep ∈ reps, bandwidthOf atoll rep ≤ stream.bandwidth) :
    reps.foldl (improve atoll) stream = stream := by
  induction reps with
  | nil => rfl
  | cons rep reps ih =>
    rw [List.foldl_cons, improve, if_neg (not_lt.mpr (h rep List.mem_cons_self))]
    exact ih fun other hother ↦ h other (List.mem_cons_of_mem rep hother)

/-- It does not matter how often the representations of an adaptation set are asked for. -/
theorem foldl_improve_repeated (reps : List XmlNode) (attrs : List (Bytes × Bytes))
    (stream : Stream) :
    (attrs.flatMap fun _ ↦ reps).foldl (improve atoll) stream =
      if attrs = [] then stream else reps.foldl (improve atoll) stream := by
  induction attrs generalizing stream with
  | nil => rfl
  | cons attr attrs ih =>
    rw [List.flatMap_cons, List.foldl_append, ih, if_neg (List.cons_ne_nil attr attrs)]
    split
    · rfl
    · exact foldl_improve_of_le atoll reps (bandwidth_le_foldl_improve atoll reps stream).2

theorem bestOf_positive {reps : List XmlNode} {best : XmlNode} (h : bestOf atoll reps = some best) :
    0 < bandwidthOf atoll best :=
  of_decide_eq_true (List.mem_filter.mp (List.argmax_mem h)).2

theorem bestOf_eq_none (reps : List XmlNode) :
    bestOf atoll reps = none ↔ ∀ rep ∈ reps, ¬ 0 < bandwidthOf atoll rep := by
  rw [bestOf, List.argmax_eq_none, List.filter_eq_nil_iff]
  simp

/-- The next representation is the best one when it improves on the best one so far. -/
theorem bestOf_concat (reps : List XmlNode) (rep : XmlNode) :
    bestOf atoll (reps ++ [rep]) =
      if ((bestOf atoll reps).map (bandwidthOf atoll)).getD 0 < bandwidthOf atoll rep then some rep
      else bestOf atoll reps := by
  rw [bestOf, List.filter_append, List.filter_singleton]
  by_cases hpositive : 0 < bandwidthOf atoll rep
  · rw [decide_eq_true hpositive, Bool.cond_true, List.argmax_concat, ← bestOf]
    cases hbest : bestOf atoll reps with
    | none => simp [hpositive]
    | some best => rfl
  · rw [decide_eq_false hpositive, Bool.cond_false, List.append_nil, ← bestOf, if_neg]
    cases hbest : bestOf atoll reps with
    | none => exact hpositive
    | some best =>
      have hpositive' := bestOf_positive atoll hbest
      rw [Option.map_some, Option.getD_some]
      omega

/-- This representation has a positive bandwidth, larger than those of the ones in front of it and
not smaller than those of the ones behind it. -/
def FirstLargest (reps : List XmlNode) (rep : XmlNode) : Prop :=
  0 < bandwidthOf atoll rep ∧
    ∃ before after, reps = before ++ rep :: after ∧
      (∀ other ∈ before, bandwidthOf atoll other < bandwidthOf atoll rep) ∧
      ∀ other ∈ after, bandwidthOf atoll other ≤ bandwidthOf atoll rep

theorem firstLargest_bestOf {reps : List XmlNode} {best : XmlNode}
    (h : bestOf atoll reps = some best) : FirstLargest atoll reps best := by
  refine ⟨bestOf_positive atoll h, ?_⟩
  induction reps using List.reverseRecOn generalizing best with
  | nil => cases h
  | append_singleton reps rep ih =>
    rw [bestOf_concat] at h
    split at h
    · next himproves =>
      obtain rfl := Option.some.inj h
      refine ⟨reps, [], rfl, ?_, by simp⟩
      intro other hother
      cases hlast : bestOf atoll reps with
      | none =>
        rw [hlast, Option.map_none, Option.getD_none] at himproves
        have hother := (bestOf_eq_none atoll reps).mp hlast other hother
        omega
      | some last =>
        rw [hlast, Option.map_some, Option.getD_some] at himproves
        obtain ⟨before, after, rfl, hbefore, hafter⟩ := ih hlast
        obtain hother | hother := List.mem_append.mp hother
        · exact (hbefore other hother).trans himproves
        · obtain rfl | hother := List.mem_cons.mp hother
          · exact himproves
          · exact (hafter other hother).trans_lt himproves
    · next himproves =>
      rw [h, Option.map_some, Option.getD_some] at himproves
      obtain ⟨before, after, rfl, hbefore, hafter⟩ := ih h
      refine ⟨before, after ++ [rep], by simp, hbefore, ?_⟩
      intro other hother
      obtain hother | hother := List.mem_append.mp hother
      · exact hafter other hother
      · obtain rfl := List.mem_singleton.mp hother
        exact not_lt.mp himproves

/-- The picked representation is the best one so far, and its bandwidth is kept. -/
theorem foldl_improve_zeroed (reps : List XmlNode) :
    (reps.foldl (improve atoll) .zeroed).rep = bestOf atoll reps ∧
      (reps.foldl (improve atoll) .zeroed).bandwidth =
        ((bestOf atoll reps).map (bandwidthOf atoll)).getD 0 := by
  induction reps using List.reverseRecOn with
  | nil => exact ⟨rfl, rfl⟩
  | append_singleton reps rep ih =>
    obtain ⟨hrep, hbandwidth⟩ := ih
    rw [List.foldl_append, List.foldl_cons, List.foldl_nil, improve, bestOf_concat, hbandwidth]
    split
    · exact ⟨rfl, rfl⟩
    · exact ⟨hrep, hbandwidth⟩

theorem foldl_ask (isVideo : Bool) (asked : List (XmlNode × XmlNode)) {stream : Stream}
    (hasked : ∀ candidate ∈ asked, candidate.2.isElement representation = true)
    (hstream : 0 ≤ stream.bandwidth) :
    asked.foldl (ask (getBestRepresentation atoll) isVideo) stream =
      (asked.map Prod.snd).foldl (improve atoll) stream := by
  induction asked generalizing stream with
  | nil => rfl
  | cons candidate asked ih =>
    obtain ⟨adaptation, rep⟩ := candidate
    have himprove := (bandwidth_le_improve atoll stream rep).1
    rw [List.foldl_cons, List.map_cons, List.foldl_cons,
      ask_getBestRepresentation atoll isVideo adaptation (hasked _ List.mem_cons_self) hstream]
    apply ih
    · exact fun other hother ↦ hasked other (List.mem_cons_of_mem _ hother)
    · exact hstream.trans himprove

/-- The attributes that say the kind make one improvement by the adaptation set. -/
theorem foldl_improve_candidatesIn (isVideo : Bool) (node : XmlNode) (stream : Stream) :
    ((candidatesIn isVideo node).map Prod.snd).foldl (improve atoll) stream =
      if isOfKind isVideo node then (representations node).foldl (improve atoll) stream
      else stream := by
  cases node with
  | other content => rfl
  | element name properties children =>
    rw [candidatesIn, isOfKind]
    by_cases hname : name = adaptationSet
    · have hreps :
          ((properties.filter (saysKind isVideo)).flatMap fun _ ↦
              (representations (.element name properties children)).map
                (Prod.mk (XmlNode.element name properties children))).map Prod.snd =
            (properties.filter (saysKind isVideo)).flatMap fun _ ↦
              representations (.element name properties children) := by
        rw [List.map_flatMap]
        congr 1
        funext attr
        rw [List.map_map]
        exact List.map_id _
      rw [if_pos hname, hreps, foldl_improve_repeated]
      cases hany : properties.any (saysKind isVideo) with
      | false =>
        have hnil : properties.filter (saysKind isVideo) = [] := by
          simpa [List.filter_eq_nil_iff] using hany
        rw [if_pos hnil]
        simp [hname]
      | true =>
        obtain ⟨attr, hattr, hsays⟩ := List.any_eq_true.mp hany
        have hne : properties.filter (saysKind isVideo) ≠ [] :=
          List.ne_nil_of_mem (List.mem_filter.mpr ⟨hattr, hsays⟩)
        rw [if_neg hne]
        simp [hname]
    · simp [hname]

/-- Asking for all candidates improves a stream by each representation of its kind. -/
theorem foldl_ask_candidates (isVideo : Bool) (periodEl : XmlNode) {stream : Stream}
    (hstream : 0 ≤ stream.bandwidth) :
    (candidates isVideo periodEl).foldl (ask (getBestRepresentation atoll) isVideo) stream =
      (representationsOf isVideo periodEl).foldl (improve atoll) stream := by
  rw [foldl_ask atoll isVideo _ (fun _ ↦ isElement_candidates) hstream, candidates,
    List.map_flatMap, List.foldl_flatMap, representationsOf, List.foldl_flatMap, List.foldl_filter]
  congr 1
  funext stream node
  exact foldl_improve_candidatesIn atoll isVideo node stream

/-- The best representation is the one that the loops of `ytdl_dash_get_format` leave picked. -/
theorem rep_picked (isVideo : Bool) (periodEl : XmlNode) :
    ((periodEl.children.foldl (pickAdaptation (getBestRepresentation atoll))
        initialised).stream isVideo).rep =
      bestOf atoll (representationsOf isVideo periodEl) := by
  rw [stream_picked, stream_initialised, foldl_ask_candidates atoll isVideo periodEl (le_refl 0)]
  exact (foldl_improve_zeroed atoll _).1

theorem dashGetFormat_best (nodeListGetString : List XmlNode → Option Bytes)
    {root periodEl : XmlNode} (hroot : root.isElement mpd = true)
    (hfirst : firstElement root.children = some periodEl)
    (hperiod : periodEl.isElement period = true) :
    ∃ result ctx,
      dashGetFormat nodeListGetString (getBestRepresentation atoll) (some root) initialised =
        some (result, ctx) ∧
      ∀ isVideo, (ctx.stream isVideo).rep = bestOf atoll (representationsOf isVideo periodEl) := by
  obtain ⟨result, ctx, hread⟩ :
      ∃ result ctx,
        readFormat nodeListGetString
            (periodEl.children.foldl (pickAdaptation (getBestRepresentation atoll)) initialised) =
          (result, ctx) :=
    ⟨_, _, rfl⟩
  refine ⟨result, ctx, ?_, fun isVideo ↦ ?_⟩
  · rw [dashGetFormat_of_period nodeListGetString _ hroot hfirst hperiod, hread]
  · have hkept := rep_readFormat nodeListGetString
      (periodEl.children.foldl (pickAdaptation (getBestRepresentation atoll)) initialised) isVideo
    rw [hread] at hkept
    exact hkept.trans (rep_picked atoll isVideo periodEl)

end Best

/-- **Best representation.** For every manifest whose first element is a period, each stream gets
the first representation of its kind with the largest positive bandwidth. -/
theorem bestRepresentation (atoll : Bytes → ℤ) (nodeListGetString : List XmlNode → Option Bytes)
    {root periodEl : XmlNode} (hroot : root.isElement mpd = true)
    (hfirst : firstElement root.children = some periodEl)
    (hperiod : periodEl.isElement period = true) :
    ∃ result ctx,
      dashGetFormat nodeListGetString (getBestRepresentation atoll) (some root) initialised =
        some (result, ctx) ∧
      ∀ isVideo,
        (∀ rep, (ctx.stream isVideo).rep = some rep →
          FirstLargest atoll (representationsOf isVideo periodEl) rep) ∧
        ((ctx.stream isVideo).rep = none ↔
          ∀ rep ∈ representationsOf isVideo periodEl, ¬ 0 < bandwidthOf atoll rep) ∧
        ∀ root' periodEl', root'.isElement mpd = true →
          firstElement root'.children = some periodEl' → periodEl'.isElement period = true →
          periodEl'.children.filter (isOfKind isVideo) =
            periodEl.children.filter (isOfKind isVideo) →
          ∃ result' ctx',
            dashGetFormat nodeListGetString (getBestRepresentation atoll) (some root') initialised =
              some (result', ctx') ∧
            (ctx'.stream isVideo).rep = (ctx.stream isVideo).rep := by
  obtain ⟨result, ctx, hformat, hrep⟩ :=
    dashGetFormat_best atoll nodeListGetString hroot hfirst hperiod
  refine ⟨result, ctx, hformat, fun isVideo ↦ ?_⟩
  rw [hrep isVideo]
  refine ⟨fun rep hbest ↦ firstLargest_bestOf atoll hbest, bestOf_eq_none atoll _, ?_⟩
  intro root' periodEl' hroot' hfirst' hperiod' hsame
  obtain ⟨result', ctx', hformat', hrep'⟩ :=
    dashGetFormat_best atoll nodeListGetString hroot' hfirst' hperiod'
  refine ⟨result', ctx', hformat', (hrep' isVideo).trans ?_⟩
  rw [representationsOf, hsame, ← representationsOf]

/-- The number that digits stand for. -/
def digits (text : Bytes) : ℤ := text.foldl (fun number digit ↦ 10 * number + (digit.toNat - 48)) 0

/-- A period with two adaptation sets for the video, where the larger bandwidth is there twice, and
one for the audio without a bandwidth. -/
def rankedPeriod : XmlNode :=
  let ranked (attrs : List (Bytes × Bytes)) : XmlNode := .element representation attrs []
  .element period []
    [.element adaptationSet [(mimeType, video ++ [47])]
        [ranked [(bandwidthName, [55])], .other [10],
         ranked [([105], [49]), (bandwidthName, [57])]],
      .element adaptationSet [(mimeType, audio)] [ranked []],
      .element adaptationSet [(mimeType, video)] [ranked [([105], [50]), (bandwidthName, [57])]]]

theorem bestRepresentation_ranked :
    ∃ result ctx,
      dashGetFormat (fun _ ↦ none) (getBestRepresentation digits)
          (some (.element mpd [] [.other [10], rankedPeriod])) initialised = some (result, ctx) ∧
        (∀ rep, ctx.video.rep = some rep →
          FirstLargest digits (representationsOf true rankedPeriod) rep) ∧
        (ctx.audio.rep = none ↔
          ∀ rep ∈ representationsOf false rankedPeriod, ¬ 0 < bandwidthOf digits rep) := by
  obtain ⟨result, ctx, hformat, hstreams⟩ :=
    @bestRepresentation digits (fun _ ↦ none) (.element mpd [] [.other [10], rankedPeriod])
      rankedPeriod rfl rfl rfl
  exact ⟨result, ctx, hformat, (hstreams true).1, (hstreams false).2.1⟩

end LibYtdl.Dash.Format
