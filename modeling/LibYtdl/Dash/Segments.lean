import LibYtdl.Dash.Format

/-!
# The segments of a manifest

`ytdl_dash_next_video_segment` and `ytdl_dash_next_audio_segment` are called in any order. Each goes
through the segments of its own stream, and gives as many as `ytdl_dash_get_format` has counted
before it first gives none.

The path of the last segment also says whether the initialization segment was given. It is cleared
at the end, so the end is not one that lasts when there is an initialization segment. A segment
without a URL clears it too.
-/

namespace LibYtdl.Dash.Segments

open Machine Cursor Manifest Format

/-! ## Calls for both streams -/

theorem stream_setStream_other (ctx : DashCtx) {isVideo other : Bool} (hne : other ≠ isVideo)
    (stream : Manifest.Stream) :
    (ctx.setStream isVideo stream).stream other = ctx.stream other := by
  cases isVideo with
  | false =>
    cases other with
    | false => exact absurd rfl hne
    | true => rfl
  | true =>
    cases other with
    | false => rfl
    | true => exact absurd rfl hne

/-- Each of the two functions goes on in its own stream. -/
theorem separate_nextStreamSegment :
    Separate nextStreamSegment (fun isVideo ctx ↦ ctx.stream isVideo) nextSegment where
  own isVideo ctx := by
    rw [nextStreamSegment_eq]
    exact ⟨rfl, stream_setStream ctx isVideo _⟩
  other isVideo other ctx hne := by
    rw [nextStreamSegment_eq]
    exact stream_setStream_other ctx hne _

/-! ## The number of segments -/

/-- The elements for the initialization segment. -/
def initialNodes (nodes : List XmlNode) : List XmlNode :=
  nodes.filter (XmlNode.isElement initialization)

theorem initialNodes_cons_of_isElement {node : XmlNode}
    (hnode : node.isElement initialization = true) (nodes : List XmlNode) :
    initialNodes (node :: nodes) = node :: initialNodes nodes :=
  List.filter_cons_of_pos hnode

theorem initialNodes_cons_of_not_isElement {node : XmlNode}
    (hnode : ¬ node.isElement initialization = true) (nodes : List XmlNode) :
    initialNodes (node :: nodes) = initialNodes nodes :=
  List.filter_cons_of_neg hnode

/-- Initialization segments and segment URLs are counted. -/
theorem segmentCount_countSegment (nodes : List XmlNode) (stream : Manifest.Stream) :
    (nodes.foldl countSegment stream).segmentCount =
      stream.segmentCount + (initialNodes nodes).length + (segmentNodes nodes).length := by
  induction nodes generalizing stream with
  | nil => rfl
  | cons node nodes ih =>
    rw [List.foldl_cons, ih, countSegment]
    by_cases hinitial : node.isElement initialization = true
    · have hsegment : ¬ node.isElement segmentURL = true := by
        rw [isElement_unique hinitial (by decide)]
        exact Bool.false_ne_true
      rw [if_pos hinitial, initialNodes_cons_of_isElement hinitial,
        segmentNodes_cons_of_not_isElement hsegment, List.length_cons]
      dsimp only
      omega
    · rw [if_neg hinitial, initialNodes_cons_of_not_isElement hinitial]
      by_cases hsegment : node.isElement segmentURL = true
      · rw [if_pos hsegment, segmentNodes_cons_of_isElement hsegment, List.length_cons]
        dsimp only
        omega
      · rw [if_neg hsegment, segmentNodes_cons_of_not_isElement hsegment]

/-- At most one initialization segment, which has a URL, and a URL for every other segment. -/
structure Enumerable (segmentList : XmlNode) : Prop where
  initial_le : (initialNodes segmentList.children).length ≤ 1
  hasSource : ∀ node ∈ initialNodes segmentList.children, (node.getProp sourceURL).isSome
  hasMedia : HasMedia segmentList.children

theorem Enumerable.initialOf_length {segmentList : XmlNode} (h : Enumerable segmentList) :
    (initialOf segmentList).toList.length = (initialNodes segmentList.children).length := by
  have hle := h.initial_le
  have hsource := h.hasSource
  rw [initialOf, ← initialNodes]
  cases hnodes : initialNodes segmentList.children with
  | nil => rfl
  | cons node nodes =>
    rw [hnodes, List.length_cons] at hle
    obtain rfl : nodes = [] := List.eq_nil_of_length_eq_zero (by omega)
    obtain ⟨source, hsource⟩ := Option.isSome_iff_exists.mp (hsource node (by simp [hnodes]))
    simp [hsource]

theorem HasMedia.length {nodes : List XmlNode} (h : HasMedia nodes) :
    ((segmentNodes nodes).filterMap (XmlNode.getProp media)).length =
      (segmentNodes nodes).length := by
  rw [List.length_filterMap_eq_countP, List.countP_eq_length]
  exact h

/-- The planned segments are as many as are counted. -/
theorem plan_length {rep segmentList : XmlNode} (hlist : segmentListOf rep = some segmentList)
    (h : Enumerable segmentList) :
    (plan rep).length =
      (initialNodes segmentList.children).length + (segmentNodes segmentList.children).length := by
  rw [plan, hlist]
  dsimp only
  rw [List.length_append, h.initialOf_length, HasMedia.length h.hasMedia]

/-- A stream that was read has its segments counted. -/
theorem readStream_segmentCount {nodeListGetString : List XmlNode → Option Bytes}
    {stream read : Manifest.Stream} (hcount : stream.segmentCount = 0)
    (h : readStream nodeListGetString stream = some read) :
    ∃ rep segmentList, read.rep = some rep ∧ segmentListOf rep = some segmentList ∧
      read.segmentCount =
        (initialNodes segmentList.children).length +
          (segmentNodes segmentList.children).length := by
  simp only [readStream, Option.bind_eq_bind, Option.bind_eq_some_iff, Option.pure_def,
    Option.some.injEq] at h
  obtain ⟨rep, hrep, baseUrl, hbaseUrl, segmentList, hlist, rfl⟩ := h
  rw [readRepresentation_segmentList] at hlist
  refine ⟨rep, segmentList, (countSegment_keeps _ _).2.trans hrep, hlist, ?_⟩
  dsimp only
  rw [segmentCount_countSegment, hcount, Nat.zero_add]

theorem segmentCount_picked (onPickFilter : PickFilter) (periodEl : XmlNode) (isVideo : Bool) :
    ((periodEl.children.foldl (pickAdaptation onPickFilter) initialised).stream
      isVideo).segmentCount = 0 := by
  rw [stream_picked, stream_initialised,
    foldl_ask_keeps Manifest.Stream.segmentCount (fun _ _ ↦ rfl) (fun _ _ ↦ rfl)]
  rfl

theorem getFormat_segmentCount {nodeListGetString : List XmlNode → Option Bytes}
    {onPickFilter : PickFilter} {root : XmlNode} {ctx : DashCtx}
    (h : getFormat nodeListGetString onPickFilter root = some ctx) (isVideo : Bool) :
    ∃ rep segmentList, (ctx.stream isVideo).rep = some rep ∧
      segmentListOf rep = some segmentList ∧
      (ctx.stream isVideo).segmentCount =
        (initialNodes segmentList.children).length +
          (segmentNodes segmentList.children).length := by
  simp only [getFormat, Option.bind_eq_bind, Option.bind_eq_some_iff, Option.pure_def,
    Option.some.injEq] at h
  obtain ⟨-, -, periodEl, -, -, -, audio, haudio, video, hvideo, rfl⟩ := h
  cases isVideo with
  | false => exact readStream_segmentCount (segmentCount_picked onPickFilter periodEl false) haudio
  | true => exact readStream_segmentCount (segmentCount_picked onPickFilter periodEl true) hvideo

/-- **Segment enumeration.** For every manifest with a format and every order of the calls, those
for one stream give its segments in document order until they first give none. The segments are as
many as were counted, and the calls for the other stream make no difference. -/
theorem segments_enumerated (nodeListGetString : List XmlNode → Option Bytes)
    (onPickFilter : PickFilter) (root : XmlNode) (ctx : DashCtx)
    (hformat : dashGetFormat nodeListGetString onPickFilter (some root) initialised = some (0, ctx))
    (isVideo : Bool)
    (hlist : ∀ rep segmentList, (ctx.stream isVideo).rep = some rep →
      segmentListOf rep = some segmentList → Enumerable segmentList)
    (calls : List Bool) :
    ∃ rep segmentList, (ctx.stream isVideo).rep = some rep ∧
      segmentListOf rep = some segmentList ∧
      let segments :=
        (initialOf segmentList).toList ++
          (segmentNodes segmentList.children).filterMap (XmlNode.getProp media)
      let answers := answersOf isVideo (callAnswers nextStreamSegment calls ctx)
      upToNone answers = segments.take (calls.count isVideo) ∧
      (none ∈ answers ↔ segments.length < calls.count isVideo) ∧
      segments.length = (ctx.stream isVideo).segmentCount ∧
      answers =
        answersOf isVideo
          (callAnswers nextStreamSegment (List.replicate (calls.count isVideo) isVideo) ctx) := by
  have hformat := dashGetFormat_eq_zero.mp hformat
  obtain ⟨rep, segmentList, hrep, hsegmentList, hcount⟩ := getFormat_segmentCount hformat isVideo
  obtain ⟨rep', hrep', hpending, hcomplete⟩ := getFormat_stream hformat isVideo
  obtain rfl : rep = rep' := Option.some.inj (hrep.symm.trans hrep')
  have henumerable := hlist rep segmentList hrep hsegmentList
  have hcompleteRep : Complete rep := by
    intro segmentList' hsegmentList'
    obtain rfl := Option.some.inj (hsegmentList.symm.trans hsegmentList')
    exact henumerable.hasMedia
  have hyields := yields_pending (hcomplete hcompleteRep)
  have hplan : plan rep =
      (initialOf segmentList).toList ++
        (segmentNodes segmentList.children).filterMap (XmlNode.getProp media) := by
    rw [plan, hsegmentList]
  rw [hpending, hplan] at hyields
  have hlength := plan_length hsegmentList henumerable
  rw [hplan, ← hcount] at hlength
  refine ⟨rep, segmentList, hrep, hsegmentList, ?_⟩
  dsimp only
  rw [separate_nextStreamSegment.answersOf_callAnswers,
    separate_nextStreamSegment.answersOf_callAnswers, List.count_replicate_self]
  exact ⟨hyields.upToNone_answers _, hyields.none_mem_answers _, hlength, rfl⟩

/-- A representation with this segment list. -/
def repWith (list : List XmlNode) : XmlNode :=
  .element representation [(bandwidthName, [57])]
    [.element baseURL [] [.other [104]], .other [10], .element segmentListName [] list]

/-- A manifest with this segment list for both streams. -/
def manifestWith (list : List XmlNode) : XmlNode :=
  .element mpd []
    [.other [10], .element period []
      [.element adaptationSet [(mimeType, audio)] [repWith list],
        .element adaptationSet [(mimeType, video)] [.other [10], repWith list]]]

/-- What `ytdl_dash_get_format` makes of such a manifest. -/
def ctxWith (list : List XmlNode) : DashCtx :=
  let stream : Manifest.Stream :=
    countSegments
      { rep := some (repWith list)
        bandwidth := 9
        baseUrl := some [104]
        segmentPath := none
        initialSegment := none
        segmentList := [.element segmentListName [] list]
        segmentCount := 0 }
  ⟨stream, stream⟩

theorem dashGetFormat_manifestWith (list : List XmlNode) :
    dashGetFormat (fun _ ↦ some [104]) (getBestRepresentation digits) (some (manifestWith list))
      initialised = some (0, ctxWith list) := rfl

/-- An initialization segment and two others, with text in between. -/
def exampleList : List XmlNode :=
  [.other [10], .element initialization [(sourceURL, [48])] [], .other [10],
    .element segmentURL [(media, [49])] [], .other [10], .element segmentURL [(media, [50])] []]

theorem segments_enumerated_example :
    ∃ rep segmentList, (ctxWith exampleList).video.rep = some rep ∧
      segmentListOf rep = some segmentList ∧
      upToNone
          (answersOf true
            (callAnswers nextStreamSegment [true, false, true, true, false, true]
              (ctxWith exampleList))) =
        ((initialOf segmentList).toList ++
          (segmentNodes segmentList.children).filterMap (XmlNode.getProp media)).take 4 := by
  have hlist (rep segmentList : XmlNode)
      (hrep : ((ctxWith exampleList).stream true).rep = some rep)
      (hsegmentList : segmentListOf rep = some segmentList) : Enumerable segmentList := by
    obtain rfl : repWith exampleList = rep := Option.some.inj hrep
    obtain rfl : .element segmentListName [] exampleList = segmentList :=
      Option.some.inj hsegmentList
    exact ⟨by decide, by decide, by decide⟩
  obtain ⟨rep, segmentList, hrep, hsegmentList, hanswers, -⟩ :=
    segments_enumerated (fun _ ↦ some [104]) (getBestRepresentation digits)
      (manifestWith exampleList) (ctxWith exampleList) rfl true hlist
      [true, false, true, true, false, true]
  exact ⟨rep, segmentList, hrep, hsegmentList, hanswers⟩

/-! ## The end of the segments -/

/-- No segment URL is ahead of the cursor. -/
def Exhausted (isVideo : Bool) (ctx : DashCtx) : Prop :=
  segmentNodes (ctx.stream isVideo).segmentList = []

/-- Whatever is called: once there is none because the segment list is exhausted there is none any
more, and there is none only then. -/
structure EndIsStable (isVideo : Bool) (ctx : DashCtx) : Prop where
  stays : ∀ calls later, Exhausted isVideo (afterCalls nextStreamSegment calls ctx) →
    (nextStreamSegment isVideo (afterCalls nextStreamSegment calls ctx)).1 = none →
    (nextStreamSegment isVideo (afterCalls nextStreamSegment (calls ++ later) ctx)).1 = none
  notEarly : ∀ calls,
    (nextStreamSegment isVideo (afterCalls nextStreamSegment calls ctx)).1 = none →
    Exhausted isVideo (afterCalls nextStreamSegment calls ctx)

/-- A stream whose segments end for good. -/
def Plain (stream : Manifest.Stream) : Prop :=
  stream.initialSegment = none ∧ HasMedia stream.segmentList

theorem nextSegment_of_initialSegment {stream : Manifest.Stream}
    (hinitial : stream.initialSegment = none) :
    nextSegment stream =
      nextSegmentUrl { stream with segmentPath := none } stream.segmentList :=
  if_neg fun h ↦ h.2 hinitial

/-- A stream without an initialization segment gives none at the end only, and goes on like this. -/
theorem nextSegment_plain {stream : Manifest.Stream} (h : Plain stream) :
    Plain (nextSegment stream).2 ∧
      ((nextSegment stream).1 = none → segmentNodes stream.segmentList = []) ∧
      (segmentNodes stream.segmentList = [] →
        (nextSegment stream).1 = none ∧ segmentNodes (nextSegment stream).2.segmentList = []) := by
  obtain ⟨hinitial, hmedia⟩ := h
  rw [nextSegment_of_initialSegment hinitial]
  obtain ⟨hnodes, hloop⟩ | ⟨node, rest, hnodes, hloop⟩ :=
    nextSegmentUrl_eq { stream with segmentPath := none } stream.segmentList
  · rw [hloop]
    exact ⟨⟨hinitial, by simp [HasMedia, segmentNodes]⟩, fun _ ↦ hnodes, fun _ ↦ ⟨rfl, rfl⟩⟩
  · rw [hloop]
    rw [HasMedia, hnodes] at hmedia
    obtain ⟨path, hpath⟩ := Option.isSome_iff_exists.mp (hmedia node List.mem_cons_self)
    refine ⟨⟨hinitial, fun other hother ↦ hmedia other (List.mem_cons_of_mem node hother)⟩, ?_, ?_⟩
    · intro hnone
      rw [hpath] at hnone
      cases hnone
    · intro hnil
      rw [hnodes] at hnil
      cases hnil

/-- Where none is given, the initialization segment is the next one. -/
theorem nextSegment_cleared {stream : Manifest.Stream} (h : (nextSegment stream).1 = none) :
    (nextSegment stream).2.segmentPath = none ∧
      (nextSegment stream).2.initialSegment = stream.initialSegment := by
  rw [nextSegment] at h ⊢
  split at h
  · next hinitial => exact absurd h hinitial.2
  · next hlisted =>
    rw [if_neg hlisted]
    obtain ⟨-, hloop⟩ | ⟨node, rest, -, hloop⟩ :=
      nextSegmentUrl_eq { stream with segmentPath := none } stream.segmentList
    · rw [hloop]
      exact ⟨rfl, rfl⟩
    · rw [hloop] at h ⊢
      exact ⟨h, rfl⟩

/-- A stream that gives none at the end only has a URL for every segment. -/
theorem hasMedia_of_notEarly (nodes : List XmlNode) {stream : Manifest.Stream}
    (hnodes : segmentNodes stream.segmentList = nodes)
    (hlisted : ¬ (stream.segmentPath = none ∧ stream.initialSegment ≠ none))
    (hnotEarly : ∀ calls, (nextSegment (after nextSegment calls stream)).1 = none →
      segmentNodes (after nextSegment calls stream).segmentList = []) :
    ∀ node ∈ nodes, (node.getProp media).isSome := by
  induction nodes generalizing stream with
  | nil => simp
  | cons node nodes ih =>
    obtain ⟨hnil, -⟩ | ⟨node', rest, hrest, hloop⟩ :=
      nextSegmentUrl_eq { stream with segmentPath := none } stream.segmentList
    · rw [hnodes] at hnil
      cases hnil
    · obtain ⟨rfl, htail⟩ := List.cons.inj (hnodes.symm.trans hrest)
      have hnext : nextSegment stream =
          (node.getProp media,
            { stream with segmentPath := node.getProp media, segmentList := rest }) :=
        (if_neg hlisted).trans hloop
      have hpath : node.getProp media ≠ none := by
        intro hnone
        have hnil := hnotEarly 0 (by rw [after, Function.iterate_zero, id, hnext]; exact hnone)
        rw [after, Function.iterate_zero, id, hnodes] at hnil
        cases hnil
      intro other hother
      obtain rfl | hother := List.mem_cons.mp hother
      · exact Option.isSome_iff_ne_none.mpr hpath
      · have htailNodes : segmentNodes (nextSegment stream).2.segmentList = nodes := by
          rw [hnext]
          exact htail.symm
        have htailListed : ¬ ((nextSegment stream).2.segmentPath = none ∧
            (nextSegment stream).2.initialSegment ≠ none) := by
          rw [hnext]
          exact fun h ↦ hpath h.1
        exact ih htailNodes htailListed (fun calls ↦ hnotEarly (calls + 1)) other hother

theorem hasMedia_of_stable {stream : Manifest.Stream}
    (hnotEarly : ∀ calls, (nextSegment (after nextSegment calls stream)).1 = none →
      segmentNodes (after nextSegment calls stream).segmentList = []) :
    HasMedia stream.segmentList := by
  by_cases hfirst : stream.segmentPath = none ∧ stream.initialSegment ≠ none
  · obtain ⟨initial, hinitial⟩ := Option.ne_none_iff_exists'.mp hfirst.2
    have hnext := nextSegment_initial hfirst.1 hinitial
    have hlisted : ¬ ((nextSegment stream).2.segmentPath = none ∧
        (nextSegment stream).2.initialSegment ≠ none) := by
      rw [hnext]
      exact fun h ↦ Option.some_ne_none initial h.1
    have hmedia := hasMedia_of_notEarly _ rfl hlisted fun calls ↦ hnotEarly (calls + 1)
    rw [hnext] at hmedia
    exact hmedia
  · exact hasMedia_of_notEarly _ rfl hfirst hnotEarly

theorem initialSegment_nextSegment (stream : Manifest.Stream) :
    (nextSegment stream).2.initialSegment = stream.initialSegment := by
  rw [nextSegment]
  split
  · rfl
  · obtain ⟨-, hloop⟩ | ⟨node, rest, -, hloop⟩ :=
      nextSegmentUrl_eq { stream with segmentPath := none } stream.segmentList
    · rw [hloop]
    · rw [hloop]

theorem initialSegment_after (stream : Manifest.Stream) (calls : ℕ) :
    (after nextSegment calls stream).initialSegment = stream.initialSegment :=
  after_invariant (motive := fun other ↦ other.initialSegment = stream.initialSegment)
    (fun other hother ↦ (initialSegment_nextSegment other).trans hother) rfl calls

/-- After the end of a stream with an initialization segment that one is given again. -/
theorem nextSegment_after_end {stream : Manifest.Stream} (hmedia : HasMedia stream.segmentList)
    (hinitial : stream.initialSegment ≠ none) :
    ∃ calls, (nextSegment (after nextSegment calls stream)).1 = none ∧
      (nextSegment (after nextSegment (calls + 1) stream)).1 ≠ none := by
  have hend := (yields_pending hmedia).after_length
  refine ⟨_, hend, ?_⟩
  obtain ⟨hpath, hkept⟩ := nextSegment_cleared hend
  rw [initialSegment_after] at hkept
  obtain ⟨initial, hsome⟩ := Option.ne_none_iff_exists'.mp hinitial
  rw [after_add, after_succ, after, Function.iterate_zero, id,
    nextSegment_initial hpath (hkept.trans hsome)]
  exact Option.some_ne_none initial

/-- At its end a plain stream gives none, however often it is asked. -/
theorem nextSegment_after_exhausted {stream : Manifest.Stream} (h : Plain stream)
    (hexhausted : segmentNodes stream.segmentList = []) (calls : ℕ) :
    (nextSegment (after nextSegment calls stream)).1 = none := by
  have hkept : Plain (after nextSegment calls stream) ∧
      segmentNodes (after nextSegment calls stream).segmentList = [] :=
    after_invariant
      (motive := fun stream ↦ Plain stream ∧ segmentNodes stream.segmentList = [])
      (fun stream hstream ↦
        ⟨(nextSegment_plain hstream.1).1, ((nextSegment_plain hstream.1).2.2 hstream.2).2⟩)
      ⟨h, hexhausted⟩ calls
  exact ((nextSegment_plain hkept.1).2.2 hkept.2).1

/-- **The end of the segment list.** For every segment list and every order of the calls: the end is
stable exactly when there is no initialization segment and every segment URL has a `media`
attribute. -/
theorem endIsStable_iff (isVideo : Bool) (ctx : DashCtx) :
    EndIsStable isVideo ctx ↔
      (ctx.stream isVideo).initialSegment = none ∧ HasMedia (ctx.stream isVideo).segmentList := by
  have hpart (calls : List Bool) := separate_nextStreamSegment.part_afterCalls isVideo calls ctx
  have hown (calls : List Bool) :=
    (separate_nextStreamSegment.own isVideo (afterCalls nextStreamSegment calls ctx)).1
  simp only [hpart] at hown
  constructor
  · intro h
    have hnotEarly (calls : ℕ)
        (hnone : (nextSegment (after nextSegment calls (ctx.stream isVideo))).1 = none) :
        segmentNodes (after nextSegment calls (ctx.stream isVideo)).segmentList = [] := by
      have hearly := h.notEarly (List.replicate calls isVideo)
      rw [hown, Exhausted, hpart, List.count_replicate_self] at hearly
      exact hearly hnone
    have hmedia := hasMedia_of_stable hnotEarly
    refine ⟨?_, hmedia⟩
    by_contra hinitial
    obtain ⟨calls, hend, hagain⟩ := nextSegment_after_end hmedia hinitial
    have hstays := h.stays (List.replicate calls isVideo) [isVideo]
    rw [hown, hown, Exhausted, hpart, List.count_append, List.count_replicate_self,
      List.count_singleton_self] at hstays
    exact hagain (hstays (hnotEarly calls hend) hend)
  · intro h
    have hplain (calls : ℕ) : Plain (after nextSegment calls (ctx.stream isVideo)) :=
      after_invariant (motive := Plain) (fun _ hstream ↦ (nextSegment_plain hstream).1) h calls
    refine ⟨fun calls later hexhausted _ ↦ ?_, fun calls hnone ↦ ?_⟩
    · rw [Exhausted, hpart] at hexhausted
      rw [hown, List.count_append, after_add]
      exact nextSegment_after_exhausted (hplain _) hexhausted _
    · rw [hown] at hnone
      rw [Exhausted, hpart]
      exact (nextSegment_plain (hplain _)).2.1 hnone

/-- With an initialization segment it is given again after the end, and a segment URL without
`media` ends the segments too early. -/
theorem end_not_stable :
    dashGetFormat (fun _ ↦ some [104]) (getBestRepresentation digits)
        (some (manifestWith exampleList)) initialised = some (0, ctxWith exampleList) ∧
      ¬ EndIsStable true (ctxWith exampleList) ∧
      ¬ EndIsStable false
        (ctxWith [.element segmentURL [] [], .element segmentURL [(media, [49])] []]) := by
  refine ⟨rfl, fun h ↦ ?_, fun h ↦ ?_⟩
  · have hagain := h.stays [true, true, true] [true] rfl rfl
    cases hagain
  · have hearly := h.notEarly [] rfl
    cases hearly

end LibYtdl.Dash.Segments
