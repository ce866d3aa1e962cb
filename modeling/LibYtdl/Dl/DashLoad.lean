import LibYtdl.Dash.Format
import LibYtdl.Dl.DashDownload

/-!
# Loading a manifest

`ytdl_dl_dash_load_fork` reads the manifest that was received. It looks neither at what
`ytdl_dash_ctx_init` nor at what `ytdl_dash_get_format` returns: what keeps it from a null pointer
is that the document is a manifest with a representation for each stream, and a base URL for the one
that is downloaded.
-/

namespace LibYtdl.Dl.DashLoad

open Machine Dash.Manifest Dash.Format DashDownload

/-- What becomes of a manifest: a null pointer is read, `ytdl_dl_dash_load_fork` returns, or a
connection to the host is started. -/
inductive Loaded
  | nullDereference
  | returned (ctx : Ctx)
  | connecting (ctx : Ctx)

/-- `ytdl_dl_dash_load_fork`. -/
def loadFork (library : Library) (ctx : Ctx) : Loaded :=
  match dashGetFormat library.nodeListGetString ctx.onPickFilter
      (library.xmlReadMemory ctx.manifest) initialised with
  | none => .nullDereference
  | some (_, dash) =>
    match (dash.stream ctx.isVideo).baseUrl with
    | none => .nullDereference
    | some baseUrl =>
      match library.parseUrl baseUrl with
      | none => .returned { ctx with dash := dash }
      | some (host, path) => .connecting { ctx with dash := dash, host := host, path := path }

/-- Where there is a format and a URL, a connection is started. -/
theorem loadFork_of_dashLoadFork {library : Library} {ctx started : Ctx}
    (h : dashLoadFork library ctx = some started) : loadFork library ctx = .connecting started := by
  simp only [dashLoadFork, Option.bind_eq_bind, Option.bind_eq_some_iff, Option.pure_def,
    Option.some.injEq] at h
  obtain ⟨root, hroot, dash, hformat, baseUrl, hbaseUrl, ⟨host, path⟩, hurl, rfl⟩ := h
  rw [loadFork, hroot, dashGetFormat_eq_zero.mpr hformat]
  simp only [hbaseUrl, hurl]

/-- A connection is to the host of the base URL of the representation for the stream. -/
def ToChosenHost (library : Library) (started : Ctx) : Prop :=
  ∃ rep baseUrl path, (started.dash.stream started.isVideo).rep = some rep ∧
    baseUrlOf library.nodeListGetString rep = some baseUrl ∧
    library.parseUrl baseUrl = some (started.host, path)

/-- Nothing null is read, and a connection is to the host of the chosen stream. -/
def Handled (library : Library) : Loaded → Prop
  | .nullDereference => False
  | .returned _ => True
  | .connecting started => ToChosenHost library started

/-- The document is read, it is an `MPD` whose first element is a `Period`, the filter accepts a
representation of either kind, and the one for the stream has a base URL. -/
def Loadable (library : Library) (ctx : Ctx) : Prop :=
  ∃ root periodEl rep, library.xmlReadMemory ctx.manifest = some root ∧
    root.isElement mpd = true ∧ firstElement root.children = some periodEl ∧
    periodEl.isElement period = true ∧
    (accepted ctx.onPickFilter (!ctx.isVideo) 0 (candidates (!ctx.isVideo) periodEl)).isSome ∧
    accepted ctx.onPickFilter ctx.isVideo 0 (candidates ctx.isVideo periodEl) = some rep ∧
    (baseUrlOf library.nodeListGetString rep).isSome

section Loading

variable {library : Library} {ctx : Ctx}

/-- What is picked of a period. -/
def pickedOf (ctx : Ctx) (periodEl : XmlNode) : DashCtx :=
  periodEl.children.foldl (pickAdaptation ctx.onPickFilter) initialised

/-- The base URL that is read of a period with two representations. -/
theorem baseUrl_picked_readFormat {periodEl rep : XmlNode}
    (hother : (accepted ctx.onPickFilter (!ctx.isVideo) 0
      (candidates (!ctx.isVideo) periodEl)).isSome)
    (hrep : accepted ctx.onPickFilter ctx.isVideo 0 (candidates ctx.isVideo periodEl) = some rep) :
    ((readFormat library.nodeListGetString (pickedOf ctx periodEl)).2.stream ctx.isVideo).baseUrl =
      baseUrlOf library.nodeListGetString rep := by
  obtain ⟨other, hother⟩ := Option.isSome_iff_exists.mp hother
  rw [← rep_accepted, ← pickedOf] at hother hrep
  have hbase := baseUrl_picked ctx.onPickFilter periodEl
  cases hvideo : ctx.isVideo with
  | false =>
    rw [hvideo] at hother hrep
    exact baseUrl_readFormat hrep hother hbase false
  | true =>
    rw [hvideo] at hother hrep
    exact baseUrl_readFormat hother hrep hbase true

theorem rep_pickedOf (ctx : Ctx) (periodEl : XmlNode) (isVideo : Bool) :
    ((pickedOf ctx periodEl).stream isVideo).rep =
      accepted ctx.onPickFilter isVideo 0 (candidates isVideo periodEl) :=
  rep_accepted ctx.onPickFilter periodEl isVideo

/-- Where no base URL was read, the length of a null pointer is asked for. -/
theorem loadFork_of_none {result : ℤ} {dash : DashCtx}
    (hformat : dashGetFormat library.nodeListGetString ctx.onPickFilter
      (library.xmlReadMemory ctx.manifest) initialised = some (result, dash))
    (hbaseUrl : (dash.stream ctx.isVideo).baseUrl = none) :
    loadFork library ctx = .nullDereference := by
  rw [loadFork, hformat]
  simp only [hbaseUrl]

/-- Where a base URL was read, it is that of the picked representation. -/
theorem handled_of_some {result : ℤ} {dash : DashCtx} {rep : XmlNode} {baseUrl : Bytes}
    (hformat : dashGetFormat library.nodeListGetString ctx.onPickFilter
      (library.xmlReadMemory ctx.manifest) initialised = some (result, dash))
    (hread : (dash.stream ctx.isVideo).baseUrl = some baseUrl)
    (hrep : (dash.stream ctx.isVideo).rep = some rep)
    (hbaseUrl : baseUrlOf library.nodeListGetString rep = some baseUrl) :
    Handled library (loadFork library ctx) := by
  rw [loadFork, hformat]
  simp only [hread]
  cases hurl : library.parseUrl baseUrl with
  | none => trivial
  | some location => exact ⟨rep, baseUrl, location.2, hrep, hbaseUrl, hurl⟩

/-- A manifest in which the filter accepts no representation of one kind. -/
theorem loadFork_of_missing {root periodEl : XmlNode} {isVideo : Bool}
    (hroot : library.xmlReadMemory ctx.manifest = some root) (hmpd : root.isElement mpd = true)
    (hfirst : firstElement root.children = some periodEl)
    (hperiod : periodEl.isElement period = true)
    (hmissing : accepted ctx.onPickFilter isVideo 0 (candidates isVideo periodEl) = none) :
    loadFork library ctx = .nullDereference := by
  have hread : readFormat library.nodeListGetString (pickedOf ctx periodEl) =
      (-1, pickedOf ctx periodEl) :=
    readFormat_of_missing _ ((rep_pickedOf ctx periodEl isVideo).trans hmissing)
  apply loadFork_of_none
  · rw [hroot, dashGetFormat_of_period _ _ hmpd hfirst hperiod, ← pickedOf, hread]
  · exact baseUrl_picked ctx.onPickFilter periodEl ctx.isVideo

/-- **Loading a manifest.** For every byte string that was received: it is handled exactly when the
document is a manifest with a representation for each stream, and a base URL for the one that is
downloaded. -/
theorem handled_iff (library : Library) (ctx : Ctx) :
    Handled library (loadFork library ctx) ↔ Loadable library ctx := by
  constructor
  · intro hhandled
    have hnull (h : loadFork library ctx = .nullDereference) : False := by
      rw [h] at hhandled
      exact hhandled
    obtain hformat | hformat | ⟨root, periodEl, hroot, hmpd, hfirst, hperiod⟩ :=
      dashGetFormat_cases library.nodeListGetString ctx.onPickFilter
        (library.xmlReadMemory ctx.manifest) initialised
    · exact (hnull (by rw [loadFork, hformat])).elim
    · apply (hnull (loadFork_of_none hformat _)).elim
      rw [stream_initialised]
      rfl
    · cases hother : accepted ctx.onPickFilter (!ctx.isVideo) 0
          (candidates (!ctx.isVideo) periodEl) with
      | none => exact (hnull (loadFork_of_missing hroot hmpd hfirst hperiod hother)).elim
      | some other =>
        cases hrep : accepted ctx.onPickFilter ctx.isVideo 0 (candidates ctx.isVideo periodEl) with
        | none => exact (hnull (loadFork_of_missing hroot hmpd hfirst hperiod hrep)).elim
        | some rep =>
          refine ⟨root, periodEl, rep, hroot, hmpd, hfirst, hperiod, by simp [hother], hrep, ?_⟩
          by_contra hbaseUrl
          rw [Option.not_isSome_iff_eq_none] at hbaseUrl
          apply hnull
          apply loadFork_of_none
          · rw [hroot, dashGetFormat_of_period _ _ hmpd hfirst hperiod]
          · exact (baseUrl_picked_readFormat (by simp [hother]) hrep).trans hbaseUrl
  · rintro ⟨root, periodEl, rep, hroot, hmpd, hfirst, hperiod, hother, hrep, hbaseUrl⟩
    obtain ⟨baseUrl, hbaseUrl⟩ := Option.isSome_iff_exists.mp hbaseUrl
    apply handled_of_some
    · rw [hroot, dashGetFormat_of_period _ _ hmpd hfirst hperiod]
    · exact (baseUrl_picked_readFormat hother hrep).trans hbaseUrl
    · exact (rep_readFormat _ _ _).trans ((rep_pickedOf ctx periodEl ctx.isVideo).trans hrep)
    · exact hbaseUrl

end Loading

/-- A manifest for audio only. -/
def audioOnly : XmlNode :=
  .element mpd []
    [.element period []
      [.element adaptationSet [(mimeType, audio)]
        [.element representation [(bandwidthName, [57])]
          [.element baseURL [] [.other [104]], .element segmentListName [] []]]]]

/-- The one document that can be read is that manifest. -/
def audioOnlyLibrary : Library where
  xmlReadMemory text := if text = [60] then some audioOnly else none
  nodeListGetString _ := some [104]
  parseUrl _ := some ([104], [47])

/-- A context that has received this manifest, for the video. -/
def received (manifest : Bytes) : Ctx where
  onData := true
  onSegmentComplete := true
  onPickFilter := getBestRepresentation digits
  manifest := manifest
  dash := initialised
  host := []
  path := []
  isVideo := true
  pauseBetweenChunks := false
  handlers := .manifest

/-- Neither a document that cannot be read nor a manifest without a video is handled. -/
theorem loadFork_nullDereference :
    ¬ Handled audioOnlyLibrary (loadFork audioOnlyLibrary (received [120])) ∧
      ¬ Handled audioOnlyLibrary (loadFork audioOnlyLibrary (received [60])) :=
  ⟨id, id⟩

end LibYtdl.Dl.DashLoad
