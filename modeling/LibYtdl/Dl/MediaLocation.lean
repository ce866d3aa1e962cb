import LibYtdl.Dl.MediaDownload

/-!
# The target of a redirect

The parser passes the name and the value of a header on in pieces, cut where a read buffer ends. The
name callback compares each piece with as much of `location` as the piece is long, and the value
callback takes the first piece it gets and uninstalls itself. The target of a redirect is therefore
the first piece of a value that follows a matching piece of a name, whatever is around it.
-/

namespace LibYtdl.Dl.MediaLocation

open Machine Transition MediaDownload

variable {Url : Type} {parseUrl : Bytes → Option Url}

/-- A header in the pieces in which the parser passes it on. A value that is empty makes one empty
piece. -/
structure Cut where
  name : List Bytes
  value : List Bytes
  value_ne : value ≠ []

/-- The header that was cut. -/
def Cut.header (cut : Cut) : Bytes × Bytes := (cut.name.flatten, cut.value.flatten)

def Cut.events (cut : Cut) : List Event :=
  cut.name.map .headerField ++ cut.value.map .headerValue

/-- The headers of a response. -/
def headerEvents (cuts : List Cut) : List Event := cuts.flatMap Cut.events

/-- The header is called `Location`, in any case. -/
def IsLocationHeader (header : Bytes × Bytes) : Prop := header.1.map toLower = locationName

/-- A piece of the name begins the word `location`. -/
def Cut.hits (cut : Cut) : Bool := cut.name.any isLocation

/-- A value was awaited when the response began. -/
def awaited (ctx : Ctx Url) : Bool := ctx.onHeaderValue && ctx.redirectWasLocation

/-- The first piece of a value from the first header on that has a matching piece of a name. -/
def targetPiece (awaited : Bool) (cuts : List Cut) : Option Bytes :=
  ((if awaited then cuts else cuts.dropWhile fun cut ↦ !cut.hits).flatMap Cut.value).head?

/-! ## The callbacks, piece by piece -/

/-- The parser is in the headers of a redirect whose target was not found yet. -/
structure Searching (found : Bool) (download : Download Url) : Prop where
  parser : ∃ request statusCode received,
    download.parser = .message request statusCode received false
  onHeaderField : download.ctx.onHeaderField = true
  wantRedirect : download.ctx.wantRedirect = true
  found : awaited download.ctx = found

/-- The parser is in the headers of a redirect, and the callbacks are gone. -/
structure Settled (download : Download Url) : Prop where
  parser : ∃ request statusCode received,
    download.parser = .message request statusCode received false
  onHeaderField : download.ctx.onHeaderField = false
  onHeaderValue : download.ctx.onHeaderValue = false

variable {download : Download Url} {found : Bool}

theorem searching_statusComplete {start : Download Url} {statusCode : ℕ}
    (hstatus : isRedirect statusCode = true)
    (hstep : step parseUrl start (.statusComplete statusCode) = some download) :
    Searching (awaited start.ctx) download ∧ download.ctx.formatUrl = start.ctx.formatUrl := by
  obtain ⟨request, pending, -, -, -, rfl⟩ := step_statusComplete hstep
  have hevent : statusEvent request statusCode { start with pending := pending } =
      { start with
        pending := pending
        ctx := { start.ctx with wantRedirect := true, onHeaderField := true }
        parser := .message request statusCode [] false
        trace := start.trace ++ [.status request statusCode] } := by
    simp [statusEvent, mediaStatusCb, hstatus, onStatusComplete, Download.emit]
  rw [hevent]
  exact ⟨⟨⟨_, _, _, rfl⟩, rfl, rfl, rfl⟩, rfl⟩

theorem searching_field (parseUrl : Bytes → Option Url) (h : Searching found download)
    (piece : Bytes) :
    ∃ next, step parseUrl download (.headerField piece) = some next ∧
      Searching (found || isLocation piece) next ∧
      next.ctx.formatUrl = download.ctx.formatUrl := by
  obtain ⟨⟨request, statusCode, received, hparser⟩, hfield, hwant, hfound⟩ := h
  refine ⟨mediaHeaderFieldCb piece download, by simp [step, hparser, hfield], ?_⟩
  cases hpiece : isLocation piece with
  | false =>
    rw [mediaHeaderFieldCb, if_neg (by simp [hpiece]), Bool.or_false]
    exact ⟨⟨⟨_, _, _, hparser⟩, hfield, hwant, hfound⟩, rfl⟩
  | true =>
    rw [mediaHeaderFieldCb, if_pos ⟨hwant, hpiece⟩, Bool.or_true]
    exact ⟨⟨⟨_, _, _, hparser⟩, hfield, hwant, rfl⟩, rfl⟩

/-- A value that nobody awaits. -/
theorem searching_value (h : Searching false download) (piece : Bytes) :
    step parseUrl download (.headerValue piece) = some download := by
  obtain ⟨⟨request, statusCode, received, hparser⟩, -, -, hfound⟩ := h
  rw [awaited, Bool.and_eq_false_iff] at hfound
  rcases hfound with hvalue | hlocation
  · simp [step, hparser, hvalue]
  · simp [step, hparser, mediaHeaderValueCb, hlocation]

/-- The value that was awaited becomes the target. -/
theorem found_value (parseUrl : Bytes → Option Url) (h : Searching true download) (piece : Bytes) :
    ∃ next, step parseUrl download (.headerValue piece) = some next ∧ Settled next ∧
      next.ctx.formatUrl = piece := by
  obtain ⟨⟨request, statusCode, received, hparser⟩, -, -, hfound⟩ := h
  rw [awaited, Bool.and_eq_true] at hfound
  refine ⟨mediaHeaderValueCb piece download, by simp [step, hparser, hfound.1], ?_⟩
  rw [mediaHeaderValueCb, if_pos hfound.2]
  exact ⟨⟨⟨_, _, _, hparser⟩, rfl, rfl⟩, rfl⟩

theorem settled_field (h : Settled download) (piece : Bytes) :
    step parseUrl download (.headerField piece) = some download := by
  obtain ⟨⟨request, statusCode, received, hparser⟩, hfield, -⟩ := h
  simp [step, hparser, hfield]

theorem settled_value (h : Settled download) (piece : Bytes) :
    step parseUrl download (.headerValue piece) = some download := by
  obtain ⟨⟨request, statusCode, received, hparser⟩, -, hvalue⟩ := h
  simp [step, hparser, hvalue]

/-! ## The callbacks, header by header -/

theorem run_names (parseUrl : Bytes → Option Url) (h : Searching found download)
    (names : List Bytes) :
    ∃ next, run (step parseUrl) download (names.map .headerField) = some next ∧
      Searching (found || names.any isLocation) next ∧
      next.ctx.formatUrl = download.ctx.formatUrl := by
  induction names generalizing found download with
  | nil => exact ⟨download, rfl, by simpa using h, rfl⟩
  | cons piece names ih =>
    obtain ⟨middle, hmiddle, hsearching, hurl⟩ := searching_field parseUrl h piece
    obtain ⟨next, hnext, hnextSearching, hnextUrl⟩ := ih hsearching
    refine ⟨next, by simpa [hmiddle] using hnext, ?_, hnextUrl.trans hurl⟩
    simpa [Bool.or_assoc] using hnextSearching

theorem run_values (h : Searching false download) (values : List Bytes) :
    run (step parseUrl) download (values.map .headerValue) = some download := by
  induction values with
  | nil => rfl
  | cons piece values ih => simpa [searching_value h piece] using ih

theorem run_settledValues (h : Settled download) (values : List Bytes) :
    run (step parseUrl) download (values.map .headerValue) = some download := by
  induction values with
  | nil => rfl
  | cons piece values ih => simpa [settled_value h piece] using ih

theorem run_settledNames (h : Settled download) (names : List Bytes) :
    run (step parseUrl) download (names.map .headerField) = some download := by
  induction names with
  | nil => rfl
  | cons piece names ih => simpa [settled_field h piece] using ih

/-- Once the target is found, the rest of the headers changes nothing. -/
theorem run_settled (h : Settled download) (cuts : List Cut) :
    run (step parseUrl) download (headerEvents cuts) = some download := by
  induction cuts with
  | nil => rfl
  | cons cut cuts ih =>
    have hcut : run (step parseUrl) download cut.events = some download := by
      rw [Cut.events, run_append, run_settledNames h, Option.bind_some, run_settledValues h]
    have hcons : headerEvents (cut :: cuts) = cut.events ++ headerEvents cuts := rfl
    rw [hcons, run_append, hcut]
    exact ih

@[simp] theorem targetPiece_nil (found : Bool) : targetPiece found [] = none := by
  simp [targetPiece]

/-- A header without a matching piece is passed over. -/
theorem targetPiece_cons_pass {cut : Cut} {cuts : List Cut} (hhits : cut.hits = false) :
    targetPiece false (cut :: cuts) = targetPiece false cuts := by
  simp [targetPiece, hhits]

theorem targetPiece_cons_take {cut : Cut} {cuts : List Cut} {piece : Bytes} {rest : List Bytes}
    (hvalue : cut.value = piece :: rest) (hfound : (found || cut.hits) = true) :
    targetPiece found (cut :: cuts) = some piece := by
  cases found with
  | true => simp [targetPiece, hvalue]
  | false =>
    have hhits : cut.hits = true := by simpa using hfound
    simp [targetPiece, hhits, hvalue]

/-- The headers leave the first piece of a value that follows a matching piece of a name. -/
theorem run_headerEvents (parseUrl : Bytes → Option Url) (h : Searching found download)
    (cuts : List Cut) :
    ∃ last, run (step parseUrl) download (headerEvents cuts) = some last ∧
      last.ctx.formatUrl = (targetPiece found cuts).getD download.ctx.formatUrl := by
  induction cuts generalizing found download with
  | nil => exact ⟨download, rfl, by simp⟩
  | cons cut cuts ih =>
    obtain ⟨middle, hmiddle, hsearching, hurl⟩ := run_names parseUrl h cut.name
    have hevents : headerEvents (cut :: cuts) =
        cut.name.map .headerField ++ (cut.value.map .headerValue ++ headerEvents cuts) :=
      List.append_assoc _ _ _
    rw [hevents, run_append, hmiddle, Option.bind_some, run_append]
    cases hfound : found || cut.hits with
    | false =>
      obtain ⟨rfl, hhits⟩ := Bool.or_eq_false_iff.mp hfound
      rw [show (false || cut.name.any isLocation) = false from hfound] at hsearching
      obtain ⟨last, hlast, hlastUrl⟩ := ih hsearching
      rw [run_values hsearching, targetPiece_cons_pass hhits, ← hurl]
      exact ⟨last, hlast, hlastUrl⟩
    | true =>
      rw [show (found || cut.name.any isLocation) = true from hfound] at hsearching
      obtain ⟨piece, rest, hvalue⟩ := List.exists_cons_of_ne_nil cut.value_ne
      obtain ⟨next, hnext, hsettled, hnextUrl⟩ := found_value parseUrl hsearching piece
      rw [targetPiece_cons_take hvalue hfound]
      refine ⟨next, ?_, hnextUrl⟩
      rw [hvalue, List.map_cons, run_cons, hnext, Option.bind_some, run_settledValues hsettled]
      exact run_settled hsettled cuts

/-! ## The target -/

/-- Wherever the name `Location` is cut, its first piece with a letter begins `location`. -/
theorem hits_of_isLocationHeader {cut : Cut} (h : IsLocationHeader cut.header) :
    cut.hits = true := by
  obtain ⟨name, value, value_ne⟩ := cut
  have hflatten : name.flatten.map toLower = locationName := h
  cases name with
  | nil => simp [locationName] at hflatten
  | cons piece name =>
    have hbegins : (piece.map toLower).isPrefixOf locationName = true := by
      rw [List.isPrefixOf_iff_prefix, ← hflatten, List.flatten_cons, List.map_append]
      exact List.prefix_append _ _
    simp [Cut.hits, isLocation, hbegins]

/-- With a `Location` header, some piece is taken. -/
theorem targetPiece_isSome {cuts : List Cut} {cut : Cut} (hmem : cut ∈ cuts)
    (hlocation : IsLocationHeader cut.header) (found : Bool) :
    (targetPiece found cuts).isSome := by
  induction cuts generalizing found with
  | nil => simp at hmem
  | cons first cuts ih =>
    obtain ⟨piece, rest, hvalue⟩ := List.exists_cons_of_ne_nil first.value_ne
    cases hfound : found || first.hits with
    | true => simp [targetPiece_cons_take hvalue hfound]
    | false =>
      obtain ⟨rfl, hhits⟩ := Bool.or_eq_false_iff.mp hfound
      rcases List.mem_cons.mp hmem with rfl | hlater
      · simp [hits_of_isLocationHeader hlocation] at hhits
      · rw [targetPiece_cons_pass hhits]
        exact ih hlater false

/-- The target is right when no header before `Location` has a matching piece in its name and the
value of `Location` comes in one piece. -/
theorem targetPiece_uncut {before after : List Cut} {cut : Cut} {location : Bytes}
    (hbefore : ∀ earlier ∈ before, earlier.hits = false)
    (hlocation : IsLocationHeader cut.header) (hvalue : cut.value = [location]) :
    targetPiece false (before ++ cut :: after) = some location := by
  induction before with
  | nil => exact targetPiece_cons_take hvalue (by simp [hits_of_isLocationHeader hlocation])
  | cons first before ih =>
    rw [List.cons_append, targetPiece_cons_pass (hbefore first List.mem_cons_self)]
    exact ih fun earlier hearlier ↦ hbefore earlier (List.mem_cons_of_mem _ hearlier)

/-- **The target of a redirect.** For every redirect with a `Location` header and every way in which
its headers are cut, the download ends up with the location exactly when the first piece of a value
from the first matching piece of a name on is the whole location. -/
theorem target_iff_whole (parseUrl : Bytes → Option Url) (start download : Download Url)
    (statusCode : ℕ) (hstatus : isRedirect statusCode = true)
    (hstep : step parseUrl start (.statusComplete statusCode) = some download)
    (cuts : List Cut) (location : Bytes)
    (hlocation : ∃ cut ∈ cuts, IsLocationHeader cut.header ∧ cut.header.2 = location) :
    (∃ last, run (step parseUrl) download (headerEvents cuts) = some last ∧
      last.ctx.formatUrl = location) ↔
      targetPiece (awaited start.ctx) cuts = some location := by
  obtain ⟨cut, hmem, hname, -⟩ := hlocation
  obtain ⟨hsearching, -⟩ := searching_statusComplete hstatus hstep
  obtain ⟨last, hrun, hurl⟩ := run_headerEvents parseUrl hsearching cuts
  obtain ⟨piece, hpiece⟩ :=
    Option.isSome_iff_exists.mp (targetPiece_isSome hmem hname (awaited start.ctx))
  rw [hpiece, Option.getD_some] at hurl
  rw [hpiece, Option.some.injEq, ← hurl]
  constructor
  · rintro ⟨other, hother, hotherUrl⟩
    obtain rfl := Option.some.inj (hrun.symm.trans hother)
    exact hotherUrl
  · exact fun heq ↦ ⟨last, hrun, heq⟩

/-- The parser at the headers of the first response. -/
def redirected : Option (Download Unit) :=
  run (step fun _ ↦ some ()) (Download.ready (Ctx.zeroed ())) [.connected, .statusComplete 302]

/-- `Location: ab` in one buffer, and with the value cut in two. -/
theorem splits_differ :
    ∃ download whole halves, redirected = some download ∧
      run (step fun _ ↦ some ()) download
        (headerEvents [⟨[locationName], [[97, 98]], by decide⟩]) = some whole ∧
      run (step fun _ ↦ some ()) download
        (headerEvents [⟨[locationName], [[97], [98]], by decide⟩]) = some halves ∧
      whole.ctx.formatUrl ≠ halves.ctx.formatUrl :=
  ⟨_, _, _, rfl, rfl, rfl, by decide⟩

theorem target_iff_whole_twoHeaders :
    (∃ last, run (step fun _ ↦ some ())
        { Download.ready (Ctx.zeroed ()) with
          ctx := { Ctx.zeroed () with wantRedirect := true, onHeaderField := true }
          connection := .up
          parser := .message (.media [] ()) 302 [] false
          trace := [.status (.media [] ()) 302] }
        (headerEvents [⟨[[118, 105], [97]], [[49]], by decide⟩,
          ⟨[[76, 79], [67, 97, 116, 105, 111, 110]], [[97, 98], []], by decide⟩]) = some last ∧
      last.ctx.formatUrl = [97, 98]) ↔
      targetPiece false [⟨[[118, 105], [97]], [[49]], by decide⟩,
        ⟨[[76, 79], [67, 97, 116, 105, 111, 110]], [[97, 98], []], by decide⟩] = some [97, 98] :=
  target_iff_whole _
    { Download.ready (Ctx.zeroed ()) with connection := .up, pending := [.media [] ()] } _ 302 rfl
    rfl _ _ ⟨_, List.mem_cons_of_mem _ List.mem_cons_self, rfl, rfl⟩

end LibYtdl.Dl.MediaLocation
