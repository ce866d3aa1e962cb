import LibYtdl.Net.IdSearch

/-!
# Watch URLs and short links

The URL that `ytdl_net_get_watch_url` builds for an id is one that `ytdl_net_get_id_from_url` finds
the id in, and so are the watch URLs and short links of all hosts, whatever further parameters or
fragments follow.
-/

namespace LibYtdl.Net.WatchUrl

open Machine Search UrlParser UrlFields VideoId IdSearch

/-- `ytdl_net_get_watch_url`: the string that `sprintf` leaves in `url`. -/
def getWatchUrl (id : Bytes) : Bytes := ascii "https://www.youtube.com/watch?v=" ++ id

/-- `YTDL_WATCH_URL_SIZE`. -/
def watchUrlSize : ℕ := (ascii "https://www.youtube.com/watch?v=").length + 1 + 11

/-- The string and its terminator fill the buffer. -/
theorem getWatchUrl_length {id : Bytes} (h : IsId id) :
    (getWatchUrl id).length + 1 = watchUrlSize := by
  rw [getWatchUrl, List.length_append, h.1, watchUrlSize]

/-- A watch URL of a host, with what follows the id. -/
def watchForm (host id suffix : Bytes) : Bytes :=
  ascii "https://" ++ host ++ ascii "/watch?v=" ++ id ++ suffix

/-- A short link of a host. -/
def pathForm (host id suffix : Bytes) : Bytes :=
  ascii "https://" ++ host ++ ascii "/" ++ id ++ suffix

/-! ## Characters -/

/-- The characters that queries and fragments are made of. -/
def TailChar (ch : UInt8) : Prop := isUrlChar ch = true ∨ ch = 63 ∨ ch = 35

instance (ch : UInt8) : Decidable (TailChar ch) := inferInstanceAs (Decidable (_ ∨ _))

set_option maxRecDepth 2000 in
theorem isUrlChar_of_idChar (ch : UInt8) : IdChar ch → isUrlChar ch = true := by
  revert ch
  apply forall_byte
  decide

set_option maxRecDepth 2000 in
theorem parseUrlChar_path (ch : UInt8) :
    isUrlChar ch = true → parseUrlChar .path ch = .path := by
  revert ch
  apply forall_byte
  decide

set_option maxRecDepth 2000 in
theorem parseUrlChar_query (ch : UInt8) :
    TailChar ch ∧ ch ≠ 35 → parseUrlChar .queryString ch = .queryString := by
  revert ch
  apply forall_byte
  decide

/-- The states behind the path, and those behind the query. -/
def tailStates : List State := [.queryStringStart, .queryString, .fragmentStart, .fragment]

def fragmentStates : List State := [.fragmentStart, .fragment]

set_option maxRecDepth 2000 in
theorem parseUrlChar_tail (ch : UInt8) :
    TailChar ch → ∀ s ∈ tailStates, parseUrlChar s ch ∈ tailStates := by
  revert ch
  apply forall_byte
  decide

set_option maxRecDepth 2000 in
theorem parseUrlChar_fragment (ch : UInt8) :
    TailChar ch → ∀ s ∈ fragmentStates, parseUrlChar s ch ∈ fragmentStates := by
  revert ch
  apply forall_byte
  decide

/-! ## The front of the URL -/

/-- What the loop has noted of the host. -/
def AtHost (scan : Scan) (host : Bytes) : Prop :=
  scan.foundAt = false ∧ scan.u.fieldSet .host = true ∧ scan.u.fieldSet .port = false ∧
    scan.u.fieldData .host = ⟨8, host.length⟩

instance (scan : Scan) (host : Bytes) : Decidable (AtHost scan host) :=
  inferInstanceAs (Decidable (_ ∧ _))

theorem scan_pathFront : ∀ host ∈ ytHosts,
    ∃ scan ∈ scanLoop scanStart 0 (ascii "https://" ++ host ++ ascii "/"),
      AtHost scan host ∧ scan.s = .path ∧ scan.oldUf = some .path ∧
        scan.u.fieldData .path = ⟨8 + host.length, 1⟩ := by
  decide

theorem scan_watchFront : ∀ host ∈ ytHosts,
    ∃ scan ∈ scanLoop scanStart 0 (ascii "https://" ++ host ++ ascii "/watch?v="),
      AtHost scan host ∧ scan.s = .queryString ∧ scan.oldUf = some .query ∧
        scan.u.fieldData .path = ⟨8 + host.length, 6⟩ ∧
        scan.u.fieldData .query = ⟨8 + host.length + 7, 2⟩ := by
  decide

theorem ytHosts_plain : ∀ host ∈ ytHosts, host ≠ [] ∧ ∀ ch ∈ host, isHostChar ch = true := by
  have hplain : ∀ host ∈ ytHosts, host ≠ [] ∧ host.all isHostChar = true := by decide
  intro host hhost
  exact ⟨(hplain host hhost).1, List.all_eq_true.mp (hplain host hhost).2⟩

/-! ## The whole URL -/

/-- What was noted of the host stays when its fields do. -/
theorem AtHost.congr {scan next : Scan} {host : Bytes} (h : AtHost scan host)
    (hfound : next.foundAt = scan.foundAt)
    (hset : ∀ uf, uf = .host ∨ uf = .port → next.u.fieldSet uf = scan.u.fieldSet uf)
    (hdata : next.u.fieldData .host = scan.u.fieldData .host) : AtHost next host :=
  ⟨hfound.trans h.1, (hset .host (.inl rfl)).trans h.2.1, (hset .port (.inr rfl)).trans h.2.2.1,
    hdata.trans h.2.2.2⟩

/-- The bytes of a field that is known to stand between two texts. -/
theorem slice_of_data {u : HttpParserUrl} {uf : Field} {front text rest url : Bytes}
    (hdata : u.fieldData uf = ⟨front.length, text.length⟩) (hurl : url = front ++ (text ++ rest)) :
    u.slice uf url = text := by
  rw [HttpParserUrl.slice, hdata, hurl, List.drop_left, List.take_left]

/-- The parser accepts what the loop has followed, and keeps its fields. -/
theorem AtHost.parse {scan : Scan} {host rest : Bytes} (h : AtHost scan host)
    (hhost : host ∈ ytHosts)
    (hscan : scanLoop scanStart 0 (ascii "https://" ++ (host ++ rest)) = some scan)
    (hlt : (ascii "https://" ++ (host ++ rest)).length ≤ 65535) :
    UrlFields.parse (ascii "https://" ++ (host ++ rest)) = some scan.u ∧
      scan.u.slice .host (ascii "https://" ++ (host ++ rest)) = host := by
  obtain ⟨hfound, hset, hport, hdata⟩ := h
  have height : (ascii "https://").length = 8 := by decide
  have hslice : scan.u.slice .host (ascii "https://" ++ (host ++ rest)) = host :=
    slice_of_data (height.symm ▸ hdata) rfl
  obtain ⟨hne, hplain⟩ := ytHosts_plain host hhost
  refine ⟨parse_of_plainHost hscan hset hport hfound ?_ ?_ (by omega), hslice⟩
  · rwa [hslice]
  · rwa [hslice]

/-- An id that the path or the query ends with is found. -/
theorem getIdFromUrl_of_path {url id : Bytes} {u : HttpParserUrl} (h : parse url = some u)
    (hhost : u.slice .host url ∈ ytHosts) (hpath : u.slice .path url = 47 :: id) (hid : IsId id)
    (past old : Bytes) :
    getIdFromUrl (url ++ past) url.length old = some (0, id ++ [0]) := by
  have hhead : HeadValid (u.slice .path url) := by
    intro ch hch
    rw [hpath, List.drop_one, List.tail_cons] at hch
    exact hid.2 ch (List.mem_of_mem_take hch)
  have hfound : pathId (u.slice .path url) = some id :=
    pathId_eq_some.mpr ⟨⟨[], hpath⟩, hid.1, hhead⟩
  rw [getIdFromUrl_eq h, idOutcome, if_pos ⟨_, hhost, List.prefix_rfl⟩, hfound]

theorem getIdFromUrl_of_query {url id rest : Bytes} {u : HttpParserUrl} (h : parse url = some u)
    (hhost : u.slice .host url ∈ ytHosts) (hpath : u.slice .path url = ascii "/watch")
    (hquery : u.slice .query url = vEquals ++ (id ++ rest)) (hid : IsId id) (past old : Bytes) :
    getIdFromUrl (url ++ past) url.length old = some (0, id ++ [0]) := by
  have htwo : vEquals.length = 2 := by decide
  have hlength : (u.slice .query url).length = 13 + rest.length := by
    rw [hquery, List.length_append, List.length_append, htwo, hid.1]
    omega
  have hstarts : vEquals <+: u.slice .query url := hquery ▸ List.prefix_append _ _
  have hcandidate : candidateOf (u.slice .query url) = some 0 :=
    candidateOf_eq_some.mpr ⟨by omega, indexOf_of_starts hstarts, by omega⟩
  have hafter : afterCandidate url past u 0 = id ++ (rest ++
      (url.drop ((u.fieldData .query).off + (u.slice .query url).length) ++ past)) := by
    have hdrop : (u.slice .query url).drop (0 + 2) = id ++ rest := by
      rw [hquery, Nat.zero_add, ← htwo, List.drop_left]
    rw [afterCandidate_eq h past (by omega), hdrop, List.append_assoc]
  have htake : (afterCandidate url past u 0).take 11 = id := by
    rw [hafter, ← hid.1, List.take_left]
  have hvalid : ValidFor 11 (afterCandidate url past u 0) := by
    rw [validFor_iff, htake]
    exact hid.2
  have hroom : 11 ≤ (afterCandidate url past u 0).length := by
    rw [hafter, List.length_append, hid.1]
    omega
  rw [getIdFromUrl_eq h, idOutcome, if_pos ⟨_, hhost, List.prefix_rfl⟩, hpath, pathId_watch,
    hcandidate]
  dsimp only
  rw [if_pos hvalid, if_pos hroom, htake]

/-! ## Short links -/

/-- Behind the path, nothing changes the host or the path. -/
theorem scan_afterPath {scan : Scan} {index : ℕ} {suffix : Bytes} (hs : scan.s = .path)
    (hchars : ∀ ch ∈ suffix, TailChar ch)
    (hstart : suffix = [] ∨ ∃ ch rest, suffix = ch :: rest ∧ (ch = 63 ∨ ch = 35)) :
    ∃ next, scanLoop scan index suffix = some next ∧ next.foundAt = scan.foundAt ∧
      ∀ uf, uf ≠ .query → uf ≠ .fragment →
        next.u.fieldData uf = scan.u.fieldData uf ∧ next.u.fieldSet uf = scan.u.fieldSet uf := by
  obtain rfl | ⟨ch, rest, rfl, hch⟩ := hstart
  · exact ⟨scan, rfl, rfl, fun _ _ _ ↦ ⟨rfl, rfl⟩⟩
  · have hstep : ∃ s ∈ tailStates, scanStep scan index ch = some { scan with s := s } := by
      obtain rfl | rfl := hch
      · refine ⟨.queryStringStart, by decide, ?_⟩
        rw [scanStep_of_goes (s := .queryStringStart) (by rw [hs]; decide) (by decide)]
        rfl
      · refine ⟨.fragmentStart, by decide, ?_⟩
        rw [scanStep_of_goes (s := .fragmentStart) (by rw [hs]; decide) (by decide)]
        rfl
    obtain ⟨s, hmem, hstep⟩ := hstep
    have hclosed (state : State) (hstate : state ∈ tailStates) (other : UInt8)
        (hother : other ∈ rest) : parseUrlChar state other ∈ tailStates :=
      parseUrlChar_tail other (hchars other (List.mem_cons_of_mem _ hother)) state hstate
    obtain ⟨next, hloop, hfound, hkept⟩ :=
      @scanLoop_frame tailStates rest (by decide) hclosed { scan with s := s } (index + 1) hmem
    refine ⟨next, ?_, hfound, fun uf hquery hfragment ↦ hkept uf ?_⟩
    · rw [scanLoop, hstep]
      exact hloop
    · intro state hstate
      fin_cases hstate
      · exact (Option.some_ne_none uf).symm
      · exact fun h ↦ hquery (Option.some.inj h).symm
      · exact (Option.some_ne_none uf).symm
      · exact fun h ↦ hfragment (Option.some.inj h).symm

theorem getIdFromUrl_pathForm {host id suffix : Bytes} (hid : IsId id) (hhost : host ∈ ytHosts)
    (hchars : ∀ ch ∈ suffix, TailChar ch)
    (hstart : suffix = [] ∨ ∃ ch rest, suffix = ch :: rest ∧ (ch = 63 ∨ ch = 35))
    (hlength : (pathForm host id suffix).length ≤ 65535) (past old : Bytes) :
    getIdFromUrl (pathForm host id suffix ++ past) (pathForm host id suffix).length old =
      some (0, id ++ [0]) := by
  obtain ⟨front, hfront, hatHost, hs, hold, hpath⟩ := scan_pathFront host hhost
  -- the id belongs to the path
  have hkeep (ch : UInt8) (hch : ch ∈ id) : parseUrlChar front.s ch = front.s := by
    rw [hs]
    exact parseUrlChar_path ch (isUrlChar_of_idChar ch (hid.2 ch hch))
  obtain ⟨middle, hmiddle, hs', -, hfound, hset, hdata, hothers⟩ :=
    @scanLoop_run id front (0 + (ascii "https://" ++ host ++ ascii "/").length) .path
      (hs ▸ by decide) (hs ▸ rfl) hold hkeep (by rw [hpath, hid.1]; norm_num)
  -- nothing behind it does
  obtain ⟨scan, hscan, hfound', hkept⟩ :=
    @scan_afterPath middle (0 + (ascii "https://" ++ host ++ ascii "/" ++ id).length) suffix
      (hs'.trans hs) hchars hstart
  have hhostKept := hkept .host (by decide) (by decide)
  have hat : AtHost scan host := by
    apply hatHost.congr (hfound'.trans hfound)
    · rintro uf (rfl | rfl)
      · rw [hhostKept.2, hset]
      · rw [(hkept .port (by decide) (by decide)).2, hset]
    · rw [hhostKept.1, hothers .host (by decide)]
  have hpathData : scan.u.fieldData .path = ⟨8 + host.length, 12⟩ := by
    rw [(hkept .path (by decide) (by decide)).1, hdata, hpath, hid.1]
  have hloop : scanLoop scanStart 0 (pathForm host id suffix) = some scan := by
    rw [pathForm, scanLoop_append, scanLoop_append, hfront, Option.bind_some, hmiddle,
      Option.bind_some]
    exact hscan
  have hsplit : pathForm host id suffix =
      ascii "https://" ++ (host ++ ((47 :: id) ++ suffix)) := by
    have hslash : ascii "/" = [47] := by decide
    simp [pathForm, hslash]
  rw [hsplit] at hloop hlength ⊢
  obtain ⟨hparse, hslice⟩ := hat.parse hhost hloop hlength
  have height : (ascii "https://").length = 8 := by decide
  have hfrontLength : (ascii "https://" ++ host).length = 8 + host.length := by
    rw [List.length_append, height]
  have hidLength : (47 :: id).length = 12 := by rw [List.length_cons, hid.1]
  have hpathSlice : scan.u.slice .path (ascii "https://" ++ (host ++ ((47 :: id) ++ suffix))) =
      47 :: id := by
    apply @slice_of_data _ _ (ascii "https://" ++ host) _ suffix
    · rw [hpathData, hfrontLength, hidLength]
    · rw [List.append_assoc]
  exact getIdFromUrl_of_path hparse (hslice.symm ▸ hhost) hpathSlice hid past old

/-! ## Watch URLs -/

/-- Behind the fragment's `#`, nothing changes the other fields. -/
theorem scan_afterQuery {scan : Scan} {index : ℕ} {suffix : Bytes} (hs : scan.s = .queryString)
    (hchars : ∀ ch ∈ suffix, TailChar ch) (hstart : suffix = [] ∨ ∃ rest, suffix = 35 :: rest) :
    ∃ next, scanLoop scan index suffix = some next ∧ next.foundAt = scan.foundAt ∧
      ∀ uf, uf ≠ .fragment →
        next.u.fieldData uf = scan.u.fieldData uf ∧ next.u.fieldSet uf = scan.u.fieldSet uf := by
  obtain rfl | ⟨rest, rfl⟩ := hstart
  · exact ⟨scan, rfl, rfl, fun _ _ ↦ ⟨rfl, rfl⟩⟩
  · have hstep : scanStep scan index 35 = some { scan with s := .fragmentStart } := by
      rw [scanStep_of_goes (s := .fragmentStart) (by rw [hs]; decide) (by decide)]
      rfl
    have hclosed (state : State) (hstate : state ∈ fragmentStates) (other : UInt8)
        (hother : other ∈ rest) : parseUrlChar state other ∈ fragmentStates :=
      parseUrlChar_fragment other (hchars other (List.mem_cons_of_mem _ hother)) state hstate
    have hmem : State.fragmentStart ∈ fragmentStates := by decide
    obtain ⟨next, hloop, hfound, hkept⟩ :=
      @scanLoop_frame fragmentStates rest (by decide) hclosed { scan with s := .fragmentStart }
        (index + 1) hmem
    refine ⟨next, ?_, hfound, fun uf hfragment ↦ hkept uf ?_⟩
    · rw [scanLoop, hstep]
      exact hloop
    · intro state hstate
      fin_cases hstate
      · exact (Option.some_ne_none uf).symm
      · exact fun h ↦ hfragment (Option.some.inj h).symm

/-- A suffix is more of the query, then the fragment. -/
theorem split_fragment (suffix : Bytes) :
    ∃ more fragment, suffix = more ++ fragment ∧ 35 ∉ more ∧
      (fragment = [] ∨ ∃ rest, fragment = 35 :: rest) := by
  induction suffix with
  | nil => exact ⟨[], [], rfl, List.not_mem_nil, .inl rfl⟩
  | cons ch rest ih =>
    by_cases hch : ch = 35
    · exact ⟨[], ch :: rest, rfl, List.not_mem_nil, .inr ⟨rest, by rw [hch]⟩⟩
    · obtain ⟨more, fragment, rfl, hmore, hfragment⟩ := ih
      exact ⟨ch :: more, fragment, rfl,
        List.not_mem_cons_of_ne_of_not_mem (Ne.symm hch) hmore, hfragment⟩

theorem getIdFromUrl_watchForm {host id suffix : Bytes} (hid : IsId id) (hhost : host ∈ ytHosts)
    (hchars : ∀ ch ∈ suffix, TailChar ch)
    (hlength : (watchForm host id suffix).length ≤ 65535) (past old : Bytes) :
    getIdFromUrl (watchForm host id suffix ++ past) (watchForm host id suffix).length old =
      some (0, id ++ [0]) := by
  obtain ⟨more, fragment, rfl, hmore, hfragment⟩ := split_fragment suffix
  obtain ⟨front, hfront, hatHost, hs, hold, hpath, hquery⟩ := scan_watchFront host hhost
  have height : (ascii "https://").length = 8 := by decide
  have htotal : host.length + id.length + more.length < 65520 := by
    have hmark : (ascii "/watch?v=").length = 9 := by decide
    simp only [watchForm, List.length_append, height, hmark] at hlength
    omega
  -- the id and what follows it up to the fragment belong to the query
  have hkeep (ch : UInt8) (hch : ch ∈ id ++ more) : parseUrlChar front.s ch = front.s := by
    rw [hs]
    apply parseUrlChar_query
    obtain hch | hch := List.mem_append.mp hch
    · refine ⟨.inl (isUrlChar_of_idChar ch (hid.2 ch hch)), ?_⟩
      rintro rfl
      exact absurd (hid.2 35 hch) (by decide)
    · refine ⟨hchars ch (List.mem_append_left _ hch), ?_⟩
      rintro rfl
      exact hmore hch
  obtain ⟨middle, hmiddle, hs', -, hfound, hset, hdata, hothers⟩ :=
    @scanLoop_run (id ++ more) front
      (0 + (ascii "https://" ++ host ++ ascii "/watch?v=").length) .query (hs ▸ by decide)
      (hs ▸ rfl) hold hkeep (by rw [hquery, List.length_append]; dsimp only; omega)
  obtain ⟨scan, hscan, hfound', hkept⟩ :=
    @scan_afterQuery middle
      (0 + (ascii "https://" ++ host ++ ascii "/watch?v=" ++ (id ++ more)).length) fragment
      (hs'.trans hs) (fun ch hch ↦ hchars ch (List.mem_append_right _ hch)) hfragment
  have hhostKept := hkept .host (by decide)
  have hat : AtHost scan host := by
    apply hatHost.congr (hfound'.trans hfound)
    · rintro uf (rfl | rfl)
      · rw [hhostKept.2, hset]
      · rw [(hkept .port (by decide)).2, hset]
    · rw [hhostKept.1, hothers .host (by decide)]
  have hloop : scanLoop scanStart 0 (watchForm host id (more ++ fragment)) = some scan := by
    have hassoc : watchForm host id (more ++ fragment) =
        (ascii "https://" ++ host ++ ascii "/watch?v=") ++ (id ++ more) ++ fragment := by
      simp [watchForm]
    rw [hassoc, scanLoop_append, scanLoop_append, hfront, Option.bind_some, hmiddle,
      Option.bind_some]
    exact hscan
  have hsplit : watchForm host id (more ++ fragment) = ascii "https://" ++
      (host ++ (ascii "/watch" ++ ([63] ++ ((vEquals ++ (id ++ more)) ++ fragment)))) := by
    have hmark : ascii "/watch?v=" = ascii "/watch" ++ ([63] ++ vEquals) := by decide
    simp [watchForm, hmark]
  rw [hsplit] at hloop hlength ⊢
  obtain ⟨hparse, hslice⟩ := hat.parse hhost hloop hlength
  have hfrontLength : (ascii "https://" ++ host).length = 8 + host.length := by
    rw [List.length_append, height]
  have hpathSlice : scan.u.slice .path (ascii "https://" ++
      (host ++ (ascii "/watch" ++ ([63] ++ ((vEquals ++ (id ++ more)) ++ fragment))))) =
        ascii "/watch" := by
    have hsix : (ascii "/watch").length = 6 := by decide
    apply @slice_of_data _ _ (ascii "https://" ++ host) _
      ([63] ++ ((vEquals ++ (id ++ more)) ++ fragment))
    · rw [(hkept .path (by decide)).1, hothers .path (by decide), hpath, hfrontLength, hsix]
    · simp only [List.append_assoc]
  have hquerySlice : scan.u.slice .query (ascii "https://" ++
      (host ++ (ascii "/watch" ++ ([63] ++ ((vEquals ++ (id ++ more)) ++ fragment))))) =
        vEquals ++ (id ++ more) := by
    have htwo : vEquals.length = 2 := by decide
    have hoff : (ascii "https://" ++ host ++ (ascii "/watch" ++ [63])).length =
        8 + host.length + 7 := by
      have hseven : (ascii "/watch" ++ [63]).length = 7 := by decide
      rw [List.length_append, hfrontLength, hseven]
    have hlen : (vEquals ++ (id ++ more)).length = 2 + (id ++ more).length := by
      rw [List.length_append, htwo]
    apply @slice_of_data _ _ ((ascii "https://" ++ host) ++ (ascii "/watch" ++ [63])) _ fragment
    · rw [(hkept .query (by decide)).1, hdata, hquery, hoff, hlen]
    · simp only [List.append_assoc]
  exact getIdFromUrl_of_query hparse (hslice.symm ▸ hhost) hpathSlice hquerySlice hid past old

/-- **Watch URLs and short links.** The id is found in the URL that is built for it, and in a watch
URL or a short link of any of the hosts, with any further characters of URLs behind it. -/
theorem getIdFromUrl_roundTrip {id : Bytes} (hid : IsId id) (past old : Bytes) :
    getIdFromUrl (getWatchUrl id ++ past) (getWatchUrl id).length old = some (0, id ++ [0]) ∧
      ∀ host ∈ ytHosts, ∀ suffix : Bytes, (∀ ch ∈ suffix, TailChar ch) →
        ((suffix = [] ∨ ∃ ch rest, suffix = ch :: rest ∧ (ch = 38 ∨ ch = 35)) →
          (watchForm host id suffix).length ≤ 65535 →
          getIdFromUrl (watchForm host id suffix ++ past) (watchForm host id suffix).length old =
            some (0, id ++ [0])) ∧
        ((suffix = [] ∨ ∃ ch rest, suffix = ch :: rest ∧ (ch = 63 ∨ ch = 35)) →
          (pathForm host id suffix).length ≤ 65535 →
          getIdFromUrl (pathForm host id suffix ++ past) (pathForm host id suffix).length old =
            some (0, id ++ [0])) := by
  refine ⟨?_, fun host hhost suffix hchars ↦ ⟨fun _ hlength ↦ ?_, fun hstart hlength ↦ ?_⟩⟩
  · have hurl : getWatchUrl id = watchForm (ascii "www.youtube.com") id [] := by
      have hmark : ascii "https://www.youtube.com/watch?v=" =
          ascii "https://" ++ ascii "www.youtube.com" ++ ascii "/watch?v=" := by decide
      rw [getWatchUrl, watchForm, List.append_nil, hmark]
    have hlength : (watchForm (ascii "www.youtube.com") id []).length ≤ 65535 := by
      have hsize := getWatchUrl_length hid
      have hsmall : watchUrlSize ≤ 65535 := by decide
      rw [hurl] at hsize
      omega
    rw [hurl]
    exact getIdFromUrl_watchForm hid (by decide) (fun ch hch ↦ absurd hch List.not_mem_nil) hlength
      past old
  · exact getIdFromUrl_watchForm hid hhost hchars hlength past old
  · exact getIdFromUrl_pathForm hid hhost hchars hstart hlength past old

theorem getIdFromUrl_roundTrip_digits :
    getIdFromUrl (getWatchUrl (ascii "0123456789A") ++ [])
      (getWatchUrl (ascii "0123456789A")).length [] = some (0, ascii "0123456789A" ++ [0]) :=
  (getIdFromUrl_roundTrip (by decide) [] []).1

end LibYtdl.Net.WatchUrl
