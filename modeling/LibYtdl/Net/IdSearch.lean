import LibYtdl.Foundation.Query
import LibYtdl.Net.VideoId

/-!
# Which id is found

The search for an id decides by the host, by the tail of the path and by the first `v=` of the
query. Each of the three looks at something else than its name says: the host is compared as far as
it goes, the characters that are checked in the path are its first ones, and the `v=` may stand
anywhere. What is found is right exactly where this makes no difference.
-/

namespace LibYtdl.Net.IdSearch

open Machine Search Query UrlParser UrlFields VideoId

/-! ## The alphabet -/

/-- The alphabet of ids: `[A-Za-z0-9_-]`. -/
def IdChar (ch : UInt8) : Prop :=
  (65 ≤ ch ∧ ch ≤ 90) ∨ (97 ≤ ch ∧ ch ≤ 122) ∨ (48 ≤ ch ∧ ch ≤ 57) ∨ ch = 95 ∨ ch = 45

instance (ch : UInt8) : Decidable (IdChar ch) := inferInstanceAs (Decidable (_ ∨ _))

/-- What holds of each number below 256 holds of each byte. -/
theorem forall_byte {p : UInt8 → Prop} (h : ∀ value < 256, p (UInt8.ofNat value)) (ch : UInt8) :
    p ch := by
  have hch := h ch.toNat (UInt8.toNat_lt ch)
  rwa [UInt8.ofNat_toNat] at hch

set_option maxRecDepth 2000 in
/-- The table is the alphabet. -/
theorem isValid_iff (ch : UInt8) : isValid ch = true ↔ IdChar ch := by
  revert ch
  apply forall_byte
  decide

/-! ## What the search reads -/

/-- The function reads nothing but the URL: it needs no byte behind it, and whatever stands there
makes no difference. -/
structure ReadsUrl (url id : Bytes) : Prop where
  inside : getIdFromUrl url url.length id ≠ none
  same : ∀ past past', getIdFromUrl (url ++ past) url.length id =
    getIdFromUrl (url ++ past') url.length id

/-- The query ends the URL, and the last twelve characters of the query are its first `v=` and ten
characters of an id; neither the host nor the path has ended the search before. -/
structure CutCandidate (url : Bytes) (u : HttpParserUrl) : Prop where
  host : HostAccepted (u.slice .host url)
  path : pathId (u.slice .path url) = none
  length : 13 ≤ (u.slice .query url).length
  atEnd : (u.fieldData .query).off + (u.slice .query url).length = url.length
  first : indexOf vEquals (u.slice .query url) = some ((u.slice .query url).length - 12)
  valid : ∀ ch ∈ (u.slice .query url).drop ((u.slice .query url).length - 10), IdChar ch

theorem candidateOf_eq_some {query : Bytes} {x : ℕ} :
    candidateOf query = some x ↔
      13 ≤ query.length ∧ indexOf vEquals query = some x ∧ x + 11 < query.length := by
  unfold candidateOf
  split
  case isTrue hroom => simp [Option.filter_eq_some_iff, hroom]
  case isFalse hroom => simp [hroom]

theorem validFor_iff (n : ℕ) (text : Bytes) : ValidFor n text ↔ ∀ ch ∈ text.take n, IdChar ch :=
  forall₂_congr fun ch _ ↦ isValid_iff ch

/-- The memory behind a candidate: the rest of the query, then what follows it. -/
theorem afterCandidate_eq {url : Bytes} {u : HttpParserUrl} (h : parse url = some u) (past : Bytes)
    {x : ℕ} (hx : x + 2 ≤ (u.slice .query url).length) :
    afterCandidate url past u x = (u.slice .query url).drop (x + 2) ++
      (url.drop ((u.fieldData .query).off + (u.slice .query url).length) ++ past) := by
  have hfield := fieldIn_of_parse h past .query
  have hinside := (parse_inside h).1 .query
  rw [hfield.length_eq] at hx ⊢
  rw [afterCandidate, Nat.add_assoc, hfield.drop_eq hx, List.drop_append_of_le_length hinside]

theorem getIdFromUrl_self {url : Bytes} {u : HttpParserUrl} (h : parse url = some u) (id : Bytes) :
    getIdFromUrl url url.length id = idOutcome url [] u id := by
  have heq := getIdFromUrl_eq h [] id
  rwa [List.append_nil] at heq

/-- Behind any other candidate, the eleven characters stand in the URL, or one of those that do is
not one of an id. -/
theorem idOutcome_of_not_cut {url : Bytes} {u : HttpParserUrl} (h : parse url = some u)
    (hcut : ¬ CutCandidate url u) (past id : Bytes) :
    idOutcome url past u id = idOutcome url [] u id ∧ idOutcome url [] u id ≠ none := by
  unfold idOutcome
  by_cases hhost : HostAccepted (u.slice .host url)
  · rw [if_pos hhost, if_pos hhost]
    cases hpath : pathId (u.slice .path url) with
    | some found => exact ⟨rfl, by simp⟩
    | none =>
      cases hquery : candidateOf (u.slice .query url) with
      | none => exact ⟨rfl, by simp⟩
      | some x =>
        obtain ⟨hlength, hfirst, hx⟩ := Iff.mp candidateOf_eq_some hquery
        have hafter (past : Bytes) := afterCandidate_eq h past (show x + 2 ≤ _ by omega)
        have hquerylen := (fieldIn_of_parse h [] .query).length_eq
        have hinside := (parse_inside h).1 .query
        dsimp only
        by_cases hroom : (u.fieldData .query).off + x + 13 ≤ url.length
        · -- eleven characters of the URL follow
          have htext : 11 ≤ ((u.slice .query url).drop (x + 2) ++
              url.drop ((u.fieldData .query).off + (u.slice .query url).length)).length := by
            rw [List.length_append, List.length_drop, List.length_drop]
            omega
          have htake (past : Bytes) : (afterCandidate url past u x).take 11 =
              ((u.slice .query url).drop (x + 2) ++
                url.drop ((u.fieldData .query).off + (u.slice .query url).length)).take 11 := by
            rw [hafter, ← List.append_assoc, List.take_append_of_le_length htext]
          have hlong (past : Bytes) : 11 ≤ (afterCandidate url past u x).length := by
            rw [hafter, ← List.append_assoc, List.length_append]
            omega
          have hvalid : ValidFor 11 (afterCandidate url past u x) ↔
              ValidFor 11 (afterCandidate url [] u x) := by
            rw [ValidFor, ValidFor, htake, htake]
          rw [if_pos (hlong past), if_pos (hlong []), htake, htake]
          simp only [hvalid, true_and]
          split <;> simp
        · -- ten characters are left, and they are not all of an id
          have hend : x = (u.slice .query url).length - 12 := by omega
          have hnot (past : Bytes) : ¬ ValidFor 11 (afterCandidate url past u x) := by
            rw [validFor_iff]
            intro hall
            apply hcut
            refine ⟨hhost, hpath, hlength, by omega, hend ▸ hfirst, fun ch hch ↦ hall ch ?_⟩
            have hten : x + 2 = (u.slice .query url).length - 10 := by omega
            rw [hafter, hten, List.take_append]
            apply List.mem_append_left
            rwa [List.take_of_length_le]
            rw [List.length_drop]
            omega
          rw [if_neg (hnot past), if_neg (hnot [])]
          exact ⟨rfl, by simp⟩
  · rw [if_neg hhost, if_neg hhost]
    exact ⟨rfl, by simp⟩

/-- The eleventh character is looked for behind the URL. -/
theorem getIdFromUrl_of_cut {url : Bytes} {u : HttpParserUrl} (h : parse url = some u)
    (hcut : CutCandidate url u) (id : Bytes) : getIdFromUrl url url.length id = none := by
  have hlength := hcut.length
  have hquery : candidateOf (u.slice .query url) = some ((u.slice .query url).length - 12) :=
    Iff.mpr candidateOf_eq_some ⟨hlength, hcut.first, by omega⟩
  have hten : (u.slice .query url).length - 12 + 2 = (u.slice .query url).length - 10 := by omega
  have htext : afterCandidate url [] u ((u.slice .query url).length - 12) =
      (u.slice .query url).drop ((u.slice .query url).length - 10) := by
    rw [afterCandidate_eq h [] (by omega), hcut.atEnd, List.drop_length, List.append_nil,
      List.append_nil, hten]
  have hvalid : ValidFor 11 (afterCandidate url [] u ((u.slice .query url).length - 12)) := by
    rw [htext, validFor_iff]
    exact fun ch hch ↦ hcut.valid ch (List.mem_of_mem_take hch)
  have hshort : ¬ 11 ≤ (afterCandidate url [] u ((u.slice .query url).length - 12)).length := by
    rw [htext, List.length_drop]
    omega
  rw [getIdFromUrl_self h, idOutcome, if_pos hcut.host, hcut.path]
  simp only [hquery]
  rw [if_pos hvalid, if_neg hshort]

/-- **The id depends on the URL only.** The search reads no byte behind the URL, and gives the same
result whatever follows it, exactly when its candidate is not cut off by the end of the URL. -/
theorem readsUrl_iff (url id : Bytes) :
    ReadsUrl url id ↔ ∀ u, parse url = some u → ¬ CutCandidate url u := by
  constructor
  · intro hreads u h hcut
    exact hreads.inside (getIdFromUrl_of_cut h hcut id)
  · intro hcut
    cases h : parse url with
    | none =>
      have hall (past : Bytes) := getIdFromUrl_of_rejected h past id
      refine ⟨?_, fun past past' ↦ (hall past).trans (hall past').symm⟩
      have hself := hall []
      rw [List.append_nil] at hself
      simp [hself]
    | some u =>
      have hsame (past : Bytes) := idOutcome_of_not_cut h (hcut u h) past id
      refine ⟨?_, fun past past' ↦ ?_⟩
      · rw [getIdFromUrl_self h]
        exact (hsame []).2
      · rw [getIdFromUrl_eq h, getIdFromUrl_eq h, (hsame past).1, (hsame past').1]

/-- A URL whose last parameter is `v` with ten characters. -/
def cutUrl : Bytes := ascii "http://youtu.be/?a&v=0123456789"

/-- The function reads the byte behind it, and takes an `A` for the end of the id. -/
theorem cutUrl_not_readsUrl : ¬ ReadsUrl cutUrl (List.replicate 12 0) := by
  intro h
  have hsame := h.same [65] [33]
  have hfound : getIdFromUrl (cutUrl ++ [65]) cutUrl.length (List.replicate 12 0) =
      some (0, ascii "0123456789A" ++ [0]) := by decide
  have hfailed : getIdFromUrl (cutUrl ++ [33]) cutUrl.length (List.replicate 12 0) =
      some (1, List.replicate 12 0) := by decide
  rw [hfound, hfailed] at hsame
  exact absurd hsame (by decide)

/-! ## The host -/

/-- The host component of a URL. -/
def hostOf (url : Bytes) (u : HttpParserUrl) : Option Bytes :=
  if u.fieldSet .host then some (u.slice .host url) else none

/-- Whenever an id is found, the URL has a host, and the host is one of the table. -/
def HostsExact (url past id : Bytes) : Prop :=
  ∀ out, getIdFromUrl (url ++ past) url.length id = some (0, out) →
    ∃ u, parse url = some u ∧ ∃ host ∈ ytHosts, hostOf url u = some host

/-- An id stands where the function looks for it: at the end of the path, or behind the candidate of
the query. -/
def Carries (url past : Bytes) (u : HttpParserUrl) : Prop :=
  (∃ found, pathId (u.slice .path url) = some found) ∨
    ∃ x, candidateOf (u.slice .query url) = some x ∧ ValidFor 11 (afterCandidate url past u x) ∧
      11 ≤ (afterCandidate url past u x).length

/-- The host, or the empty text when there is none, is the start of an entry of the table, but not
the whole of it. -/
def HostCut (url : Bytes) (u : HttpParserUrl) : Prop :=
  ∃ entry ∈ ytHosts, u.slice .host url <+: entry ∧ u.slice .host url ≠ entry

theorem exists_idOutcome_zero (url past : Bytes) (u : HttpParserUrl) (id : Bytes) :
    (∃ out, idOutcome url past u id = some (0, out)) ↔
      HostAccepted (u.slice .host url) ∧ Carries url past u := by
  unfold idOutcome Carries
  by_cases hhost : HostAccepted (u.slice .host url)
  · rw [if_pos hhost]
    cases pathId (u.slice .path url) with
    | some found => simp [hhost]
    | none =>
      cases candidateOf (u.slice .query url) with
      | none => simp
      | some x =>
        dsimp only
        by_cases hvalid : ValidFor 11 (afterCandidate url past u x)
        · by_cases hroom : 11 ≤ (afterCandidate url past u x).length
          · simp [hhost, hvalid, hroom]
          · simp [hvalid, hroom]
        · simp [hvalid]
  · simp [hhost]

/-- No entry is the start of another one, and none is empty. -/
theorem ytHosts_apart : ∀ entry ∈ ytHosts, entry ≠ [] ∧
    ∀ other ∈ ytHosts, other <+: entry → other = entry := by
  decide

/-- **Only hosts of the table.** An id is found only for a URL whose host is one of the table
exactly when the URL carries no id, or its host is not cut short. -/
theorem hostsExact_iff (url past id : Bytes) :
    HostsExact url past id ↔
      ∀ u, parse url = some u → HostCut url u → ¬ Carries url past u := by
  constructor
  · intro hexact u h hcut hcarries
    obtain ⟨entry, hentry, hprefix, hne⟩ := hcut
    obtain ⟨out, hout⟩ :=
      (exists_idOutcome_zero url past u id).mpr ⟨⟨entry, hentry, hprefix⟩, hcarries⟩
    obtain ⟨v, hv, host, hhost, hof⟩ := hexact out ((getIdFromUrl_eq h past id).trans hout)
    obtain rfl := Option.some.inj (h.symm.trans hv)
    have hslice : u.slice .host url = host := by
      unfold hostOf at hof
      split at hof
      · exact Option.some.inj hof
      · exact absurd hof nofun
    rw [hslice] at hprefix hne
    exact hne ((ytHosts_apart entry hentry).2 host hhost hprefix)
  · intro hcut out hout
    cases h : parse url with
    | none =>
      rw [getIdFromUrl_of_rejected h] at hout
      exact absurd (Prod.mk.inj (Option.some.inj hout)).1 (by decide)
    | some u =>
      rw [getIdFromUrl_eq h] at hout
      obtain ⟨⟨entry, hentry, hprefix⟩, hcarries⟩ :=
        (exists_idOutcome_zero url past u id).mp ⟨out, hout⟩
      have hwhole : u.slice .host url = entry := by
        by_contra hne
        exact hcut u h ⟨entry, hentry, hprefix, hne⟩ hcarries
      refine ⟨u, rfl, entry, hentry, ?_⟩
      have hset : u.fieldSet .host = true := by
        by_contra hunset
        have hempty := slice_host_of_unset h (by simpa using hunset)
        exact (ytHosts_apart entry hentry).1 (hwhole.symm.trans hempty)
      rw [hostOf, if_pos hset, hwhole]

/-- A path without a host is taken for a URL of YouTube. -/
theorem hostless_not_hostsExact :
    ¬ HostsExact (ascii "/watch?v=0123456789A") [] (List.replicate 12 0) := by
  intro h
  have hfound : getIdFromUrl (ascii "/watch?v=0123456789A" ++ [])
      (ascii "/watch?v=0123456789A").length (List.replicate 12 0) =
        some (0, ascii "0123456789A" ++ [0]) := by decide
  obtain ⟨u, hparse, host, hhost, hof⟩ := h _ hfound
  have hnone : (parse (ascii "/watch?v=0123456789A")).bind
      (hostOf (ascii "/watch?v=0123456789A")) = none := by decide
  rw [hparse, Option.bind_some, hof] at hnone
  exact absurd hnone nofun

/-! ## The query -/

/-- A text is an id. -/
def IsId (id : Bytes) : Prop := id.length = 11 ∧ ∀ ch ∈ id, IdChar ch

instance (id : Bytes) : Decidable (IsId id) :=
  @instDecidableAnd _ _ _ (List.decidableBAll IdChar id)

/-- A watch URL: the parameter `v` is not the first one of the query, its value is an id, and no
other parameter has its name. -/
structure WatchUrl (url : Bytes) (u : HttpParserUrl) (before : List Param) (id : Bytes)
    (after : List Param) : Prop where
  parsed : parse url = some u
  host : u.slice .host url ∈ ytHosts
  path : u.slice .path url = ascii "/watch"
  query : u.slice .query url = join ((before ++ (ascii "v", id) :: after).map render)
  notFirst : before ≠ []
  names : ∀ param ∈ before ++ after, param.1 ≠ ascii "v" ∧ 61 ∉ param.1 ∧ 38 ∉ param.1
  values : ∀ param ∈ before ++ after, 38 ∉ param.2
  isId : IsId id

/-- What stands behind the first `v=` of the query is the id. -/
def FirstIs (query id : Bytes) : Prop :=
  ∃ x, indexOf vEquals query = some x ∧ id <+: query.drop (x + 2)

theorem pathId_watch : pathId (ascii "/watch") = none := by decide

/-- The first `v=` leaves room for an id: the parameter `v` is not in front of it. -/
theorem WatchUrl.exists_first {url id : Bytes} {u : HttpParserUrl} {before after : List Param}
    (h : WatchUrl url u before id after) :
    ∃ x, indexOf vEquals (u.slice .query url) = some x ∧ x + 13 ≤ (u.slice .query url).length := by
  have hmem : render (ascii "v", id) ∈ (before ++ (ascii "v", id) :: after).map render :=
    List.mem_map_of_mem (List.mem_append_right _ List.mem_cons_self)
  obtain ⟨front, back, hsplit⟩ := infix_join_of_mem hmem
  rw [← h.query] at hsplit
  have hlength : (render (ascii "v", id)).length = 13 := by
    have hv : (ascii "v").length = 1 := by decide
    rw [render, List.length_append, List.length_cons, h.isId.1, hv]
  have hdrop : vEquals <+: (u.slice .query url).drop front.length := by
    have hv : vEquals = ascii "v" ++ [61] := by decide
    rw [← hsplit, List.append_assoc, List.drop_left, hv, render, List.append_assoc]
    exact (List.prefix_append_right_inj _).mpr (List.prefix_append [61] _)
  have hle : front.length + 13 ≤ (u.slice .query url).length := by
    rw [← hsplit, List.length_append, List.length_append, hlength]
    omega
  obtain ⟨x, hx, hfirst⟩ := exists_indexOf_of_prefix hdrop (by omega)
  exact ⟨x, hfirst, by omega⟩

/-- **The parameter `v` in any later place.** Its value is found exactly when the first `v=` of the
query is its own, or is followed by the same characters. -/
theorem getIdFromUrl_watch_iff {url id : Bytes} {u : HttpParserUrl} {before after : List Param}
    (h : WatchUrl url u before id after) (past old : Bytes) :
    getIdFromUrl (url ++ past) url.length old = some (0, id ++ [0]) ↔
      FirstIs (u.slice .query url) id := by
  obtain ⟨x, hfirst, hroom⟩ := h.exists_first
  have hcandidate : candidateOf (u.slice .query url) = some x :=
    Iff.mpr candidateOf_eq_some ⟨by omega, hfirst, by omega⟩
  have hhost : HostAccepted (u.slice .host url) := ⟨_, h.host, List.prefix_rfl⟩
  have hafter := afterCandidate_eq h.parsed past (show x + 2 ≤ _ by omega)
  have hdrop : 11 ≤ ((u.slice .query url).drop (x + 2)).length := by
    rw [List.length_drop]
    omega
  have htake : (afterCandidate url past u x).take 11 =
      ((u.slice .query url).drop (x + 2)).take 11 := by
    rw [hafter, List.take_append_of_le_length hdrop]
  have hlong : 11 ≤ (afterCandidate url past u x).length := by
    rw [hafter, List.length_append]
    omega
  have hfirstIs : FirstIs (u.slice .query url) id ↔
      ((u.slice .query url).drop (x + 2)).take 11 = id := by
    constructor
    · rintro ⟨y, hy, hprefix⟩
      obtain rfl := Option.some.inj (hfirst.symm.trans hy)
      rw [← h.isId.1]
      exact (List.prefix_iff_eq_take.mp hprefix).symm
    · intro heq
      exact ⟨x, hfirst, heq ▸ List.take_prefix _ _⟩
  rw [getIdFromUrl_eq h.parsed, hfirstIs, ← htake]
  unfold idOutcome
  rw [if_pos hhost, h.path, pathId_watch, hcandidate]
  dsimp only
  rw [if_pos hlong]
  constructor
  · intro hout
    split at hout
    · have hpair := (Prod.mk.inj (Option.some.inj hout)).2
      exact (List.append_inj_left' hpair rfl)
    · exact absurd (Prod.mk.inj (Option.some.inj hout)).1 (by decide)
  · intro heq
    have hvalid : ValidFor 11 (afterCandidate url past u x) := by
      rw [validFor_iff, heq]
      exact h.isId.2
    rw [if_pos hvalid, heq]

theorem slice_of_parse {url text : Bytes} {u : HttpParserUrl} {uf : Field} (h : parse url = some u)
    (hslice : (parse url).map (·.slice uf url) = some text) : u.slice uf url = text := by
  rw [h, Option.map_some] at hslice
  exact Option.some.inj hslice

/-- A watch URL with these parameters, of a host whose path is `/watch`. -/
theorem watchUrl_of_slices {url id : Bytes} {before after : List Param}
    (hhost : (parse url).map (·.slice .host url) = some (ascii "youtu.be"))
    (hpath : (parse url).map (·.slice .path url) = some (ascii "/watch"))
    (hquery : (parse url).map (·.slice .query url) =
      some (join ((before ++ (ascii "v", id) :: after).map render)))
    (hnotFirst : before ≠ [])
    (hnames : ∀ param ∈ before ++ after, param.1 ≠ ascii "v" ∧ 61 ∉ param.1 ∧ 38 ∉ param.1)
    (hvalues : ∀ param ∈ before ++ after, 38 ∉ param.2) (hid : IsId id) :
    ∃ u, WatchUrl url u before id after := by
  obtain ⟨u, hparse, -⟩ := Option.map_eq_some_iff.mp hhost
  have hentry : ascii "youtu.be" ∈ ytHosts := by decide
  exact ⟨u, hparse, slice_of_parse hparse hhost ▸ hentry, slice_of_parse hparse hpath,
    slice_of_parse hparse hquery, hnotFirst, hnames, hvalues, hid⟩

def laterUrl : Bytes := ascii "http://youtu.be/watch?a=1&v=0123456789A"

theorem getIdFromUrl_watch_later :
    getIdFromUrl (laterUrl ++ []) laterUrl.length (List.replicate 12 0) =
        some (0, ascii "0123456789A" ++ [0]) ↔
      FirstIs (ascii "a=1&v=0123456789A") (ascii "0123456789A") := by
  obtain ⟨u, h⟩ := @watchUrl_of_slices laterUrl (ascii "0123456789A") [(ascii "a", ascii "1")] []
    (by decide) (by decide) (by decide) (by decide) (by decide) (by decide)
    (by decide)
  have hiff := getIdFromUrl_watch_iff h [] (List.replicate 12 0)
  rwa [h.query] at hiff

def shadowUrl : Bytes := ascii "http://youtu.be/watch?xv=1&v=0123456789A"

/-- The end of a longer name hides the parameter. -/
theorem shadowUrl_not_found :
    ∃ u, WatchUrl shadowUrl u [(ascii "xv", ascii "1")] (ascii "0123456789A") [] ∧
      getIdFromUrl (shadowUrl ++ []) shadowUrl.length (List.replicate 12 0) ≠
        some (0, ascii "0123456789A" ++ [0]) := by
  obtain ⟨u, h⟩ := @watchUrl_of_slices shadowUrl (ascii "0123456789A") [(ascii "xv", ascii "1")] []
    (by decide) (by decide) (by decide) (by decide) (by decide) (by decide)
    (by decide)
  exact ⟨u, h, by decide⟩

/-! ## The path -/

/-- A URL whose path ends in `/` and eleven further characters, and whose query has no parameter
`v`. -/
structure TailUrl (url : Bytes) (u : HttpParserUrl) (tail : Bytes) : Prop where
  parsed : parse url = some u
  host : u.slice .host url ∈ ytHosts
  path : ∃ front, u.slice .path url = front ++ 47 :: tail
  length : tail.length = 11
  noSlash : 47 ∉ tail
  noV : ∀ piece ∈ (u.slice .query url).splitOn 38, (ofPiece piece).1 ≠ ascii "v"

/-- The tail of such a path is found exactly when it is an id; and whatever is found is an id, with
a zero behind it. -/
structure TailsExact (url past old : Bytes) : Prop where
  found : ∀ u tail, TailUrl url u tail →
    (getIdFromUrl (url ++ past) url.length old = some (0, tail ++ [0]) ↔ IsId tail)
  sound : ∀ out, getIdFromUrl (url ++ past) url.length old = some (0, out) →
    ∃ id, IsId id ∧ out = id ++ [0]

/-- The eleven characters behind the first one of the path, which are the ones that are checked. -/
def HeadValid (path : Bytes) : Prop := ∀ ch ∈ (path.drop 1).take 11, IdChar ch

/-- Behind the candidate of the query stands the same text. -/
def Repeated (url past : Bytes) (u : HttpParserUrl) (tail : Bytes) : Prop :=
  ∃ x, candidateOf (u.slice .query url) = some x ∧ tail <+: afterCandidate url past u x

/-- The check of the first characters says of the last ones what it should. -/
structure HeadDecides (url past : Bytes) (u : HttpParserUrl) : Prop where
  sound : HostAccepted (u.slice .host url) → ∀ front tail,
    u.slice .path url = front ++ 47 :: tail → tail.length = 11 →
      HeadValid (u.slice .path url) → IsId tail
  complete : ∀ tail, TailUrl url u tail → IsId tail →
    HeadValid (u.slice .path url) ∨ Repeated url past u tail

theorem pathId_eq_some {path id : Bytes} :
    pathId path = some id ↔
      (∃ front, path = front ++ 47 :: id) ∧ id.length = 11 ∧ HeadValid path := by
  unfold pathId
  constructor
  · intro h
    split at h
    · next hall =>
      obtain ⟨hroom, hslash, hhead⟩ := hall
      obtain rfl := Option.some.inj h
      obtain ⟨hlt, hslash⟩ := List.getElem?_eq_some_iff.mp hslash
      refine ⟨⟨path.take (path.length - 12), ?_⟩, ?_, (validFor_iff 11 _).mp hhead⟩
      · have hcons : path.drop (path.length - 12) = 47 :: path.drop (path.length - 11) := by
          have hnext : path.length - 12 + 1 = path.length - 11 := by omega
          rw [List.drop_eq_getElem_cons hlt, hslash, hnext]
        rw [← hcons, List.take_append_drop]
      · rw [List.length_drop]
        omega
    · exact absurd h nofun
  · rintro ⟨⟨front, hpath⟩, hlength, hhead⟩
    have htotal : path.length = front.length + 12 := by
      rw [hpath, List.length_append, List.length_cons, hlength]
    have hslash : path[path.length - 12]? = some 47 := by
      rw [htotal, Nat.add_sub_cancel, hpath, List.getElem?_append_right le_rfl, Nat.sub_self]
      rfl
    have hid : path.drop (path.length - 11) = id := by
      have hindex : path.length - 11 = (front ++ [47]).length := by
        rw [htotal, List.length_append, List.length_singleton]
        omega
      have hsplit : path = (front ++ [47]) ++ id := by
        rw [hpath, List.append_assoc, List.singleton_append]
      rw [hindex]
      conv_lhs => rw [hsplit]
      exact List.drop_left
    rw [if_pos ⟨by omega, hslash, (validFor_iff 11 _).mpr hhead⟩, hid]

theorem isId_take {text : Bytes} (hvalid : ValidFor 11 text) (hroom : 11 ≤ text.length) :
    IsId (text.take 11) :=
  ⟨by rw [List.length_take]; omega, (validFor_iff 11 text).mp hvalid⟩

/-- **Ids in the path.** The tail of the path is found exactly when it is an id, and only ids are
found, exactly when the first eleven characters behind the slash decide as the last eleven would;
where the first ones refuse an id, the query may still repeat it. -/
theorem tailsExact_iff (url past old : Bytes) :
    TailsExact url past old ↔ ∀ u, parse url = some u → HeadDecides url past u := by
  constructor
  · intro hexact u h
    constructor
    · intro hhost front tail hpath hlength hhead
      have hsome : pathId (u.slice .path url) = some tail :=
        Iff.mpr pathId_eq_some ⟨⟨front, hpath⟩, hlength, hhead⟩
      have hout : getIdFromUrl (url ++ past) url.length old = some (0, tail ++ [0]) := by
        rw [getIdFromUrl_eq h, idOutcome, if_pos hhost, hsome]
      obtain ⟨id, hid, heq⟩ := hexact.sound _ hout
      exact List.append_inj_left' heq rfl ▸ hid
    · intro tail htail hid
      have hout := (hexact.found u tail htail).mpr hid
      have hhost : HostAccepted (u.slice .host url) := ⟨_, htail.host, List.prefix_rfl⟩
      rw [getIdFromUrl_eq h, idOutcome, if_pos hhost] at hout
      cases hsome : pathId (u.slice .path url) with
      | some found => exact .inl (Iff.mp pathId_eq_some hsome).2.2
      | none =>
        rw [hsome] at hout
        dsimp only at hout
        cases hquery : candidateOf (u.slice .query url) with
        | none =>
          rw [hquery] at hout
          exact absurd (Prod.mk.inj (Option.some.inj hout)).1 (by decide)
        | some x =>
          rw [hquery] at hout
          dsimp only at hout
          split_ifs at hout
          · have heq := List.append_inj_left' (Prod.mk.inj (Option.some.inj hout)).2 rfl
            exact .inr ⟨x, hquery, heq ▸ List.take_prefix _ _⟩
          · exact absurd (Prod.mk.inj (Option.some.inj hout)).1 (by decide)
  · intro hdecides
    have hsound (out : Bytes) (hout : getIdFromUrl (url ++ past) url.length old = some (0, out)) :
        ∃ id, IsId id ∧ out = id ++ [0] := by
      cases h : parse url with
      | none =>
        rw [getIdFromUrl_of_rejected h] at hout
        exact absurd (Prod.mk.inj (Option.some.inj hout)).1 (by decide)
      | some u =>
        rw [getIdFromUrl_eq h] at hout
        unfold idOutcome at hout
        split at hout
        · next hhost =>
          split at hout
          · next found hsome =>
            obtain ⟨⟨front, hpath⟩, hlength, hhead⟩ := Iff.mp pathId_eq_some hsome
            exact ⟨found, (hdecides u h).sound hhost front found hpath hlength hhead,
              (Prod.mk.inj (Option.some.inj hout)).2.symm⟩
          · split at hout
            · dsimp only at hout
              split_ifs at hout with hvalid hroom
              · exact ⟨_, isId_take hvalid hroom, (Prod.mk.inj (Option.some.inj hout)).2.symm⟩
              · exact absurd (Prod.mk.inj (Option.some.inj hout)).1 (by decide)
            · exact absurd (Prod.mk.inj (Option.some.inj hout)).1 (by decide)
        · exact absurd (Prod.mk.inj (Option.some.inj hout)).1 (by decide)
    refine ⟨fun u tail htail ↦ ⟨fun hout ↦ ?_, fun hid ↦ ?_⟩, hsound⟩
    · obtain ⟨id, hid, heq⟩ := hsound _ hout
      exact List.append_inj_left' heq rfl ▸ hid
    · have hhost : HostAccepted (u.slice .host url) := ⟨_, htail.host, List.prefix_rfl⟩
      rw [getIdFromUrl_eq htail.parsed, idOutcome, if_pos hhost]
      by_cases hhead : HeadValid (u.slice .path url)
      · rw [Iff.mpr pathId_eq_some ⟨htail.path, htail.length, hhead⟩]
      · have hnone : pathId (u.slice .path url) = none := by
          by_contra hsome
          obtain ⟨found, hfound⟩ := Option.ne_none_iff_exists'.mp hsome
          exact hhead (Iff.mp pathId_eq_some hfound).2.2
        obtain hvalid | ⟨x, hquery, hprefix⟩ :=
          (hdecides u htail.parsed).complete tail htail hid
        · exact absurd hvalid hhead
        · have htake : (afterCandidate url past u x).take 11 = tail := by
            rw [← htail.length]
            exact (List.prefix_iff_eq_take.mp hprefix).symm
          have hvalid : ValidFor 11 (afterCandidate url past u x) := by
            rw [validFor_iff, htake]
            exact hid.2
          have hroom : 11 ≤ (afterCandidate url past u x).length := by
            rw [← htail.length]
            exact hprefix.length_le
          rw [hnone, hquery]
          dsimp only
          rw [if_pos hvalid, if_pos hroom, htake]

def embedUrl : Bytes := ascii "http://youtu.be/embed/0123456789A"

/-- The id of an embedded player is not found: the characters that are checked are `embed/01234`. -/
theorem embedUrl_not_tailsExact : ¬ TailsExact embedUrl [] (List.replicate 12 0) := by
  intro h
  have hhost : (parse embedUrl).map (·.slice .host embedUrl) = some (ascii "youtu.be") := by
    decide
  obtain ⟨u, hparse, -⟩ := Option.map_eq_some_iff.mp hhost
  have hpath : u.slice .path embedUrl = ascii "/embed" ++ 47 :: ascii "0123456789A" :=
    slice_of_parse hparse (by decide)
  have hquery : u.slice .query embedUrl = [] := slice_of_parse hparse (by decide)
  have htail : TailUrl embedUrl u (ascii "0123456789A") := by
    refine ⟨hparse, ?_, ⟨_, hpath⟩, by decide, by decide, ?_⟩
    · rw [slice_of_parse hparse hhost]
      decide
    · rw [hquery]
      decide
  have hfound := (h.found u _ htail).mpr (by decide)
  have hfailed : getIdFromUrl (embedUrl ++ []) embedUrl.length (List.replicate 12 0) =
      some (1, List.replicate 12 0) := by decide
  rw [hfound] at hfailed
  exact absurd hfailed (by decide)

end LibYtdl.Net.IdSearch
