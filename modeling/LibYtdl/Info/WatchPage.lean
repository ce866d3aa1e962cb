import LibYtdl.Foundation.Machine
import LibYtdl.Foundation.Search

/-!
# The watch page

`ytdl_info_extract_watch_html` cuts two short values and two JSON texts out of the page of a video.
The page is a buffer of bytes without a terminator, so each search is given the number of bytes that
are left. A read outside of the page has no value.
-/

namespace LibYtdl.Info.WatchPage

open Machine Search

/-! ## The searches -/

/-- `strncmp(s, find, len) == 0` for the `len` characters of `find`. -/
def strncmp (buf : Bytes) : ℕ → Bytes → Option Bool
  | _, [] => some true
  | s, ch :: find => do
    let other ← buf[s]?
    if other = ch then strncmp buf (s + 1) find else some false

/-- The loops of `strnstr`, for a needle that starts with `c`. -/
def strnstrLoop (buf : Bytes) (c : UInt8) (find : Bytes) : ℕ → ℕ → Option (Option ℕ)
  | 0, _ => some none
  | slen + 1, s => do
    let sc ← buf[s]?
    if sc = 0 then some none
    else if sc ≠ c then strnstrLoop buf c find slen (s + 1)
    else if find.length > slen then some none
    else if ← strncmp buf (s + 1) find then some (some s)
    else strnstrLoop buf c find slen (s + 1)

/-- `strnstr`, from the index `s` on. -/
def strnstr (buf : Bytes) (s : ℕ) (find : Bytes) (slen : ℕ) : Option (Option ℕ) :=
  match find with
  | [] => some (some s)
  | c :: find => strnstrLoop buf c find slen s

/-! ## The extraction -/

/-- What the extraction asks of `yyjson`. A missing document has no root. -/
structure Yyjson (Doc Val : Type) where
  read : Bytes → Option Doc
  docGetRoot : Option Doc → Option Val

/-- The fields of `ytdl_info_ctx_t` that the extraction writes. -/
structure InfoCtx (Doc Val : Type) where
  cver : Vector UInt8 20
  playerUrl : Vector UInt8 150
  initDDoc : Option Doc
  initPrDoc : Option Doc
  response : Option Val
  playerResponse : Option Val

variable {Doc Val : Type}

/-- The loop that copies up to the next quote, for the `remaining` cells from `i` on. Nothing can be
read through `pos` when the marker before it was not found. -/
def copyValue {size : ℕ} (buf : Bytes) (pos : Option ℕ) :
    ℕ → ℕ → Vector UInt8 size → Option (Vector UInt8 size)
  | 0, _, value => some value
  | remaining + 1, i, value => do
    let start ← pos
    let ch ← buf[start + i]?
    if ch = 34 then some (value.setIfInBounds i 0)
    else copyValue buf pos remaining (i + 1) (value.setIfInBounds i ch)

/-- `yyjson_read` of the bytes from `start` to `stop`. -/
def readSlice (yyjson : Yyjson Doc Val) (buf : Bytes) (start stop : ℕ) : Option Doc :=
  yyjson.read ((buf.drop start).take (stop - start))

def cverMarker : Bytes := ascii "\x7b\"key\":\"cver\",\"value\":\""

def jsUrlMarker : Bytes := ascii "\"jsUrl\":\""

def responseMarker : Bytes := ascii " ytInitialData = "

def playerResponseMarker : Bytes := ascii " ytInitialPlayerResponse = "

def scriptEnd : Bytes := ascii ";</script>"

def varStart : Bytes := ascii ";var "

/-- The end of `ytdl_info_extract_watch_html`: the player's response is cut out up to the first of
two ends, both of which have to be there. -/
def extractPlayerResponse (yyjson : Yyjson Doc Val) (info : InfoCtx Doc Val) (buf : Bytes) :
    Option (ℤ × InfoCtx Doc Val) := do
  let some found ← strnstr buf 0 playerResponseMarker buf.length | some (4, info)
  let start := found + 27
  let some scriptStop ← strnstr buf start scriptEnd (buf.length - start) | some (5, info)
  let some varStop ← strnstr buf start varStart (buf.length - start) | some (6, info)
  let stop := if scriptStop < varStop then scriptStop else varStop
  let initPrDoc := readSlice yyjson buf start stop
  let info :=
    { info with initPrDoc := initPrDoc, playerResponse := yyjson.docGetRoot initPrDoc }
  if initPrDoc.isNone then some (-1, info) else some (0, info)

/-- The part of `ytdl_info_extract_watch_html` behind the two values. -/
def extractResponse (yyjson : Yyjson Doc Val) (info : InfoCtx Doc Val) (buf : Bytes) :
    Option (ℤ × InfoCtx Doc Val) := do
  let some found ← strnstr buf 0 responseMarker buf.length | some (1, info)
  let start := found + 17
  let some stop ← strnstr buf start scriptEnd (buf.length - start) | some (2, info)
  let initDDoc := readSlice yyjson buf start stop
  let info := { info with initDDoc := initDDoc, response := yyjson.docGetRoot initDDoc }
  if initDDoc.isNone then some (3, info) else extractPlayerResponse yyjson info buf

/-- `ytdl_info_extract_watch_html`. -/
def infoExtractWatchHtml (yyjson : Yyjson Doc Val) (info : InfoCtx Doc Val) (buf : Bytes) :
    Option (ℤ × InfoCtx Doc Val) := do
  let found ← strnstr buf 0 cverMarker buf.length
  let cver ← copyValue buf (found.map (· + 23)) 20 0 info.cver
  let found ← strnstr buf 0 jsUrlMarker buf.length
  let playerUrl ← copyValue buf (found.map (· + 9)) 150 0 info.playerUrl
  extractResponse yyjson { info with cver := cver, playerUrl := playerUrl } buf

/-! ## What the searches compute -/

/-- What a search sees of the page: it ends at the bound, or at a zero. -/
def visible (buf : Bytes) (s slen : ℕ) : Bytes := ((buf.drop s).take slen).takeWhile (· ≠ 0)

theorem visible_length_le (buf : Bytes) (s slen : ℕ) : (visible buf s slen).length ≤ slen :=
  ((List.takeWhile_sublist _).length_le).trans (List.length_take_le _ _)

/-- One byte more to see. -/
theorem visible_succ {buf : Bytes} {s : ℕ} {ch : UInt8} (h : buf[s]? = some ch) (slen : ℕ) :
    visible buf s (slen + 1) = if ch = 0 then [] else ch :: visible buf (s + 1) slen := by
  obtain ⟨hlt, rfl⟩ := List.getElem?_eq_some_iff.mp h
  unfold visible
  rw [List.drop_eq_getElem_cons hlt, List.take_succ_cons, List.takeWhile_cons]
  by_cases hzero : buf[s] = 0 <;> simp [hzero]

theorem strncmp_eq {find : Bytes} (hzero : 0 ∉ find) {buf : Bytes} {s slen : ℕ}
    (hle : s + slen ≤ buf.length) (hroom : find.length ≤ slen) :
    strncmp buf s find = some (decide (find <+: visible buf s slen)) := by
  induction find generalizing s slen with
  | nil => simp [strncmp]
  | cons ch find ih =>
    obtain ⟨slen, rfl⟩ : ∃ rest, slen = rest + 1 := ⟨slen - 1, by simp at hroom; omega⟩
    have hlt : s < buf.length := by omega
    have hread : buf[s]? = some buf[s] := List.getElem?_eq_getElem hlt
    have hch : ch ≠ 0 := fun h ↦ hzero (h ▸ List.mem_cons_self)
    have hrest := ih (fun h ↦ hzero (List.mem_cons_of_mem _ h)) (by omega : s + 1 + slen ≤ _)
      (by simpa using hroom)
    rw [strncmp, hread, visible_succ hread]
    by_cases hsame : buf[s] = ch
    · simp [hsame, hch, hrest]
    · have hother : ¬ ch :: find <+:
          if buf[s] = 0 then [] else buf[s] :: visible buf (s + 1) slen := by
        split
        · simp
        · exact fun h ↦ hsame (List.cons_prefix_cons.mp h).1.symm
      simp [hsame, hother]

/-- The search reads nothing outside of what it was given, and finds the first occurrence. -/
theorem strnstrLoop_eq {c : UInt8} {find : Bytes} (hzero : 0 ∉ c :: find) {buf : Bytes} {s slen : ℕ}
    (hle : s + slen ≤ buf.length) :
    strnstrLoop buf c find slen s =
      some ((indexOf (c :: find) (visible buf s slen)).map (s + ·)) := by
  have hc : c ≠ 0 := fun h ↦ hzero (h ▸ List.mem_cons_self)
  induction slen generalizing s with
  | zero =>
    have hnone : visible buf s 0 = [] := by simp [visible]
    rw [hnone, indexOf_nil (List.cons_ne_nil _ _)]
    rfl
  | succ slen ih =>
    have hlt : s < buf.length := by omega
    have hread : buf[s]? = some buf[s] := List.getElem?_eq_getElem hlt
    have hrest := ih (by omega : s + 1 + slen ≤ buf.length)
    -- the search goes on at the next byte
    have hnext (h : ¬ c :: find <+: buf[s] :: visible buf (s + 1) slen) :
        some ((indexOf (c :: find) (buf[s] :: visible buf (s + 1) slen)).map (s + ·)) =
          strnstrLoop buf c find slen (s + 1) := by
      rw [hrest, indexOf_cons_of_not_starts h, Option.map_map]
      congr 2
      funext index
      simp only [Function.comp_apply]
      omega
    rw [strnstrLoop, hread, visible_succ hread, Option.bind_eq_bind, Option.bind_some]
    by_cases hend : buf[s] = 0
    · rw [if_pos hend, if_pos hend, indexOf_nil (List.cons_ne_nil _ _), Option.map_none]
    · rw [if_neg hend, if_neg hend]
      by_cases hfirst : buf[s] = c
      · rw [if_neg (not_not.mpr hfirst)]
        by_cases hroom : find.length > slen
        · have hvisible := visible_length_le buf (s + 1) slen
          rw [if_pos hroom, indexOf_of_length_lt (by simp only [List.length_cons]; omega),
            Option.map_none]
        · have hfind : 0 ∉ find := fun h ↦ hzero (List.mem_cons_of_mem _ h)
          rw [if_neg hroom, strncmp_eq hfind (by omega : s + 1 + slen ≤ buf.length) (by omega)]
          by_cases hstarts : find <+: visible buf (s + 1) slen
          · have hfound : c :: find <+: buf[s] :: visible buf (s + 1) slen :=
              List.cons_prefix_cons.mpr ⟨hfirst.symm, hstarts⟩
            simp [hstarts, indexOf_of_starts hfound]
          · have hnot : ¬ c :: find <+: buf[s] :: visible buf (s + 1) slen := fun h ↦
              hstarts (List.cons_prefix_cons.mp h).2
            rw [hnext hnot]
            simp [hstarts]
      · rw [if_pos hfirst, hnext fun h ↦ hfirst (List.cons_prefix_cons.mp h).1.symm]

/-- What a search finds, from an index of the page to its end. -/
def findFrom (buf : Bytes) (s : ℕ) (find : Bytes) : Option ℕ :=
  (indexOf find (visible buf s (buf.length - s))).map (s + ·)

theorem strnstr_eq {find : Bytes} (hzero : 0 ∉ find) (hne : find ≠ []) {buf : Bytes} {s : ℕ}
    (hle : s ≤ buf.length) : strnstr buf s find (buf.length - s) = some (findFrom buf s find) := by
  cases find with
  | nil => exact absurd rfl hne
  | cons c find => exact strnstrLoop_eq hzero (by omega)

theorem strnstr_start {find : Bytes} (hzero : 0 ∉ find) (hne : find ≠ []) (buf : Bytes) :
    strnstr buf 0 find buf.length = some (findFrom buf 0 find) :=
  strnstr_eq hzero hne (Nat.zero_le _)

/-- What was found ends inside the page. -/
theorem findFrom_add_length_le {find : Bytes} (hne : find ≠ []) {buf : Bytes} {s index : ℕ}
    (hle : s ≤ buf.length) (h : findFrom buf s find = some index) :
    index + find.length ≤ buf.length := by
  obtain ⟨offset, hoffset, rfl⟩ := Option.map_eq_some_iff.mp h
  have hend := indexOf_add_length_le hoffset hne
  have hvisible := visible_length_le buf s (buf.length - s)
  omega

/-! ## The values -/

/-- A quote ends the value in its first `count` bytes, or the page has as many bytes. -/
def Fits (buf : Bytes) (start count : ℕ) : Prop :=
  34 ∈ (buf.drop start).take count ∨ count ≤ (buf.drop start).length

instance (buf : Bytes) (start count : ℕ) : Decidable (Fits buf start count) :=
  inferInstanceAs (Decidable (_ ∨ _))

/-- The copying loop stays in the page exactly when the value fits. -/
theorem copyValue_isSome {size : ℕ} {buf : Bytes} {start remaining i : ℕ}
    {value : Vector UInt8 size} :
    (∃ copied, copyValue buf (some start) remaining i value = some copied) ↔
      Fits buf (start + i) remaining := by
  induction remaining generalizing i value with
  | zero => exact iff_of_true ⟨value, rfl⟩ (.inr (Nat.zero_le _))
  | succ remaining ih =>
    rw [copyValue, Option.bind_eq_bind, Option.bind_some]
    cases hread : buf[start + i]? with
    | none =>
      have hnil : buf.drop (start + i) = [] :=
        List.drop_eq_nil_of_le (List.getElem?_eq_none_iff.mp hread)
      refine iff_of_false ?_ ?_
      · rintro ⟨copied, hcopied⟩
        exact absurd hcopied nofun
      · simp [Fits, hnil]
    | some ch =>
      obtain ⟨hlt, rfl⟩ := List.getElem?_eq_some_iff.mp hread
      have hsplit : Fits buf (start + i) (remaining + 1) ↔
          buf[start + i] = 34 ∨ Fits buf (start + (i + 1)) remaining := by
        rw [Fits, Fits, List.drop_eq_getElem_cons hlt, List.take_succ_cons, List.length_cons,
          List.mem_cons, or_assoc, Nat.add_le_add_iff_right, eq_comm]
        rfl
      rw [hsplit, Option.bind_eq_bind, Option.bind_some]
      by_cases hquote : buf[start + i] = 34
      · rw [if_pos hquote]
        exact iff_of_true ⟨_, rfl⟩ (.inl hquote)
      · rw [if_neg hquote, ih]
        exact (or_iff_right hquote).symm

/-- A marker is in the page, and the value behind it does not leave the page. -/
def ValueInside (buf marker : Bytes) (count : ℕ) : Prop :=
  ∃ index ∈ findFrom buf 0 marker, Fits buf (index + marker.length) count

/-- The search for a marker and the loop behind it. -/
theorem valueInside_iff {size : ℕ} {buf marker : Bytes} {count : ℕ} (hcount : count ≠ 0)
    {value : Vector UInt8 size} :
    (∃ copied, copyValue buf ((findFrom buf 0 marker).map (· + marker.length)) count 0 value =
      some copied) ↔ ValueInside buf marker count := by
  obtain ⟨rest, rfl⟩ := Nat.exists_eq_succ_of_ne_zero hcount
  unfold ValueInside
  cases findFrom buf 0 marker with
  | none =>
    refine iff_of_false ?_ (by simp)
    rintro ⟨copied, hcopied⟩
    exact absurd hcopied nofun
  | some index =>
    simp only [Option.map_some, Option.mem_some_iff, exists_eq_left']
    exact copyValue_isSome

/-! ## The whole page -/

/-- No search leaves the page. -/
theorem extractPlayerResponse_isSome (yyjson : Yyjson Doc Val) (info : InfoCtx Doc Val)
    (buf : Bytes) : ∃ result, extractPlayerResponse yyjson info buf = some result := by
  unfold extractPlayerResponse
  rw [strnstr_start (by decide) (by decide), Option.bind_eq_bind, Option.bind_some]
  cases hfound : findFrom buf 0 playerResponseMarker with
  | none => exact ⟨_, rfl⟩
  | some found =>
    have hle : found + 27 ≤ buf.length :=
      findFrom_add_length_le (show playerResponseMarker ≠ [] by decide) (Nat.zero_le _) hfound
    dsimp only
    rw [strnstr_eq (by decide) (by decide) hle, strnstr_eq (by decide) (by decide) hle]
    simp only [Option.bind_some]
    cases findFrom buf (found + 27) scriptEnd with
    | none => exact ⟨_, rfl⟩
    | some scriptStop =>
      cases findFrom buf (found + 27) varStart with
      | none => exact ⟨_, rfl⟩
      | some varStop =>
        dsimp only
        generalize (if scriptStop < varStop then scriptStop else varStop) = stop
        cases (readSlice yyjson buf (found + 27) stop).isNone with
        | true => exact ⟨_, rfl⟩
        | false => exact ⟨_, rfl⟩

theorem extractResponse_isSome (yyjson : Yyjson Doc Val) (info : InfoCtx Doc Val) (buf : Bytes) :
    ∃ result, extractResponse yyjson info buf = some result := by
  unfold extractResponse
  rw [strnstr_start (by decide) (by decide), Option.bind_eq_bind, Option.bind_some]
  cases hfound : findFrom buf 0 responseMarker with
  | none => exact ⟨_, rfl⟩
  | some found =>
    have hle : found + 17 ≤ buf.length :=
      findFrom_add_length_le (show responseMarker ≠ [] by decide) (Nat.zero_le _) hfound
    dsimp only
    rw [strnstr_eq (by decide) (by decide) hle]
    simp only [Option.bind_some]
    cases findFrom buf (found + 17) scriptEnd with
    | none => exact ⟨_, rfl⟩
    | some stop =>
      dsimp only
      split
      · exact ⟨_, rfl⟩
      · exact extractPlayerResponse_isSome yyjson _ buf

/-- The extraction, with what its first searches find. -/
theorem infoExtractWatchHtml_eq (yyjson : Yyjson Doc Val) (info : InfoCtx Doc Val) (buf : Bytes) :
    infoExtractWatchHtml yyjson info buf =
      (copyValue buf ((findFrom buf 0 cverMarker).map (· + 23)) 20 0 info.cver).bind fun cver ↦
        (copyValue buf ((findFrom buf 0 jsUrlMarker).map (· + 9)) 150 0 info.playerUrl).bind
          fun playerUrl ↦
            extractResponse yyjson { info with cver := cver, playerUrl := playerUrl } buf := by
  unfold infoExtractWatchHtml
  rw [strnstr_start (by decide) (by decide), strnstr_start (by decide) (by decide)]
  rfl

/-- **The extraction reads the page only.** Every read is inside of the page and a code is returned,
not zero without one of the two markers, exactly when both markers are there and the value behind
each is ended by a quote in the page, or the page has as many bytes as the loop copies. -/
theorem extract_inside_iff (yyjson : Yyjson Doc Val) (info : InfoCtx Doc Val) (buf : Bytes) :
    (∃ code next, infoExtractWatchHtml yyjson info buf = some (code, next) ∧
        (findFrom buf 0 cverMarker = none ∨ findFrom buf 0 jsUrlMarker = none → code ≠ 0)) ↔
      ValueInside buf cverMarker 20 ∧ ValueInside buf jsUrlMarker 150 := by
  have hcver : (∃ copied, copyValue buf ((findFrom buf 0 cverMarker).map (· + 23)) 20 0 info.cver =
      some copied) ↔ ValueInside buf cverMarker 20 :=
    valueInside_iff (by decide)
  have hjsUrl : (∃ copied, copyValue buf ((findFrom buf 0 jsUrlMarker).map (· + 9)) 150 0
      info.playerUrl = some copied) ↔ ValueInside buf jsUrlMarker 150 :=
    valueInside_iff (by decide)
  rw [← hcver, ← hjsUrl, infoExtractWatchHtml_eq]
  constructor
  · rintro ⟨code, next, h, -⟩
    obtain ⟨cver, hcopied, h⟩ := Option.bind_eq_some_iff.mp h
    obtain ⟨playerUrl, hcopied', -⟩ := Option.bind_eq_some_iff.mp h
    exact ⟨⟨cver, hcopied⟩, ⟨playerUrl, hcopied'⟩⟩
  · rintro ⟨⟨cver, hcopied⟩, ⟨playerUrl, hcopied'⟩⟩
    obtain ⟨⟨code, next⟩, hresult⟩ :=
      extractResponse_isSome yyjson { info with cver := cver, playerUrl := playerUrl } buf
    refine ⟨code, next, ?_, ?_⟩
    · refine Option.bind_eq_some_iff.mpr ⟨cver, hcopied, ?_⟩
      exact Option.bind_eq_some_iff.mpr ⟨playerUrl, hcopied', hresult⟩
    · rintro (hnone | hnone)
      · rw [hnone] at hcopied
        exact absurd hcopied nofun
      · rw [hnone] at hcopied'
        exact absurd hcopied' nofun

/-- A reader that reads nothing, and a context of zeros. -/
def noJson : Yyjson Unit Unit := ⟨fun _ ↦ none, fun _ ↦ none⟩

def zeroInfo : InfoCtx Unit Unit :=
  ⟨Vector.replicate 20 0, Vector.replicate 150 0, none, none, none, none⟩

/-- A page without the markers. -/
def plainPage : Bytes := ascii "<html></html>"

/-- Without the first marker, the first loop reads through a null pointer. -/
theorem extract_plainPage :
    ¬ ∃ code next, infoExtractWatchHtml noJson zeroInfo plainPage = some (code, next) ∧
      (findFrom plainPage 0 cverMarker = none ∨ findFrom plainPage 0 jsUrlMarker = none →
        code ≠ 0) := by
  rintro ⟨code, next, h, -⟩
  have hnone : infoExtractWatchHtml noJson zeroInfo plainPage = none := rfl
  rw [hnone] at h
  exact absurd h nofun

end LibYtdl.Info.WatchPage
