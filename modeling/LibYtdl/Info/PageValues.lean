import LibYtdl.Info.PlayerResponse

/-!
# The values of the watch page

The client version and the path of the player are copied out of the page up to the next quote. The
copy also ends with its array, and then nothing terminates it.
-/

namespace LibYtdl.Info.PageValues

open Machine Search WatchPage PlayerResponse

variable {Doc Val : Type}

/-! ## Values -/

/-- What stands between the first marker of a page and the next quote. -/
def IsValue (buf marker value : Bytes) : Prop :=
  34 ∉ value ∧
    ∃ index ∈ findFrom buf 0 marker, ∃ rest, buf.drop (index + marker.length) = value ++ 34 :: rest

/-- The array holds the value as a string. -/
def HoldsValue {size : ℕ} (buf marker : Bytes) (array : Vector UInt8 size) : Prop :=
  ∃ value, IsValue buf marker value ∧ 0 ∉ value ∧ ∃ slack, array.toList = value ++ 0 :: slack

/-- The value has no zero in it, and leaves a cell of the array for one. -/
def ShortValue (buf marker : Bytes) (size : ℕ) : Prop :=
  ∃ value, IsValue buf marker value ∧ 0 ∉ value ∧ value.length < size

/-! ## The copy -/

/-- The cells behind the first `i` after a copy: the value and its terminator as far as there is
room, and the old cells behind them. -/
theorem copyValue_toList {size : ℕ} {buf value rest : Bytes} {start remaining i : ℕ}
    {array copied : Vector UInt8 size} (hquote : 34 ∉ value)
    (hdrop : buf.drop (start + i) = value ++ 34 :: rest) (hsize : i + remaining = size)
    (h : copyValue buf (some start) remaining i array = some copied) :
    copied.toList = array.toList.take i ++
      ((value ++ [0]).take remaining ++ array.toList.drop (i + value.length + 1)) := by
  induction remaining generalizing i value array with
  | zero =>
    obtain rfl := Option.some.inj h
    have hlength : array.toList.length = i := by
      rw [Vector.length_toList]
      omega
    rw [List.take_of_length_le hlength.le, List.drop_eq_nil_of_le (by omega)]
    simp
  | succ remaining ih =>
    have hlt : i < array.toList.length := by
      rw [Vector.length_toList]
      omega
    rw [copyValue, Option.bind_eq_bind, Option.bind_some] at h
    have hread : buf[start + i]? = (value ++ 34 :: rest)[0]? := by
      rw [← hdrop, List.getElem?_drop, Nat.add_zero]
    cases value with
    | nil =>
      rw [hread] at h
      obtain rfl := Option.some.inj h
      rw [Vector.toList_setIfInBounds, List.set_eq_take_append_cons_drop, if_pos hlt]
      simp
    | cons ch value =>
      have hch : ch ≠ 34 := fun heq ↦ hquote (heq ▸ List.mem_cons_self)
      have hnext : buf.drop (start + (i + 1)) = value ++ 34 :: rest := by
        rw [← Nat.add_assoc, ← List.drop_drop, hdrop]
        rfl
      rw [hread, List.cons_append, List.getElem?_cons_zero, Option.bind_eq_bind, Option.bind_some,
        if_neg hch] at h
      have hcopied := ih (fun hmem ↦ hquote (List.mem_cons_of_mem _ hmem)) hnext (by omega) h
      have hdone : (array.toList.set i ch).take (i + 1) = array.toList.take i ++ [ch] := by
        rw [List.set_eq_take_append_cons_drop, if_pos hlt]
        have hlength : (array.toList.take i).length = i := List.length_take_of_le hlt.le
        rw [List.take_append, hlength, List.take_of_length_le (by omega)]
        simp
      rw [hcopied, Vector.toList_setIfInBounds, hdone, List.drop_set_of_lt (by omega)]
      simp [Nat.add_assoc, Nat.add_comm 1]

/-- A whole copy, from the first cell on. -/
theorem copyValue_of_isValue {size : ℕ} {buf marker value : Bytes}
    {array copied : Vector UInt8 size} (hvalue : IsValue buf marker value)
    (h : copyValue buf ((findFrom buf 0 marker).map (· + marker.length)) size 0 array =
      some copied) :
    copied.toList = (value ++ [0]).take size ++ array.toList.drop (value.length + 1) := by
  obtain ⟨hquote, index, hindex, rest, hdrop⟩ := hvalue
  rw [Option.mem_def.mp hindex, Option.map_some] at h
  have hstart : buf.drop (index + marker.length + 0) = value ++ 34 :: rest := hdrop
  have hcopied := copyValue_toList hquote hstart (Nat.zero_add size) h
  rwa [List.take_zero, List.nil_append, Nat.zero_add] at hcopied

/-- A value is copied whole exactly when it is short. -/
theorem holdsValue_iff {size : ℕ} {buf marker : Bytes} {array copied : Vector UInt8 size}
    (h : copyValue buf ((findFrom buf 0 marker).map (· + marker.length)) size 0 array =
      some copied) :
    HoldsValue buf marker copied ↔ ShortValue buf marker size := by
  constructor
  · rintro ⟨value, hvalue, hzero, slack, hcells⟩
    have hlength : size = (value ++ 0 :: slack).length := by
      rw [← hcells, Vector.length_toList]
    refine ⟨value, hvalue, hzero, ?_⟩
    rw [hlength, List.length_append, List.length_cons]
    omega
  · rintro ⟨value, hvalue, hzero, hlt⟩
    refine ⟨value, hvalue, hzero, array.toList.drop (value.length + 1), ?_⟩
    rw [copyValue_of_isValue hvalue h, List.take_of_length_le (by simpa using hlt)]
    simp

/-- A value that does not fit fills the array, without a terminator of its own. -/
theorem copyValue_of_long {size : ℕ} {buf marker value : Bytes} {array copied : Vector UInt8 size}
    (hvalue : IsValue buf marker value) (hle : size ≤ value.length)
    (h : copyValue buf ((findFrom buf 0 marker).map (· + marker.length)) size 0 array =
      some copied) :
    copied.toList = value.take size := by
  have hlength : array.toList.length = size := Vector.length_toList
  rw [copyValue_of_isValue hvalue h, List.take_append_of_le_length hle,
    List.drop_eq_nil_of_le (by omega), List.append_nil]

/-! ## The whole page -/

/-- The two searches behind the values leave them as they are. -/
theorem extractPlayerResponse_frame {yyjson : Yyjson Doc Val} {info next : InfoCtx Doc Val}
    {buf : Bytes} {code : ℤ} (h : extractPlayerResponse yyjson info buf = some (code, next)) :
    next.cver = info.cver ∧ next.playerUrl = info.playerUrl := by
  unfold extractPlayerResponse at h
  obtain ⟨found, -, h⟩ := Option.bind_eq_some_iff.mp h
  cases found with
  | none =>
    obtain ⟨-, rfl⟩ := Prod.mk.inj (Option.some.inj h)
    exact ⟨rfl, rfl⟩
  | some found =>
    obtain ⟨scriptStop, -, h⟩ := Option.bind_eq_some_iff.mp h
    cases scriptStop with
    | none =>
      obtain ⟨-, rfl⟩ := Prod.mk.inj (Option.some.inj h)
      exact ⟨rfl, rfl⟩
    | some scriptStop =>
      obtain ⟨varStop, -, h⟩ := Option.bind_eq_some_iff.mp h
      cases varStop with
      | none =>
        obtain ⟨-, rfl⟩ := Prod.mk.inj (Option.some.inj h)
        exact ⟨rfl, rfl⟩
      | some varStop =>
        dsimp only at h
        generalize (if scriptStop < varStop then scriptStop else varStop) = stop at h
        split at h
        · obtain ⟨-, rfl⟩ := Prod.mk.inj (Option.some.inj h)
          exact ⟨rfl, rfl⟩
        · obtain ⟨-, rfl⟩ := Prod.mk.inj (Option.some.inj h)
          exact ⟨rfl, rfl⟩

theorem extractResponse_frame {yyjson : Yyjson Doc Val} {info next : InfoCtx Doc Val}
    {buf : Bytes} {code : ℤ} (h : extractResponse yyjson info buf = some (code, next)) :
    next.cver = info.cver ∧ next.playerUrl = info.playerUrl := by
  unfold extractResponse at h
  obtain ⟨found, -, h⟩ := Option.bind_eq_some_iff.mp h
  cases found with
  | none =>
    obtain ⟨-, rfl⟩ := Prod.mk.inj (Option.some.inj h)
    exact ⟨rfl, rfl⟩
  | some found =>
    obtain ⟨stop, -, h⟩ := Option.bind_eq_some_iff.mp h
    cases stop with
    | none =>
      obtain ⟨-, rfl⟩ := Prod.mk.inj (Option.some.inj h)
      exact ⟨rfl, rfl⟩
    | some stop =>
      dsimp only at h
      split at h
      · obtain ⟨-, rfl⟩ := Prod.mk.inj (Option.some.inj h)
        exact ⟨rfl, rfl⟩
      · have hframe := extractPlayerResponse_frame h
        exact hframe

/-- **Both values are whole strings** on a page that is accepted exactly when each is shorter than
its array and has no zero in it. -/
theorem holdsValues_iff {yyjson : Yyjson Doc Val} {info next : InfoCtx Doc Val} {buf : Bytes}
    (h : infoExtractWatchHtml yyjson info buf = some (0, next)) :
    (HoldsValue buf cverMarker next.cver ∧ HoldsValue buf jsUrlMarker next.playerUrl) ↔
      ShortValue buf cverMarker 20 ∧ ShortValue buf jsUrlMarker 150 := by
  rw [infoExtractWatchHtml_eq] at h
  obtain ⟨cver, hcver, h⟩ := Option.bind_eq_some_iff.mp h
  obtain ⟨playerUrl, hplayerUrl, h⟩ := Option.bind_eq_some_iff.mp h
  obtain ⟨hsame, hsame'⟩ := extractResponse_frame h
  rw [hsame, hsame']
  exact and_congr (holdsValue_iff hcver) (holdsValue_iff hplayerUrl)

/-- A page with the version of a client, the path of a player and two empty documents. -/
def valuesPage (version path : Bytes) : Bytes :=
  cverMarker ++ version ++ ascii "\"\x7d," ++ jsUrlMarker ++ path ++ ascii "\"<script>var" ++
    responseMarker ++ ascii "\x7b\x7d;</script><script>var" ++ playerResponseMarker ++
      ascii "\x7b\x7d;var meta = 1;</script>"

def shortVersion : Bytes := ascii "2.20210811.00.00"

/-- Twenty characters: a version as long as its array. -/
def longVersion : Bytes := ascii "2.20210811.00.00-RC1"

def playerPath : Bytes := ascii "/s/player/68e11abe/player_ias.vflset/en_US/base.js"

set_option maxRecDepth 2000 in
/-- A page with short values. -/
theorem holdsValues_shortVersion :
    ∃ next, infoExtractWatchHtml keepBytes keepInfo (valuesPage shortVersion playerPath) =
        some (0, next) ∧
      HoldsValue (valuesPage shortVersion playerPath) cverMarker next.cver ∧
      HoldsValue (valuesPage shortVersion playerPath) jsUrlMarker next.playerUrl := by
  have hcode : (infoExtractWatchHtml keepBytes keepInfo (valuesPage shortVersion playerPath)).map
      Prod.fst = some 0 := by decide
  obtain ⟨⟨code, next⟩, hresult, rfl⟩ := Option.map_eq_some_iff.mp hcode
  refine ⟨next, hresult, (holdsValues_iff hresult).mpr ⟨?_, ?_⟩⟩
  · exact ⟨shortVersion, ⟨by decide, 0, by decide, _, rfl⟩, by decide,
      by decide⟩
  · exact ⟨playerPath, ⟨by decide, 42, by decide, _, rfl⟩, by decide,
      by decide⟩

set_option maxRecDepth 2000 in
/-- The long version is accepted, and its array is left without a terminator. -/
theorem longVersion_not_holdsValue :
    ∃ next, infoExtractWatchHtml keepBytes keepInfo (valuesPage longVersion playerPath) =
        some (0, next) ∧
      ¬ HoldsValue (valuesPage longVersion playerPath) cverMarker next.cver := by
  have hcells : (infoExtractWatchHtml keepBytes keepInfo (valuesPage longVersion playerPath)).map
      (fun result ↦ (result.1, result.2.cver.toList)) = some (0, longVersion) := by
    decide
  obtain ⟨⟨code, next⟩, hresult, hpair⟩ := Option.map_eq_some_iff.mp hcells
  obtain ⟨rfl, hversion⟩ := Prod.mk.inj hpair
  refine ⟨next, hresult, ?_⟩
  rintro ⟨value, -, -, slack, hvalue⟩
  have hzero : 0 ∉ next.cver.toList := by
    rw [hversion]
    decide
  rw [hvalue] at hzero
  exact hzero (List.mem_append_right _ List.mem_cons_self)

end LibYtdl.Info.PageValues
