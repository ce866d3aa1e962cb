import LibYtdl.Foundation.Machine

/-!
# Formats of a video

A `ytdl_info_format_t` is allocated with zeros and points to its JSON object. It is filled in from
the object when it is first used: `ytdl_info_format_populate` goes through the object once, and
marks the format. The flags for audio and video are set by the keys that only such formats have.
-/

namespace LibYtdl.Info.Format

open Machine

/-- What is asked of a JSON value: to be a string, or an integer. -/
inductive JsonVal
  | str (text : String)
  | int (value : ℤ)
  | other
  deriving DecidableEq

/-- `yyjson_get_int`. -/
def JsonVal.getInt : JsonVal → ℤ
  | .int value => toInt (sizeT value)
  | _ => 0

/-- `yyjson_get_str`. -/
def JsonVal.getStr : JsonVal → Option String
  | .str text => some text
  | _ => none

/-- `ytdl_info_format_t`. The flags that are used are kept apart. -/
structure InfoFormat where
  val : List (String × JsonVal)
  isPopulated : Bool
  hasVid : Bool
  hasAud : Bool
  url : Option Bytes
  itag : ℤ
  urlUntouched : Option String
  cipher : Option String
  mimeType : Option String
  bitrate : ℤ
  width : ℤ
  height : ℤ
  contentLength : ℤ
  quality : Option String
  qualityLabel : Option String
  fps : ℤ
  averageBitrate : ℤ
  audioChannels : ℤ
  audioQuality : ℤ
  approxDurationMs : ℤ
  deriving DecidableEq

/-- The format as `ytdl_info_extract_formats` allocates it. -/
def InfoFormat.calloc (val : List (String × JsonVal)) : InfoFormat where
  val := val
  isPopulated := false
  hasVid := false
  hasAud := false
  url := none
  itag := 0
  urlUntouched := none
  cipher := none
  mimeType := none
  bitrate := 0
  width := 0
  height := 0
  contentLength := 0
  quality := none
  qualityLabel := none
  fps := 0
  averageBitrate := 0
  audioChannels := 0
  audioQuality := 0
  approxDurationMs := 0

/-- `isspace`. -/
def isSpace (char : Char) : Bool := char = ' ' ∨ (9 ≤ char.toNat ∧ char.toNat ≤ 13)

/-- The number that the digits at the start of `text` write. -/
def digitsValue (text : List Char) : ℕ :=
  (text.takeWhile Char.isDigit).foldl (fun value char ↦ value * 10 + (char.toNat - 48)) 0

/-- `atoll`: a value that a `long long` cannot hold becomes the nearest one. -/
def atoll (text : String) : ℤ :=
  let signed : ℤ :=
    match text.toList.dropWhile isSpace with
    | '-' :: digits => -digitsValue digits
    | '+' :: digits => digitsValue digits
    | digits => digitsValue digits
  max (-2 ^ 63) (min signed (2 ^ 63 - 1))

/-- `YTLD_INFO_AUDIO_QUALITY_LOW` and `YTLD_INFO_AUDIO_QUALITY_MEDIUM`: the last letter of the name
decides. The empty name has none. -/
def audioQualityOf (name : String) : Option ℤ :=
  name.toList.getLast?.map fun letter ↦ if letter = 'W' then 2 else 1

/-- One key of the object. A null pointer that is followed has no value. -/
def populateKey (format : InfoFormat) : String × JsonVal → Option InfoFormat
  | ("itag", val) => some { format with itag := val.getInt }
  | ("url", val) => some { format with urlUntouched := val.getStr }
  | ("mimeType", val) => some { format with mimeType := val.getStr }
  | ("signatureCipher", val) | ("cipher", val) => some { format with cipher := val.getStr }
  | ("bitrate", val) => some { format with bitrate := val.getInt }
  | ("width", val) => some { format with hasVid := true, width := val.getInt }
  | ("height", val) => some { format with height := val.getInt }
  | ("contentLength", val) =>
    val.getStr.map fun text ↦ { format with contentLength := atoll text }
  | ("quality", val) => some { format with quality := val.getStr }
  | ("qualityLabel", val) => some { format with qualityLabel := val.getStr }
  | ("fps", val) => some { format with fps := val.getInt }
  | ("averageBitrate", val) => some { format with averageBitrate := val.getInt }
  | ("audioChannels", val) => some { format with hasAud := true, audioChannels := val.getInt }
  | ("approxDurationMs", val) =>
    val.getStr.map fun text ↦ { format with approxDurationMs := atoll text }
  | ("audioQuality", val) =>
    (val.getStr.bind audioQualityOf).map fun quality ↦ { format with audioQuality := quality }
  | _ => some format

/-- `ytdl_info_format_populate`. -/
def infoFormatPopulate (format : InfoFormat) : Option InfoFormat :=
  if format.isPopulated then
    some format
  else
    (format.val.foldlM populateKey format).map fun format ↦ { format with isPopulated := true }

/-- `ytdl_info_get_format_url2`. The URL that a cipher or an untouched URL leads to depends on the
actions and the script of the player, and is the parameter `urlOf`. -/
def infoGetFormatUrl2 (urlOf : Option String → Option String → Option Bytes)
    (format : InfoFormat) : Option (Option Bytes × InfoFormat) :=
  match format.url with
  | some url => some (some url, format)
  | none =>
    (infoFormatPopulate format).map fun format ↦
      match urlOf format.cipher format.urlUntouched with
      | some url => (some url, { format with url := some url })
      | none => (none, format)

/-! ## What filling in a format sets -/

/-- The object has the key. -/
def HasKey (val : List (String × JsonVal)) (key : String) : Prop := key ∈ val.map Prod.fst

instance (val : List (String × JsonVal)) (key : String) : Decidable (HasKey val key) :=
  inferInstanceAs (Decidable (_ ∈ _))

/-- What one key leaves alone, and the flags it sets. -/
structure KeySet (format next : InfoFormat) (keys : List String) : Prop where
  val : next.val = format.val
  isPopulated : next.isPopulated = format.isPopulated
  url : next.url = format.url
  hasVid : next.hasVid = (format.hasVid || decide ("width" ∈ keys))
  hasAud : next.hasAud = (format.hasAud || decide ("audioChannels" ∈ keys))

theorem keySet_populateKey {format next : InfoFormat} {entry : String × JsonVal}
    (h : populateKey format entry = some next) : KeySet format next [entry.1] := by
  unfold populateKey at h
  split at h
  case h_17 =>
    -- a key that nothing looks at
    have hwidth : entry.1 ≠ "width" := fun heq ↦
      ‹∀ val : JsonVal, entry = ("width", val) → False› entry.2 (Prod.ext heq rfl)
    have haudio : entry.1 ≠ "audioChannels" := fun heq ↦
      ‹∀ val : JsonVal, entry = ("audioChannels", val) → False› entry.2 (Prod.ext heq rfl)
    obtain rfl := Option.some.inj h
    exact ⟨rfl, rfl, rfl, by simp [hwidth.symm], by simp [haudio.symm]⟩
  all_goals
    first
    | obtain rfl := Option.some.inj h
    | obtain ⟨value, -, rfl⟩ := Option.map_eq_some_iff.mp h
    constructor <;> simp

theorem KeySet.append {format middle next : InfoFormat} {first second : List String}
    (hfirst : KeySet format middle first) (hsecond : KeySet middle next second) :
    KeySet format next (first ++ second) where
  val := hsecond.val.trans hfirst.val
  isPopulated := hsecond.isPopulated.trans hfirst.isPopulated
  url := hsecond.url.trans hfirst.url
  hasVid := by simp [hsecond.hasVid, hfirst.hasVid, Bool.or_assoc]
  hasAud := by simp [hsecond.hasAud, hfirst.hasAud, Bool.or_assoc]

/-- Going through the object sets the flags of the keys it has. -/
theorem keySet_foldlM {format next : InfoFormat} {val : List (String × JsonVal)}
    (h : val.foldlM populateKey format = some next) : KeySet format next (val.map Prod.fst) := by
  induction val generalizing format with
  | nil =>
    obtain rfl := Option.some.inj h
    constructor <;> simp
  | cons entry val ih =>
    rw [List.foldlM_cons] at h
    obtain ⟨middle, hmiddle, hrest⟩ := Option.bind_eq_some_iff.mp h
    exact (keySet_populateKey hmiddle).append (ih hrest)

/-! ## The states of a format -/

variable {urlOf : Option String → Option String → Option Bytes} {val : List (String × JsonVal)}

/-- The states that a format goes through, from its allocation on. -/
inductive Prepared (urlOf : Option String → Option String → Option Bytes)
    (val : List (String × JsonVal)) : InfoFormat → Prop
  | calloc : Prepared urlOf val (InfoFormat.calloc val)
  | populate {format next : InfoFormat} (before : Prepared urlOf val format)
      (step : infoFormatPopulate format = some next) : Prepared urlOf val next
  | getUrl {format next : InfoFormat} {url : Option Bytes} (before : Prepared urlOf val format)
      (step : infoGetFormatUrl2 urlOf format = some (url, next)) : Prepared urlOf val next

/-- A format filled in from its object, with its URL once that was asked for. -/
structure Filled (urlOf : Option String → Option String → Option Bytes)
    (filled format : InfoFormat) : Prop where
  isPopulated : filled.isPopulated = true
  unasked : filled.url = none
  same : format = { filled with url := format.url }
  url : ∀ url ∈ format.url, urlOf filled.cipher filled.urlUntouched = some url

theorem populate_calloc {filled : InfoFormat}
    (h : infoFormatPopulate (InfoFormat.calloc val) = some filled) :
    filled.isPopulated = true ∧ filled.url = none ∧
      filled.hasVid = decide (HasKey val "width") ∧
      filled.hasAud = decide (HasKey val "audioChannels") := by
  obtain ⟨format, hformat, rfl⟩ := Option.map_eq_some_iff.mp
    (show (val.foldlM populateKey (InfoFormat.calloc val)).map _ = some filled from h)
  have hset := keySet_foldlM hformat
  have hflag (key : String) :
      (false || decide (key ∈ val.map Prod.fst)) = decide (HasKey val key) :=
    (Bool.false_or _).trans (decide_eq_decide.mpr Iff.rfl)
  exact ⟨rfl, hset.url, hset.hasVid.trans (hflag _), hset.hasAud.trans (hflag _)⟩

theorem Filled.refl {filled : InfoFormat}
    (h : infoFormatPopulate (InfoFormat.calloc val) = some filled) :
    Filled urlOf filled filled := by
  obtain ⟨hpopulated, hurl, -, -⟩ := populate_calloc h
  exact ⟨hpopulated, hurl, rfl, by simp [hurl]⟩

theorem Filled.populate {filled format : InfoFormat} (h : Filled urlOf filled format) :
    infoFormatPopulate format = some format := by
  have hpopulated : format.isPopulated = true := by
    rw [h.same]
    exact h.isPopulated
  simp [infoFormatPopulate, hpopulated]

/-- Asking a filled format for its URL gives the URL of the object. -/
theorem Filled.getUrl {filled format : InfoFormat} (h : Filled urlOf filled format) :
    infoGetFormatUrl2 urlOf format =
      some (urlOf filled.cipher filled.urlUntouched,
        { filled with url := urlOf filled.cipher filled.urlUntouched }) := by
  cases hurl : format.url with
  | some url =>
    have hsame := h.same
    rw [hurl] at hsame
    simp only [infoGetFormatUrl2, hurl, h.url url hurl, ← hsame]
  | none =>
    have hsame : format = filled := by
      rw [h.same, hurl, ← h.unasked]
    subst hsame
    simp only [infoGetFormatUrl2, hurl, h.populate, Option.map_some]
    cases hof : urlOf format.cipher format.urlUntouched with
    | some url => rfl
    | none => simp [← hurl]

/-- A format that is asked for its URL is filled in first. -/
theorem getUrl_calloc {filled : InfoFormat}
    (h : infoFormatPopulate (InfoFormat.calloc val) = some filled) :
    infoGetFormatUrl2 urlOf (InfoFormat.calloc val) = infoGetFormatUrl2 urlOf filled := by
  obtain ⟨hpopulated, hurl, -, -⟩ := populate_calloc h
  have hcalloc : (InfoFormat.calloc val).url = none := rfl
  have hkept : infoFormatPopulate filled = some filled := by simp [infoFormatPopulate, hpopulated]
  simp only [infoGetFormatUrl2, hcalloc, hurl, h, hkept]

theorem Filled.after_getUrl {filled format next : InfoFormat} {url : Option Bytes}
    (h : Filled urlOf filled format) (hstep : infoGetFormatUrl2 urlOf format = some (url, next)) :
    Filled urlOf filled next := by
  rw [h.getUrl, Option.some.injEq, Prod.mk.injEq] at hstep
  obtain ⟨-, rfl⟩ := hstep
  exact ⟨h.isPopulated, h.unasked, rfl, fun url hurl ↦ hurl⟩

/-- A prepared format is as it was allocated, or filled in from its object. -/
theorem prepared_cases {format : InfoFormat} (h : Prepared urlOf val format) :
    format = InfoFormat.calloc val ∨
      ∃ filled, infoFormatPopulate (InfoFormat.calloc val) = some filled ∧
        Filled urlOf filled format := by
  induction h with
  | calloc => exact .inl rfl
  | populate before step ih =>
    right
    obtain rfl | ⟨filled, hfilled, hformat⟩ := ih
    · exact ⟨_, step, .refl step⟩
    · obtain rfl := Option.some.inj (hformat.populate.symm.trans step)
      exact ⟨filled, hfilled, hformat⟩
  | getUrl before step ih =>
    right
    obtain rfl | ⟨filled, hfilled, hformat⟩ := ih
    · obtain ⟨filled, hfilled, -⟩ := Option.map_eq_some_iff.mp
        (show (infoFormatPopulate (InfoFormat.calloc val)).map _ = some _ from step)
      exact ⟨filled, hfilled, (Filled.refl hfilled).after_getUrl (getUrl_calloc hfilled ▸ step)⟩
    · exact ⟨filled, hfilled, hformat.after_getUrl step⟩

/-- Asked for its URL, a prepared format is filled in from its object, whatever its state was. -/
theorem getUrl_prepared {format next : InfoFormat} {url : Option Bytes}
    (h : Prepared urlOf val format) (hget : infoGetFormatUrl2 urlOf format = some (url, next)) :
    ∃ filled, infoFormatPopulate (InfoFormat.calloc val) = some filled ∧
      url = urlOf filled.cipher filled.urlUntouched ∧
      next.contentLength = filled.contentLength := by
  have hfilled {filled format : InfoFormat} (hformat : Filled urlOf filled format)
      (hget : infoGetFormatUrl2 urlOf format = some (url, next)) :
      url = urlOf filled.cipher filled.urlUntouched ∧
        next.contentLength = filled.contentLength := by
    rw [hformat.getUrl, Option.some.injEq, Prod.mk.injEq] at hget
    obtain ⟨rfl, rfl⟩ := hget
    exact ⟨rfl, rfl⟩
  obtain rfl | ⟨filled, hpopulate, hformat⟩ := prepared_cases h
  · obtain ⟨filled, hpopulate, -⟩ := Option.map_eq_some_iff.mp
      (show (infoFormatPopulate (InfoFormat.calloc val)).map _ = some _ from hget)
    exact ⟨filled, hpopulate, hfilled (.refl hpopulate) (getUrl_calloc hpopulate ▸ hget)⟩
  · exact ⟨filled, hpopulate, hfilled hformat hget⟩

/-- The flags of a prepared format are those of its object once it is filled in. -/
theorem flags_prepared {format : InfoFormat} (h : Prepared urlOf val format) :
    (format.hasVid, format.hasAud) =
      (format.isPopulated && decide (HasKey val "width"),
        format.isPopulated && decide (HasKey val "audioChannels")) := by
  obtain rfl | ⟨filled, hpopulate, hformat⟩ := prepared_cases h
  · rfl
  · obtain ⟨hpopulated, -, hvid, haud⟩ := populate_calloc hpopulate
    rw [hformat.same]
    simp [hpopulated, hvid, haud]

end LibYtdl.Info.Format
