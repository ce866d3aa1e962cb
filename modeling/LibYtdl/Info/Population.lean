import LibYtdl.Info.Format

/-!
# Filling in a format

`ytdl_info_format_populate` takes the type of every value for granted. For most keys a value of
another type counts as zero or as no string; three keys are given to a function that reads the
string, or are indexed at the last character.
-/

namespace LibYtdl.Info.Population

open Format

/-- The value can be read: a number in a string for two keys, a string that is not empty for
another. -/
def Readable (entry : String × JsonVal) : Prop :=
  (entry.1 = "contentLength" ∨ entry.1 = "approxDurationMs" → entry.2.getStr ≠ none) ∧
    (entry.1 = "audioQuality" → entry.2.getStr ≠ none ∧ entry.2.getStr ≠ some "")

instance (entry : String × JsonVal) : Decidable (Readable entry) :=
  inferInstanceAs (Decidable (_ ∧ _))

theorem audioQualityOf_isSome {name : String} : (audioQualityOf name).isSome ↔ name ≠ "" := by
  rw [audioQualityOf, Option.isSome_map, List.getLast?_isSome, ne_eq, ne_eq,
    String.toList_eq_nil_iff]

/-- A key is passed exactly when its value can be read. -/
theorem populateKey_isSome (format : InfoFormat) (entry : String × JsonVal) :
    (populateKey format entry).isSome ↔ Readable entry := by
  have hstring (key : String) (hkey : key = "contentLength" ∨ key = "approxDurationMs")
      (val : JsonVal) : Readable (key, val) ↔ val.getStr.isSome := by
    have hquality : key ≠ "audioQuality" := by
      obtain rfl | rfl := hkey <;> decide
    simp [Readable, hkey, hquality, Option.isSome_iff_ne_none]
  unfold populateKey
  split
  case h_9 val => rw [Option.isSome_map, hstring _ (.inl rfl)]
  case h_15 val => rw [Option.isSome_map, hstring _ (.inr rfl)]
  case h_16 val =>
    rw [Option.isSome_map]
    cases hstr : val.getStr with
    | none => simp [Readable, hstr]
    | some text => simp [Readable, hstr, audioQualityOf_isSome]
  case h_17 =>
    -- a key that nothing looks at
    have hlength : entry.1 ≠ "contentLength" := fun heq ↦
      ‹∀ val : JsonVal, entry = ("contentLength", val) → False› entry.2 (Prod.ext heq rfl)
    have hduration : entry.1 ≠ "approxDurationMs" := fun heq ↦
      ‹∀ val : JsonVal, entry = ("approxDurationMs", val) → False› entry.2 (Prod.ext heq rfl)
    have hquality : entry.1 ≠ "audioQuality" := fun heq ↦
      ‹∀ val : JsonVal, entry = ("audioQuality", val) → False› entry.2 (Prod.ext heq rfl)
    simp [Readable, hlength, hduration, hquality]
  all_goals simp [Readable]

theorem foldlM_isSome (format : InfoFormat) (val : List (String × JsonVal)) :
    (val.foldlM populateKey format).isSome ↔ ∀ entry ∈ val, Readable entry := by
  induction val generalizing format with
  | nil => simp
  | cons entry val ih =>
    rw [List.foldlM_cons, List.forall_mem_cons, ← populateKey_isSome format entry]
    cases populateKey format entry with
    | none => simp
    | some next => simpa using ih next

/-- **Which objects can be filled in.** The function finishes, with the flags of the two keys,
exactly when every value that is read as a string is one. -/
theorem populates_iff (val : List (String × JsonVal)) :
    (∃ filled, infoFormatPopulate (InfoFormat.calloc val) = some filled ∧
        (filled.hasVid = true ↔ HasKey val "width") ∧
        (filled.hasAud = true ↔ HasKey val "audioChannels")) ↔
      ∀ entry ∈ val, Readable entry := by
  have hfinish : infoFormatPopulate (InfoFormat.calloc val) =
      (val.foldlM populateKey (InfoFormat.calloc val)).map
        fun format ↦ { format with isPopulated := true } := rfl
  rw [← foldlM_isSome (InfoFormat.calloc val), ← Option.isSome_map
    (f := fun format : InfoFormat ↦ { format with isPopulated := true }), ← hfinish,
    Option.isSome_iff_exists]
  constructor
  · exact fun ⟨filled, hfilled, _⟩ ↦ ⟨filled, hfilled⟩
  · rintro ⟨filled, hfilled⟩
    obtain ⟨-, -, hvid, haud⟩ := populate_calloc hfilled
    exact ⟨filled, hfilled, by rw [hvid, decide_eq_true_iff], by rw [haud, decide_eq_true_iff]⟩

/-- A format whose length is a number. -/
def numberLength : List (String × JsonVal) := [("itag", .int 18), ("contentLength", .int 1024)]

/-- A null pointer is given to `atoll`. -/
theorem numberLength_not_populated :
    ¬ ∃ filled, infoFormatPopulate (InfoFormat.calloc numberLength) = some filled ∧
        (filled.hasVid = true ↔ HasKey numberLength "width") ∧
        (filled.hasAud = true ↔ HasKey numberLength "audioChannels") := by
  rintro ⟨filled, hfilled, -⟩
  have hnone : infoFormatPopulate (InfoFormat.calloc numberLength) = none := by decide
  exact absurd (hnone.symm.trans hfilled) (Option.some_ne_none filled).symm

/-! ## The quality of the audio -/

theorem audioQualityOf_pos {name : String} {quality : ℤ} (h : audioQualityOf name = some quality) :
    quality = 1 ∨ quality = 2 := by
  obtain ⟨letter, -, rfl⟩ := Option.map_eq_some_iff.mp h
  split
  · exact .inr rfl
  · exact .inl rfl

theorem audioQuality_populateKey {format next : InfoFormat} {entry : String × JsonVal}
    (h : populateKey format entry = some next) :
    (entry.1 = "audioQuality" ∧ (next.audioQuality = 1 ∨ next.audioQuality = 2)) ∨
      (entry.1 ≠ "audioQuality" ∧ next.audioQuality = format.audioQuality) := by
  unfold populateKey at h
  split at h
  case h_16 val =>
    obtain ⟨quality, hquality, rfl⟩ := Option.map_eq_some_iff.mp h
    obtain ⟨name, -, hname⟩ := Option.bind_eq_some_iff.mp hquality
    exact .inl ⟨rfl, audioQualityOf_pos hname⟩
  case h_17 =>
    obtain rfl := Option.some.inj h
    refine .inr ⟨fun heq ↦ ?_, rfl⟩
    exact ‹∀ val : JsonVal, entry = ("audioQuality", val) → False› entry.2 (Prod.ext heq rfl)
  all_goals
    first
    | obtain rfl := Option.some.inj h
    | obtain ⟨value, -, rfl⟩ := Option.map_eq_some_iff.mp h
    exact .inr ⟨by simp, rfl⟩

/-- The quality of the audio is 1 or 2 when the object has the key, and what it was otherwise. -/
theorem audioQuality_foldlM {format next : InfoFormat} {val : List (String × JsonVal)}
    (h : val.foldlM populateKey format = some next) :
    (HasKey val "audioQuality" → next.audioQuality = 1 ∨ next.audioQuality = 2) ∧
      (¬ HasKey val "audioQuality" → next.audioQuality = format.audioQuality) := by
  induction val generalizing format with
  | nil =>
    obtain rfl := Option.some.inj h
    exact ⟨fun hkey ↦ absurd hkey List.not_mem_nil, fun _ ↦ rfl⟩
  | cons entry val ih =>
    rw [List.foldlM_cons] at h
    obtain ⟨middle, hmiddle, hrest⟩ := Option.bind_eq_some_iff.mp h
    obtain ⟨hhas, hnot⟩ := ih hrest
    have hcons : HasKey (entry :: val) "audioQuality" ↔
        entry.1 = "audioQuality" ∨ HasKey val "audioQuality" := by
      rw [HasKey, List.map_cons, List.mem_cons, eq_comm, HasKey]
    rw [hcons]
    by_cases hrestKey : HasKey val "audioQuality"
    · exact ⟨fun _ ↦ hhas hrestKey, fun hno ↦ absurd (.inr hrestKey) hno⟩
    · rw [hnot hrestKey]
      obtain ⟨hkey, hquality⟩ | ⟨hkey, hquality⟩ := audioQuality_populateKey hmiddle
      · exact ⟨fun _ ↦ hquality, fun hno ↦ absurd (.inl hkey) hno⟩
      · exact ⟨fun hor ↦ absurd hor (not_or.mpr ⟨hkey, hrestKey⟩), fun _ ↦ hquality⟩

theorem audioQuality_populate {val : List (String × JsonVal)} {filled : InfoFormat}
    (h : infoFormatPopulate (InfoFormat.calloc val) = some filled) :
    (HasKey val "audioQuality" → filled.audioQuality = 1 ∨ filled.audioQuality = 2) ∧
      (¬ HasKey val "audioQuality" → filled.audioQuality = 0) := by
  obtain ⟨format, hformat, rfl⟩ := Option.map_eq_some_iff.mp
    (show (val.foldlM populateKey (InfoFormat.calloc val)).map _ = some filled from h)
  exact audioQuality_foldlM hformat

end LibYtdl.Info.Population
