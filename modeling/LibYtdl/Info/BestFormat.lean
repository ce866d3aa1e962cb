import LibYtdl.Foundation.RunningBest
import LibYtdl.Foundation.SignedInt
import LibYtdl.Info.Population

/-!
# The best formats

`ytdl_info_get_best_video_format` and `ytdl_info_get_best_audio_format` give every format a score
and return the index of the first best one. The test for a format with both streams joins two
different bits, so it never holds: the scores of such formats start at 2, like those of formats with
video only, and the best audio format is looked for among negative scores only.
-/

namespace LibYtdl.Info.BestFormat

open SignedInt RunningBest Format Population

/-! ## The functions of `info.c` -/

/-- `YTDL_INFO_FORMAT_POPULATED`. -/
def populatedFlag : ℕ := 1

/-- `YTDL_INFO_FORMAT_HAS_VID`. -/
def hasVidFlag : ℕ := 1 <<< 1

/-- `YTDL_INFO_FORMAT_HAS_AUD`. -/
def hasAudFlag : ℕ := 1 <<< 2

/-- The member `flags`; the other flags are never set. -/
def flags (format : InfoFormat) : ℕ :=
  (if format.isPopulated then populatedFlag else 0) |||
    ((if format.hasVid then hasVidFlag else 0) ||| (if format.hasAud then hasAudFlag else 0))

/-- `formats` and `is_fmt_populated` of `ytdl_info_ctx_t`. -/
structure Formats where
  formats : List InfoFormat
  isFmtPopulated : Bool
  deriving DecidableEq

/-- `ytdl__info_format_populate_all`. -/
def populateAll (info : Formats) : Option Formats :=
  if info.isFmtPopulated then some info
  else (info.formats.mapM infoFormatPopulate).map fun formats ↦ ⟨formats, true⟩

/-- What `a_score` starts with. -/
def baseScore (format : InfoFormat) : ℤ :=
  let aScore := if (flags format &&& hasAudFlag) &&& (flags format &&& hasVidFlag) ≠ 0 then 1 else 0
  if aScore ≠ 0 then aScore else if flags format &&& hasVidFlag ≠ 0 then 2 else 0

/-- `a_score += width + fps + bitrate`. -/
def addSizes (format : InfoFormat) (aScore : ℤ) : Option ℤ := do
  let sum ← add format.width format.fps
  let sum ← add sum format.bitrate
  add aScore sum

/-- `a_score` of a format with video. -/
def videoScore (format : InfoFormat) : Option ℤ := addSizes format (baseScore format)

/-- `a_score` of a format with audio. -/
def audioScore (format : InfoFormat) : Option ℤ :=
  let aScore := baseScore format
  if aScore ≠ 0 then
    addSizes format aScore
  else do
    let product ← mul format.bitrate format.audioChannels
    let quotient ← div product format.audioQuality
    sub aScore quotient

/-- The loop of both functions, with the index and the score of the best format so far. -/
def bestLoop (flag : ℕ) (scoreOf : InfoFormat → Option ℤ) (better : ℤ → ℤ → Prop)
    [DecidableRel better] : List InfoFormat → ℕ → ℕ × ℤ → Option (ℕ × ℤ)
  | [], _, best => some best
  | format :: formats, i, best =>
    if flags format &&& flag = 0 then
      bestLoop flag scoreOf better formats (i + 1) best
    else do
      let aScore ← scoreOf format
      bestLoop flag scoreOf better formats (i + 1)
        (if better aScore best.2 then (i, aScore) else best)

/-- `ytdl_info_get_best_video_format`. -/
def infoGetBestVideoFormat (info : Formats) : Option (ℕ × Formats) := do
  let info ← populateAll info
  let best ← bestLoop hasVidFlag videoScore (· > ·) info.formats 0 (0, 0)
  some (best.1, info)

/-- `ytdl_info_get_best_audio_format`. -/
def infoGetBestAudioFormat (info : Formats) : Option (ℕ × Formats) := do
  let info ← populateAll info
  let best ← bestLoop hasAudFlag audioScore (· < ·) info.formats 0 (0, 0)
  some (best.1, info)

/-- The table of the formats that `ytdl_info_extract_formats` makes of some objects. -/
def tableOf (objects : List (List (String × JsonVal))) : Formats :=
  ⟨objects.map InfoFormat.calloc, false⟩

/-! ## The scores -/

/-- The sum of the sizes. -/
def sizes (format : InfoFormat) : ℤ := format.width + format.fps + format.bitrate

/-- The bit rate of all channels over the quality. -/
def quotient (format : InfoFormat) : ℤ :=
  (format.bitrate * format.audioChannels).tdiv format.audioQuality

def AudioOnly (format : InfoFormat) : Prop := format.hasAud = true ∧ format.hasVid = false

instance (format : InfoFormat) : Decidable (AudioOnly format) := inferInstanceAs (Decidable (_ ∧ _))

theorem flags_hasVid (format : InfoFormat) :
    flags format &&& hasVidFlag = 0 ↔ format.hasVid = false := by
  rw [flags]
  cases format.isPopulated <;> cases format.hasVid <;> cases format.hasAud <;> decide

theorem flags_hasAud (format : InfoFormat) :
    flags format &&& hasAudFlag = 0 ↔ format.hasAud = false := by
  rw [flags]
  cases format.isPopulated <;> cases format.hasVid <;> cases format.hasAud <;> decide

/-- The two bits have nothing in common. -/
theorem baseScore_eq (format : InfoFormat) : baseScore format = if format.hasVid then 2 else 0 := by
  rw [baseScore, flags]
  cases format.isPopulated <;> cases format.hasVid <;> cases format.hasAud <;> decide

/-- The sums of a format with video fit. -/
structure SumsFit (format : InfoFormat) : Prop where
  pair : Fits (format.width + format.fps)
  sum : Fits (sizes format)
  score : Fits (2 + sizes format)

theorem addSizes_eq_some {format : InfoFormat} {score : ℤ} :
    addSizes format 2 = some score ↔ SumsFit format ∧ 2 + sizes format = score := by
  simp only [addSizes, add, Option.bind_eq_bind, bind_checked, checked_eq_some]
  constructor
  · rintro ⟨hpair, hsum, hscore, rfl⟩
    exact ⟨⟨hpair, hsum, hscore⟩, rfl⟩
  · rintro ⟨⟨hpair, hsum, hscore⟩, rfl⟩
    exact ⟨hpair, hsum, hscore, rfl⟩

theorem videoScore_eq_some {format : InfoFormat} (hvid : format.hasVid = true) {score : ℤ} :
    videoScore format = some score ↔ SumsFit format ∧ 2 + sizes format = score := by
  rw [videoScore, baseScore_eq, if_pos hvid, addSizes_eq_some]

theorem audioScore_of_hasVid {format : InfoFormat} (hvid : format.hasVid = true) :
    audioScore format = videoScore format := by
  rw [audioScore, videoScore, baseScore_eq, if_pos hvid]
  rfl

/-- The values of a format with audio only fit, and nothing is divided by zero. -/
structure QuotientFits (format : InfoFormat) : Prop where
  quality : format.audioQuality ≠ 0
  product : Fits (format.bitrate * format.audioChannels)
  division : Fits (quotient format)
  score : Fits (-quotient format)

theorem audioScore_eq_some {format : InfoFormat} (hvid : format.hasVid = false) {score : ℤ} :
    audioScore format = some score ↔ QuotientFits format ∧ -quotient format = score := by
  have hbase : baseScore format = 0 := by
    rw [baseScore_eq, if_neg (by simp [hvid])]
  have hdiv {next : ℤ → Option ℤ} {product : ℤ} :
      (div product format.audioQuality).bind next = some score ↔
        format.audioQuality ≠ 0 ∧ Fits (product.tdiv format.audioQuality) ∧
          next (product.tdiv format.audioQuality) = some score := by
    rw [div]
    split
    · next hzero => exact iff_of_false (Option.some_ne_none score).symm fun h ↦ h.1 hzero
    · next hzero => rw [bind_checked, and_iff_right hzero]
  rw [audioScore, hbase, if_neg (by decide)]
  simp only [mul, sub, Option.bind_eq_bind, bind_checked, hdiv, checked_eq_some, zero_sub]
  constructor
  · rintro ⟨hproduct, hquality, hquotient, hscore, rfl⟩
    exact ⟨⟨hquality, hproduct, hquotient, hscore⟩, rfl⟩
  · rintro ⟨⟨hquality, hproduct, hquotient, hscore⟩, rfl⟩
    exact ⟨hproduct, hquality, hquotient, hscore, rfl⟩

/-! ## The loop -/

/-- The score of a format that the loop does not skip. -/
def scoreWith (flag : ℕ) (scoreOf : InfoFormat → Option ℤ) (format : InfoFormat) : Option ℤ :=
  if flags format &&& flag = 0 then none else scoreOf format

section Loop

variable {flag : ℕ} {scoreOf : InfoFormat → Option ℤ} {better : ℤ → ℤ → Prop}
  [DecidableRel better]

/-- The loop is a running best, when every score that it needs is defined. -/
theorem bestLoop_eq_some {formats : List InfoFormat} {i : ℕ} {best result : ℕ × ℤ} :
    bestLoop flag scoreOf better formats i best = some result ↔
      (∀ format ∈ formats, flags format &&& flag ≠ 0 → (scoreOf format).isSome) ∧
        runningBest better (scoreWith flag scoreOf) formats i best = result := by
  induction formats generalizing i best with
  | nil => simp [bestLoop, runningBest]
  | cons format formats ih =>
    rw [bestLoop, runningBest, List.forall_mem_cons, scoreWith]
    by_cases hflag : flags format &&& flag = 0
    · rw [if_pos hflag, if_pos hflag, ih]
      simp [hflag]
    · rw [if_neg hflag, if_neg hflag]
      cases hscore : scoreOf format with
      | none => simp [hflag]
      | some score =>
        rw [Option.bind_eq_bind, Option.bind_some, ih]
        simp [hflag]

/-- What the two functions return. -/
theorem best_eq_some {info next after : Formats} (h : populateAll info = some next) {idx : ℕ} :
    ((populateAll info).bind fun info ↦
        (bestLoop flag scoreOf better info.formats 0 (0, 0)).bind fun best ↦
          some (best.1, info)) = some (idx, after) ↔
      after = next ∧
        (∀ format ∈ next.formats, flags format &&& flag ≠ 0 → (scoreOf format).isSome) ∧
        (runningBest better (scoreWith flag scoreOf) next.formats 0 (0, 0)).1 = idx := by
  rw [h, Option.bind_some]
  simp only [Option.bind_eq_some_iff, bestLoop_eq_some, Option.some.injEq, Prod.mk.injEq]
  constructor
  · rintro ⟨best, ⟨hdefined, rfl⟩, rfl, rfl⟩
    exact ⟨rfl, hdefined, rfl⟩
  · rintro ⟨rfl, hdefined, rfl⟩
    exact ⟨_, ⟨hdefined, rfl⟩, rfl, rfl⟩

end Loop

/-- Every score that the loop for video needs is defined. -/
theorem videoScores_isSome {formats : List InfoFormat} :
    (∀ format ∈ formats, flags format &&& hasVidFlag ≠ 0 → (videoScore format).isSome) ↔
      ∀ format ∈ formats, format.hasVid = true → SumsFit format := by
  refine forall₂_congr fun format _ ↦ ?_
  rw [ne_eq, flags_hasVid, Bool.not_eq_false]
  refine forall_congr' fun hvid ↦ ?_
  rw [Option.isSome_iff_exists]
  simp only [videoScore_eq_some hvid, exists_and_left, exists_eq', and_true]

/-- Every score that the loop for audio needs is defined. -/
theorem audioScores_isSome {formats : List InfoFormat} :
    (∀ format ∈ formats, flags format &&& hasAudFlag ≠ 0 → (audioScore format).isSome) ↔
      ∀ format ∈ formats, format.hasAud = true →
        (format.hasVid = true → SumsFit format) ∧
          (format.hasVid = false → QuotientFits format) := by
  refine forall₂_congr fun format _ ↦ ?_
  rw [ne_eq, flags_hasAud, Bool.not_eq_false]
  refine forall_congr' fun _ ↦ ?_
  rw [Option.isSome_iff_exists]
  cases hvid : format.hasVid with
  | true =>
    rw [audioScore_of_hasVid hvid]
    simp [videoScore_eq_some hvid]
  | false => simp [audioScore_eq_some hvid]

/-! ## The best video format -/

def videoSizes : InfoFormat → Option ℤ := scoreIf (·.hasVid = true) sizes

/-- The score that prefers a format with video only. -/
def ranking : InfoFormat → Option ℤ :=
  scoreIf (·.hasVid = true) fun format ↦ (if format.hasAud then 1 else 2) + sizes format

/-- The first format with the largest sizes has audio too, although a format with video only is as
large, or stands before it and is smaller by one only. -/
def Overlooked (formats : List InfoFormat) : Prop :=
  ∃ best size, FirstBest (· > ·) videoSizes formats best size ∧
    (∃ format ∈ formats[best]?, format.hasAud = true) ∧
    ∃ other, ∃ format ∈ formats[other]?, format.hasVid = true ∧ format.hasAud = false ∧
      (sizes format = size ∨ (other < best ∧ sizes format + 1 = size))

/-- What the loop returns, when every sum fits. -/
theorem firstBest_videoSizes {formats : List InfoFormat}
    (hsizes : ∀ format ∈ formats, format.hasVid = true →
      0 ≤ format.width ∧ 0 ≤ format.fps ∧ 0 ≤ format.bitrate)
    (hvideo : ∃ format ∈ formats, format.hasVid = true)
    (hfits : ∀ format ∈ formats, format.hasVid = true → SumsFit format) :
    ∃ size, FirstBest (· > ·) videoSizes formats
      (runningBest (· > ·) (scoreWith hasVidFlag videoScore) formats 0 (0, 0)).1 size := by
  have hscore {format : InfoFormat} (hmem : format ∈ formats) (hvid : format.hasVid = true) :
      scoreWith hasVidFlag videoScore format = some (2 + sizes format) := by
    rw [scoreWith, if_neg (by rw [flags_hasVid, hvid]; decide)]
    exact (videoScore_eq_some hvid).mpr ⟨hfits format hmem hvid, rfl⟩
  have hnone {format : InfoFormat} (hvid : format.hasVid = false) :
      scoreWith hasVidFlag videoScore format = none := by
    rw [scoreWith, if_pos ((flags_hasVid format).mpr hvid)]
  obtain ⟨-, hworse⟩ | ⟨hfirst, -⟩ := @runningBest_cases _ _ (· > ·)
    (fun _ _ ↦ lt_asymm) (fun _ second third h ↦ by omega) _ (scoreWith hasVidFlag videoScore)
    formats (0, 0)
  · obtain ⟨format, hmem, hvid⟩ := hvideo
    obtain ⟨hwidth, hfps, hbitrate⟩ := hsizes format hmem hvid
    have hnot := hworse format hmem _ (hscore hmem hvid)
    rw [sizes] at hnot
    omega
  · refine ⟨_, @FirstBest.map _ _ _ _ _ _ (· > ·) videoSizes (· - 2) _ _ hfirst
      (fun format hmem ↦ ?_) fun first second ↦ by omega⟩
    cases hvid : format.hasVid with
    | true =>
      rw [hscore hmem hvid, Option.map_some, add_sub_cancel_left]
      exact if_pos hvid
    | false =>
      rw [hnone hvid]
      exact if_neg (by simp [hvid])

/-- The ranking puts the same format first, unless one with video only is overlooked. -/
theorem ranking_iff {formats : List InfoFormat} {best : ℕ} {size : ℤ}
    (h : FirstBest (· > ·) videoSizes formats best size) :
    (∃ value, FirstBest (· > ·) ranking formats best value) ↔ ¬ Overlooked formats := by
  obtain ⟨format, hformat, hvid, rfl⟩ := scoreAt_scoreIf.mp h.attained
  constructor
  · rintro ⟨value, hrank⟩ ⟨best', size, h', ⟨format', hformat', haud⟩, other, rival, hrival,
      hrivalVid, hrivalAud, hcase⟩
    obtain rfl := h.unique h'
    obtain rfl := Option.some.inj (hformat.symm.trans hformat')
    obtain rfl := Option.some.inj (h.attained.symm.trans h'.attained)
    obtain ⟨format', hformat', -, rfl⟩ := scoreAt_scoreIf.mp hrank.attained
    obtain rfl := Option.some.inj (hformat.symm.trans hformat')
    have hscore : scoreAt ranking formats other = some (2 + sizes rival) :=
      scoreAt_scoreIf.mpr ⟨rival, hrival, hrivalVid, by simp [hrivalAud]⟩
    rw [if_pos haud] at hrank
    obtain heq | ⟨hless, hone⟩ := hcase
    · have hnot := hrank.notBetter other _ hscore
      omega
    · have hworse := hrank.first other hless _ hscore
      omega
  · intro hoverlooked
    have hrival {other : ℕ} {rival : InfoFormat} (hother : formats[other]? = some rival)
        (hrivalVid : rival.hasVid = true) (hrivalAud : rival.hasAud = false)
        (haud : format.hasAud = true) :
        sizes rival ≠ sizes format ∧ (other < best → sizes rival + 1 ≠ sizes format) := by
      refine ⟨fun heq ↦ hoverlooked ?_, fun hless hone ↦ hoverlooked ?_⟩
      · exact ⟨best, _, h, ⟨format, hformat, haud⟩, other, rival, hother, hrivalVid, hrivalAud,
          .inl heq⟩
      · exact ⟨best, _, h, ⟨format, hformat, haud⟩, other, rival, hother, hrivalVid, hrivalAud,
          .inr ⟨hless, hone⟩⟩
    -- a format that is not larger is not ranked higher
    have hrank {other : ℕ} {rival : InfoFormat} (hother : formats[other]? = some rival)
        (hrivalVid : rival.hasVid = true) (hle : sizes rival ≤ sizes format) :
        (if rival.hasAud = true then 1 else 2) + sizes rival ≤
            (if format.hasAud = true then 1 else 2) + sizes format ∧
          (other < best → sizes rival < sizes format →
            (if rival.hasAud = true then 1 else 2) + sizes rival <
              (if format.hasAud = true then 1 else 2) + sizes format) := by
      have hbase : (if rival.hasAud = true then (1 : ℤ) else 2) ≤ 2 := by
        split <;> omega
      cases haud : format.hasAud with
      | false =>
        rw [if_neg Bool.false_ne_true]
        omega
      | true =>
        rw [if_pos rfl]
        cases hrivalAud : rival.hasAud with
        | false =>
          obtain ⟨hne, hnext⟩ := hrival hother hrivalVid hrivalAud haud
          rw [if_neg Bool.false_ne_true]
          omega
        | true =>
          rw [if_pos rfl]
          omega
    refine ⟨(if format.hasAud then 1 else 2) + sizes format,
      scoreAt_scoreIf.mpr ⟨format, hformat, hvid, rfl⟩, fun other value hvalue ↦ ?_,
      fun other hless value hvalue ↦ ?_⟩
    · obtain ⟨rival, hother, hrivalVid, rfl⟩ := scoreAt_scoreIf.mp hvalue
      have hnot := h.notBetter other _ (scoreAt_scoreIf.mpr ⟨rival, hother, hrivalVid, rfl⟩)
      exact not_lt.mpr (hrank hother hrivalVid (not_lt.mp hnot)).1
    · obtain ⟨rival, hother, hrivalVid, rfl⟩ := scoreAt_scoreIf.mp hvalue
      have hworse := h.first other hless _ (scoreAt_scoreIf.mpr ⟨rival, hother, hrivalVid, rfl⟩)
      exact (hrank hother hrivalVid (le_of_lt hworse)).2 hless hworse

/-- **The best video format.** For formats with sizes that are not negative, the index is that of
the first format that the ranking puts first, exactly when the sums fit and no format with video
only is overlooked. -/
theorem bestVideo_iff {info next : Formats} (h : populateAll info = some next)
    (hsizes : ∀ format ∈ next.formats, format.hasVid = true →
      0 ≤ format.width ∧ 0 ≤ format.fps ∧ 0 ≤ format.bitrate)
    (hvideo : ∃ format ∈ next.formats, format.hasVid = true) :
    (∃ idx value, infoGetBestVideoFormat info = some (idx, next) ∧
        FirstBest (· > ·) ranking next.formats idx value) ↔
      (∀ format ∈ next.formats, format.hasVid = true → 2 + sizes format < 2 ^ 31) ∧
        ¬ Overlooked next.formats := by
  have hfits : (∀ format ∈ next.formats, format.hasVid = true → SumsFit format) ↔
      ∀ format ∈ next.formats, format.hasVid = true → 2 + sizes format < 2 ^ 31 := by
    refine forall₂_congr fun format hmem ↦ forall_congr' fun hvid ↦ ?_
    obtain ⟨hwidth, hfps, hbitrate⟩ := hsizes format hmem hvid
    constructor
    · exact fun hfit ↦ hfit.score.2
    · intro hless
      have hsum : sizes format = format.width + format.fps + format.bitrate := rfl
      exact ⟨⟨by omega, by omega⟩, ⟨by omega, by omega⟩, ⟨by omega, hless⟩⟩
  have hbest (idx : ℕ) : infoGetBestVideoFormat info = some (idx, next) ↔
      (∀ format ∈ next.formats, format.hasVid = true → SumsFit format) ∧
        (runningBest (· > ·) (scoreWith hasVidFlag videoScore) next.formats 0 (0, 0)).1 = idx := by
    rw [← videoScores_isSome]
    exact (best_eq_some h).trans (and_iff_right rfl)
  simp only [hbest, ← hfits]
  constructor
  · rintro ⟨idx, value, ⟨hfit, rfl⟩, hrank⟩
    obtain ⟨size, hfirst⟩ := firstBest_videoSizes hsizes hvideo hfit
    exact ⟨hfit, (ranking_iff hfirst).mp ⟨value, hrank⟩⟩
  · rintro ⟨hfit, hnot⟩
    obtain ⟨size, hfirst⟩ := firstBest_videoSizes hsizes hvideo hfit
    obtain ⟨value, hrank⟩ := (ranking_iff hfirst).mpr hnot
    exact ⟨_, value, ⟨hfit, rfl⟩, hrank⟩

/-- Two formats with video only. -/
def videoObjects : List (List (String × JsonVal)) :=
  [[("width", .int 1280), ("fps", .int 30), ("bitrate", .int 1500000)],
    [("width", .int 1920), ("fps", .int 30), ("bitrate", .int 3000000)]]

/-- A format with both streams, and one with video only and the same sizes. -/
def sameSizes : List (List (String × JsonVal)) :=
  [[("width", .int 1280), ("fps", .int 30), ("bitrate", .int 1500000), ("audioChannels", .int 2)],
    [("width", .int 1280), ("fps", .int 30), ("bitrate", .int 1500000)]]

theorem bestVideo_iff_videoObjects :
    ∃ next, populateAll (tableOf videoObjects) = some next ∧
      ∃ idx value, infoGetBestVideoFormat (tableOf videoObjects) = some (idx, next) ∧
        FirstBest (· > ·) ranking next.formats idx value := by
  have hpopulate : (populateAll (tableOf videoObjects)).map (fun next ↦
      decide (∀ format ∈ next.formats, format.hasVid = true ∧ format.hasAud = false ∧
        0 ≤ format.width ∧ 0 ≤ format.fps ∧ 0 ≤ format.bitrate ∧ 2 + sizes format < 2 ^ 31) &&
          next.formats ≠ []) = some true := by
    decide
  obtain ⟨next, hnext, hall⟩ := Option.map_eq_some_iff.mp hpopulate
  simp only [Bool.and_eq_true, decide_eq_true_eq] at hall
  obtain ⟨hall, hne⟩ := hall
  obtain ⟨first, hfirst⟩ := List.exists_mem_of_ne_nil _ hne
  refine ⟨next, hnext, (bestVideo_iff hnext (fun format hmem _ ↦ ?_)
    ⟨first, hfirst, (hall first hfirst).1⟩).mpr ⟨fun format hmem _ ↦ ?_, ?_⟩⟩
  · obtain ⟨-, -, hwidth, hfps, hbitrate, -⟩ := hall format hmem
    exact ⟨hwidth, hfps, hbitrate⟩
  · exact (hall format hmem).2.2.2.2.2
  · rintro ⟨best, size, -, ⟨format, hformat, haud⟩, -⟩
    rw [(hall format (List.mem_of_getElem? hformat)).2.1] at haud
    exact absurd haud (by decide)

/-- The format with both streams is returned. -/
theorem sameSizes_overlooked :
    ∃ next, populateAll (tableOf sameSizes) = some next ∧
      (∀ format ∈ next.formats, 0 ≤ format.width ∧ 0 ≤ format.fps ∧ 0 ≤ format.bitrate ∧
        2 + sizes format < 2 ^ 31) ∧
      ¬ ∃ idx value, infoGetBestVideoFormat (tableOf sameSizes) = some (idx, next) ∧
        FirstBest (· > ·) ranking next.formats idx value := by
  have hpopulate : (populateAll (tableOf sameSizes)).map (fun next ↦
      (decide (∀ format ∈ next.formats, 0 ≤ format.width ∧ 0 ≤ format.fps ∧ 0 ≤ format.bitrate ∧
        2 + sizes format < 2 ^ 31),
        scoreAt ranking next.formats 0, scoreAt ranking next.formats 1)) =
          some (true, some 1501311, some 1501312) := by
    decide
  have hreturned : (infoGetBestVideoFormat (tableOf sameSizes)).map Prod.fst = some 0 := by
    decide
  obtain ⟨next, hnext, hpair⟩ := Option.map_eq_some_iff.mp hpopulate
  simp only [Prod.mk.injEq, decide_eq_true_eq] at hpair
  obtain ⟨hall, hfirst, hsecond⟩ := hpair
  refine ⟨next, hnext, hall, ?_⟩
  rintro ⟨idx, value, hidx, hbest⟩
  rw [hidx, Option.map_some, Option.some.injEq] at hreturned
  obtain rfl : idx = 0 := hreturned
  obtain rfl := Option.some.inj (hfirst.symm.trans hbest.attained)
  exact hbest.notBetter 1 _ hsecond (by decide)

/-! ## The best audio format -/

def quotients : InfoFormat → Option ℤ := scoreIf AudioOnly quotient

/-- The index is that of a format with audio if there is one, and that of the first best format with
audio only if there is one of these. -/
structure BestAudio (formats : List InfoFormat) (idx : ℕ) : Prop where
  audio : (∃ format ∈ formats, format.hasAud = true) →
    ∃ format ∈ formats[idx]?, format.hasAud = true
  best : (∃ format ∈ formats, AudioOnly format) →
    ∃ value, FirstBest (· > ·) quotients formats idx value

/-- No format has audio, or one with audio only has a quotient that is not zero, or the first format
of the list is one that may be returned for the lack of these. -/
def Found (formats : List InfoFormat) : Prop :=
  (∀ format ∈ formats, format.hasAud = false) ∨
    (∃ format ∈ formats, AudioOnly format ∧ 0 < quotient format) ∨
      ∃ first ∈ formats[0]?, AudioOnly first ∨
        (first.hasAud = true ∧ ∀ format ∈ formats, ¬ AudioOnly format)

section Audio

variable {formats : List InfoFormat}

/-- Without a quotient that is not zero, the first format of the list is returned. -/
theorem bestAudio_zero (hzero : ∀ format ∈ formats, AudioOnly format → quotient format = 0) :
    BestAudio formats 0 ↔ Found formats := by
  constructor
  · intro h
    by_cases haudio : ∃ format ∈ formats, format.hasAud = true
    · obtain ⟨first, hfirst, haud⟩ := h.audio haudio
      refine .inr (.inr ⟨first, hfirst, ?_⟩)
      by_cases honly : ∃ format ∈ formats, AudioOnly format
      · obtain ⟨value, hvalue⟩ := h.best honly
        obtain ⟨other, hother, hotherOnly, -⟩ := scoreAt_scoreIf.mp hvalue.attained
        obtain rfl := Option.some.inj (hfirst.symm.trans hother)
        exact .inl hotherOnly
      · exact .inr ⟨haud, fun format hmem hformat ↦ honly ⟨format, hmem, hformat⟩⟩
    · exact .inl fun format hmem ↦ Bool.eq_false_iff.mpr fun haud ↦ haudio ⟨format, hmem, haud⟩
  · rintro (hnone | ⟨format, hmem, honly, hpos⟩ | ⟨first, hfirst, honly | ⟨haud, hnone⟩⟩)
    · refine ⟨fun ⟨format, hmem, haud⟩ ↦ ?_, fun ⟨format, hmem, honly⟩ ↦ ?_⟩
      · exact absurd haud (by simp [hnone format hmem])
      · exact absurd honly.1 (by simp [hnone format hmem])
    · exact absurd (hzero format hmem honly) hpos.ne'
    · refine ⟨fun _ ↦ ⟨first, hfirst, honly.1⟩, fun _ ↦ ⟨quotient first, ?_, ?_, ?_⟩⟩
      · exact scoreAt_scoreIf.mpr ⟨first, hfirst, honly, rfl⟩
      · intro other value hvalue
        obtain ⟨rival, hrival, hrivalOnly, rfl⟩ := scoreAt_scoreIf.mp hvalue
        rw [hzero first (List.mem_of_getElem? hfirst) honly,
          hzero rival (List.mem_of_getElem? hrival) hrivalOnly]
        exact lt_irrefl 0
      · exact fun other hless ↦ absurd hless (Nat.not_lt_zero other)
    · exact ⟨fun _ ↦ ⟨first, hfirst, haud⟩, fun ⟨format, hmem, honly⟩ ↦
        absurd honly (hnone format hmem)⟩

/-- **The best audio format.** For formats whose scores are defined and whose numbers are not
negative, the index is right exactly when a format is found among the negative scores, or need not
be. -/
theorem bestAudio_iff {info next : Formats} (h : populateAll info = some next)
    (hnumbers : ∀ format ∈ next.formats, format.hasAud = true →
      0 ≤ format.width ∧ 0 ≤ format.fps ∧ 0 ≤ format.bitrate ∧ 0 ≤ format.audioChannels ∧
        (format.audioQuality = 1 ∨ format.audioQuality = 2))
    (hdefined : ∀ format ∈ next.formats, format.hasAud = true → (audioScore format).isSome) :
    (∃ idx, infoGetBestAudioFormat info = some (idx, next) ∧ BestAudio next.formats idx) ↔
      Found next.formats := by
  have hneeded : ∀ format ∈ next.formats, flags format &&& hasAudFlag ≠ 0 →
      (audioScore format).isSome := by
    intro format hmem hflag
    rw [ne_eq, flags_hasAud, Bool.not_eq_false] at hflag
    exact hdefined format hmem hflag
  have hbest (idx : ℕ) : infoGetBestAudioFormat info = some (idx, next) ↔
      (runningBest (· < ·) (scoreWith hasAudFlag audioScore) next.formats 0 (0, 0)).1 = idx :=
    (best_eq_some h).trans ((and_iff_right rfl).trans (and_iff_right hneeded))
  have honlyScore {format : InfoFormat} (hmem : format ∈ next.formats) (honly : AudioOnly format) :
      scoreWith hasAudFlag audioScore format = some (-quotient format) := by
    rw [scoreWith, if_neg (by rw [flags_hasAud, honly.1]; decide)]
    obtain ⟨score, hscore⟩ := Option.isSome_iff_exists.mp (hdefined format hmem honly.1)
    rw [hscore, ← ((audioScore_eq_some honly.2).mp hscore).2]
  have hquotient {format : InfoFormat} (hmem : format ∈ next.formats) (honly : AudioOnly format) :
      0 ≤ quotient format := by
    obtain ⟨-, -, hbitrate, hchannels, hquality⟩ := hnumbers format hmem honly.1
    exact Int.tdiv_nonneg (mul_nonneg hbitrate hchannels) (by omega)
  simp only [hbest, exists_eq_left']
  obtain ⟨hstart, hworse⟩ | ⟨hfirst, hneg⟩ := @runningBest_cases _ _ (· < ·)
    (fun _ _ ↦ lt_asymm) (fun _ second third h ↦ by omega) _ (scoreWith hasAudFlag audioScore)
    next.formats (0, 0)
  · rw [hstart]
    refine bestAudio_zero fun format hmem honly ↦ ?_
    have hnot := hworse format hmem _ (honlyScore hmem honly)
    have hnonneg := hquotient hmem honly
    omega
  · obtain ⟨format, hformat, hscore⟩ := Option.bind_eq_some_iff.mp hfirst.attained
    have hmem := List.mem_of_getElem? hformat
    have honly : AudioOnly format := by
      rw [scoreWith] at hscore
      split at hscore
      · cases hscore
      · next hflag =>
        rw [flags_hasAud, Bool.not_eq_false] at hflag
        refine ⟨hflag, Bool.eq_false_iff.mpr fun hvid ↦ ?_⟩
        rw [audioScore_of_hasVid hvid, videoScore_eq_some hvid] at hscore
        obtain ⟨hwidth, hfps, hbitrate, -⟩ := hnumbers format hmem hflag
        have hsum : sizes format = format.width + format.fps + format.bitrate := rfl
        omega
    have hvalue := Option.some.inj ((honlyScore hmem honly).symm.trans hscore)
    refine iff_of_true ⟨fun _ ↦ ⟨format, hformat, honly.1⟩, fun _ ↦ ⟨quotient format, ?_, ?_, ?_⟩⟩
      (.inr (.inl ⟨format, hmem, honly, by omega⟩))
    · exact scoreAt_scoreIf.mpr ⟨format, hformat, honly, rfl⟩
    · intro other value hother
      obtain ⟨rival, hrival, hrivalOnly, rfl⟩ := scoreAt_scoreIf.mp hother
      have hnot := hfirst.notBetter other (-quotient rival) (by
        rw [scoreAt, hrival]
        exact honlyScore (List.mem_of_getElem? hrival) hrivalOnly)
      omega
    · intro other hless value hother
      obtain ⟨rival, hrival, hrivalOnly, rfl⟩ := scoreAt_scoreIf.mp hother
      have hbetter := hfirst.first other hless (-quotient rival) (by
        rw [scoreAt, hrival]
        exact honlyScore (List.mem_of_getElem? hrival) hrivalOnly)
      omega

end Audio

/-- A format with audio only. -/
def audioObjects : List (List (String × JsonVal)) :=
  [[("bitrate", .int 130000), ("audioChannels", .int 2),
    ("audioQuality", .str "AUDIO_QUALITY_MEDIUM")]]

/-- A format with video only, and one with both streams. -/
def noAudioOnly : List (List (String × JsonVal)) :=
  [[("width", .int 1280), ("fps", .int 30), ("bitrate", .int 1500000)],
    [("width", .int 640), ("fps", .int 30), ("bitrate", .int 500000), ("audioChannels", .int 2),
      ("audioQuality", .str "AUDIO_QUALITY_LOW")]]

theorem bestAudio_iff_audioObjects :
    ∃ next, populateAll (tableOf audioObjects) = some next ∧
      ∃ idx, infoGetBestAudioFormat (tableOf audioObjects) = some (idx, next) ∧
        BestAudio next.formats idx := by
  have hpopulate : (populateAll (tableOf audioObjects)).map (fun next ↦
      decide (∀ format ∈ next.formats, AudioOnly format ∧ 0 < quotient format ∧
        (0 ≤ format.width ∧ 0 ≤ format.fps ∧ 0 ≤ format.bitrate ∧ 0 ≤ format.audioChannels ∧
          (format.audioQuality = 1 ∨ format.audioQuality = 2)) ∧
        (audioScore format).isSome = true) && next.formats ≠ []) = some true := by
    decide
  obtain ⟨next, hnext, hall⟩ := Option.map_eq_some_iff.mp hpopulate
  simp only [Bool.and_eq_true, decide_eq_true_eq] at hall
  obtain ⟨hall, hne⟩ := hall
  obtain ⟨first, hfirst⟩ := List.exists_mem_of_ne_nil _ hne
  refine ⟨next, hnext, (bestAudio_iff hnext (fun format hmem _ ↦ (hall format hmem).2.2.1)
    fun format hmem _ ↦ (hall format hmem).2.2.2).mpr (.inr (.inl ⟨first, hfirst, ?_⟩))⟩
  exact ⟨(hall first hfirst).1, (hall first hfirst).2.1⟩

/-- The format with video only is returned. -/
theorem noAudioOnly_not_bestAudio :
    ∃ next, populateAll (tableOf noAudioOnly) = some next ∧
      (∃ format ∈ next.formats, format.hasAud = true) ∧
      ¬ ∃ idx, infoGetBestAudioFormat (tableOf noAudioOnly) = some (idx, next) ∧
        BestAudio next.formats idx := by
  have hpopulate : (populateAll (tableOf noAudioOnly)).map (fun next ↦
      (decide (∃ format ∈ next.formats, format.hasAud = true),
        next.formats[0]?.map InfoFormat.hasAud)) = some (true, some false) := by
    decide
  have hreturned : (infoGetBestAudioFormat (tableOf noAudioOnly)).map Prod.fst = some 0 := by
    decide
  obtain ⟨next, hnext, hpair⟩ := Option.map_eq_some_iff.mp hpopulate
  simp only [Prod.mk.injEq, decide_eq_true_eq] at hpair
  obtain ⟨haudio, hfirst⟩ := hpair
  refine ⟨next, hnext, haudio, ?_⟩
  rintro ⟨idx, hidx, hbest⟩
  rw [hidx, Option.map_some, Option.some.injEq] at hreturned
  obtain rfl : idx = 0 := hreturned
  obtain ⟨format, hformat, haud⟩ := hbest.audio haudio
  rw [hformat, Option.map_some, haud] at hfirst
  exact absurd (Option.some.inj hfirst) (by decide)

/-! ## The arithmetic of the scores -/

/-- The formats of the table come from the objects, one by one. -/
theorem exists_object {objects : List (List (String × JsonVal))} {next : Formats}
    (h : populateAll (tableOf objects) = some next) {format : InfoFormat}
    (hmem : format ∈ next.formats) :
    ∃ object ∈ objects, infoFormatPopulate (InfoFormat.calloc object) = some format := by
  obtain ⟨formats, hformats, rfl⟩ := Option.map_eq_some_iff.mp
    (show ((objects.map InfoFormat.calloc).mapM infoFormatPopulate).map _ = some next from h)
  clear h
  dsimp only at hmem
  induction objects generalizing formats with
  | nil =>
    obtain rfl := Option.some.inj hformats
    exact absurd hmem List.not_mem_nil
  | cons object objects ih =>
    rw [List.map_cons, List.mapM_cons] at hformats
    obtain ⟨first, hfirst, hformats⟩ := Option.bind_eq_some_iff.mp hformats
    obtain ⟨rest, hrest, hformats⟩ := Option.bind_eq_some_iff.mp hformats
    obtain rfl := Option.some.inj hformats
    obtain rfl | hmem := List.mem_cons.mp hmem
    · exact ⟨object, List.mem_cons_self, hfirst⟩
    · obtain ⟨found, hfound, hpopulate⟩ := ih rest hrest hmem
      exact ⟨found, List.mem_cons_of_mem _ hfound, hpopulate⟩

/-- No score of a filled format overflows, and none is divided by zero. -/
structure Scorable (format : InfoFormat) : Prop where
  sums : format.hasVid = true → SumsFit format
  quality : AudioOnly format → HasKey format.val "audioQuality"
  product : AudioOnly format → Fits (format.bitrate * format.audioChannels)
  quotient : AudioOnly format → Fits (-quotient format)

/-- A quotient is not farther from zero than what is divided, and on the same side. -/
theorem fits_quotient {format : InfoFormat} (hquality : 0 < format.audioQuality)
    (hproduct : Fits (format.bitrate * format.audioChannels)) (hneg : Fits (-quotient format)) :
    Fits (quotient format) := by
  have hle : (quotient format).natAbs ≤ (format.bitrate * format.audioChannels).natAbs := by
    rw [quotient, Int.natAbs_tdiv]
    exact Nat.div_le_self _ _
  have hsign : format.bitrate * format.audioChannels ≤ 0 → quotient format ≤ 0 := by
    intro hle
    have hopposite := Int.tdiv_nonneg (neg_nonneg.mpr hle) hquality.le
    rw [Int.neg_tdiv] at hopposite
    exact neg_nonneg.mp hopposite
  obtain ⟨hlow, hhigh⟩ := hproduct
  obtain ⟨hlow', hhigh'⟩ := hneg
  exact ⟨by omega, by omega⟩

theorem val_populate {val : List (String × JsonVal)} {filled : InfoFormat}
    (h : infoFormatPopulate (InfoFormat.calloc val) = some filled) : filled.val = val := by
  obtain ⟨format, hformat, rfl⟩ := Option.map_eq_some_iff.mp
    (show (val.foldlM populateKey (InfoFormat.calloc val)).map _ = some filled from h)
  exact (keySet_foldlM hformat).val

theorem quotientFits_iff {val : List (String × JsonVal)} {format : InfoFormat}
    (h : infoFormatPopulate (InfoFormat.calloc val) = some format) :
    QuotientFits format ↔ HasKey format.val "audioQuality" ∧
      Fits (format.bitrate * format.audioChannels) ∧ Fits (-quotient format) := by
  obtain ⟨hhas, hnot⟩ := audioQuality_populate h
  rw [val_populate h]
  constructor
  · rintro ⟨hquality, hproduct, -, hscore⟩
    refine ⟨?_, hproduct, hscore⟩
    by_contra hkey
    exact hquality (hnot hkey)
  · rintro ⟨hkey, hproduct, hscore⟩
    have hquality : 0 < format.audioQuality := by
      obtain hone | htwo := hhas hkey
      · omega
      · omega
    exact ⟨hquality.ne', hproduct, fits_quotient hquality hproduct hscore, hscore⟩

/-- **The arithmetic is defined** for both functions exactly when the sums, the products and the
quotients fit, and every format with audio only has a quality. -/
theorem scoring_defined_iff {objects : List (List (String × JsonVal))} {next : Formats}
    (h : populateAll (tableOf objects) = some next) :
    (∃ video audio, infoGetBestVideoFormat (tableOf objects) = some video ∧
        infoGetBestAudioFormat (tableOf objects) = some audio) ↔
      ∀ format ∈ next.formats, Scorable format := by
  have hvideo : (∃ video, infoGetBestVideoFormat (tableOf objects) = some video) ↔
      ∀ format ∈ next.formats, format.hasVid = true → SumsFit format := by
    rw [← videoScores_isSome]
    constructor
    · rintro ⟨video, hvideo⟩
      exact ((best_eq_some h).mp hvideo).2.1
    · exact fun hscores ↦ ⟨_, (best_eq_some h).mpr ⟨rfl, hscores, rfl⟩⟩
  have haudio : (∃ audio, infoGetBestAudioFormat (tableOf objects) = some audio) ↔
      ∀ format ∈ next.formats, format.hasAud = true →
        (format.hasVid = true → SumsFit format) ∧
          (format.hasVid = false → QuotientFits format) := by
    rw [← audioScores_isSome]
    constructor
    · rintro ⟨audio, haudio⟩
      exact ((best_eq_some h).mp haudio).2.1
    · exact fun hscores ↦ ⟨_, (best_eq_some h).mpr ⟨rfl, hscores, rfl⟩⟩
  simp only [exists_and_left, exists_and_right, hvideo, haudio]
  constructor
  · rintro ⟨hsums, hscores⟩ format hmem
    obtain ⟨object, -, hobject⟩ := exists_object h hmem
    have hfits (honly : AudioOnly format) := (quotientFits_iff hobject).mp
      ((hscores format hmem honly.1).2 honly.2)
    exact ⟨hsums format hmem, fun honly ↦ (hfits honly).1, fun honly ↦ (hfits honly).2.1,
      fun honly ↦ (hfits honly).2.2⟩
  · intro hscorable
    refine ⟨fun format hmem ↦ (hscorable format hmem).sums, fun format hmem haud ↦
      ⟨(hscorable format hmem).sums, fun hvid ↦ ?_⟩⟩
    obtain ⟨object, -, hobject⟩ := exists_object h hmem
    obtain ⟨-, hquality, hproduct, hquotient⟩ := hscorable format hmem
    exact (quotientFits_iff hobject).mpr
      ⟨hquality ⟨haud, hvid⟩, hproduct ⟨haud, hvid⟩, hquotient ⟨haud, hvid⟩⟩

theorem scoring_defined_iff_audioObjects :
    ∃ video audio, infoGetBestVideoFormat (tableOf audioObjects) = some video ∧
      infoGetBestAudioFormat (tableOf audioObjects) = some audio := by
  have hpopulate : (populateAll (tableOf audioObjects)).map (fun next ↦
      decide (∀ format ∈ next.formats, format.hasVid = false ∧
        HasKey format.val "audioQuality" ∧ Fits (format.bitrate * format.audioChannels) ∧
          Fits (-quotient format))) = some true := by
    decide
  obtain ⟨next, hnext, hall⟩ := Option.map_eq_some_iff.mp hpopulate
  simp only [decide_eq_true_eq] at hall
  refine (scoring_defined_iff hnext).mpr fun format hmem ↦ ?_
  obtain ⟨hvid, hquality, hproduct, hquotient⟩ := hall format hmem
  exact ⟨fun htrue ↦ absurd (hvid.symm.trans htrue) (by decide), fun _ ↦ hquality,
    fun _ ↦ hproduct, fun _ ↦ hquotient⟩

/-- A format with audio only and without a quality. -/
def noQuality : List (List (String × JsonVal)) :=
  [[("bitrate", .int 130000), ("audioChannels", .int 2)]]

/-- The bit rate is divided by zero. -/
theorem noQuality_undefined :
    (∃ next, populateAll (tableOf noQuality) = some next) ∧
      ¬ ∃ video audio, infoGetBestVideoFormat (tableOf noQuality) = some video ∧
        infoGetBestAudioFormat (tableOf noQuality) = some audio := by
  have hpopulate : (populateAll (tableOf noQuality)).isSome = true := by decide
  have hnone : infoGetBestAudioFormat (tableOf noQuality) = none := by decide
  refine ⟨Option.isSome_iff_exists.mp hpopulate, ?_⟩
  rintro ⟨video, audio, -, haudio⟩
  exact absurd (hnone.symm.trans haudio) (Option.some_ne_none audio).symm

end LibYtdl.Info.BestFormat
