import LibYtdl.Dl.MediaDownload

/-!
# The ranges of a chunked download

The requests of a chunked download of `length` bytes, as a list computed from the length alone. The
first chunk ends at the chunk size, the end included, so every later one is shifted by one; the last
one is left open. This is the plan; that the callbacks follow it is proved elsewhere.
-/

namespace LibYtdl.Dl.ChunkPlan

open MediaDownload

/-- The first position of a chunk. -/
def chunkStart (index : ℕ) : ℕ := if index = 0 then 0 else index * chunkSize + 1

/-- The index of the last chunk. -/
def lastIndex (length : ℕ) : ℕ := (length - 1) / chunkSize

/-- The range of a chunk as the request names it. -/
def chunkRange (length index : ℕ) : ℕ × ℕ :=
  (chunkStart index, if index = lastIndex length then 0 else (index + 1) * chunkSize)

def plan (length : ℕ) : List (ℕ × ℕ) :=
  (List.range (lastIndex length + 1)).map (chunkRange length)

/-- The positions below `length` that a range names. -/
def cut (length : ℕ) (range : ℕ × ℕ) : List ℕ :=
  List.Ico range.1 (if range.2 = 0 then length else min (range.2 + 1) length)

/-- What a list of ranges has to be for a file of `length` bytes. -/
structure CoversFile (length : ℕ) (ranges : List (ℕ × ℕ)) : Prop where
  start : ranges.head?.map Prod.fst = some 0
  consecutive : ranges.IsChain fun range next ↦ range.2 ≠ 0 ∧ next.1 = range.2 + 1
  openEnded : ranges.getLast?.map Prod.snd = some 0
  below : ∀ range ∈ ranges, range.2 ≠ 0 → range.1 ≤ range.2 ∧ range.2 < length
  bounded : ∀ range ∈ ranges, range.2 ≠ 0 → range.2 - range.1 ≤ chunkSize
  remainder : ∀ range ∈ ranges, range.2 = 0 → range.1 ≠ 0 →
    range.1 ≤ length ∧ length - range.1 ≤ chunkSize
  covers : ranges.flatMap (cut length) = List.range length

theorem chunkSize_eq : chunkSize = 131072 := rfl

theorem chunkSize_pos : 0 < chunkSize := by decide

theorem succ_mul_chunkSize_ne_zero (index : ℕ) : (index + 1) * chunkSize ≠ 0 :=
  Nat.mul_ne_zero (Nat.succ_ne_zero index) chunkSize_pos.ne'

theorem mul_chunkSize_lt {length index : ℕ} (hpos : 0 < index) (hle : index ≤ lastIndex length) :
    index * chunkSize < length := by
  have hmul : index * chunkSize ≤ length - 1 := (Nat.le_div_iff_mul_le chunkSize_pos).mp hle
  have hsize : 0 < index * chunkSize := Nat.mul_pos hpos chunkSize_pos
  calc
    index * chunkSize ≤ length - 1 := hmul
    _ < length := by omega

theorem le_mul_chunkSize (length : ℕ) : length ≤ (lastIndex length + 1) * chunkSize := by
  have hlt := Nat.lt_mul_div_succ (length - 1) chunkSize_pos
  calc
    length ≤ chunkSize * ((length - 1) / chunkSize + 1) := by omega
    _ = (lastIndex length + 1) * chunkSize := Nat.mul_comm _ _

/-- The test of the stop condition, at the end of the chunk before `index`. -/
theorem lt_lastIndex_iff {length index : ℕ} :
    index < lastIndex length ↔ (index + 1) * chunkSize < length := by
  constructor
  · exact fun hlt ↦ mul_chunkSize_lt (Nat.succ_pos _) hlt
  · intro hlt
    by_contra hge
    have hle : length ≤ (index + 1) * chunkSize :=
      calc
        length ≤ (lastIndex length + 1) * chunkSize := le_mul_chunkSize length
        _ ≤ (index + 1) * chunkSize := Nat.mul_le_mul_right _ (by omega)
    exact absurd hlt (Nat.not_lt.mpr hle)

theorem chunkStart_succ (index : ℕ) : chunkStart (index + 1) = (index + 1) * chunkSize + 1 :=
  if_neg (Nat.succ_ne_zero index)

theorem chunkStart_le {length index : ℕ} (hle : index ≤ lastIndex length) :
    chunkStart index ≤ length := by
  unfold chunkStart
  split
  · omega
  · exact mul_chunkSize_lt (by omega) hle

/-- Every chunk but the first starts one past a multiple of the chunk size. -/
theorem chunkStart_lt_iff {length index : ℕ} (hlength : 0 < length)
    (hle : index ≤ lastIndex length) :
    chunkStart index < length ↔ index = 0 ∨ length ≠ index * chunkSize + 1 := by
  have hstart := chunkStart_le hle
  by_cases hindex : index = 0
  · simp [hindex, hlength, chunkStart]
  · rw [chunkStart, if_neg hindex] at hstart ⊢
    simp only [hindex, false_or]
    omega

theorem flatMap_cut_range {length count : ℕ} (hcount : count ≤ lastIndex length) :
    ((List.range count).map (chunkRange length)).flatMap (cut length) =
      List.Ico 0 (chunkStart count) := by
  induction count with
  | zero => rfl
  | succ index ih =>
    have hbound : (index + 1) * chunkSize < length := mul_chunkSize_lt (Nat.succ_pos index) hcount
    have hend : cut length (chunkRange length index) =
        List.Ico (chunkStart index) (chunkStart (index + 1)) := by
      have hne : index ≠ lastIndex length := by omega
      rw [chunkStart_succ, cut, chunkRange, if_neg hne,
        if_neg (succ_mul_chunkSize_ne_zero index), min_eq_left (by omega)]
    have hle : chunkStart index ≤ chunkStart (index + 1) := by
      unfold chunkStart
      split <;> simp [Nat.add_mul]
    calc
      ((List.range (index + 1)).map (chunkRange length)).flatMap (cut length) =
          ((List.range index).map (chunkRange length)).flatMap (cut length) ++
            cut length (chunkRange length index) := by
        simp [List.range_succ]
      _ = List.Ico 0 (chunkStart index) ++
            List.Ico (chunkStart index) (chunkStart (index + 1)) := by
        rw [ih (by omega), hend]
      _ = List.Ico 0 (chunkStart (index + 1)) :=
        List.Ico.append_consecutive (Nat.zero_le _) hle

theorem mem_plan {length : ℕ} {range : ℕ × ℕ} (hrange : range ∈ plan length) :
    (∃ index, index < lastIndex length ∧ range = (chunkStart index, (index + 1) * chunkSize)) ∨
      range = (chunkStart (lastIndex length), 0) := by
  obtain ⟨index, hindex, rfl⟩ := List.mem_map.mp hrange
  rw [List.mem_range] at hindex
  by_cases hlast : index = lastIndex length
  · exact Or.inr (by simp [chunkRange, hlast])
  · exact Or.inl ⟨index, by omega, by simp [chunkRange, hlast]⟩

theorem plan_eq_append (length : ℕ) :
    plan length = (List.range (lastIndex length)).map (chunkRange length) ++
      [(chunkStart (lastIndex length), 0)] := by
  simp [plan, List.range_succ, chunkRange]

theorem plan_consecutive (length : ℕ) :
    (plan length).IsChain fun range next ↦ range.2 ≠ 0 ∧ next.1 = range.2 + 1 := by
  rw [plan, List.isChain_map, List.isChain_range_succ]
  intro index hindex
  have hne : index ≠ lastIndex length := by omega
  exact ⟨by simp only [chunkRange, if_neg hne]; exact succ_mul_chunkSize_ne_zero index,
    by simp only [chunkRange, if_neg hne, chunkStart_succ]⟩

/-- The plan covers the file, for every length. -/
theorem plan_coversFile (length : ℕ) : CoversFile length (plan length) := by
  have hmul (index : ℕ) : (index + 1) * chunkSize = index * chunkSize + chunkSize :=
    Nat.succ_mul index chunkSize
  constructor
  · simp [plan, List.range_succ_eq_map, chunkRange, chunkStart]
  · exact plan_consecutive length
  · simp [plan_eq_append]
  · intro range hrange hbounded
    obtain ⟨index, hindex, rfl⟩ | rfl := mem_plan hrange
    · refine ⟨?_, Iff.mp lt_lastIndex_iff hindex⟩
      have := hmul index
      have := chunkSize_pos
      unfold chunkStart
      split <;> omega
    · exact absurd rfl hbounded
  · intro range hrange hbounded
    obtain ⟨index, hindex, rfl⟩ | rfl := mem_plan hrange
    · have := hmul index
      simp only [chunkStart]
      split
      case isTrue hfirst => simp [hfirst]
      case isFalse => omega
    · exact absurd rfl hbounded
  · intro range hrange hopen hlater
    obtain ⟨index, hindex, rfl⟩ | rfl := mem_plan hrange
    · exact absurd hopen (succ_mul_chunkSize_ne_zero index)
    · refine ⟨chunkStart_le le_rfl, ?_⟩
      have hlast : lastIndex length ≠ 0 := fun heq ↦ hlater (by simp [chunkStart, heq])
      have hend := le_mul_chunkSize length
      rw [hmul] at hend
      simp only [chunkStart, hlast, if_false]
      omega
  · calc
      (plan length).flatMap (cut length) =
          ((List.range (lastIndex length)).map (chunkRange length)).flatMap (cut length) ++
            List.Ico (chunkStart (lastIndex length)) length := by
        simp [plan_eq_append, cut]
      _ = List.Ico 0 (chunkStart (lastIndex length)) ++
            List.Ico (chunkStart (lastIndex length)) length := by
        rw [flatMap_cut_range le_rfl]
      _ = List.Ico 0 length :=
        List.Ico.append_consecutive (Nat.zero_le _) (chunkStart_le le_rfl)
      _ = List.range length := List.Ico.zero_bot length

/-- The lengths whose last chunk starts below them. -/
theorem lastChunk_start_lt_iff {length : ℕ} (hlength : 0 < length) :
    chunkStart (lastIndex length) < length ↔ length ≤ chunkSize ∨ length % chunkSize ≠ 1 := by
  have hle := le_mul_chunkSize length
  have hlt : 0 < lastIndex length → lastIndex length * chunkSize < length :=
    fun hpos ↦ mul_chunkSize_lt hpos le_rfl
  rw [chunkStart_lt_iff hlength le_rfl]
  simp only [chunkSize_eq] at hle hlt ⊢
  omega

/-- Only the last, open range can start past the end of the file. -/
theorem plan_start_lt_iff {length : ℕ} (hlength : 0 < length) :
    (∀ range ∈ plan length, range.1 < length) ↔ length ≤ chunkSize ∨ length % chunkSize ≠ 1 := by
  rw [← lastChunk_start_lt_iff hlength]
  constructor
  · exact fun hall ↦ hall (chunkStart (lastIndex length), 0) (by simp [plan_eq_append])
  · intro hlast range hrange
    obtain ⟨index, hindex, rfl⟩ | rfl := mem_plan hrange
    · have hcovers := (plan_coversFile length).below _ hrange (succ_mul_chunkSize_ne_zero index)
      exact hcovers.1.trans_lt hcovers.2
    · exact hlast

end LibYtdl.Dl.ChunkPlan
