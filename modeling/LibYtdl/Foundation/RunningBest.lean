import Mathlib

/-!
# The first best item of a list

A loop keeps the best score so far and the index it was found at, and replaces both only by a score
that is better. Items without a score are skipped. What it ends with is the first item that no other
one is better than, or what it started with when nothing is better than that.
-/

namespace LibYtdl.RunningBest

variable {α β : Type*}

/-- The loop, from an index on. -/
def runningBest (better : β → β → Prop) [DecidableRel better] (score : α → Option β) :
    List α → ℕ → ℕ × β → ℕ × β
  | [], _, best => best
  | item :: items, index, best =>
    match score item with
    | none => runningBest better score items (index + 1) best
    | some value =>
      runningBest better score items (index + 1)
        (if better value best.2 then (index, value) else best)

/-- The score at an index of a list. -/
def scoreAt (score : α → Option β) (items : List α) (index : ℕ) : Option β :=
  items[index]?.bind score

/-- No item is better, and every item before is worse. -/
structure FirstBest (better : β → β → Prop) (score : α → Option β) (items : List α) (index : ℕ)
    (value : β) : Prop where
  attained : scoreAt score items index = some value
  notBetter : ∀ other, ∀ otherValue ∈ scoreAt score items other, ¬ better otherValue value
  first : ∀ other < index, ∀ otherValue ∈ scoreAt score items other, better value otherValue

/-- What the loop knows of the items it has seen. -/
def Best (better : β → β → Prop) (score : α → Option β) (start : ℕ × β) (seen : List α)
    (best : ℕ × β) : Prop :=
  (best = start ∧ ∀ item ∈ seen, ∀ value ∈ score item, ¬ better value start.2) ∨
    (FirstBest better score seen best.1 best.2 ∧ better best.2 start.2)

section Proofs

variable {better : β → β → Prop} {score : α → Option β} {seen items : List α} {start best : ℕ × β}

theorem scoreAt_append_length (score : α → Option β) (seen : List α) (item : α) :
    scoreAt score (seen ++ [item]) seen.length = score item := by
  simp [scoreAt]

theorem scoreAt_append_of_lt (score : α → Option β) {index : ℕ} (h : index < seen.length)
    (item : α) : scoreAt score (seen ++ [item]) index = scoreAt score seen index := by
  rw [scoreAt, List.getElem?_append_left h, scoreAt]

theorem lt_length_of_scoreAt {index : ℕ} {value : β} (h : scoreAt score items index = some value) :
    index < items.length := by
  obtain ⟨item, hitem, -⟩ := Option.bind_eq_some_iff.mp h
  exact (List.getElem?_eq_some_iff.mp hitem).1

theorem exists_mem_of_scoreAt {index : ℕ} {value : β}
    (h : scoreAt score items index = some value) : ∃ item ∈ items, score item = some value := by
  obtain ⟨item, hitem, hvalue⟩ := Option.bind_eq_some_iff.mp h
  exact ⟨item, List.mem_of_getElem? hitem, hvalue⟩

theorem exists_scoreAt_of_mem {item : α} {value : β} (hmem : item ∈ items)
    (h : score item = some value) : ∃ index, scoreAt score items index = some value := by
  obtain ⟨index, hindex⟩ := List.mem_iff_getElem?.mp hmem
  exact ⟨index, by rw [scoreAt, hindex, Option.bind_some, h]⟩

/-- A score in a list with one more item is the new one, or an old one. -/
theorem scoreAt_append_cases {index : ℕ} {item : α} {value : β}
    (h : scoreAt score (seen ++ [item]) index = some value) :
    (index = seen.length ∧ score item = some value) ∨
      (index < seen.length ∧ scoreAt score seen index = some value) := by
  have hlt := lt_length_of_scoreAt h
  rw [List.length_append, List.length_singleton] at hlt
  obtain hlt | rfl := Nat.lt_or_eq_of_le (Nat.le_of_lt_succ hlt)
  · exact .inr ⟨hlt, (scoreAt_append_of_lt score hlt item).symm.trans h⟩
  · exact .inl ⟨rfl, (scoreAt_append_length score seen item).symm.trans h⟩

/-- An item that is not better changes nothing. -/
theorem FirstBest.keep {index : ℕ} {value : β} (h : FirstBest better score seen index value)
    {item : α} (hitem : ∀ other ∈ score item, ¬ better other value) :
    FirstBest better score (seen ++ [item]) index value := by
  have hlt := lt_length_of_scoreAt h.attained
  refine ⟨(scoreAt_append_of_lt score hlt item).trans h.attained, fun other otherValue hother ↦ ?_,
    fun other hless otherValue hother ↦ ?_⟩
  · obtain ⟨-, hnew⟩ | ⟨-, hold⟩ := scoreAt_append_cases hother
    · exact hitem otherValue hnew
    · exact h.notBetter other otherValue hold
  · rw [scoreAt_append_of_lt score (hless.trans hlt)] at hother
    exact h.first other hless otherValue hother

theorem Best.keep (h : Best better score start seen best) {item : α}
    (hitem : ∀ value ∈ score item, ¬ better value best.2) :
    Best better score start (seen ++ [item]) best := by
  obtain ⟨rfl, hseen⟩ | ⟨hfirst, hbetter⟩ := h
  · refine .inl ⟨rfl, fun other hother ↦ ?_⟩
    obtain hold | hnew := List.mem_append.mp hother
    · exact hseen other hold
    · rw [List.mem_singleton.mp hnew]
      exact hitem
  · exact .inr ⟨hfirst.keep hitem, hbetter⟩

/-- There is one first best item at most. -/
theorem FirstBest.unique {index other : ℕ} {value otherValue : β}
    (h : FirstBest better score items index value)
    (h' : FirstBest better score items other otherValue) : index = other := by
  by_contra hne
  obtain hless | hless := Nat.lt_or_gt_of_ne hne
  · exact h.notBetter other otherValue h'.attained (h'.first index hless value h.attained)
  · exact h'.notBetter index value h.attained (h.first other hless otherValue h'.attained)

/-- Scores that are ranked in the same way. -/
theorem FirstBest.map {γ : Type*} {better' : γ → γ → Prop} {score' : α → Option γ} {g : β → γ}
    {index : ℕ} {value : β} (h : FirstBest better score items index value)
    (hscore : ∀ item ∈ items, score' item = (score item).map g)
    (hsame : ∀ first second, better' (g first) (g second) ↔ better first second) :
    FirstBest better' score' items index (g value) := by
  have hscoreAt (other : ℕ) : scoreAt score' items other = (scoreAt score items other).map g := by
    rw [scoreAt, scoreAt]
    cases hitem : items[other]? with
    | none => rfl
    | some item => exact hscore item (List.mem_of_getElem? hitem)
  refine ⟨by rw [hscoreAt, h.attained, Option.map_some], fun other otherValue hother ↦ ?_,
    fun other hless otherValue hother ↦ ?_⟩
  · rw [hscoreAt] at hother
    obtain ⟨old, hold, rfl⟩ := Option.map_eq_some_iff.mp hother
    exact mt (hsame _ _).mp (h.notBetter other old hold)
  · rw [hscoreAt] at hother
    obtain ⟨old, hold, rfl⟩ := Option.map_eq_some_iff.mp hother
    exact (hsame _ _).mpr (h.first other hless old hold)

/-- The items of a kind have a score, the other ones have none. -/
def scoreIf (kind : α → Prop) [DecidablePred kind] (value : α → β) (item : α) : Option β :=
  if kind item then some (value item) else none

theorem scoreIf_eq_some {kind : α → Prop} [DecidablePred kind] {value : α → β} {item : α}
    {result : β} : scoreIf kind value item = some result ↔ kind item ∧ value item = result := by
  rw [scoreIf, Option.ite_none_right_eq_some, Option.some.injEq]

theorem scoreAt_scoreIf {kind : α → Prop} [DecidablePred kind] {value : α → β} {index : ℕ}
    {result : β} : scoreAt (scoreIf kind value) items index = some result ↔
      ∃ item, items[index]? = some item ∧ kind item ∧ value item = result := by
  rw [scoreAt, Option.bind_eq_some_iff]
  simp only [scoreIf_eq_some]

section Order

variable (hasymm : ∀ first second, better first second → ¬ better second first)
  (hweak : ∀ first second third, better first third → better first second ∨ better second third)

include hasymm hweak

/-- An item that is better than everything before takes over. -/
theorem Best.replace (h : Best better score start seen best) {item : α} {value : β}
    (hitem : score item = some value) (hbetter : better value best.2) :
    Best better score start (seen ++ [item]) (seen.length, value) := by
  have hbest : best.2 = start.2 ∨ better best.2 start.2 := by
    obtain ⟨rfl, -⟩ | ⟨-, hbest⟩ := h
    · exact .inl rfl
    · exact .inr hbest
  have hstart : better value start.2 := by
    obtain heq | hbest := hbest
    · exact heq ▸ hbetter
    · exact (hweak value start.2 best.2 hbetter).resolve_right (hasymm _ _ hbest)
  have hseen (other : ℕ) (otherValue : β) (hother : scoreAt score seen other = some otherValue) :
      better value otherValue := by
    have hnot : ¬ better otherValue best.2 := by
      obtain ⟨rfl, hseen⟩ | ⟨hfirst, -⟩ := h
      · obtain ⟨item, hmem, hvalue⟩ := exists_mem_of_scoreAt hother
        exact hseen item hmem otherValue hvalue
      · exact hfirst.notBetter other otherValue hother
    exact (hweak value otherValue best.2 hbetter).resolve_right hnot
  refine .inr ⟨⟨(scoreAt_append_length score seen item).trans hitem,
    fun other otherValue hother ↦ ?_, fun other hless otherValue hother ↦ ?_⟩, hstart⟩
  · obtain ⟨-, hnew⟩ | ⟨-, hold⟩ := scoreAt_append_cases hother
    · obtain rfl := Option.some.inj (hnew.symm.trans hitem)
      exact fun hself ↦ hasymm _ _ hself hself
    · exact hasymm _ _ (hseen other otherValue hold)
  · rw [scoreAt_append_of_lt score hless] at hother
    exact hseen other otherValue hother

/-- What the loop ends with, from any point on. -/
theorem best_runningBest [DecidableRel better] (h : Best better score start seen best) :
    Best better score start (seen ++ items)
      (runningBest better score items seen.length best) := by
  induction items generalizing seen best with
  | nil => simpa [runningBest] using h
  | cons item items ih =>
    have hlength : seen.length + 1 = (seen ++ [item]).length := by simp
    rw [runningBest, hlength, List.append_cons]
    cases hitem : score item with
    | none => exact ih (h.keep (by simp [hitem]))
    | some value =>
      dsimp only
      by_cases hbetter : better value best.2
      · rw [if_pos hbetter]
        exact ih (h.replace hasymm hweak hitem hbetter)
      · rw [if_neg hbetter]
        refine ih (h.keep fun other hother ↦ ?_)
        obtain rfl := Option.some.inj (hitem.symm.trans hother)
        exact hbetter

/-- The first best item, or what the loop started with when no item is better than that. -/
theorem runningBest_cases [DecidableRel better] (score : α → Option β) (items : List α)
    (start : ℕ × β) :
    (runningBest better score items 0 start = start ∧
        ∀ item ∈ items, ∀ value ∈ score item, ¬ better value start.2) ∨
      (FirstBest better score items (runningBest better score items 0 start).1
          (runningBest better score items 0 start).2 ∧
        better (runningBest better score items 0 start).2 start.2) := by
  have hnil : Best better score start [] start :=
    .inl ⟨rfl, fun item hitem ↦ absurd hitem List.not_mem_nil⟩
  exact best_runningBest hasymm hweak hnil

end Order

end Proofs

end LibYtdl.RunningBest
