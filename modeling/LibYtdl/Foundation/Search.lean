import LibYtdl.Foundation.Memory

/-!
# Searches in strings

The first occurrence of a needle in a text, as `strstr` looks for it in the string that starts
inside an object. A text is searched piece by piece: where the needle starts in no place of a piece,
the search goes on behind the piece.
-/

namespace LibYtdl.Search

open Memory

/-- The characters of a string literal. -/
def ascii (text : String) : List UInt8 := text.toList.map fun char ↦ UInt8.ofNat char.toNat

section Text

variable {α : Type*} [DecidableEq α]

/-- The index of the first occurrence. -/
def indexOf (needle : List α) : List α → Option ℕ
  | [] => if needle = [] then some 0 else none
  | head :: tail =>
    if needle <+: head :: tail then some 0 else (indexOf needle tail).map (· + 1)

/-- The needle starts in no place of the piece, when `rest` follows it. -/
def Skips (needle piece rest : List α) : Prop :=
  ∀ suffix, suffix <:+ piece → suffix ≠ [] → ¬ needle <+: suffix ++ rest

omit [DecidableEq α] in
theorem Skips.append {needle first second rest : List α}
    (hfirst : Skips needle first (second ++ rest)) (hsecond : Skips needle second rest) :
    Skips needle (first ++ second) rest := by
  rintro suffix ⟨front, hfront⟩ hne
  obtain ⟨gap, hgap, rfl⟩ | ⟨gap, -, hgap⟩ := List.append_eq_append_iff.mp hfront
  · by_cases hnil : gap = []
    · subst hnil
      exact hsecond second (List.suffix_refl _) hne
    · rw [List.append_assoc]
      exact hfirst gap ⟨front, hgap.symm⟩ hnil
  · exact hsecond suffix ⟨gap, hgap.symm⟩ hne

theorem indexOf_nil {needle : List α} (h : needle ≠ []) : indexOf needle [] = none := if_neg h

theorem indexOf_cons_of_not_starts {needle : List α} {head : α} {tail : List α}
    (h : ¬ needle <+: head :: tail) :
    indexOf needle (head :: tail) = (indexOf needle tail).map (· + 1) := if_neg h

theorem indexOf_of_starts {needle text : List α} (h : needle <+: text) :
    indexOf needle text = some 0 := by
  cases text with
  | nil => exact if_pos (List.prefix_nil.mp h)
  | cons head tail => exact if_pos h

/-- The needle stands where it was found. -/
theorem prefix_of_indexOf {needle text : List α} {index : ℕ}
    (h : indexOf needle text = some index) :
    needle <+: text.drop index := by
  induction text generalizing index with
  | nil =>
    by_cases hnil : needle = []
    · subst hnil
      exact List.nil_prefix
    · rw [indexOf_nil hnil] at h
      cases h
  | cons head tail ih =>
    by_cases hstarts : needle <+: head :: tail
    · rw [indexOf_of_starts hstarts, Option.some.injEq] at h
      subst h
      exact hstarts
    · rw [indexOf_cons_of_not_starts hstarts] at h
      obtain ⟨later, hlater, rfl⟩ := Option.map_eq_some_iff.mp h
      exact ih hlater

/-- A needle that was found ends inside the text. -/
theorem indexOf_add_length_le {needle text : List α} {index : ℕ}
    (h : indexOf needle text = some index) (hne : needle ≠ []) :
    index + needle.length ≤ text.length := by
  have hlength := (prefix_of_indexOf h).length_le
  have hpositive := List.length_pos_iff.mpr hne
  rw [List.length_drop] at hlength
  omega

/-- A needle that occurs is found where it first does. -/
theorem exists_indexOf_of_prefix {needle text : List α} {index : ℕ}
    (h : needle <+: text.drop index) (hle : index ≤ text.length) :
    ∃ first ≤ index, indexOf needle text = some first := by
  induction text generalizing index with
  | nil =>
    rw [List.drop_nil] at h
    exact ⟨0, Nat.zero_le _, indexOf_of_starts h⟩
  | cons head tail ih =>
    by_cases hstarts : needle <+: head :: tail
    · exact ⟨0, Nat.zero_le _, indexOf_of_starts hstarts⟩
    · cases index with
      | zero => exact absurd h hstarts
      | succ index =>
        obtain ⟨first, hfirst, hindex⟩ := ih h (by simpa using hle)
        refine ⟨first + 1, Nat.succ_le_succ hfirst, ?_⟩
        rw [indexOf_cons_of_not_starts hstarts, hindex]
        rfl

/-- An occurrence anywhere is found. -/
theorem exists_indexOf_of_infix {needle text : List α} (h : needle <:+: text) :
    ∃ index, indexOf needle text = some index := by
  obtain ⟨front, back, rfl⟩ := h
  have hdrop : needle <+: (front ++ needle ++ back).drop front.length := by
    rw [List.append_assoc, List.drop_left]
    exact List.prefix_append _ _
  obtain ⟨index, -, hindex⟩ := exists_indexOf_of_prefix hdrop (by simp)
  exact ⟨index, hindex⟩

theorem indexOf_eq_none_iff {needle text : List α} :
    indexOf needle text = none ↔ ¬ needle <:+: text := by
  constructor
  · intro hnone h
    obtain ⟨index, hindex⟩ := exists_indexOf_of_infix h
    rw [hnone] at hindex
    cases hindex
  · intro h
    cases hindex : indexOf needle text with
    | none => rfl
    | some index =>
      exact absurd ((prefix_of_indexOf hindex).isInfix.trans (List.drop_suffix _ _).isInfix) h

/-- What is found in a text is found in every longer one. -/
theorem indexOf_of_prefix {needle text longer : List α} {index : ℕ} (hbegins : text <+: longer)
    (h : indexOf needle text = some index) : indexOf needle longer = some index := by
  induction text generalizing longer index with
  | nil =>
    by_cases hnil : needle = []
    · subst hnil
      obtain rfl : 0 = index := Option.some.inj h
      exact indexOf_of_starts List.nil_prefix
    · rw [indexOf_nil hnil] at h
      cases h
  | cons head tail ih =>
    cases longer with
    | nil => exact absurd (List.prefix_nil.mp hbegins) (List.cons_ne_nil _ _)
    | cons head' longer =>
      obtain ⟨rfl, htail⟩ := List.cons_prefix_cons.mp hbegins
      by_cases hstarts : needle <+: head :: tail
      · rw [indexOf_of_starts hstarts, Option.some.injEq] at h
        subst h
        exact indexOf_of_starts (hstarts.trans hbegins)
      · rw [indexOf_cons_of_not_starts hstarts] at h
        obtain ⟨later, hlater, rfl⟩ := Option.map_eq_some_iff.mp h
        have hne : needle ≠ [] := fun hnil ↦ hstarts (hnil ▸ List.nil_prefix)
        have hroom := indexOf_add_length_le hlater hne
        -- an occurrence at the start would end in the shorter text
        have hnot : ¬ needle <+: head :: longer := fun hearly ↦
          hstarts (List.prefix_of_prefix_length_le hearly hbegins
            (by simp only [List.length_cons]; omega))
        rw [indexOf_cons_of_not_starts hnot, ih htail hlater, Option.map_some]

/-- There is no room for the needle. -/
theorem indexOf_of_length_lt {needle text : List α} (h : text.length < needle.length) :
    indexOf needle text = none := by
  cases hindex : indexOf needle text with
  | none => rfl
  | some index =>
    have hne : needle ≠ [] := List.length_pos_iff.mp (by omega)
    have hle := indexOf_add_length_le hindex hne
    omega

/-- A piece in which the needle does not start is skipped. -/
theorem indexOf_append_of_skips {needle piece rest : List α} (h : Skips needle piece rest) :
    indexOf needle (piece ++ rest) = (indexOf needle rest).map (· + piece.length) := by
  induction piece with
  | nil => simp
  | cons head piece ih =>
    have hrest : Skips needle piece rest := fun suffix hsuffix ↦
      h suffix (hsuffix.trans (List.suffix_cons head piece))
    have hhead : ¬ needle <+: head :: (piece ++ rest) :=
      h (head :: piece) (List.suffix_refl _) (List.cons_ne_nil _ _)
    calc
      indexOf needle (head :: (piece ++ rest)) =
          (indexOf needle (piece ++ rest)).map (· + 1) := if_neg hhead
      _ = ((indexOf needle rest).map (· + piece.length)).map (· + 1) := by rw [ih hrest]
      _ = (indexOf needle rest).map (· + (piece.length + 1)) := by
        rw [Option.map_map]
        rfl

omit [DecidableEq α] in
/-- A needle does not start in a piece that it does not occur in, if the last character of the piece
stands nowhere in the needle but at its end. -/
theorem skips_of_getLast {needle piece : List α} (h : ¬ needle <:+: piece)
    (hlast : ∀ ch ∈ piece.getLast?, ch ∉ needle.dropLast) (rest : List α) :
    Skips needle piece rest := by
  intro suffix hsuffix hne hstarts
  by_cases hroom : needle.length ≤ suffix.length
  · have hbegins : needle <+: suffix :=
      List.prefix_of_prefix_length_le hstarts (List.prefix_append _ _) hroom
    exact h (hbegins.isInfix.trans hsuffix.isInfix)
  · have hbegins : suffix <+: needle :=
      List.prefix_of_prefix_length_le (List.prefix_append _ _) hstarts (by omega)
    have hinside : suffix <+: needle.dropLast := by
      rw [List.dropLast_eq_take]
      exact List.prefix_take_iff.mpr ⟨hbegins, by omega⟩
    obtain ⟨front, hfront⟩ := hsuffix
    refine hlast (suffix.getLast hne) ?_ (hinside.subset (List.getLast_mem hne))
    rw [← hfront, List.getLast?_append_of_ne_nil _ hne, List.getLast?_eq_getLast_of_ne_nil hne]
    rfl

omit [DecidableEq α] in
/-- Nor if what follows the piece starts with a character that stands nowhere in the needle but at
its start. -/
theorem skips_of_head {needle piece rest : List α} (h : ¬ needle <:+: piece)
    (hhead : ∀ ch ∈ rest.head?, ch ∉ needle.tail) : Skips needle piece rest := by
  intro suffix hsuffix hne hstarts
  by_cases hroom : needle.length ≤ suffix.length
  · have hbegins : needle <+: suffix :=
      List.prefix_of_prefix_length_le hstarts (List.prefix_append _ _) hroom
    exact h (hbegins.isInfix.trans hsuffix.isInfix)
  · obtain ⟨gap, rfl⟩ : suffix <+: needle :=
      List.prefix_of_prefix_length_le (List.prefix_append _ _) hstarts (by omega)
    have hgap : gap <+: rest := (List.prefix_append_right_inj suffix).mp hstarts
    cases gap with
    | nil => exact hroom (by simp)
    | cons ch gap =>
      obtain ⟨back, rfl⟩ := hgap
      refine hhead ch rfl ?_
      rw [List.tail_append_of_ne_nil hne]
      exact List.mem_append_right _ List.mem_cons_self

/-- A needle that is found behind a piece starts in no place of the piece. -/
theorem skips_of_indexOf {needle piece rest : List α}
    (h : indexOf needle (piece ++ rest) = some piece.length) : Skips needle piece rest := by
  rintro suffix ⟨front, rfl⟩ hne hstarts
  have hdrop : needle <+: (front ++ suffix ++ rest).drop front.length := by
    rw [List.append_assoc, List.drop_left]
    exact hstarts
  obtain ⟨first, hle, hfirst⟩ := exists_indexOf_of_prefix hdrop (by simp)
  rw [h, Option.some.injEq, List.length_append] at hfirst
  have hpositive := List.length_pos_iff.mpr hne
  omega

/-- A needle found behind a piece that it does not start in. -/
theorem indexOf_of_skips {needle piece rest : List α} (h : Skips needle piece (needle ++ rest)) :
    indexOf needle (piece ++ (needle ++ rest)) = some piece.length := by
  rw [indexOf_append_of_skips h, indexOf_of_starts (List.prefix_append _ _), Option.map_some,
    Nat.zero_add]

omit [DecidableEq α] in
theorem skips_singleton {char : α} {piece : List α} (h : char ∉ piece) (rest : List α) :
    Skips [char] piece rest := by
  intro suffix hsuffix hne hstarts
  cases suffix with
  | nil => exact hne rfl
  | cons head suffix =>
    obtain ⟨rfl, -⟩ := List.cons_prefix_cons.mp hstarts
    exact h (hsuffix.subset List.mem_cons_self)

theorem indexOf_singleton_of_mem {char : α} {piece : List α} (h : char ∉ piece) (rest : List α) :
    indexOf [char] (piece ++ char :: rest) = some piece.length :=
  indexOf_of_skips (skips_singleton h ([char] ++ rest))

theorem indexOf_singleton_of_not_mem {char : α} {text : List α} (h : char ∉ text) :
    indexOf [char] text = none := by
  have hskip := indexOf_append_of_skips (skips_singleton h [])
  rw [List.append_nil] at hskip
  rw [hskip]
  rfl

end Text

section Objects

variable {α : Type*} [Zero α] [DecidableEq α]

/-- The string that starts at an index of the object, when a zero ends it. -/
def cstr (object : Object α) (start : ℕ) : Option (List α) :=
  let cells := object.cells.drop start
  if 0 ∈ cells then some (cells.takeWhile (· ≠ 0)) else none

/-- `strstr`: the index of the needle in the object, if it occurs in the string from `start` on. -/
def strstr (object : Object α) (start : ℕ) (needle : List α) : Option (Option ℕ) :=
  (cstr object start).map fun text ↦ (indexOf needle text).map (start + ·)

/-- The string between what stands before it and its terminator. -/
theorem cstr_of_cells {object : Object α} {before text after : List α} {start : ℕ}
    (hcells : object.cells = before ++ text ++ 0 :: after) (hstart : start = before.length)
    (htext : 0 ∉ text) : cstr object start = some text := by
  have hdrop : object.cells.drop start = text ++ 0 :: after := by
    rw [hcells, hstart, List.append_assoc, List.drop_left]
  have htake : (text ++ 0 :: after).takeWhile (· ≠ 0) = text := by
    rw [List.takeWhile_append_of_pos, List.takeWhile_cons_of_neg (by simp), List.append_nil]
    intro char hchar
    exact decide_eq_true fun hzero ↦ htext (hzero ▸ hchar)
  unfold cstr
  simp only [hdrop, htake]
  exact if_pos (by simp)

theorem prefix_of_cstr {object : Object α} {text : List α} {start : ℕ}
    (h : cstr object start = some text) : text <+: object.cells.drop start := by
  unfold cstr at h
  dsimp only at h
  split at h
  · rw [← Option.some.inj h]
    exact List.takeWhile_prefix _
  · cases h

theorem cstr_of_holds {object : Object α} {text : List α} (h : object.Holds text) :
    cstr object 0 = some text := by
  obtain ⟨hzero, slack, hcells⟩ := h
  have hsplit : object.cells = [] ++ text ++ 0 :: slack := hcells
  have hstart : 0 = ([] : List α).length := rfl
  exact cstr_of_cells hsplit hstart hzero

end Objects

end LibYtdl.Search
