import LibYtdl.Foundation.Search

/-!
# Pieces between separators

A text is split at each separator, and joined again. Written with a separator before every piece,
the pieces that start with a key are the places where the separator and the key stand.
-/

namespace LibYtdl.Pieces

open Search

variable {α : Type*} {sep : α}

/-- The pieces, with a separator before each. -/
def marked (sep : α) (pieces : List (List α)) : List α := pieces.flatMap fun piece ↦ sep :: piece

@[simp]
theorem marked_nil : marked sep [] = [] := rfl

@[simp]
theorem marked_cons (piece : List α) (pieces : List (List α)) :
    marked sep (piece :: pieces) = sep :: (piece ++ marked sep pieces) := List.flatMap_cons

@[simp]
theorem marked_append (first second : List (List α)) :
    marked sep (first ++ second) = marked sep first ++ marked sep second := List.flatMap_append

/-- Joined pieces, with a separator before the first one as well. -/
theorem marked_eq_cons_intercalate {pieces : List (List α)} (h : pieces ≠ []) :
    marked sep pieces = sep :: [sep].intercalate pieces := by
  induction pieces with
  | nil => exact absurd rfl h
  | cons piece pieces ih =>
    by_cases hnil : pieces = []
    · subst hnil
      simp
    · rw [marked_cons, ih hnil, List.intercalate_cons_of_ne_nil hnil, List.append_assoc,
        List.singleton_append]

/-- A piece in its place among the joined ones. -/
theorem intercalate_append_cons (before : List (List α)) (piece : List α) (after : List (List α)) :
    [sep].intercalate (before ++ piece :: after) =
      (before.flatMap fun piece ↦ piece ++ [sep]) ++ (piece ++ marked sep after) := by
  induction before with
  | nil =>
    have hmarked := @marked_eq_cons_intercalate _ sep _ (List.cons_ne_nil piece after)
    exact (List.cons.inj hmarked).2.symm
  | cons first before ih =>
    rw [List.cons_append, List.intercalate_cons_of_ne_nil (by simp), ih]
    simp

theorem head?_marked {pieces : List (List α)} {ch : α} (h : ch ∈ (marked sep pieces).head?) :
    ch = sep := by
  cases pieces with
  | nil => exact absurd h (by simp)
  | cons piece pieces => simpa [eq_comm] using h

theorem head?_marked_append {pieces : List (List α)} {rest : List α} {ch : α}
    (h : ch ∈ (marked sep pieces ++ rest).head?) : ch = sep ∨ ch ∈ rest.head? := by
  cases pieces with
  | nil => exact .inr h
  | cons piece pieces => exact .inl (by simpa [eq_comm] using h)

/-- Up to the first separator, a text is its first piece. -/
theorem eq_of_append_marked {first second : List α} (hfirst : sep ∉ first) (hsecond : sep ∉ second)
    {back other : List α} (hback : ∀ ch ∈ back.head?, ch = sep)
    (hother : ∀ ch ∈ other.head?, ch = sep) (h : first ++ back = second ++ other) :
    first = second := by
  obtain ⟨gap, rfl, hgap⟩ | ⟨gap, rfl, hgap⟩ := List.append_eq_append_iff.mp h
  · cases gap with
    | nil => simp
    | cons head gap =>
      obtain rfl := hback head (by simp [hgap])
      exact absurd (List.mem_append_right _ List.mem_cons_self) hsecond
  · cases gap with
    | nil => simp
    | cons head gap =>
      obtain rfl := hother head (by simp [hgap])
      exact absurd (List.mem_append_right _ List.mem_cons_self) hfirst

section Search

variable [DecidableEq α]

theorem mem_splitOn {text piece : List α} (h : piece ∈ text.splitOn sep) : sep ∉ piece := by
  induction text generalizing piece with
  | nil =>
    rw [List.splitOn_nil, List.mem_singleton] at h
    exact h ▸ List.not_mem_nil
  | cons head text ih =>
    rw [List.splitOn_cons_eq_if_modifyHead] at h
    by_cases hsep : head = sep
    · rw [if_pos (by simpa using hsep)] at h
      obtain rfl | hmem := List.mem_cons.mp h
      · exact List.not_mem_nil
      · exact ih hmem
    · rw [if_neg (by simpa using hsep)] at h
      obtain ⟨first, pieces, hcons⟩ := List.exists_cons_of_ne_nil (List.splitOn_ne_nil sep text)
      rw [hcons, List.modifyHead_cons] at h
      rw [hcons] at ih
      obtain rfl | hmem := List.mem_cons.mp h
      · exact List.not_mem_cons_of_ne_of_not_mem (Ne.symm hsep) (ih List.mem_cons_self)
      · exact ih (List.mem_cons_of_mem _ hmem)

theorem marked_splitOn (text : List α) : marked sep (text.splitOn sep) = sep :: text := by
  rw [marked_eq_cons_intercalate (List.splitOn_ne_nil sep text), List.intercalate_splitOn]

omit [DecidableEq α] in
/-- A key with a separator before it does not start in a piece that does not start with the key. -/
theorem skips_piece {key piece : List α} (hpiece : sep ∉ piece)
    (hnot : ¬ key <+: piece) {rest : List α} (hrest : ∀ ch ∈ rest.head?, ch ∉ key) :
    Skips (sep :: key) (sep :: piece) rest := by
  refine skips_of_head ?_ hrest
  intro hoccurs
  obtain hstarts | hinside := List.infix_cons_iff.mp hoccurs
  · exact hnot (List.cons_prefix_cons.mp hstarts).2
  · exact hpiece (hinside.subset List.mem_cons_self)

omit [DecidableEq α] in
theorem skips_marked {key : List α} (hkey : sep ∉ key) {pieces : List (List α)}
    (hpieces : ∀ piece ∈ pieces, sep ∉ piece ∧ ¬ key <+: piece) {rest : List α}
    (hrest : ∀ ch ∈ rest.head?, ch ∉ key) : Skips (sep :: key) (marked sep pieces) rest := by
  induction pieces with
  | nil => exact fun suffix hsuffix hne ↦ absurd (List.suffix_nil.mp hsuffix) hne
  | cons piece pieces ih =>
    obtain ⟨hpiece, hnot⟩ := hpieces piece List.mem_cons_self
    have hlater := ih fun other hmem ↦ hpieces other (List.mem_cons_of_mem _ hmem)
    rw [marked_cons, ← List.cons_append]
    refine Skips.append (skips_piece hpiece hnot fun ch hch ↦ ?_) hlater
    obtain hmarked | hlast := head?_marked_append hch
    · exact hmarked ▸ hkey
    · exact hrest ch hlast

/-- The first piece that starts with a key is where the key is found, with a separator before it. -/
theorem findIdx?_pieces {key : List α} (hkey : sep ∉ key) {pieces : List (List α)}
    (hpieces : ∀ piece ∈ pieces, sep ∉ piece) :
    (pieces.findIdx? (key.isPrefixOf ·) = none ∧ indexOf (sep :: key) (marked sep pieces) = none) ∨
      ∃ before value after, pieces = before ++ (key ++ value) :: after ∧
        pieces.findIdx? (key.isPrefixOf ·) = some before.length ∧
        indexOf (sep :: key) (marked sep pieces) = some (marked sep before).length := by
  induction pieces with
  | nil => exact .inl ⟨rfl, indexOf_nil (List.cons_ne_nil _ _)⟩
  | cons piece pieces ih =>
    by_cases hstarts : key <+: piece
    · obtain ⟨value, rfl⟩ := hstarts
      refine .inr ⟨[], value, pieces, rfl, ?_, ?_⟩
      · simp [List.findIdx?_cons]
      · refine indexOf_of_starts ?_
        rw [marked_cons, List.append_assoc]
        exact List.cons_prefix_cons.mpr ⟨rfl, List.prefix_append _ _⟩
    · have hpiece := hpieces piece List.mem_cons_self
      have hfalse : key.isPrefixOf piece = false := by
        rw [← Bool.not_eq_true, List.isPrefixOf_iff_prefix]
        exact hstarts
      have hskips : Skips (sep :: key) (sep :: piece) (marked sep pieces) :=
        skips_piece hpiece hstarts fun ch hch ↦ head?_marked hch ▸ hkey
      have hindex : indexOf (sep :: key) (marked sep (piece :: pieces)) =
          (indexOf (sep :: key) (marked sep pieces)).map (· + (sep :: piece).length) := by
        rw [marked_cons, ← List.cons_append, indexOf_append_of_skips hskips]
      rw [hindex, List.findIdx?_cons, hfalse]
      obtain ⟨hnone, hindexNone⟩ | ⟨before, value, after, rfl, hfind, hindexSome⟩ :=
        ih fun other hmem ↦ hpieces other (List.mem_cons_of_mem _ hmem)
      · exact .inl ⟨by simp [hnone], by simp [hindexNone]⟩
      · refine .inr ⟨piece :: before, value, after, rfl, by simp [hfind], ?_⟩
        rw [hindexSome, Option.map_some, marked_cons, Option.some.injEq]
        simp only [List.length_cons, List.length_append]
        omega

end Search

end LibYtdl.Pieces
