import Mathlib

/-!
# Query strings

A query is a list of pieces joined by `&`. A piece names a parameter up to its first `=`, and what
stands behind that is the value.
-/

namespace LibYtdl.Query

/-- A parameter: its name and its value, as they stand in the query. -/
abbrev Param := List UInt8 × List UInt8

def render (param : Param) : List UInt8 := param.1 ++ 61 :: param.2

/-- The name and the value of a piece; without a `=` the value is empty. -/
def ofPiece (piece : List UInt8) : Param :=
  (piece.takeWhile (· ≠ 61), (piece.dropWhile (· ≠ 61)).drop 1)

/-- Pieces joined by `&`. -/
def join (pieces : List (List UInt8)) : List UInt8 := List.intercalate [38] pieces

theorem ofPiece_render {param : Param} (h : 61 ∉ param.1) : ofPiece (render param) = param := by
  have hname (ch : UInt8) (hch : ch ∈ param.1) : decide (ch ≠ 61) = true :=
    decide_eq_true fun heq ↦ h (heq ▸ hch)
  unfold ofPiece render
  rw [List.takeWhile_append_of_pos hname, List.dropWhile_append_of_pos hname]
  simp

@[simp]
theorem join_nil : join [] = [] := rfl

@[simp]
theorem join_singleton (piece : List UInt8) : join [piece] = piece := List.intercalate_singleton

theorem join_cons_of_ne_nil {pieces : List (List UInt8)} (h : pieces ≠ []) (piece : List UInt8) :
    join (piece :: pieces) = piece ++ 38 :: join pieces := by
  rw [join, List.intercalate_cons_of_ne_nil h, List.append_assoc, List.singleton_append]
  rfl

/-- A piece stands in the query it is joined into. -/
theorem infix_join_of_mem {pieces : List (List UInt8)} {piece : List UInt8} (h : piece ∈ pieces) :
    piece <:+: join pieces := by
  induction pieces with
  | nil => exact absurd h List.not_mem_nil
  | cons first pieces ih =>
    by_cases hnil : pieces = []
    · subst hnil
      obtain rfl := List.mem_singleton.mp h
      rw [join_singleton]
    · rw [join_cons_of_ne_nil hnil]
      obtain rfl | hmem := List.mem_cons.mp h
      · exact (List.prefix_append _ _).isInfix
      · have hlater := (ih hmem).trans (List.suffix_cons 38 (join pieces)).isInfix
        exact hlater.trans (List.suffix_append first _).isInfix

end LibYtdl.Query
