import Mathlib.Data.List.Basic

/-!
# Scanners

A loop over the characters of a text. Its body is given the index, the character and the text behind
it; it changes a state, and says how many of the next characters the loop passes over. A text is
scanned piece by piece.
-/

namespace LibYtdl.Scanner

variable {m : Type → Type} [Monad m] {State Symbol : Type}

/-- The loop from an index on, which passes over `skip` characters first. -/
def scan (step : ℕ → State → Symbol → List Symbol → m (State × ℕ)) :
    ℕ → ℕ → State → List Symbol → m State
  | _, _, state, [] => pure state
  | index, skip + 1, state, _ :: rest => scan step (index + 1) skip state rest
  | index, 0, state, char :: rest => do
    let (state, skip) ← step index state char rest
    scan step (index + 1) skip state rest

variable {step : ℕ → State → Symbol → List Symbol → m (State × ℕ)}

@[simp] theorem scan_nil (index skip : ℕ) (state : State) :
    scan step index skip state [] = pure state := by
  cases skip <;> rfl

@[simp] theorem scan_skip (index skip : ℕ) (state : State) (char : Symbol) (rest : List Symbol) :
    scan step index (skip + 1) state (char :: rest) = scan step (index + 1) skip state rest := rfl

theorem scan_read (index : ℕ) (state : State) (char : Symbol) (rest : List Symbol) :
    scan step index 0 state (char :: rest) =
      step index state char rest >>= fun next ↦ scan step (index + 1) next.2 next.1 rest := rfl

section Lawful

variable [LawfulMonad m]

/-- One character is read. -/
theorem scan_of_step {index skip : ℕ} {state next : State} {char : Symbol} {rest : List Symbol}
    (h : step index state char rest = pure (next, skip)) :
    scan step index 0 state (char :: rest) = scan step (index + 1) skip next rest := by
  rw [scan_read, h, pure_bind]

/-- The body leaves the state as it is when it reads this character. -/
def Quiet (step : ℕ → State → Symbol → List Symbol → m (State × ℕ)) (char : Symbol) : Prop :=
  ∀ index state rest, step index state char rest = pure (state, 0)

theorem scan_quiet {char : Symbol} (h : Quiet step char) (index : ℕ) (state : State)
    (rest : List Symbol) :
    scan step index 0 state (char :: rest) = scan step (index + 1) 0 state rest :=
  scan_of_step (h index state rest)

/-- A quiet piece is passed, also when its first character is not read. -/
theorem scan_quiet_append {piece : List Symbol} (h : ∀ char ∈ piece, Quiet step char) {skip : ℕ}
    (hskip : skip ≤ piece.length) (index : ℕ) (state : State) (rest : List Symbol) :
    scan step index skip state (piece ++ rest) =
      scan step (index + piece.length) 0 state rest := by
  induction piece generalizing index skip with
  | nil =>
    obtain rfl : skip = 0 := Nat.le_zero.mp hskip
    rfl
  | cons char piece ih =>
    have hpiece : ∀ other ∈ piece, Quiet step other :=
      fun other hother ↦ h other (List.mem_cons_of_mem char hother)
    have hindex : index + (char :: piece).length = index + 1 + piece.length := by
      rw [List.length_cons]
      omega
    rw [hindex, List.cons_append]
    cases skip with
    | zero =>
      rw [scan_quiet (h char List.mem_cons_self)]
      exact ih hpiece (Nat.zero_le _) _
    | succ skip =>
      rw [scan_skip]
      exact ih hpiece (Nat.le_of_succ_le_succ hskip) _

end Lawful

end LibYtdl.Scanner
