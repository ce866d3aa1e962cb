import Mathlib.Data.List.Basic
import Mathlib.Logic.Function.Iterate

/-!
# Cursors

A cursor is asked for one item after the other until it gives none. What it gives in all is a list,
which may be read off its state by an abstraction function. Cursors that are parts of one state may
be asked in any order.
-/

namespace LibYtdl.Cursor

variable {State Item : Type}

/-- From this state on the cursor gives these items, one for each call, and then none. -/
inductive Yields (next : State → Option Item × State) : State → List Item → Prop
  | done {state last : State} (h : next state = (none, last)) : Yields next state []
  | item {state rest : State} {item : Item} {items : List Item}
      (h : next state = (some item, rest)) (hrest : Yields next rest items) :
      Yields next state (item :: items)

variable {next : State → Option Item × State} {state : State} {item : Item} {items : List Item}

theorem Yields.none (h : Yields next state []) : ∃ last, next state = (none, last) := by
  cases h with
  | done h => exact ⟨_, h⟩

theorem Yields.some (h : Yields next state (item :: items)) :
    ∃ rest, next state = (some item, rest) ∧ Yields next rest items := by
  cases h with
  | item h hrest => exact ⟨_, h, hrest⟩

/-- A cursor gives what an abstraction function reads off its states, if each call takes the first
of these items away. -/
theorem yields_of_pending {Valid : State → Prop} {pending : State → List Item}
    (hdone : ∀ state, Valid state → pending state = [] → ∃ last, next state = (Option.none, last))
    (hitem : ∀ state item items, Valid state → pending state = item :: items →
      ∃ rest, next state = (Option.some item, rest) ∧ Valid rest ∧ pending rest = items)
    (hvalid : Valid state) : Yields next state (pending state) := by
  generalize hpending : pending state = items
  induction items generalizing state with
  | nil =>
    obtain ⟨last, hlast⟩ := hdone state hvalid hpending
    exact .done hlast
  | cons item items ih =>
    obtain ⟨rest, hrest, hvalid, hitems⟩ := hitem state item items hvalid hpending
    exact .item hrest (ih hvalid hitems)

/-! ## A number of calls -/

/-- The state after this many calls. -/
def after (next : State → Option Item × State) (calls : ℕ) (state : State) : State :=
  (fun state ↦ (next state).2)^[calls] state

/-- What this many calls give. -/
def answers (next : State → Option Item × State) : ℕ → State → List (Option Item)
  | 0, _ => []
  | calls + 1, state => (next state).1 :: answers next calls (next state).2

/-- The items in front of the first answer that is none. -/
def upToNone : List (Option Item) → List Item
  | some item :: answers => item :: upToNone answers
  | _ => []

theorem after_succ (next : State → Option Item × State) (calls : ℕ) (state : State) :
    after next (calls + 1) state = after next calls (next state).2 := rfl

theorem after_add (next : State → Option Item × State) (calls more : ℕ) (state : State) :
    after next (calls + more) state = after next more (after next calls state) := by
  rw [after, Nat.add_comm, Function.iterate_add_apply]
  rfl

/-- A property that every call preserves is preserved by any number of them. -/
theorem after_invariant {motive : State → Prop}
    (hstep : ∀ state, motive state → motive (next state).2) (hstate : motive state) (calls : ℕ) :
    motive (after next calls state) := by
  induction calls generalizing state with
  | zero => exact hstate
  | succ calls ih =>
    rw [after_succ]
    exact ih (hstep state hstate)

/-- The calls give the items in order. -/
theorem Yields.upToNone_answers (h : Yields next state items) (calls : ℕ) :
    upToNone (answers next calls state) = items.take calls := by
  induction h generalizing calls with
  | done h =>
    cases calls with
    | zero => rfl
    | succ calls => simp [answers, h, upToNone]
  | item h hrest ih =>
    cases calls with
    | zero => rfl
    | succ calls => simp [answers, h, upToNone, ih]

/-- The first call after the items gives none. -/
theorem Yields.none_mem_answers (h : Yields next state items) (calls : ℕ) :
    Option.none ∈ answers next calls state ↔ items.length < calls := by
  induction h generalizing calls with
  | done h =>
    cases calls with
    | zero => simp [answers]
    | succ calls => simp [answers, h]
  | item h hrest ih =>
    cases calls with
    | zero => simp [answers]
    | succ calls => simp [answers, h, ih]

/-- After its items, a cursor gives none. -/
theorem Yields.after_length (h : Yields next state items) :
    (next (after next items.length state)).1 = Option.none := by
  induction h with
  | done h => exact congrArg Prod.fst h
  | item h hrest ih =>
    rw [List.length_cons, after_succ, h]
    exact ih

/-! ## Several cursors in one state -/

section Interleaving

variable {Index Part : Type} {call : Index → State → Option Item × State}
  {part : Index → State → Part} {next : Part → Option Item × Part}

/-- Each call asks the cursor of its index, and leaves the others as they are. -/
structure Separate (call : Index → State → Option Item × State) (part : Index → State → Part)
    (next : Part → Option Item × Part) : Prop where
  own : ∀ index state, (call index state).1 = (next (part index state)).1 ∧
    part index (call index state).2 = (next (part index state)).2
  other : ∀ index other state, other ≠ index → part other (call index state).2 = part other state

/-- The state after calls in this order. -/
def afterCalls (call : Index → State → Option Item × State) (calls : List Index) (state : State) :
    State :=
  calls.foldl (fun state index ↦ (call index state).2) state

/-- What the calls give, each with its index. -/
def callAnswers (call : Index → State → Option Item × State) :
    List Index → State → List (Index × Option Item)
  | [], _ => []
  | index :: calls, state =>
    (index, (call index state).1) :: callAnswers call calls (call index state).2

variable [DecidableEq Index]

/-- The answers to the calls of one index. -/
def answersOf (index : Index) (answers : List (Index × Option Item)) : List (Option Item) :=
  (answers.filter (·.1 = index)).map Prod.snd

/-- Whatever the other calls are, each part goes on with its own ones only. -/
theorem Separate.part_afterCalls (h : Separate call part next) (index : Index)
    (calls : List Index) (state : State) :
    part index (afterCalls call calls state) =
      after next (calls.count index) (part index state) := by
  induction calls generalizing state with
  | nil => rfl
  | cons called calls ih =>
    rw [afterCalls, List.foldl_cons, ← afterCalls, ih]
    by_cases hcalled : called = index
    · subst hcalled
      rw [List.count_cons_self, after_succ, (h.own called state).2]
    · rw [List.count_cons_of_ne hcalled, h.other called index state (Ne.symm hcalled)]

/-- Whatever the other calls are, the answers are those of the part. -/
theorem Separate.answersOf_callAnswers (h : Separate call part next) (index : Index)
    (calls : List Index) (state : State) :
    answersOf index (callAnswers call calls state) =
      answers next (calls.count index) (part index state) := by
  induction calls generalizing state with
  | nil => rfl
  | cons called calls ih =>
    rw [callAnswers, answersOf]
    by_cases hcalled : called = index
    · subst hcalled
      rw [List.filter_cons_of_pos (by simp), List.map_cons, ← answersOf, ih, List.count_cons_self,
        answers, (h.own called state).1, (h.own called state).2]
    · rw [List.filter_cons_of_neg (by simpa using hcalled), ← answersOf, ih,
        List.count_cons_of_ne hcalled, h.other called index state (Ne.symm hcalled)]

end Interleaving

end LibYtdl.Cursor
