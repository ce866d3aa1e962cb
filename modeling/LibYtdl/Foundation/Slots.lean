import Mathlib

/-!
# Tables that are filled in slot by slot

A table is allocated as a whole, with nothing in its slots. Then one value after the other is
allocated and put into its slot, until all of them are there or an allocation fails: a null pointer
stays behind in its slot, and the slots after it are never written.
-/

namespace LibYtdl.Slots

variable {α : Type*}

/-- What a slot holds: whatever the memory held, a null pointer, or a value. -/
inductive Slot (α : Type*)
  | uninit
  | null
  | full (value : α)
  deriving DecidableEq

/-- Values are put into the slots from an index on. The result tells whether every allocation has
succeeded. -/
def fill (succeeds : ℕ → Bool) : ℕ → List α → List (Slot α) → Bool × List (Slot α)
  | _, [], slots => (true, slots)
  | index, value :: values, slots =>
    if succeeds index then fill succeeds (index + 1) values (slots.set index (.full value))
    else (false, slots.set index .null)

/-- The values in the first slots. A slot without a value cannot be read. -/
def readTable : ℕ → List (Slot α) → Option (List α)
  | 0, _ => some []
  | size + 1, .full value :: slots => (readTable size slots).map (value :: ·)
  | _ + 1, _ => none

/-- The slots with indices below `size` hold values. -/
def Initialised (size : ℕ) (slots : List (Slot α)) : Prop :=
  ∀ index < size, ∃ value, slots[index]? = some (.full value)

theorem readTable_isSome {size : ℕ} {slots : List (Slot α)} :
    (readTable size slots).isSome ↔ Initialised size slots := by
  induction size generalizing slots with
  | zero => exact iff_of_true rfl fun index hindex ↦ absurd hindex (Nat.not_lt_zero index)
  | succ size ih =>
    cases slots with
    | nil =>
      refine iff_of_false Bool.false_ne_true fun h ↦ ?_
      obtain ⟨value, hvalue⟩ := h 0 size.succ_pos
      cases hvalue
    | cons slot slots =>
      cases slot with
      | full value =>
        rw [readTable, Option.isSome_map, ih]
        constructor
        · rintro h (_ | index) hindex
          · exact ⟨value, rfl⟩
          · exact h index (Nat.lt_of_succ_lt_succ hindex)
        · exact fun h index hindex ↦ h (index + 1) (Nat.succ_lt_succ hindex)
      | uninit | null =>
        refine iff_of_false Bool.false_ne_true fun h ↦ ?_
        obtain ⟨value, hvalue⟩ := h 0 size.succ_pos
        cases hvalue

theorem readTable_full (values : List α) :
    readTable values.length (values.map .full) = some values := by
  induction values with
  | nil => rfl
  | cons value values ih => rw [List.map_cons, List.length_cons, readTable, ih, Option.map_some]

/-- When every allocation succeeds, the values take the place of as many slots. -/
theorem fill_of_succeeds {succeeds : ℕ → Bool} {values : List α} (front slots back : List (Slot α))
    (hlength : slots.length = values.length)
    (h : ∀ offset < values.length, succeeds (front.length + offset) = true) :
    fill succeeds front.length values (front ++ slots ++ back) =
      (true, front ++ values.map .full ++ back) := by
  induction values generalizing front slots with
  | nil =>
    obtain rfl := List.length_eq_zero_iff.mp hlength
    rfl
  | cons value values ih =>
    obtain ⟨slot, slots, rfl⟩ := List.exists_cons_of_length_eq_add_one hlength
    have hset : (front ++ slot :: slots ++ back).set front.length (.full value) =
        (front ++ [.full value]) ++ slots ++ back := by
      simp
    have hrest (offset : ℕ) (hoffset : offset < values.length) :
        succeeds ((front ++ [Slot.full value]).length + offset) = true := by
      rw [List.length_append, List.length_singleton, Nat.add_assoc, Nat.add_comm 1 offset]
      exact h (offset + 1) (Nat.succ_lt_succ hoffset)
    have hlast : front.length + 1 = (front ++ [Slot.full value]).length := by simp
    have hfirst : succeeds front.length = true := h 0 (Nat.succ_pos _)
    rw [fill, if_pos hfirst, hset, hlast, ih _ _ (Nat.succ.inj hlength) hrest]
    simp

/-- An allocation that fails leaves a null pointer behind. -/
theorem exists_null {succeeds : ℕ → Bool} {index : ℕ} {values : List α} (slots : List (Slot α))
    (hfits : index + values.length ≤ slots.length)
    (h : ¬ ∀ offset < values.length, succeeds (index + offset) = true) :
    (fill succeeds index values slots).1 = false ∧
      ∃ found < index + values.length,
        (fill succeeds index values slots).2[found]? = some .null := by
  induction values generalizing index slots with
  | nil => exact absurd (fun offset hoffset ↦ absurd hoffset (Nat.not_lt_zero offset)) h
  | cons value values ih =>
    rw [List.length_cons] at hfits h
    rw [fill]
    split
    · next hsucceeds =>
      have hrest : ¬ ∀ offset < values.length, succeeds (index + 1 + offset) = true := by
        intro hall
        refine h fun offset hoffset ↦ ?_
        cases offset with
        | zero => exact hsucceeds
        | succ offset =>
          rw [Nat.add_comm offset 1, ← Nat.add_assoc]
          exact hall offset (Nat.lt_of_succ_lt_succ hoffset)
      have hlength : index + 1 + values.length ≤ (slots.set index (.full value)).length := by
        rw [List.length_set]
        omega
      obtain ⟨hfst, found, hfound, hnull⟩ := ih _ hlength hrest
      exact ⟨hfst, found, by rw [List.length_cons]; omega, hnull⟩
    · refine ⟨rfl, index, by rw [List.length_cons]; omega, ?_⟩
      exact List.getElem?_set_self (by omega)

/-- A table with a null pointer is not initialised. -/
theorem not_initialised_of_null {size index : ℕ} {slots : List (Slot α)} (hindex : index < size)
    (hnull : slots[index]? = some .null) : ¬ Initialised size slots := by
  intro h
  obtain ⟨value, hvalue⟩ := h index hindex
  rw [hnull] at hvalue
  cases Option.some.inj hvalue

theorem not_initialised_nil {size : ℕ} (hsize : 0 < size) :
    ¬ Initialised size ([] : List (Slot α)) := by
  intro h
  obtain ⟨value, hvalue⟩ := h 0 hsize
  cases hvalue

end LibYtdl.Slots
