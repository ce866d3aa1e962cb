import Mathlib

/-!
# Objects in memory and the strings they hold

An object is a fixed number of cells. Reading or writing outside of it has no value, so a program
that runs to a value touched nothing but its objects. An object holds a string when the string,
free of zeros, stands at its start and a zero follows.
-/

namespace LibYtdl.Memory

/-- An object of a C program; its size fits a pointer difference. -/
structure Object (α : Type*) where
  cells : List α
  size_lt : cells.length < 2 ^ 63
  deriving DecidableEq

variable {α : Type*}

def Object.size (object : Object α) : ℕ := object.cells.length

def Object.read (object : Object α) (index : ℕ) : Option α := object.cells[index]?

def Object.write (object : Object α) (index : ℕ) (value : α) : Option (Object α) :=
  if index < object.size then
    some ⟨object.cells.set index value, by simpa using object.size_lt⟩
  else
    none

/-- The index of the first zero, when the object contains one. -/
def Object.strlen [Zero α] [DecidableEq α] (object : Object α) : Option ℕ :=
  object.cells.findIdx? (· == 0)

/-- The object holds `text` as a string terminated by zero. -/
def Object.Holds [Zero α] (object : Object α) (text : List α) : Prop :=
  0 ∉ text ∧ ∃ slack, object.cells = text ++ 0 :: slack

@[ext] theorem Object.ext {first second : Object α} (h : first.cells = second.cells) :
    first = second := by
  cases first
  cases second
  cases h
  rfl

theorem Object.read_eq_none {object : Object α} {index : ℕ} :
    object.read index = none ↔ object.size ≤ index :=
  List.getElem?_eq_none_iff

theorem Object.read_of_lt {object : Object α} {index : ℕ} (h : index < object.size) :
    ∃ value, object.read index = some value :=
  ⟨_, List.getElem?_eq_getElem h⟩

theorem Object.write_eq_none {object : Object α} {index : ℕ} {value : α} :
    object.write index value = none ↔ object.size ≤ index := by
  simp [write]

theorem Object.write_eq_some {object next : Object α} {index : ℕ} {value : α} :
    object.write index value = some next ↔
      index < object.size ∧ next.cells = object.cells.set index value := by
  unfold write
  split
  case isTrue h => simp [h, Object.ext_iff, eq_comm]
  case isFalse h => simp [h]

theorem Object.size_of_write {object next : Object α} {index : ℕ} {value : α}
    (h : object.write index value = some next) : next.size = object.size := by
  simp [Object.size, (Object.write_eq_some.mp h).2]

theorem Object.write_of_lt {object : Object α} {index : ℕ} (h : index < object.size) (value : α) :
    ∃ next, object.write index value = some next ∧ next.cells = object.cells.set index value :=
  ⟨_, if_pos h, rfl⟩

/-- Reading the cell that follows `before`. -/
theorem Object.read_of_cells {object : Object α} {before after : List α} {value : α} {index : ℕ}
    (hcells : object.cells = before ++ value :: after) (hindex : index = before.length) :
    object.read index = some value := by
  simp [Object.read, hcells, hindex]

/-- Writing the cell that follows `before`. -/
theorem Object.write_of_cells {object : Object α} {before after : List α} {value : α} {index : ℕ}
    (hcells : object.cells = before ++ value :: after) (hindex : index = before.length)
    (written : α) :
    ∃ next, object.write index written = some next ∧ next.cells = before ++ written :: after := by
  have hlt : index < object.size := by simp [Object.size, hcells, hindex]
  obtain ⟨next, hnext, hset⟩ := Object.write_of_lt hlt written
  exact ⟨next, hnext, by simp [hset, hcells, hindex]⟩

section Strings

variable [Zero α] {object : Object α} {text : List α}

theorem Object.Holds.length_lt (h : object.Holds text) : text.length < object.size := by
  obtain ⟨-, slack, hcells⟩ := h
  simp [Object.size, hcells]

/-- Inside the string, the object reads as the string. -/
theorem Object.Holds.read (h : object.Holds text) {index : ℕ} (hindex : index < text.length) :
    object.read index = some text[index] := by
  obtain ⟨-, slack, hcells⟩ := h
  simp [Object.read, hcells, List.getElem?_append_left hindex]

theorem Object.Holds.read_length (h : object.Holds text) : object.read text.length = some 0 := by
  obtain ⟨-, slack, hcells⟩ := h
  simp [Object.read, hcells]

/-- An object holds at most one string. -/
theorem Object.Holds.unique {other : List α} (h : object.Holds text) (hother : object.Holds other) :
    text = other := by
  obtain ⟨hzero, slack, hcells⟩ := h
  obtain ⟨hzero', slack', hcells'⟩ := hother
  rw [hcells] at hcells'
  clear hcells
  induction text generalizing other with
  | nil =>
    cases other with
    | nil => rfl
    | cons head tail => simp_all
  | cons head tail ih =>
    cases other with
    | nil => simp_all
    | cons head' tail' =>
      obtain ⟨rfl, htail⟩ := List.cons.inj hcells'
      rw [ih (fun hmem ↦ hzero (by simp [hmem])) (fun hmem ↦ hzero' (by simp [hmem])) htail]

theorem Object.Holds.strlen [DecidableEq α] (h : object.Holds text) :
    object.strlen = some text.length := by
  obtain ⟨hzero, slack, hcells⟩ := h
  have htext : text.findIdx? (· == 0) = none := by
    rw [List.findIdx?_eq_none_iff]
    intro value hvalue
    simpa using fun heq : value = 0 ↦ hzero (heq ▸ hvalue)
  simp [Object.strlen, hcells, List.findIdx?_append, List.findIdx?_cons, htext]

/-- An object whose string has a length holds a string. -/
theorem Object.holds_of_strlen [DecidableEq α] {length : ℕ} (h : object.strlen = some length) :
    ∃ text, object.Holds text ∧ text.length = length := by
  obtain ⟨hlt, hzero, hbefore⟩ := List.findIdx?_eq_some_iff_getElem.mp h
  have hlength : (object.cells.take length).length = length := List.length_take_of_le hlt.le
  refine ⟨object.cells.take length, ⟨fun hmem ↦ ?_, object.cells.drop (length + 1), ?_⟩, hlength⟩
  · obtain ⟨index, hindex, hread⟩ := List.getElem_of_mem hmem
    rw [List.getElem_take] at hread
    have hnot := hbefore index (hlength ▸ hindex)
    rw [hread] at hnot
    exact hnot (beq_self_eq_true 0)
  · have hcell : object.cells[length] = 0 := by simpa using hzero
    rw [← hcell, ← List.drop_eq_getElem_cons hlt, List.take_append_drop]

end Strings

end LibYtdl.Memory
