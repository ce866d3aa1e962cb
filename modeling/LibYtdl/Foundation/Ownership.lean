import Mathlib

/-!
# Ownership of released objects

A program that owns objects through named slots creates, uses, releases and forgets what its slots
hold. A slot that was not cleared after a release still names the released object. The log of the
operations says what happened to each object; a program is disciplined when no object is touched
after its release. What a slot holds is all that decides whether the next command is disciplined.
-/

namespace LibYtdl.Ownership

/-- One operation on an object. -/
inductive Operation
  | create (object : ℕ)
  | use (object : ℕ)
  | release (object : ℕ)
  deriving DecidableEq, Repr

/-- The object that has to be live for the operation. -/
def Operation.touched : Operation → Option ℕ
  | .create _ => none
  | .use object => some object
  | .release object => some object

/-- No object is touched after its release, be it by a use or by a second release. -/
def Disciplined (operations : List Operation) : Prop :=
  operations.Pairwise fun earlier later ↦ ∀ object ∈ later.touched, earlier ≠ .release object

theorem Disciplined.nil : Disciplined [] := List.Pairwise.nil

theorem disciplined_concat {operations : List Operation} {last : Operation} :
    Disciplined (operations ++ [last]) ↔
      Disciplined operations ∧ ∀ object ∈ last.touched, .release object ∉ operations := by
  unfold Disciplined
  rw [List.pairwise_append]
  constructor
  · rintro ⟨hdisciplined, -, hlast⟩
    refine ⟨hdisciplined, fun object hobject hreleased ↦ ?_⟩
    exact hlast _ hreleased last (List.mem_singleton_self last) object hobject rfl
  · rintro ⟨hdisciplined, hlast⟩
    refine ⟨hdisciplined, List.pairwise_singleton _ _, fun earlier hearlier later hlater ↦ ?_⟩
    rw [List.mem_singleton] at hlater
    rintro object hobject rfl
    exact hlast object (hlater ▸ hobject) hearlier

instance (operations : List Operation) : Decidable (Disciplined operations) :=
  inferInstanceAs (Decidable (List.Pairwise _ operations))

/-- In a disciplined log every object is released at most once. -/
theorem Disciplined.count_release_le {operations : List Operation} (h : Disciplined operations)
    (object : ℕ) : operations.count (.release object) ≤ 1 := by
  induction operations using List.reverseRecOn with
  | nil => exact Nat.zero_le 1
  | append_singleton operations last ih =>
    obtain ⟨hdisciplined, hlast⟩ := Iff.mp disciplined_concat h
    rw [List.count_append, List.count_singleton]
    by_cases hrelease : last = .release object
    · have hnone : operations.count (.release object) = 0 := by
        apply List.count_eq_zero_of_not_mem
        exact hlast object (hrelease ▸ rfl)
      simp [hnone, hrelease]
    · simpa [hrelease] using ih hdisciplined

/-- The two ways in which a log fails to be disciplined. -/
theorem disciplined_iff {operations : List Operation} :
    Disciplined operations ↔
      (∀ object, operations.count (.release object) ≤ 1) ∧
        ∀ before object after, operations = before ++ .release object :: after →
          .use object ∉ after := by
  constructor
  · intro h
    refine ⟨h.count_release_le, ?_⟩
    rintro before object after rfl hmem
    obtain ⟨-, hafter, -⟩ := List.pairwise_append.mp h
    exact (List.pairwise_cons.mp hafter).1 _ hmem object rfl rfl
  · rintro ⟨honce, hunused⟩
    induction operations using List.reverseRecOn with
    | nil => exact .nil
    | append_singleton operations last ih =>
      refine Iff.mpr disciplined_concat ⟨ih (fun object ↦ ?_) ?_,
        fun object htouched hreleased ↦ ?_⟩
      · exact ((List.sublist_append_left _ _).count_le _).trans (honce object)
      · rintro before object after rfl hmem
        exact hunused before object (after ++ [last]) (by simp) (List.mem_append_left _ hmem)
      · cases last with
        | create other => exact absurd htouched nofun
        | use other =>
          obtain rfl : object = other := (Option.mem_some_iff.mp htouched).symm
          obtain ⟨before, after, rfl⟩ := List.append_of_mem hreleased
          exact hunused before object (after ++ [.use object]) (by simp) List.mem_concat_self
        | release other =>
          obtain rfl : object = other := (Option.mem_some_iff.mp htouched).symm
          have hpositive : 0 < operations.count (.release object) :=
            List.count_pos_iff.mpr hreleased
          have htwice := honce object
          rw [List.count_append, List.count_singleton_self] at htwice
          omega

/-! ## Slots -/

/-- What a program may do with what one of its slots holds. -/
inductive Command (Slot : Type)
  | create (slot : Slot)
  | use (slot : Slot)
  | release (slot : Slot)
  | clear (slot : Slot)

/-- The slots of a program, the number of objects it has created, and the log of its operations. No
two slots hold one object, and objects are numbered in the order of their creation. -/
structure Ledger (Slot : Type) where
  slot : Slot → Option ℕ
  created : ℕ
  operations : List Operation
  injective : ∀ one other object, slot one = some object → slot other = some object → one = other
  slot_lt : ∀ name object, slot name = some object → object < created
  released_lt : ∀ object, .release object ∈ operations → object < created

/-- What a slot holds: nothing, a live object, or one that was released. -/
inductive Held
  | none
  | live
  | released
  deriving DecidableEq, Repr

/-- A slot whose object is released. -/
def Held.release : Held → Held
  | .none => .none
  | .live => .released
  | .released => .released

@[simp] theorem Held.release_none : Held.none.release = .none := rfl

@[simp] theorem Held.release_live : Held.live.release = .released := rfl

@[simp] theorem Held.release_released : Held.released.release = .released := rfl

theorem Held.release_of_ne {held : Held} (h : held ≠ .none) : held.release = .released := by
  cases held with
  | none => exact absurd rfl h
  | live => rfl
  | released => rfl

variable {Slot : Type}

namespace Ledger

/-- A program that has done nothing. -/
def empty : Ledger Slot where
  slot _ := none
  created := 0
  operations := []
  injective := nofun
  slot_lt := nofun
  released_lt := nofun

/-- A new object goes into the slot. -/
def create [DecidableEq Slot] (ledger : Ledger Slot) (name : Slot) : Ledger Slot where
  slot := Function.update ledger.slot name (some ledger.created)
  created := ledger.created + 1
  operations := ledger.operations ++ [.create ledger.created]
  injective one other object hone hother := by
    have hfresh (name : Slot) : ledger.slot name ≠ some ledger.created := fun h ↦
      (ledger.slot_lt name _ h).ne rfl
    by_cases h1 : one = name <;> by_cases h2 : other = name <;>
      simp only [h1, h2, Function.update_self, Function.update_of_ne, ne_eq,
        not_false_eq_true] at hone hother ⊢
    · exact absurd (hother.trans hone.symm) (hfresh other)
    · exact absurd (hone.trans hother.symm) (hfresh one)
    · exact ledger.injective one other object hone hother
  slot_lt other object h := by
    by_cases hname : other = name
    · rw [hname, Function.update_self, Option.some.injEq] at h
      omega
    · rw [Function.update_of_ne hname] at h
      exact (ledger.slot_lt other object h).trans (Nat.lt_succ_self _)
  released_lt object h := by
    have hold : .release object ∈ ledger.operations := by simpa using h
    exact (ledger.released_lt object hold).trans (Nat.lt_succ_self _)

/-- What the slot holds is used. -/
def use (ledger : Ledger Slot) (name : Slot) : Ledger Slot where
  slot := ledger.slot
  created := ledger.created
  operations := ledger.operations ++ (ledger.slot name).toList.map .use
  injective := ledger.injective
  slot_lt := ledger.slot_lt
  released_lt object h := ledger.released_lt object (by simpa using h)

/-- What the slot holds is released, and the slot keeps naming it. -/
def release (ledger : Ledger Slot) (name : Slot) : Ledger Slot where
  slot := ledger.slot
  created := ledger.created
  operations := ledger.operations ++ (ledger.slot name).toList.map .release
  injective := ledger.injective
  slot_lt := ledger.slot_lt
  released_lt object h := by
    simp only [List.mem_append, List.mem_map, Option.mem_toList, Operation.release.injEq,
      exists_eq_right] at h
    exact h.elim (ledger.released_lt object) (ledger.slot_lt name object)

/-- The slot is set to nothing. -/
def clear [DecidableEq Slot] (ledger : Ledger Slot) (name : Slot) : Ledger Slot where
  slot := Function.update ledger.slot name none
  created := ledger.created
  operations := ledger.operations
  injective one other object hone hother := by
    have hkept (other : Slot) (h : Function.update ledger.slot name none other = some object) :
        ledger.slot other = some object := by
      rw [Function.update_apply] at h
      split at h
      · exact absurd h nofun
      · exact h
    exact ledger.injective one other object (hkept one hone) (hkept other hother)
  slot_lt other object h := by
    rw [Function.update_apply] at h
    split at h
    · exact absurd h nofun
    · exact ledger.slot_lt other object h
  released_lt := ledger.released_lt

def exec [DecidableEq Slot] (ledger : Ledger Slot) : Command Slot → Ledger Slot
  | .create name => ledger.create name
  | .use name => ledger.use name
  | .release name => ledger.release name
  | .clear name => ledger.clear name

/-- What the slots hold, as far as the program can be judged by it. -/
def held (ledger : Ledger Slot) (name : Slot) : Held :=
  match ledger.slot name with
  | none => .none
  | some object => if .release object ∈ ledger.operations then .released else .live

theorem held_of_none {ledger : Ledger Slot} {name : Slot} (h : ledger.slot name = none) :
    ledger.held name = .none := by
  simp only [held, h]

theorem held_of_some {ledger : Ledger Slot} {name : Slot} {object : ℕ}
    (h : ledger.slot name = some object) :
    ledger.held name = if .release object ∈ ledger.operations then .released else .live := by
  simp only [held, h]

theorem held_eq_none {ledger : Ledger Slot} {name : Slot} :
    ledger.held name = .none ↔ ledger.slot name = none := by
  cases hslot : ledger.slot name with
  | none => simp [held_of_none hslot]
  | some object =>
    rw [held_of_some hslot]
    split <;> simp

/-- A slot is to be left alone exactly when the object that it names was released. -/
theorem held_ne_released {ledger : Ledger Slot} {name : Slot} :
    ledger.held name ≠ .released ↔
      ∀ object ∈ ledger.slot name, .release object ∉ ledger.operations := by
  cases hslot : ledger.slot name with
  | none => simp [held_of_none hslot]
  | some object => simp [held_of_some hslot]

theorem held_use (ledger : Ledger Slot) (name : Slot) : (ledger.use name).held = ledger.held := by
  ext other
  simp [held, use]

/-- Touching what a slot holds keeps the log disciplined exactly when it was not released. -/
theorem disciplined_touch (ledger : Ledger Slot) (name : Slot) {operation : ℕ → Operation}
    (htouched : ∀ object, (operation object).touched = some object) :
    Disciplined (ledger.operations ++ (ledger.slot name).toList.map operation) ↔
      Disciplined ledger.operations ∧ ledger.held name ≠ .released := by
  rw [held_ne_released]
  cases ledger.slot name with
  | none => simp
  | some object => simp [disciplined_concat, htouched]

end Ledger

variable [DecidableEq Slot]

namespace Held

/-- What the slots hold after a command. -/
def after (held : Slot → Held) : Command Slot → Slot → Held
  | .create name => Function.update held name .live
  | .use _ => held
  | .release name => Function.update held name (held name).release
  | .clear name => Function.update held name .none

/-- The command touches no released object. -/
def Allows (held : Slot → Held) : Command Slot → Prop
  | .use name => held name ≠ .released
  | .release name => held name ≠ .released
  | .create _ => True
  | .clear _ => True

end Held

namespace Ledger

theorem held_create (ledger : Ledger Slot) (name : Slot) :
    (ledger.create name).held = Function.update ledger.held name .live := by
  ext other
  by_cases hother : other = name
  · have hslot : (ledger.create name).slot other = some ledger.created := by
      simp [create, hother]
    have hfresh : .release ledger.created ∉ (ledger.create name).operations := fun h ↦ by
      have hold : .release ledger.created ∈ ledger.operations := by simpa [create] using h
      exact (ledger.released_lt _ hold).ne rfl
    rw [held_of_some hslot, if_neg hfresh, hother, Function.update_self]
  · simp [held, create, Function.update_of_ne hother]

theorem held_release (ledger : Ledger Slot) (name : Slot) :
    (ledger.release name).held =
      Function.update ledger.held name (ledger.held name).release := by
  ext other
  by_cases hother : other = name
  · subst hother
    rw [Function.update_self]
    cases hslot : ledger.slot other with
    | none =>
      have hnone : (ledger.release other).slot other = none := hslot
      rw [held_of_none hnone, held_of_none hslot]
      rfl
    | some object =>
      have hsome : (ledger.release other).slot other = some object := hslot
      have hheld : ledger.held other ≠ .none := by
        simp [held_eq_none, hslot]
      have hreleased : .release object ∈ (ledger.release other).operations := by
        simp [release, hslot]
      rw [held_of_some hsome, if_pos hreleased, Held.release_of_ne hheld]
  · rw [Function.update_of_ne hother]
    cases hslot : ledger.slot other with
    | none =>
      have hnone : (ledger.release name).slot other = none := hslot
      rw [held_of_none hnone, held_of_none hslot]
    | some object =>
      have hsome : (ledger.release name).slot other = some object := hslot
      -- the object that was released is another one
      have hne : ledger.slot name ≠ some object := fun h ↦
        hother (ledger.injective _ _ object hslot h)
      have hmem : .release object ∈ (ledger.release name).operations ↔
          .release object ∈ ledger.operations := by
        simp [release, hne]
      simp only [held_of_some hsome, held_of_some hslot, hmem]

theorem held_clear (ledger : Ledger Slot) (name : Slot) :
    (ledger.clear name).held = Function.update ledger.held name .none := by
  ext other
  by_cases hother : other = name
  · simp [held, clear, hother]
  · have hslot : (ledger.clear name).slot other = ledger.slot other :=
      Function.update_of_ne hother _ _
    rw [Function.update_of_ne hother]
    unfold held
    rw [hslot]
    rfl

/-- The state of the slots follows the commands. -/
theorem held_exec (ledger : Ledger Slot) (command : Command Slot) :
    (ledger.exec command).held = Held.after ledger.held command := by
  cases command with
  | create name => exact ledger.held_create name
  | use name => exact ledger.held_use name
  | release name => exact ledger.held_release name
  | clear name => exact ledger.held_clear name

/-- A command keeps the log disciplined exactly when it is allowed by what the slots hold. -/
theorem disciplined_exec (ledger : Ledger Slot) (command : Command Slot) :
    Disciplined (ledger.exec command).operations ↔
      Disciplined ledger.operations ∧ Held.Allows ledger.held command := by
  cases command with
  | create name => simp [exec, create, disciplined_concat, Operation.touched, Held.Allows]
  | use name => exact ledger.disciplined_touch name fun _ ↦ rfl
  | release name => exact ledger.disciplined_touch name fun _ ↦ rfl
  | clear name => simp [exec, clear, Held.Allows]

end Ledger

end LibYtdl.Ownership
