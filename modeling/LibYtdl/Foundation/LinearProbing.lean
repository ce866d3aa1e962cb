import Mathlib

/-!
# Hash tables with linear probing

The slots of a table stand in a circle. An entry is put into the first empty slot from the home of
its key on, so no slot between its home and its own is empty. When an entry is removed, the entries
behind it that have been pushed past its slot are moved back, one after the other.

A table can be cut open at some slot such that no entry has been pushed past the cut: behind a slot
that is empty, or, in a table that is full, behind the slot that was filled last. Behind the cut the
circle is a line, where homes stand before their entries.
-/

namespace LibYtdl.LinearProbing

variable {n : ℕ} {K V : Type*}

/-- The number of steps from one slot to another. -/
def steps (a b : ZMod n) : ℕ := (b - a).val

section Circle

variable {a b c : ZMod n}

@[simp] theorem steps_self (a : ZMod n) : steps a a = 0 := by rw [steps, sub_self, ZMod.val_zero]

theorem steps_eq_zero : steps a b = 0 ↔ a = b := by
  rw [steps, ZMod.val_eq_zero, sub_eq_zero, eq_comm]

theorem steps_add_natCast (a : ZMod n) {m : ℕ} (h : m < n) : steps a (a + m) = m := by
  rw [steps, add_sub_cancel_left, ZMod.val_natCast, Nat.mod_eq_of_lt h]

variable [NeZero n]

theorem steps_lt (a b : ZMod n) : steps a b < n := ZMod.val_lt _

theorem add_steps (a b : ZMod n) : a + steps a b = b := by
  rw [steps, ZMod.natCast_zmod_val, add_sub_cancel]

theorem steps_injective (c : ZMod n) (h : steps c a = steps c b) : a = b := by
  rw [← add_steps c a, h, add_steps]

/-- Seen from a third slot: going on from `a` to `b`, or around once. -/
theorem steps_eq (c a b : ZMod n) :
    steps a b =
      if steps c a ≤ steps c b then steps c b - steps c a else steps c b + n - steps c a := by
  have hsub : b - a = (b - c) - (a - c) := by ring
  split
  · next hle => rw [steps, hsub, ZMod.val_sub hle, steps, steps]
  · next hlt =>
    have hle := Nat.le_of_lt (Nat.lt_of_not_le hlt)
    have hne : (a - c) - (b - c) ≠ 0 := by
      intro heq
      rw [sub_eq_zero] at heq
      exact hlt (by rw [steps, steps, heq])
    have hval : ((a - c) - (b - c)).val = steps c a - steps c b := ZMod.val_sub hle
    have hneg : b - a = -((a - c) - (b - c)) := by ring
    have hbound := steps_lt c a
    rw [steps, hneg, ZMod.neg_val, if_neg hne, hval]
    omega

theorem steps_succ (c a : ZMod n) (h : steps c a + 1 < n) : steps c (a + 1) = steps c a + 1 := by
  have hadd : a + 1 = c + ((steps c a + 1 : ℕ) : ZMod n) := by
    rw [Nat.cast_add, Nat.cast_one, ← add_assoc, add_steps]
  rw [hadd, steps_add_natCast c h]

/-- The slot behind the last one is the first one. -/
theorem add_one_of_last (h : steps c a + 1 = n) : a + 1 = c := by
  have hadd : a + 1 = c + ((steps c a + 1 : ℕ) : ZMod n) := by
    rw [Nat.cast_add, Nat.cast_one, ← add_assoc, add_steps]
  rw [hadd, h, ZMod.natCast_self, add_zero]

/-- From behind a slot, the steps to it grow fewer. -/
theorem steps_add_one (c a : ZMod n) : steps (c + 1) a + steps a c = n - 1 := by
  have hpos := NeZero.pos n
  have hlast : steps (c + 1) c = n - 1 := by
    obtain hone | hlarge := Nat.eq_or_lt_of_le (Nat.succ_le_of_lt hpos)
    · have hlt := steps_lt (c + 1) c
      omega
    · have hone : steps c (c + 1) = 1 := by
        have h := steps_add_natCast c hlarge
        rwa [Nat.succ_eq_add_one, zero_add, Nat.cast_one] at h
      have h := steps_eq c (c + 1) c
      rw [steps_self, hone] at h
      rw [h]
      simp
  have hlt := steps_lt (c + 1) a
  have h := steps_eq (c + 1) a c
  rw [hlast] at h
  rw [h, if_pos (Nat.le_sub_one_of_lt hlt)]
  omega

end Circle

/-! ## Tables -/

/-- A slot holds a key with its value, or nothing. -/
abbrev Table (n : ℕ) (K V : Type*) := ZMod n → Option (K × V)

/-- The entry is in the table. -/
def Holds (table : Table n K V) (key : K) (value : V) : Prop :=
    ∃ slot, table slot = some (key, value)

/-- No key stands in two slots. -/
def Distinct (table : Table n K V) : Prop :=
  ∀ ⦃slot other key value otherValue⦄, table slot = some (key, value) →
    table other = some (key, otherValue) → slot = other

/-- No slot between the home of a key and its own is empty. -/
def Linked (home : K → ZMod n) (table : Table n K V) : Prop :=
  ∀ ⦃slot key value⦄, table slot = some (key, value) →
    ∀ m < steps (home key) slot, table (home key + m) ≠ none

/-- Behind the cut, the home of a key does not stand behind its slot, and no slot between them is
empty. -/
def Settled (home : K → ZMod n) (cut : ZMod n) (table : Table n K V) : Prop :=
  ∀ ⦃slot key value⦄, table slot = some (key, value) →
    steps cut (home key) ≤ steps cut slot ∧
      ∀ other, steps cut (home key) ≤ steps cut other → steps cut other < steps cut slot →
        table other ≠ none

/-- The tables that insertions and removals lead to. -/
structure Valid (home : K → ZMod n) (table : Table n K V) : Prop where
  distinct : Distinct table
  settled : ∃ cut, Settled home cut table

section Tables

variable {home : K → ZMod n} {cut slot : ZMod n} {table : Table n K V} {key : K} {value : V}

theorem valid_empty (home : K → ZMod n) : Valid home (fun _ ↦ none : Table n K V) where
  distinct := fun _ _ _ _ _ h ↦ absurd h.symm (Option.some_ne_none _)
  settled := ⟨0, fun _ _ _ h ↦ absurd h.symm (Option.some_ne_none _)⟩

variable [NeZero n]

theorem Settled.linked (h : Settled home cut table) : Linked home table := by
  intro slot key value hslot m hm
  obtain ⟨hle, hpath⟩ := h hslot
  have hlt := steps_lt cut slot
  rw [steps_eq cut, if_pos hle] at hm
  have hstep : steps cut (home key + m) = steps cut (home key) + m := by
    rw [← steps_add_natCast cut (m := steps cut (home key) + m) (by omega), Nat.cast_add,
      ← add_assoc,
      add_steps]
  exact hpath _ (by omega) (by omega)

/-- A table can be cut open behind a slot that no entry has been pushed past. -/
theorem Linked.settled (h : Linked home table)
    (hpast : ∀ ⦃other key value⦄, table other = some (key, value) → other ≠ slot →
      steps (home key) other ≤ steps (home key) slot) : Settled home (slot + 1) table := by
  intro other key value hother
  have hle : steps (home key) other ≤ steps (home key) slot := by
    by_cases heq : other = slot
    · rw [heq]
    · exact hpast hother heq
  have hhome := steps_add_one slot (home key)
  have hsum := steps_add_one slot other
  have hsplit := steps_eq (home key) other slot
  rw [if_pos hle] at hsplit
  refine ⟨by omega, fun between hlow hhigh ↦ ?_⟩
  have hbetween := steps_eq (slot + 1) (home key) between
  have hwhole := steps_eq (slot + 1) (home key) other
  rw [if_pos hlow] at hbetween
  rw [if_pos (by omega)] at hwhole
  rw [← add_steps (home key) between]
  exact h hother _ (by omega)

end Tables

/-! ## Looking up and inserting -/

section Find

variable [DecidableEq K]

/-- The first of the next slots that is empty or holds the key. -/
def find (table : Table n K V) (key : K) : ℕ → ZMod n → Option (ZMod n)
  | 0, _ => none
  | fuel + 1, slot =>
    match table slot with
    | none => some slot
    | some entry => if entry.1 = key then some slot else find table key fuel (slot + 1)

/-- A slot that holds another key. -/
def HoldsOther (table : Table n K V) (key : K) (slot : ZMod n) : Prop :=
  ∃ entry, table slot = some entry ∧ entry.1 ≠ key

variable {home : K → ZMod n} {table : Table n K V} {key : K} {value : V} {fuel : ℕ}
  {start slot : ZMod n}

theorem find_cases (table : Table n K V) (key : K) (fuel : ℕ) (start : ZMod n) :
    (find table key fuel start = none ∧ ∀ m < fuel, HoldsOther table key (start + m)) ∨
      ∃ m < fuel, find table key fuel start = some (start + m) ∧
        (∀ k < m, HoldsOther table key (start + k)) ∧
        (table (start + m) = none ∨ ∃ value, table (start + m) = some (key, value)) := by
  induction fuel generalizing start with
  | zero => exact .inl ⟨rfl, fun m hm ↦ absurd hm (Nat.not_lt_zero m)⟩
  | succ fuel ih =>
    have hhere : start + ((0 : ℕ) : ZMod n) = start := by rw [Nat.cast_zero, add_zero]
    have hshift (m : ℕ) : start + ((m + 1 : ℕ) : ZMod n) = start + 1 + m := by
      rw [Nat.cast_add, Nat.cast_one]
      ring
    cases hslot : table start with
    | none =>
      refine .inr ⟨0, fuel.succ_pos, ?_, fun k hk ↦ absurd hk (Nat.not_lt_zero k), .inl ?_⟩
      · rw [find, hslot, hhere]
      · rw [hhere, hslot]
    | some entry =>
      by_cases hkey : entry.1 = key
      · refine .inr ⟨0, fuel.succ_pos, ?_, fun k hk ↦ absurd hk (Nat.not_lt_zero k), .inr ?_⟩
        · rw [find, hslot, hhere]
          exact if_pos hkey
        · exact ⟨entry.2, by rw [hhere, hslot, ← hkey]⟩
      · have hnext : find table key (fuel + 1) start = find table key fuel (start + 1) := by
          rw [find, hslot]
          exact if_neg hkey
        have hother : HoldsOther table key (start + ((0 : ℕ) : ZMod n)) :=
          ⟨entry, by rw [hhere, hslot], hkey⟩
        obtain ⟨hnone, hall⟩ | ⟨m, hm, hfound, hbefore, hend⟩ := ih (start + 1)
        · refine .inl ⟨hnext.trans hnone, fun m hm ↦ ?_⟩
          cases m with
          | zero => exact hother
          | succ m =>
            rw [hshift]
            exact hall m (Nat.lt_of_succ_lt_succ hm)
        · refine .inr ⟨m + 1, Nat.succ_lt_succ hm, ?_, fun k hk ↦ ?_, ?_⟩
          · rw [hnext, hfound, hshift]
          · cases k with
            | zero => exact hother
            | succ k =>
              rw [hshift]
              exact hbefore k (Nat.lt_of_succ_lt_succ hk)
          · rwa [hshift]

variable [NeZero n]

/-- A key that is in the table is found. -/
theorem find_of_holds (h : Valid home table) (hslot : table slot = some (key, value)) :
    find table key n (home key) = some slot := by
  obtain ⟨cut, hsettled⟩ := h.settled
  have hlt := steps_lt (home key) slot
  have hnotOther {m : ℕ} (hm : steps (home key) slot = m) :
      ¬ HoldsOther table key (home key + m) := by
    rintro ⟨entry, hentry, hne⟩
    rw [← hm, add_steps, hslot] at hentry
    exact hne (congrArg Prod.fst (Option.some.inj hentry).symm)
  obtain ⟨-, hall⟩ | ⟨m, hm, hfound, hbefore, hend⟩ := find_cases table key n (home key)
  · exact absurd (hall _ hlt) (hnotOther rfl)
  · rw [hfound]
    obtain hless | heq | hmore := Nat.lt_trichotomy m (steps (home key) slot)
    · obtain hnone | ⟨other, hother⟩ := hend
      · exact absurd hnone (hsettled.linked hslot m hless)
      · rw [h.distinct hother hslot]
    · rw [heq, add_steps]
    · exact absurd (hbefore _ hmore) (hnotOther rfl)

/-- When a key is not in the table, what is found is the empty slot that it belongs to. -/
theorem find_of_absent (hkey : ∀ value, ¬ Holds table key value) :
    (find table key n (home key) = none ∧ ∀ slot, table slot ≠ none) ∨
      ∃ slot, find table key n (home key) = some slot ∧ table slot = none ∧
        ∀ m < steps (home key) slot, table (home key + m) ≠ none := by
  have hsome {slot : ZMod n} (h : HoldsOther table key slot) : table slot ≠ none := by
    obtain ⟨entry, hentry, -⟩ := h
    rw [hentry]
    exact Option.some_ne_none entry
  obtain ⟨hnone, hall⟩ | ⟨m, hm, hfound, hbefore, hend⟩ := find_cases table key n (home key)
  · refine .inl ⟨hnone, fun slot ↦ ?_⟩
    rw [← add_steps (home key) slot]
    exact hsome (hall _ (steps_lt _ _))
  · refine .inr ⟨_, hfound, hend.resolve_right fun ⟨value, hvalue⟩ ↦ hkey value ⟨_, hvalue⟩, ?_⟩
    rw [steps_add_natCast _ hm]
    exact fun k hk ↦ hsome (hbefore k hk)

end Find

section Insert

variable {home : K → ZMod n} {table : Table n K V} {key : K} {slot : ZMod n}

/-- An entry that is put into the empty slot it belongs to. -/
theorem Valid.insert [NeZero n] (h : Valid home table) (hkey : ∀ value, ¬ Holds table key value)
    (hslot : table slot = none) (hpath : ∀ m < steps (home key) slot, table (home key + m) ≠ none)
    (value : V) : Valid home (Function.update table slot (some (key, value))) := by
  obtain ⟨cut, hsettled⟩ := h.settled
  have hlinked : Linked home (Function.update table slot (some (key, value))) := by
    intro other otherKey otherValue hother m hm
    have hfull : table (home otherKey + m) ≠ none := by
      by_cases heq : other = slot
      · subst heq
        rw [Function.update_self, Option.some.injEq, Prod.mk.injEq] at hother
        obtain ⟨rfl, -⟩ := hother
        exact hpath m hm
      · rw [Function.update_of_ne heq] at hother
        exact hsettled.linked hother m hm
    have hne : home otherKey + m ≠ slot := fun heq ↦ hfull (heq ▸ hslot)
    rwa [Function.update_of_ne hne]
  refine ⟨?_, slot + 1, hlinked.settled fun other otherKey otherValue hother hne ↦ ?_⟩
  · intro first second firstKey firstValue secondValue hfirst hsecond
    by_cases heqFirst : first = slot
    · by_cases heqSecond : second = slot
      · rw [heqFirst, heqSecond]
      · rw [heqFirst, Function.update_self, Option.some.injEq, Prod.mk.injEq] at hfirst
        rw [Function.update_of_ne heqSecond, ← hfirst.1] at hsecond
        exact absurd ⟨second, hsecond⟩ (hkey secondValue)
    · rw [Function.update_of_ne heqFirst] at hfirst
      by_cases heqSecond : second = slot
      · rw [heqSecond, Function.update_self, Option.some.injEq, Prod.mk.injEq] at hsecond
        rw [← hsecond.1] at hfirst
        exact absurd ⟨first, hfirst⟩ (hkey firstValue)
      · rw [Function.update_of_ne heqSecond] at hsecond
        exact h.distinct hfirst hsecond
  · -- the slot was empty, so no entry has been pushed past it
    rw [Function.update_of_ne hne] at hother
    by_contra hpast
    exact hsettled.linked hother _ (Nat.lt_of_not_le hpast) (by rwa [add_steps])

theorem holds_insert (hslot : table slot = none) (value : V) (otherKey : K) (otherValue : V) :
    Holds (Function.update table slot (some (key, value))) otherKey otherValue ↔
      (otherKey = key ∧ otherValue = value) ∨ Holds table otherKey otherValue := by
  constructor
  · rintro ⟨other, hother⟩
    by_cases heq : other = slot
    · rw [heq, Function.update_self, Option.some.injEq, Prod.mk.injEq] at hother
      exact .inl ⟨hother.1.symm, hother.2.symm⟩
    · rw [Function.update_of_ne heq] at hother
      exact .inr ⟨other, hother⟩
  · rintro (⟨rfl, rfl⟩ | ⟨other, hother⟩)
    · exact ⟨slot, Function.update_self _ _ _⟩
    · refine ⟨other, ?_⟩
      rwa [Function.update_of_ne]
      rintro rfl
      rw [hslot] at hother
      exact absurd hother.symm (Option.some_ne_none _)

end Insert

/-! ## Removing -/

/-- The entries from a slot on are moved back into the hole, as long as the slots hold something. In
the end the hole is emptied. -/
def shift (home : K → ZMod n) : ℕ → ZMod n → ZMod n → Table n K V → Table n K V
  | 0, _, hole, table => Function.update table hole none
  | fuel + 1, slot, hole, table =>
    match table slot with
    | none => Function.update table hole none
    | some entry =>
      if steps (home entry.1) hole < steps (home entry.1) slot then
        shift home fuel (slot + 1) slot (Function.update table hole (some entry))
      else
        shift home fuel (slot + 1) hole table

/-- The number of entries. -/
def load [NeZero n] (table : Table n K V) : ℕ :=
    (Finset.univ.filter fun slot ↦ (table slot).isSome).card

section Load

variable [NeZero n] {table : Table n K V}

theorem load_le (table : Table n K V) : load table ≤ n :=
  (Finset.card_le_univ _).trans (ZMod.card n).le

theorem load_eq_of_full (h : ∀ slot, table slot ≠ none) : load table = n := by
  rw [load, Finset.filter_true_of_mem fun slot _ ↦ Option.isSome_iff_ne_none.mpr (h slot),
    Finset.card_univ, ZMod.card]

/-- The entries are as many as their keys. -/
theorem Distinct.load_eq (h : Distinct table) :
    load table = {key | ∃ value, Holds table key value}.ncard := by
  rw [load, ← Set.ncard_coe_finset]
  have hsome {slot : ZMod n} (hslot : slot ∈ Finset.univ.filter fun slot ↦ (table slot).isSome) :
      (table slot).isSome := (Finset.mem_filter.mp hslot).2
  refine Set.ncard_congr (fun slot hslot ↦ ((table slot).get (hsome hslot)).1) ?_ ?_ ?_
  · intro slot hslot
    exact ⟨_, slot, (Option.some_get (hsome hslot)).symm⟩
  · intro first second hfirst hsecond heq
    have hfirst' := (Option.some_get (hsome hfirst)).symm
    have hsecond' := (Option.some_get (hsome hsecond)).symm
    rw [← Prod.mk.eta (p := (table second).get _), ← heq] at hsecond'
    exact h hfirst' hsecond'
  · rintro key ⟨value, slot, hslot⟩
    refine ⟨slot, ?_, by simp only [hslot, Option.get_some]⟩
    simp [hslot]

end Load

/-- The slot stands on the way from the home of an entry to the slot of the entry. -/
def OnWay (home : K → ZMod n) (cut between slot : ZMod n) (key : K) : Prop :=
  steps cut (home key) ≤ steps cut between ∧ steps cut between < steps cut slot

/-- A table with a hole, where the slots from the removed one to the one `last` steps behind the cut
have been looked at. -/
structure Shifting (home : K → ZMod n) (cut : ZMod n) (original : Table n K V)
    (removed hole : ZMod n)
    (last : ℕ) (table : Table n K V) : Prop where
  removed_le : steps cut removed ≤ steps cut hole
  hole_le : steps cut hole ≤ last
  seen : ∀ slot, steps cut removed ≤ steps cut slot → steps cut slot ≤ last → original slot ≠ none
  unseen : ∀ slot, last < steps cut slot → table slot = original slot
  filled : ∀ slot, steps cut hole < steps cut slot → steps cut slot ≤ last → table slot ≠ none
  home_le : ∀ ⦃slot key value⦄, slot ≠ hole → table slot = some (key, value) →
    steps cut (home key) ≤ steps cut slot
  way : ∀ ⦃slot key value⦄, slot ≠ hole → table slot = some (key, value) → ∀ between,
    OnWay home cut between slot key → between ≠ hole → table between ≠ none
  clear : ∀ ⦃slot key value⦄, slot ≠ hole → table slot = some (key, value) → steps cut slot ≤ last →
    ¬ OnWay home cut hole slot key
  content : ∀ entry, (∃ slot, slot ≠ hole ∧ table slot = some entry) ↔
    ∃ slot, slot ≠ removed ∧ original slot = some entry
  distinct : ∀ ⦃slot other key value otherValue⦄, slot ≠ hole → other ≠ hole →
    table slot = some (key, value) → table other = some (key, otherValue) → slot = other

/-- What is left after a removal. -/
structure Removed (home : K → ZMod n) (original : Table n K V) (removed : ZMod n)
    (table : Table n K V) : Prop where
  valid : Valid home table
  content : ∀ entry, (∃ slot, table slot = some entry) ↔
    ∃ slot, slot ≠ removed ∧ original slot = some entry

section Remove

variable {home : K → ZMod n} {cut removed hole slot : ZMod n} {original table : Table n K V}
  {key : K} {value : V} {last fuel : ℕ}

/-- When no entry needs the hole, it can be emptied. -/
theorem Shifting.finish (h : Shifting home cut original removed hole last table)
    (hclear : ∀ ⦃slot key value⦄, slot ≠ hole → table slot = some (key, value) →
      ¬ OnWay home cut hole slot key) :
    Removed home original removed (Function.update table hole none) := by
  have hkept {slot : ZMod n} {entry : K × V}
      (hslot : Function.update table hole none slot = some entry) :
      slot ≠ hole ∧ table slot = some entry := by
    by_cases heq : slot = hole
    · rw [heq, Function.update_self] at hslot
      exact absurd hslot.symm (Option.some_ne_none _)
    · rw [Function.update_of_ne heq] at hslot
      exact ⟨heq, hslot⟩
  refine ⟨⟨?_, cut, ?_⟩, fun entry ↦ ?_⟩
  · intro slot other key value otherValue hslot hother
    obtain ⟨hslotNe, hslot⟩ := hkept hslot
    obtain ⟨hotherNe, hother⟩ := hkept hother
    exact h.distinct hslotNe hotherNe hslot hother
  · intro slot key value hslot
    obtain ⟨hne, hslot⟩ := hkept hslot
    refine ⟨h.home_le hne hslot, fun between hlow hhigh ↦ ?_⟩
    have hbetween : between ≠ hole := by
      intro heq
      rw [heq] at hlow hhigh
      exact hclear hne hslot ⟨hlow, hhigh⟩
    rw [Function.update_of_ne hbetween]
    exact h.way hne hslot between ⟨hlow, hhigh⟩ hbetween
  · rw [← h.content entry]
    constructor
    · rintro ⟨slot, hslot⟩
      exact ⟨slot, hkept hslot⟩
    · rintro ⟨slot, hne, hslot⟩
      exact ⟨slot, by rwa [Function.update_of_ne hne]⟩

variable [NeZero n]

/-- At the start the removed slot is the hole. -/
theorem shifting_start (h : Valid home original) (hcut : Settled home cut original)
    (hremoved : original removed ≠ none) :
    Shifting home cut original removed removed (steps cut removed) original where
  removed_le := le_rfl
  hole_le := le_rfl
  seen := fun slot hlow hhigh ↦ by
    rwa [steps_injective cut (Nat.le_antisymm hhigh hlow)]
  unseen := fun _ _ ↦ rfl
  filled := fun slot hlow hhigh ↦ absurd hhigh (Nat.not_le_of_lt hlow)
  home_le := fun _ _ _ _ hslot ↦ (hcut hslot).1
  way := fun _ _ _ _ hslot between hway _ ↦ (hcut hslot).2 between hway.1 hway.2
  clear := fun slot key value _ _ hlast hway ↦ absurd hlast (Nat.not_le_of_lt hway.2)
  content := fun _ ↦ Iff.rfl
  distinct := fun _ _ _ _ _ _ _ hslot hother ↦ h.distinct hslot hother

/-- Behind an empty slot, no entry needs the hole. -/
theorem Shifting.finish_of_empty (h : Shifting home cut original removed hole last table)
    (hslot : steps cut slot = last + 1) (hempty : table slot = none) :
    Removed home original removed (Function.update table hole none) := by
  refine h.finish fun other key value hne hother hway ↦ ?_
  obtain hseen | hunseen := Nat.lt_or_ge last (steps cut other)
  · obtain heq | hbehind := Nat.eq_or_lt_of_le (Nat.succ_le_of_lt hseen)
    · have hsame : slot = other := steps_injective cut (hslot.trans heq)
      rw [hsame, hother] at hempty
      exact absurd hempty (Option.some_ne_none _)
    · have hhole := h.hole_le
      have hbetween : slot ≠ hole := by
        rintro rfl
        omega
      have hlow := hway.1
      exact h.way hne hother slot ⟨by omega, by omega⟩ hbetween hempty
  · exact h.clear hne hother hunseen hway

/-- An entry that does not need the hole stays where it is. -/
theorem Shifting.keep (h : Shifting home cut original removed hole last table)
    (hslot : steps cut slot = last + 1) (hentry : table slot = some (key, value))
    (hkeep : ¬ steps (home key) hole < steps (home key) slot) :
    Shifting home cut original removed hole (last + 1) table := by
  have hhole := h.hole_le
  have hne : slot ≠ hole := by
    rintro rfl
    omega
  have hnew {other : ZMod n} (hother : steps cut other ≤ last + 1) :
      steps cut other ≤ last ∨ other = slot := by
    obtain hlt | heq := Nat.lt_or_eq_of_le hother
    · exact .inl (Nat.le_of_lt_succ hlt)
    · exact .inr (steps_injective cut (heq.trans hslot.symm))
  refine ⟨h.removed_le, by omega, ?_, ?_, ?_, h.home_le, h.way, ?_, h.content, h.distinct⟩
  · intro other hlow hhigh
    obtain hold | rfl := hnew hhigh
    · exact h.seen other hlow hold
    · rw [← h.unseen other (by omega), hentry]
      exact Option.some_ne_none _
  · exact fun other hother ↦ h.unseen other (by omega)
  · intro other hlow hhigh
    obtain hold | rfl := hnew hhigh
    · exact h.filled other hlow hold
    · rw [hentry]
      exact Option.some_ne_none _
  · intro other otherKey otherValue hotherNe hother hhigh hway
    obtain hold | rfl := hnew hhigh
    · exact h.clear hotherNe hother hold hway
    · rw [hentry, Option.some.injEq, Prod.mk.injEq] at hother
      obtain ⟨rfl, -⟩ := hother
      obtain ⟨hlow, hlt⟩ := hway
      have hhome := steps_eq cut (home key) hole
      have hself := steps_eq cut (home key) other
      rw [if_pos hlow] at hhome
      rw [if_pos (by omega)] at hself
      omega

/-- An entry that needs the hole is moved there, and leaves a hole behind. -/
theorem Shifting.move (h : Shifting home cut original removed hole last table)
    (hslot : steps cut slot = last + 1) (hentry : table slot = some (key, value))
    (hmove : steps (home key) hole < steps (home key) slot) :
    Shifting home cut original removed slot (last + 1)
      (Function.update table hole (some (key, value))) := by
  have hhole := h.hole_le
  have hremoved := h.removed_le
  have hne : slot ≠ hole := by
    rintro rfl
    omega
  have hway : OnWay home cut hole slot key := by
    have hhome := h.home_le hne hentry
    have hlt := steps_lt cut slot
    have hself := steps_eq cut (home key) slot
    have hbefore := steps_eq cut (home key) hole
    rw [if_pos hhome] at hself
    refine ⟨?_, by omega⟩
    by_contra hbehind
    rw [if_neg hbehind] at hbefore
    omega
  -- an entry outside of the new hole is the one that was moved, or stood where it stands
  have hcases {other : ZMod n} {entry : K × V}
      (hother : Function.update table hole (some (key, value)) other = some entry) :
      (other = hole ∧ entry = (key, value)) ∨ (other ≠ hole ∧ table other = some entry) := by
    by_cases heq : other = hole
    · rw [heq, Function.update_self, Option.some.injEq] at hother
      exact .inl ⟨heq, hother.symm⟩
    · rw [Function.update_of_ne heq] at hother
      exact .inr ⟨heq, hother⟩
  refine ⟨by omega, hslot.le, ?_, ?_, ?_, ?_, ?_, ?_, ?_, ?_⟩
  · intro other hlow hhigh
    obtain hlt | heq := Nat.lt_or_eq_of_le hhigh
    · exact h.seen other hlow (Nat.le_of_lt_succ hlt)
    · obtain rfl : other = slot := steps_injective cut (heq.trans hslot.symm)
      rw [← h.unseen other (by omega), hentry]
      exact Option.some_ne_none _
  · intro other hother
    have hotherNe : other ≠ hole := by
      rintro rfl
      omega
    rw [Function.update_of_ne hotherNe]
    exact h.unseen other (by omega)
  · intro other hlow hhigh
    omega
  · intro other otherKey otherValue _ hother
    obtain ⟨rfl, heq⟩ | ⟨hotherNe, hother⟩ := hcases hother
    · obtain ⟨rfl, -⟩ := Prod.mk.inj heq
      exact hway.1
    · exact h.home_le hotherNe hother
  · intro other otherKey otherValue _ hother between hbetween _
    by_cases heq : between = hole
    · rw [heq, Function.update_self]
      exact Option.some_ne_none _
    · rw [Function.update_of_ne heq]
      obtain ⟨rfl, hsame⟩ | ⟨hotherNe, hother⟩ := hcases hother
      · obtain ⟨rfl, -⟩ := Prod.mk.inj hsame
        exact h.way hne hentry between ⟨hbetween.1, hbetween.2.trans hway.2⟩ heq
      · exact h.way hotherNe hother between hbetween heq
  · intro other otherKey otherValue _ _ hhigh hbetween
    have hlt := hbetween.2
    omega
  · intro entry
    rw [← h.content entry]
    constructor
    · rintro ⟨other, hotherNe, hother⟩
      obtain ⟨rfl, rfl⟩ | hold := hcases hother
      · exact ⟨slot, hne, hentry⟩
      · exact ⟨other, hold⟩
    · rintro ⟨other, hotherNe, hother⟩
      by_cases heq : other = slot
      · refine ⟨hole, hne.symm, ?_⟩
        rw [Function.update_self, ← hentry, ← heq, hother]
      · exact ⟨other, heq, by rwa [Function.update_of_ne hotherNe]⟩
  · intro first second firstKey firstValue secondValue hfirstNe hsecondNe hfirst hsecond
    obtain ⟨hfirstEq, hfirstKey⟩ | ⟨hfirstHole, hfirstOld⟩ := hcases hfirst
    · obtain ⟨hsecondEq, -⟩ | ⟨hsecondHole, hsecondOld⟩ := hcases hsecond
      · rw [hfirstEq, hsecondEq]
      · obtain ⟨rfl, -⟩ := Prod.mk.inj hfirstKey
        exact absurd (h.distinct hsecondHole hne hsecondOld hentry) hsecondNe
    · obtain ⟨hsecondEq, hsecondKey⟩ | ⟨hsecondHole, hsecondOld⟩ := hcases hsecond
      · obtain ⟨rfl, -⟩ := Prod.mk.inj hsecondKey
        exact absurd (h.distinct hfirstHole hne hfirstOld hentry) hfirstNe
      · exact h.distinct hfirstHole hsecondHole hfirstOld hsecondOld

/-- When as many slots have been seen as hold something, all of these have been seen. -/
theorem Shifting.all_seen (h : Shifting home cut original removed hole last table)
    (hlast : last < n)
    (hload : load original = last + 1 - steps cut removed) (hslot : original slot ≠ none) :
    steps cut slot ≤ last := by
  have hsteps {m : ℕ} (hm : m ∈ Finset.Ico (steps cut removed) (last + 1)) :
      steps cut (cut + m) = m := by
    rw [Finset.mem_Ico] at hm
    exact steps_add_natCast cut (by omega)
  have hsubset :
      (Finset.Ico (steps cut removed) (last + 1)).image (fun m : ℕ ↦ cut + (m : ZMod n)) ⊆
      Finset.univ.filter fun slot ↦ (original slot).isSome := by
    intro other hother
    obtain ⟨m, hm, rfl⟩ := Finset.mem_image.mp hother
    have hrange := Finset.mem_Ico.mp hm
    rw [Finset.mem_filter, Option.isSome_iff_ne_none]
    refine ⟨Finset.mem_univ _, h.seen _ ?_ ?_⟩
    · rw [hsteps hm]
      exact hrange.1
    · rw [hsteps hm]
      omega
  have hcard : ((Finset.Ico (steps cut removed) (last + 1)).image
      (fun m : ℕ ↦ cut + (m : ZMod n))).card = last + 1 - steps cut removed := by
    rw [Finset.card_image_of_injOn, Nat.card_Ico]
    intro first hfirst second hsecond heq
    rw [← hsteps hfirst, ← hsteps hsecond]
    exact congrArg (steps cut) heq
  have hall := Finset.eq_of_subset_of_card_le hsubset (by rw [hcard, ← hload]; rfl)
  have hmem : slot ∈ Finset.univ.filter fun slot ↦ (original slot).isSome := by
    rw [Finset.mem_filter, Option.isSome_iff_ne_none]
    exact ⟨Finset.mem_univ _, hslot⟩
  rw [← hall] at hmem
  obtain ⟨m, hm, rfl⟩ := Finset.mem_image.mp hmem
  rw [hsteps hm]
  exact Nat.le_of_lt_succ (Finset.mem_Ico.mp hm).2

/-- Once the slots behind the cut have been looked at, nothing is moved any more. -/
theorem Shifting.shift_eq (h : Shifting home cut original removed hole last table)
    (hslot : steps cut slot + fuel ≤ steps cut removed) :
    shift home fuel slot hole table = Function.update table hole none := by
  induction fuel generalizing slot with
  | zero => rfl
  | succ fuel ih =>
    have hremoved := h.removed_le
    have hlt := steps_lt cut hole
    cases hentry : table slot with
    | none =>
      rw [shift, hentry]
    | some entry =>
      have hne : slot ≠ hole := by
        rintro rfl
        omega
      have hhome := h.home_le hne hentry
      have hself := steps_eq cut (home entry.1) slot
      have hbefore := steps_eq cut (home entry.1) hole
      rw [if_pos hhome] at hself
      rw [if_pos (by omega)] at hbefore
      have hstay : ¬ steps (home entry.1) hole < steps (home entry.1) slot := by omega
      rw [shift, hentry]
      dsimp only
      rw [if_neg hstay]
      exact ih (by rw [steps_succ cut slot (by omega)]; omega)

/-- The run of the loop, from the slot behind the last one that was looked at. -/
theorem Shifting.run (h : Shifting home cut original removed hole last table) (hlast : last < n)
    (hfuel : fuel + (last + 1 - steps cut removed) = load original) :
    Removed home original removed (shift home fuel (cut + (last + 1 : ℕ)) hole table) := by
  induction fuel generalizing hole last table with
  | zero =>
    refine h.finish fun slot key value hne hslot ↦ ?_
    by_cases hseen : steps cut slot ≤ last
    · exact h.clear hne hslot hseen
    · have horiginal : original slot ≠ none := by
        rw [← h.unseen slot (Nat.lt_of_not_le hseen), hslot]
        exact Option.some_ne_none _
      exact absurd (h.all_seen hlast (by omega) horiginal) hseen
  | succ fuel ih =>
    have hremoved := h.removed_le
    have hhole := h.hole_le
    obtain hnext | hwrap := Nat.lt_or_eq_of_le (Nat.succ_le_of_lt hlast)
    · have hslot : steps cut (cut + (last + 1 : ℕ)) = last + 1 := steps_add_natCast cut hnext
      have hsucc : cut + ((last + 1 : ℕ) : ZMod n) + 1 = cut + (last + 1 + 1 : ℕ) := by
        rw [Nat.cast_add (last + 1) 1, Nat.cast_one, add_assoc]
      cases hentry : table (cut + (last + 1 : ℕ)) with
      | none =>
        rw [shift, hentry]
        exact h.finish_of_empty hslot hentry
      | some entry =>
        rw [shift, hentry]
        dsimp only
        rw [hsucc]
        split
        · next hmove => exact ih (h.move hslot hentry hmove) hnext (by omega)
        · next hkeep => exact ih (h.keep hslot hentry hkeep) hnext (by omega)
    · have hload := load_le original
      have hzero : steps cut (cut + (last + 1 : ℕ)) = 0 := by
        rw [show last + 1 = n from hwrap, ZMod.natCast_self, add_zero, steps_self]
      rw [h.shift_eq (by rw [hzero]; omega)]
      refine h.finish fun slot key value hne hslot ↦ h.clear hne hslot ?_
      have hlt := steps_lt cut slot
      omega

/-- **Removing** an entry keeps the others. -/
theorem Valid.remove (h : Valid home original) (hremoved : original removed ≠ none)
    (hfuel : fuel + 1 = load original) :
    Removed home original removed (shift home fuel (removed + 1) removed original) := by
  obtain ⟨cut, hcut⟩ := h.settled
  have hnext : removed + 1 = cut + ((steps cut removed + 1 : ℕ) : ZMod n) := by
    rw [Nat.cast_add, Nat.cast_one, ← add_assoc, add_steps]
  rw [hnext]
  exact (shifting_start h hcut hremoved).run (steps_lt cut removed) (by omega)

end Remove

end LibYtdl.LinearProbing
