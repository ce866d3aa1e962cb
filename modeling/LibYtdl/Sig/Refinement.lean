import LibYtdl.Sig.Actions

/-!
# The action loop against the player's JavaScript

The two sides agree after every action exactly when each action is in range for the string that the
JavaScript has at that point: `InRange` is computed from the signature, the actions and the size of
the buffer alone.
-/

namespace LibYtdl.Sig.Refinement

open Machine Memory Actions

/-- After every action, the buffer holds the string that the JavaScript has there. -/
def Refines (sig : Object UInt8) (a : Chars) (actions : List Entry) : Prop :=
  ∀ done, done <+: actions → ∃ out, actionLoop done sig = some out ∧ out.Holds (jsRun done a)

/-- How many characters `ytdl__strrev` reverses: all of them, unless the index of the last one does
not fit an `int`. -/
def reversedLength (a : Chars) : ℕ := (toInt (a.length - 1) + 1).toNat

/-- The action does on a buffer of `size` cells what it does in JavaScript. Reversing is right for
the lengths that an `int` counts, swapping with an index inside the string, and dropping up to the
whole string. Further out, an accident can still make the two sides agree. -/
def StepInRange (size : ℕ) (a : Chars) : Entry → Prop
  | (.reverse, _) =>
    (a.take (reversedLength a)).reverse ++ a.drop (reversedLength a) = a.reverse
  | (.swap, b) =>
    b < a.length ∨ (a ≠ [] ∧ a.length < b ∧ b < size ∧ a[b.toNat % a.length]? = a[0]?)
  | (.slice, b) | (.splice, b) => b ≤ a.length ∨ (a = [] ∧ b = 1)

def InRange (size : ℕ) : Chars → List Entry → Prop
  | _, [] => True
  | a, entry :: actions => StepInRange size a entry ∧ InRange size (jsAction a entry) actions

instance (size : ℕ) (a : Chars) : (entry : Entry) → Decidable (StepInRange size a entry)
  | (.reverse, _) => inferInstanceAs (Decidable (_ = _))
  | (.swap, _) => inferInstanceAs (Decidable (_ ∨ _))
  | (.slice, _) => inferInstanceAs (Decidable (_ ∨ _))
  | (.splice, _) => inferInstanceAs (Decidable (_ ∨ _))

instance InRange.decidable (size : ℕ) : (a : Chars) → (actions : List Entry) →
    Decidable (InRange size a actions)
  | _, [] => isTrue trivial
  | a, entry :: actions =>
    have := InRange.decidable size (jsAction a entry) actions
    inferInstanceAs (Decidable (_ ∧ _))

/-! ## Reversing -/

theorem reversedLength_le {a : Chars} (h : a ≠ []) : reversedLength a ≤ a.length := by
  have := toInt_le (a.length - 1)
  have := List.length_pos_iff.mpr h
  rw [reversedLength]
  omega

/-- Started at the index `i`, the loop of `ytdl__strrev` reverses the first `i + 1` characters. -/
theorem strrevLoop_holds {sig : Object UInt8} {a : Chars} (h : sig.Holds a) {i : ℤ} {count : ℕ}
    (hcount : (i + 1).toNat = count) (hle : count ≤ a.length) :
    ∃ out, strrevLoop (a.length + 1) i 0 sig = some out ∧
      out.Holds ((a.take count).reverse ++ a.drop count) := by
  obtain ⟨hzero, slack, hcells⟩ := h
  by_cases hstop : i < 0
  · have hnone : count = 0 := by omega
    exact ⟨sig, strrevLoop_stop (by omega) sig, by simpa [hnone] using ⟨hzero, slack, hcells⟩⟩
  · have hlength : (a.take count).length = count := List.length_take_of_le hle
    have hi : i = ([] : Chars).length + (a.take count).length - 1 := by
      rw [hlength, List.length_nil]
      omega
    have hfuel : (a.take count).length < a.length + 1 := by omega
    have hsplit : sig.cells = [] ++ a.take count ++ (a.drop count ++ 0 :: slack) := by
      simp [hcells, ← List.append_assoc]
    obtain ⟨out, hout, hreversed⟩ := strrevLoop_reverse (a.take count) hfuel hsplit
    refine ⟨out, ?_, ?_, slack, by simpa using hreversed⟩
    · rw [hi]
      exact hout
    · intro hmem
      rw [List.mem_append, List.mem_reverse] at hmem
      exact hzero (hmem.elim List.mem_of_mem_take List.mem_of_mem_drop)

theorem strrev_eq_loop {str : Object UInt8} {first : UInt8} {len : ℕ}
    (hread : str.read 0 = some first) (hfirst : first ≠ 0) (hlen : str.strlen = some len) :
    strrev str = strrevLoop (len + 1) (toInt (len - 1)) 0 str := by
  have hunfold : strrev str =
      str.strlen.bind fun len ↦ strrevLoop (len + 1) (toInt (len - 1)) 0 str := by
    simp only [strrev, hread, Option.bind_eq_bind, Option.bind_some, if_neg hfirst]
  rw [hunfold, hlen, Option.bind_some]

/-- `ytdl__strrev` always ends, inside the buffer. -/
theorem strrev_holds {sig : Object UInt8} {a : Chars} (h : sig.Holds a) {count : ℕ}
    (hcount : reversedLength a = count) :
    ∃ out, strrev sig = some out ∧ out.Holds ((a.take count).reverse ++ a.drop count) := by
  cases a with
  | nil =>
    have hread : sig.read 0 = some 0 := h.read_length
    exact ⟨sig, by simp [strrev, hread], by simpa using h⟩
  | cons first rest =>
    have hfirst : first ≠ 0 := fun heq ↦ h.1 (by simp [heq])
    have hread : sig.read 0 = some first := h.read (by simp : 0 < (first :: rest).length)
    obtain ⟨out, hout, hholds⟩ :=
      strrevLoop_holds h hcount (hcount ▸ reversedLength_le (List.cons_ne_nil _ _))
    refine ⟨out, ?_, hholds⟩
    calc
      strrev sig = strrevLoop ((first :: rest).length + 1) (toInt ((first :: rest).length - 1)) 0
          sig := strrev_eq_loop hread hfirst h.strlen
      _ = some out := hout

theorem reverse_iff {sig : Object UInt8} {a : Chars} (h : sig.Holds a) (b : ℤ) :
    (∃ out, strrev sig = some out ∧ out.Holds a.reverse) ↔
      StepInRange sig.size a (.reverse, b) := by
  obtain ⟨out, hout, hholds⟩ := strrev_holds h rfl
  rw [hout]
  constructor
  · rintro ⟨other, hother, hreverse⟩
    obtain rfl := Option.some.inj hother
    exact hholds.unique hreverse
  · intro hrange
    exact ⟨out, rfl, hrange ▸ hholds⟩

/-! ## Dropping -/

theorem sizeT_arg {b : ℤ} (hb : 0 ≤ b) (hlt : b < 2 ^ 31) : sizeT b = b.toNat :=
  sizeT_of_nonneg hb (by omega)

/-- Up to the whole string, dropping moves the rest down together with its terminator. -/
theorem dropAction_holds {sig : Object UInt8} {a : Chars} (h : sig.Holds a) {b : ℤ} (hb : 0 ≤ b)
    (hlt : b < 2 ^ 31) (hle : b ≤ a.length) :
    ∃ out, dropAction b sig = some out ∧ out.Holds (a.drop b.toNat) := by
  obtain ⟨hzero, slack, hcells⟩ := id h
  have hcount : sizeT (a.length - b + 1) = (a.drop b.toNat ++ [0]).length := by
    have hlength := h.length_lt
    have := sig.size_lt
    rw [Object.size] at hlength
    rw [sizeT_of_nonneg (by omega) (by omega)]
    simp
    omega
  have hgap : sizeT b = (a.take b.toNat).length := by
    rw [sizeT_arg hb hlt, List.length_take]
    omega
  have hsplit : sig.cells = [] ++ (a.take b.toNat ++ ((a.drop b.toNat ++ [0]) ++ slack)) := by
    simp [hcells, ← List.append_assoc (a.take _)]
  obtain ⟨out, slack', hout, hcopied⟩ := copyLoop_copies (a.drop b.toNat ++ [0]) hgap hsplit
  refine ⟨out, ?_, fun hmem ↦ hzero (List.mem_of_mem_drop hmem), slack', by simpa using hcopied⟩
  simpa [dropAction, h.strlen, hcount] using hout

/-- One past the terminator, dropping does nothing. -/
theorem dropAction_succ {sig : Object UInt8} {a : Chars} (h : sig.Holds a) :
    dropAction (a.length + 1) sig = some sig := by
  have hcount : sizeT (a.length - (a.length + 1) + 1) = 0 := by
    rw [show (a.length : ℤ) - (a.length + 1) + 1 = 0 by omega]
    rfl
  rw [dropAction, h.strlen]
  change copyLoop (a.length + 1) (sizeT (a.length - (a.length + 1) + 1)) 0 sig = some sig
  rw [hcount, copyLoop]

/-- Further out, the number of copies wraps around and the loop leaves the buffer. -/
theorem dropAction_eq_none {sig : Object UInt8} {a : Chars} (h : sig.Holds a) {b : ℤ}
    (hlt : b < 2 ^ 31) (hfar : a.length + 1 < b) : dropAction b sig = none := by
  have hsize := sig.size_lt
  have hcount : sizeT (a.length - b + 1) = (a.length - b + 1 + 2 ^ 64).toNat :=
    sizeT_of_neg (by omega) (by omega)
  have hnone : copyLoop b (sizeT (a.length - b + 1)) 0 sig = none := by
    refine copyLoop_eq_none ?_ ?_ ?_
    · omega
    · rw [sizeT_arg (by omega) hlt]
      omega
    · rw [hcount, Object.size]
      omega
  simp [dropAction, h.strlen, hnone]

theorem drop_iff {sig : Object UInt8} {a : Chars} (h : sig.Holds a) {b : ℤ} (hb : 0 ≤ b)
    (hlt : b < 2 ^ 31) :
    (∃ out, dropAction b sig = some out ∧ out.Holds (a.drop b.toNat)) ↔
      b ≤ a.length ∨ (a = [] ∧ b = 1) := by
  constructor
  · rintro ⟨out, hout, hholds⟩
    rcases lt_trichotomy b (a.length + 1) with hnear | hsucc | hfar
    · exact Or.inl (by omega)
    · subst hsucc
      rw [dropAction_succ h] at hout
      obtain rfl := Option.some.inj hout
      have hnil : a = [] := by
        rw [h.unique hholds]
        exact List.drop_of_length_le (by omega)
      exact Or.inr ⟨hnil, by simp [hnil]⟩
    · rw [dropAction_eq_none h hlt hfar] at hout
      simp at hout
  · rintro (hle | ⟨rfl, rfl⟩)
    · exact dropAction_holds h hb hlt hle
    · exact ⟨sig, dropAction_succ h, by simpa using h⟩

/-! ## Swapping -/

/-- What the two writes of a swap leave: the character at `arg % length` comes first, and the first
one goes to `arg`, reduced or not. -/
theorem swapAction_cells {sig : Object UInt8} {first : UInt8} {rest : Chars}
    (h : sig.Holds (first :: rest)) {b : ℤ} (hb : 0 ≤ b) (hlt : b < 2 ^ 31) :
    ∃ other, (first :: rest)[b.toNat % (rest.length + 1)]? = some other ∧
      (b.toNat < sig.size → ∃ out, swapAction b sig = some out ∧
        out.cells = (sig.cells.set 0 other).set b.toNat first) ∧
      (sig.size ≤ b.toNat → swapAction b sig = none) := by
  have hindex : b.toNat % (rest.length + 1) < (first :: rest).length :=
    Nat.mod_lt _ (Nat.succ_pos _)
  have hread : sig.read 0 = some first := h.read (by simp : 0 < (first :: rest).length)
  have hother := h.read hindex
  refine ⟨_, List.getElem?_eq_getElem hindex, ?_⟩
  obtain ⟨half, hwrite, hhalf⟩ :=
    Object.write_of_lt (Nat.zero_lt_of_lt h.length_lt) (first :: rest)[b.toNat % (rest.length + 1)]
  have hswap : swapAction b sig = half.write b.toNat first := by
    simp only [swapAction, hread, h.strlen, sizeT_arg hb hlt, List.length_cons, hother, hwrite,
      Option.bind_eq_bind, Option.bind_some, Nat.succ_ne_zero, if_false, Int.not_lt.mpr hb]
  rw [hswap, ← hhalf]
  have hsize := Object.size_of_write hwrite
  refine ⟨fun hinside ↦ Object.write_of_lt (hsize ▸ hinside) first, fun houtside ↦ ?_⟩
  exact Object.write_eq_none.mpr (hsize ▸ houtside)


theorem jsSwap_length (b : ℤ) (a : Chars) : (jsSwap b a).length = a.length := by
  simp only [jsSwap]
  split <;> simp

theorem jsSwap_eq {b : ℤ} {first other : UInt8} {rest : Chars}
    (hother : (first :: rest)[b.toNat % (rest.length + 1)]? = some other) :
    jsSwap b (first :: rest) = (other :: rest).set (b.toNat % (rest.length + 1)) first := by
  simp [jsSwap, hother]

/-- An index inside the string: both sides exchange the same two characters. -/
theorem swap_inside {sig : Object UInt8} {first : UInt8} {rest : Chars}
    (h : sig.Holds (first :: rest)) {b : ℤ} (hb : 0 ≤ b) (hlt : b < 2 ^ 31)
    (hinside : b < (first :: rest).length) :
    ∃ out, swapAction b sig = some out ∧ out.Holds (jsSwap b (first :: rest)) := by
  have hlength := h.length_lt
  obtain ⟨hzero, slack, hcells⟩ := id h
  obtain ⟨other, hother, hswap, -⟩ := swapAction_cells h hb hlt
  obtain ⟨out, hout, hwritten⟩ := hswap (by omega)
  rw [jsSwap_eq hother]
  rw [Nat.mod_eq_of_lt (by simp at hinside; omega)] at hother ⊢
  refine ⟨out, hout, fun hmem ↦ hzero ?_, slack, ?_⟩
  · rcases List.mem_or_eq_of_mem_set hmem with hmem | rfl
    · rcases List.mem_cons.mp hmem with rfl | hmem
      · exact List.mem_of_getElem? hother
      · exact List.mem_cons_of_mem _ hmem
    · exact List.mem_cons_self
  · rw [hwritten, hcells, List.set_append_left _ _ (by simp), List.set_append_left]
    · rfl
    · simp at hinside ⊢
      omega

/-- The index of the terminator: it is overwritten, so the buffer no longer holds a string of the
same length. -/
theorem swap_terminator {sig out : Object UInt8} {first : UInt8} {rest : Chars}
    (h : sig.Holds (first :: rest)) {b : ℤ} (hlt : b < 2 ^ 31)
    (hend : b = (first :: rest).length) (hout : swapAction b sig = some out) :
    ¬ out.Holds (jsSwap b (first :: rest)) := by
  intro hholds
  have hfirst : first ≠ 0 := fun heq ↦ h.1 (by simp [heq])
  have hlength := h.length_lt
  obtain ⟨other, -, hswap, -⟩ := swapAction_cells h (by omega) hlt
  obtain ⟨out', hout', hwritten⟩ := hswap (by omega)
  obtain rfl := Option.some.inj (hout.symm.trans hout')
  have hindex : b.toNat = (first :: rest).length := by omega
  have hread := hholds.read_length
  rw [jsSwap_length, Object.read, hwritten, hindex, List.getElem?_set_self] at hread
  · exact hfirst (Option.some.inj hread)
  · simpa [Object.size] using hlength

/-- An index past the terminator: only the first character changes. -/
theorem swap_outside {sig : Object UInt8} {first : UInt8} {rest : Chars}
    (h : sig.Holds (first :: rest)) {b : ℤ} (hb : 0 ≤ b) (hlt : b < 2 ^ 31)
    (houtside : (first :: rest).length < b) (hsize : b < sig.size) :
    (∃ out, swapAction b sig = some out ∧ out.Holds (jsSwap b (first :: rest))) ↔
      (first :: rest)[b.toNat % (rest.length + 1)]? = some first := by
  obtain ⟨hzero, slack, hcells⟩ := id h
  obtain ⟨other, hother, hswap, -⟩ := swapAction_cells h hb hlt
  obtain ⟨out, hout, hwritten⟩ := hswap (by omega)
  have hholds : out.Holds (other :: rest) := by
    refine ⟨fun hmem ↦ hzero ?_, slack.set (b.toNat - (rest.length + 2)) first, ?_⟩
    · rcases List.mem_cons.mp hmem with rfl | hmem
      · exact List.mem_of_getElem? hother
      · exact List.mem_cons_of_mem _ hmem
    · have hpast : b.toNat - (rest.length + 1) = b.toNat - (rest.length + 2) + 1 := by
        simp only [List.length_cons] at houtside
        omega
      rw [hwritten, hcells, List.cons_append, List.set_cons_zero, ← List.cons_append,
        List.set_append_right]
      · rw [List.length_cons, hpast, List.set_cons_succ]
      · simp only [List.length_cons] at houtside ⊢
        omega
  -- The character that came first is also the one at the reduced index.
  have hsame : (other :: rest)[b.toNat % (rest.length + 1)]? = some other := by
    revert hother
    cases b.toNat % (rest.length + 1) <;> simp
  rw [hother, jsSwap_eq hother, hout]
  constructor
  · rintro ⟨out', hout', hjs⟩
    obtain rfl := Option.some.inj hout'
    have hindex := (List.getElem?_eq_some_iff.mp hsame).1
    rw [hholds.unique hjs, List.getElem?_set_self hindex] at hsame
    exact hsame.symm
  · intro heq
    obtain rfl := Option.some.inj heq
    obtain ⟨hindex, hvalue⟩ := List.getElem?_eq_some_iff.mp hsame
    refine ⟨out, rfl, ?_⟩
    nth_rewrite 2 [← hvalue]
    rwa [List.set_getElem_self]

theorem swap_iff {sig : Object UInt8} {a : Chars} (h : sig.Holds a) {b : ℤ} (hb : 0 ≤ b)
    (hlt : b < 2 ^ 31) :
    (∃ out, swapAction b sig = some out ∧ out.Holds (jsSwap b a)) ↔
      StepInRange sig.size a (.swap, b) := by
  cases a with
  | nil =>
    -- Dividing by the length of the empty string.
    have hnone : swapAction b sig = none := by
      have hread : sig.read 0 = some 0 := h.read_length
      simp [swapAction, hread, h.strlen]
    simp [hnone, StepInRange, hb]
  | cons first rest =>
    rcases lt_trichotomy b (first :: rest).length with hinside | hend | houtside
    · exact iff_of_true (swap_inside h hb hlt hinside) (Or.inl hinside)
    · refine iff_of_false ?_ ?_
      · rintro ⟨out, hout, hholds⟩
        exact swap_terminator h hlt hend hout hholds
      · rintro (hlow | ⟨-, hhigh, -⟩) <;> omega
    · by_cases hsize : b < sig.size
      · rw [swap_outside h hb hlt houtside hsize]
        simp only [StepInRange, hsize, houtside, not_lt_of_gt houtside]
        simp
      · obtain ⟨other, -, -, hnone⟩ := swapAction_cells h hb hlt
        rw [hnone (by omega)]
        refine iff_of_false (by simp) ?_
        rintro (hlow | ⟨-, -, hhigh, -⟩) <;> omega

/-! ## The action loop -/

theorem action_iff {sig : Object UInt8} {a : Chars} (h : sig.Holds a) {entry : Entry}
    (hb : 0 ≤ entry.2) (hlt : entry.2 < 2 ^ 31) :
    (∃ out, action sig entry = some out ∧ out.Holds (jsAction a entry)) ↔
      StepInRange sig.size a entry := by
  obtain ⟨kind, b⟩ := entry
  cases kind with
  | swap => exact swap_iff h hb hlt
  | reverse => exact reverse_iff h b
  | slice => exact drop_iff h hb hlt
  | splice => exact drop_iff h hb hlt

theorem refines_nil {sig : Object UInt8} {a : Chars} (h : sig.Holds a) : Refines sig a [] := by
  intro done hdone
  obtain rfl := List.prefix_nil.mp hdone
  exact ⟨sig, rfl, h⟩

/-- The first action and the ones after it. -/
theorem refines_cons {sig : Object UInt8} {a : Chars} (h : sig.Holds a) {entry : Entry}
    {actions : List Entry} :
    Refines sig a (entry :: actions) ↔
      ∃ out, action sig entry = some out ∧ out.Holds (jsAction a entry) ∧
        Refines out (jsAction a entry) actions := by
  constructor
  · intro hrefines
    obtain ⟨out, hloop, hholds⟩ := hrefines [entry] (by simp)
    have hout : action sig entry = some out := by simpa [actionLoop] using hloop
    refine ⟨out, hout, hholds, fun done hdone ↦ ?_⟩
    obtain ⟨last, hlast, hlastHolds⟩ := hrefines (entry :: done) (by simpa using hdone)
    exact ⟨last, by simpa [actionLoop, hout] using hlast, hlastHolds⟩
  · rintro ⟨out, hout, hholds, hrefines⟩ done hdone
    cases done with
    | nil => exact ⟨sig, rfl, h⟩
    | cons head done =>
      obtain ⟨rfl, hrest⟩ := List.cons_prefix_cons.mp hdone
      obtain ⟨last, hlast, hlastHolds⟩ := hrefines done hrest
      exact ⟨last, by simpa [actionLoop, hout] using hlast, hlastHolds⟩

/-- **Refinement of the player's JavaScript.** For every signature, every buffer that holds it and
every list of actions with arguments that an `int` holds, the action loop stays inside the buffer
and agrees with the JavaScript after every action exactly when every action is in range. -/
theorem actionLoop_refines_iff (sig : Object UInt8) (a : Chars) (actions : List Entry)
    (hsig : sig.Holds a) (hargs : ∀ entry ∈ actions, 0 ≤ entry.2 ∧ entry.2 < 2 ^ 31) :
    Refines sig a actions ↔ InRange sig.size a actions := by
  induction actions generalizing sig a with
  | nil => exact iff_of_true (refines_nil hsig) trivial
  | cons entry actions ih =>
    obtain ⟨hb, hlt⟩ := hargs entry List.mem_cons_self
    have hrest := fun other hother ↦ hargs other (List.mem_cons_of_mem _ hother)
    rw [refines_cons hsig, InRange, ← action_iff hsig hb hlt]
    constructor
    · rintro ⟨out, hout, hholds, hrefines⟩
      refine ⟨⟨out, hout, hholds⟩, ?_⟩
      rw [← action_size hout]
      exact (ih out _ hholds hrest).mp hrefines
    · rintro ⟨⟨out, hout, hholds⟩, hrange⟩
      refine ⟨out, hout, hholds, (ih out _ hholds hrest).mpr ?_⟩
      rwa [action_size hout]

/-- The signature `ab` in the three cells allocated for it: swapping with the index 3 writes
outside, where JavaScript would have exchanged the two characters. -/
theorem swap_leaves_buffer :
    ¬ ∃ out, actionLoop [(.swap, 3)] ⟨[97, 98, 0], by decide⟩ = some out ∧
      out.Holds (jsRun [(.swap, 3)] [97, 98]) := by
  rintro ⟨out, hout, -⟩
  have hnone : actionLoop [(.swap, 3)] ⟨[97, 98, 0], by decide⟩ = none := rfl
  simp [hnone] at hout

theorem actionLoop_refines_iff_abc :
    Refines ⟨[97, 98, 99, 0], by decide⟩ [97, 98, 99] [(.reverse, 0), (.swap, 2), (.slice, 1)] ↔
      InRange 4 [97, 98, 99] [(.reverse, 0), (.swap, 2), (.slice, 1)] :=
  actionLoop_refines_iff _ _ _ ⟨by decide, [], rfl⟩ (by decide)

example : InRange 4 [97, 98, 99] [(.reverse, 0), (.swap, 2), (.slice, 1)] := by decide

end LibYtdl.Sig.Refinement
