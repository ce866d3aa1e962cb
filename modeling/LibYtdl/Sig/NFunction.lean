import LibYtdl.Info.WatchPage

/-!
# The search for the `n` function

The player's script calls the function behind a marker. `ytdl_sig_actions_extract` takes the name
from there, writes it with a `=` into a buffer of ten bytes, and takes the first place where the
buffer stands in the script for the definition.
-/

namespace LibYtdl.Sig.NFunction

open Machine Search Info.WatchPage

/-! ## The search -/

/-- `.get("n"))&&(b=`. -/
def varMarker : Bytes := ascii ".get(\"n\"))&&(b="

/-- `.join("")}`. -/
def funcEnd : Bytes := ascii ".join(\"\")\x7d"

/-- What `snprintf(func_prefix, 10, "%.*s=", ...)` leaves of the name: nine characters at most. -/
def funcPrefix (name : Bytes) : Bytes := (name ++ [61]).take 9

/-- The part of `ytdl_sig_actions_extract` that finds the text for `YTDL_SIG_JS_FUNC`: its start and
its end, or `none` where the function returns -1. The precision of the format is an `int`. -/
def extractFunc (buf : Bytes) : Option (Option (ℕ × ℕ)) := do
  let some found ← strnstr buf 0 varMarker buf.length | some none
  let varStart := found + 15
  let some varEnd ← strnstr buf varStart [40] (buf.length - varStart) | some none
  if 2 ^ 31 ≤ varEnd - varStart then none
  else do
    let funcPrefix := funcPrefix ((buf.drop varStart).take (varEnd - varStart))
    let some found ← strnstr buf 0 funcPrefix buf.length | some none
    let funcStart := found + funcPrefix.length
    let some found ← strnstr buf funcStart funcEnd (buf.length - funcStart) | some none
    some (some (funcStart, found + 10))

/-! ## Scripts -/

/-- A character of an identifier: a letter, a digit, `_`, `$`, or a byte beyond ASCII. -/
def IsIdentChar (ch : UInt8) : Prop :=
  (48 ≤ ch ∧ ch ≤ 57) ∨ (65 ≤ ch ∧ ch ≤ 90) ∨ (97 ≤ ch ∧ ch ≤ 122) ∨ ch = 95 ∨ ch = 36 ∨ 128 ≤ ch

instance (ch : UInt8) : Decidable (IsIdentChar ch) := inferInstanceAs (Decidable (_ ∨ _))

/-- An identifier does not start with a digit. -/
def IsIdentifier (name : Bytes) : Prop :=
  (∀ ch ∈ name, IsIdentChar ch) ∧ ∃ ch ∈ name.head?, ¬ (48 ≤ ch ∧ ch ≤ 57)

/-- What defines a function of a name. -/
def definition (name : Bytes) : Bytes := name ++ ascii "=function"

/-- The name is defined at an index of the script, and is not the end of a longer one there. -/
def DefinedAt (buf name : Bytes) (index : ℕ) : Prop :=
  definition name <+: buf.drop index ∧ ∀ ch ∈ (buf.take index).getLast?, ¬ IsIdentChar ch

/-- A player's script: the first marker is followed by a call of the function, which is defined
once. -/
structure Script (buf name : Bytes) (index : ℕ) : Prop where
  identifier : IsIdentifier name
  marker : ∃ before after, buf = before ++ (varMarker ++ (name ++ 40 :: after)) ∧
    Skips varMarker before (varMarker ++ (name ++ 40 :: after))
  defined : DefinedAt buf name index
  once : ∀ other, DefinedAt buf name other → other = index

/-- The text that is found starts behind the `=` of the definition. -/
def Located (buf name : Bytes) (index : ℕ) : Prop :=
  ∃ stop, extractFunc buf = some (some (index + (name.length + 1), stop))

/-- The part of the script that a search sees: it ends at the first zero. -/
def text (buf : Bytes) : Bytes := buf.takeWhile (· ≠ 0)

/-- The name has eight characters at most, and with its `=` it does not stand before the definition,
not as the end of another name either. No zero hides the marker or the definition, and an end of the
function follows. -/
structure Locatable (buf name : Bytes) (index : ℕ) : Prop where
  short : name.length ≤ 8
  first : ∀ earlier, earlier < index → ¬ name ++ [61] <+: buf.drop earlier
  marker : varMarker <:+: text buf
  defined : index + (name.length + 1) ≤ (text buf).length
  ended : funcEnd <:+: (text buf).drop (index + (name.length + 1))

/-! ## What the searches find -/

theorem text_starts_buf (buf : Bytes) : text buf <+: buf := List.takeWhile_prefix _

theorem zero_not_mem_text (buf : Bytes) : 0 ∉ text buf := fun hmem ↦
  absurd (List.mem_takeWhile_imp hmem) (by decide)

/-- The text from an index on ends where the script has its first zero from there on. -/
theorem text_drop {buf : Bytes} {s : ℕ} (h : s ≤ (text buf).length) :
    (text buf).drop s = text (buf.drop s) := by
  have htake : (text buf).take s = buf.take s := by
    obtain ⟨rest, hrest⟩ := text_starts_buf buf
    rw [← List.take_append_of_le_length h, hrest]
  have hkeep (ch : UInt8) (hch : ch ∈ buf.take s) : decide (ch ≠ 0) = true := by
    rw [← htake] at hch
    exact decide_eq_true fun heq ↦ zero_not_mem_text buf (heq ▸ List.mem_of_mem_take hch)
  have hlength : (buf.take s).length = s := by
    rw [← htake, List.length_take_of_le h]
  calc
    (text buf).drop s = (text (buf.take s ++ buf.drop s)).drop s := by rw [List.take_append_drop]
    _ = (buf.take s ++ text (buf.drop s)).drop s := by
      rw [text, List.takeWhile_append_of_pos hkeep, text]
    _ = text (buf.drop s) := List.drop_left' hlength

/-- From an index of the text on, a search looks through the rest of the text. -/
theorem findFrom_eq {buf : Bytes} {s : ℕ} (h : s ≤ (text buf).length) (find : Bytes) :
    findFrom buf s find = (indexOf find ((text buf).drop s)).map (s + ·) := by
  rw [findFrom, visible, List.take_of_length_le (by simp), text_drop h, text]

theorem findFrom_zero (buf find : Bytes) : findFrom buf 0 find = indexOf find (text buf) := by
  rw [findFrom_eq (Nat.zero_le _), List.drop_zero]
  simp

theorem IsIdentifier.not_mem {name : Bytes} (h : IsIdentifier name) {ch : UInt8}
    (hch : ¬ IsIdentChar ch) : ch ∉ name := fun hmem ↦ hch (h.1 ch hmem)

/-- Nothing that is cut off the name with its `=` is a zero. -/
theorem zero_not_mem_funcPrefix {name : Bytes} (h : IsIdentifier name) : 0 ∉ funcPrefix name := by
  intro hmem
  obtain hname | hequals := List.mem_append.mp (List.mem_of_mem_take hmem)
  · exact h.not_mem (by decide) hname
  · exact absurd hequals (by decide)

theorem funcPrefix_ne_nil (name : Bytes) : funcPrefix name ≠ [] := by
  simp [funcPrefix]

/-- Where the marker is found, the name follows, and a parenthesis ends it. -/
theorem Script.marker_found {buf name : Bytes} {index : ℕ} (h : Script buf name index)
    (hmarker : varMarker <:+: text buf) :
    ∃ found, indexOf varMarker (text buf) = some found ∧ found + 15 ≤ (text buf).length ∧
      indexOf [40] ((text buf).drop (found + 15)) = some name.length ∧
      (buf.drop (found + 15)).take name.length = name := by
  obtain ⟨before, after, hbuf, hskips⟩ := h.marker
  obtain ⟨found, hfound⟩ := exists_indexOf_of_infix hmarker
  have hplace := indexOf_of_prefix (text_starts_buf buf) hfound
  rw [hbuf, indexOf_of_skips hskips, Option.some.injEq] at hplace
  subst hplace
  have hle : before.length + 15 ≤ (text buf).length :=
    indexOf_add_length_le hfound (by decide)
  have hdrop : buf.drop (before.length + 15) = name ++ 40 :: after := by
    rw [hbuf, ← List.append_assoc]
    exact List.drop_left' (by simp [varMarker, ascii])
  have hkeep (ch : UInt8) (hch : ch ∈ name) : decide (ch ≠ 0) = true :=
    decide_eq_true fun heq ↦ h.identifier.not_mem (by decide) (heq ▸ hch : (0 : UInt8) ∈ name)
  refine ⟨before.length, hfound, hle, ?_, ?_⟩
  · rw [text_drop hle, hdrop, text, List.takeWhile_append_of_pos hkeep,
      List.takeWhile_cons_of_pos (by decide)]
    exact indexOf_singleton_of_mem (h.identifier.not_mem (by decide)) _
  · rw [hdrop, List.take_left]

/-- What is found, step by step. -/
theorem Script.located_iff_found {buf name : Bytes} {index : ℕ} (h : Script buf name index) :
    Located buf name index ↔
      varMarker <:+: text buf ∧ name.length < 2 ^ 31 ∧
        ∃ found, indexOf (funcPrefix name) (text buf) = some found ∧
          found + (funcPrefix name).length = index + (name.length + 1) ∧
          funcEnd <:+: (text buf).drop (index + (name.length + 1)) := by
  unfold Located extractFunc
  rw [strnstr_start (by decide) (by decide), findFrom_zero, Option.bind_eq_bind, Option.bind_some]
  by_cases hmarker : varMarker <:+: text buf
  · obtain ⟨found, hfound, hle, hparen, hname⟩ := h.marker_found hmarker
    have hinside : found + 15 ≤ buf.length := hle.trans (text_starts_buf buf).length_le
    simp only [hfound]
    rw [strnstr_eq (by decide) (by decide) hinside, findFrom_eq hle, hparen, Option.map_some,
      Option.bind_some]
    simp only [Nat.add_sub_cancel_left, hname]
    by_cases hlong : 2 ^ 31 ≤ name.length
    · rw [if_pos hlong]
      refine iff_of_false ?_ fun hfalse ↦ absurd hfalse.2.1 (Nat.not_lt.mpr hlong)
      rintro ⟨stop, hstop⟩
      cases hstop
    · rw [if_neg hlong, strnstr_start (zero_not_mem_funcPrefix h.identifier) (funcPrefix_ne_nil _),
        findFrom_zero, Option.bind_some]
      cases hbegins : indexOf (funcPrefix name) (text buf) with
      | none =>
        refine iff_of_false ?_ fun hfalse ↦ ?_
        · rintro ⟨stop, hstop⟩
          cases hstop
        · obtain ⟨-, -, place, hplace, -⟩ := hfalse
          cases hplace
      | some place =>
        have hroom := indexOf_add_length_le hbegins (funcPrefix_ne_nil name)
        dsimp only
        rw [strnstr_eq (by decide) (by decide) (hroom.trans (text_starts_buf buf).length_le),
          findFrom_eq hroom, Option.bind_some]
        cases hend : indexOf funcEnd ((text buf).drop (place + (funcPrefix name).length)) with
        | none =>
          have hnot := indexOf_eq_none_iff.mp hend
          refine iff_of_false ?_ fun hfalse ↦ ?_
          · rintro ⟨stop, hstop⟩
            cases hstop
          · obtain ⟨-, -, other, hother, hsame, hoccurs⟩ := hfalse
            obtain rfl := Option.some.inj hother
            rw [hsame] at hnot
            exact hnot hoccurs
        | some stop =>
          have hoccurs : funcEnd <:+: (text buf).drop (place + (funcPrefix name).length) := by
            by_contra hnot
            rw [indexOf_eq_none_iff.mpr hnot] at hend
            cases hend
          simp only [Option.map_some, Option.some.injEq, Prod.mk.injEq, exists_eq_left']
          constructor
          · rintro ⟨-, hsame, -⟩
            exact ⟨hmarker, Nat.not_le.mp hlong, hsame, hsame ▸ hoccurs⟩
          · rintro ⟨-, -, hsame, -⟩
            exact ⟨_, hsame, rfl⟩
  · rw [indexOf_eq_none_iff.mpr hmarker]
    refine iff_of_false ?_ fun hfalse ↦ hmarker hfalse.1
    rintro ⟨stop, hstop⟩
    cases hstop

/-! ## The result -/

theorem funcPrefix_of_short {name : Bytes} (h : name.length ≤ 8) : funcPrefix name = name ++ [61] :=
  List.take_of_length_le (by rw [List.length_append, List.length_singleton]; omega)

theorem funcPrefix_of_long {name : Bytes} (h : 9 ≤ name.length) :
    funcPrefix name <+: name ∧ (funcPrefix name).length = 9 := by
  rw [funcPrefix, List.take_append_of_le_length h]
  exact ⟨List.take_prefix _ _, List.length_take_of_le h⟩

/-- What starts at an index of the script and ends in its text stands there in the text. -/
theorem prefix_text {buf needle : Bytes} {index : ℕ} (h : needle <+: buf.drop index)
    (hroom : index + needle.length ≤ (text buf).length) : needle <+: (text buf).drop index := by
  have hdrop : (text buf).drop index <+: buf.drop index := (text_starts_buf buf).drop index
  exact List.prefix_of_prefix_length_le h hdrop (by rw [List.length_drop]; omega)

/-- **The right function is located** exactly when the name has eight characters at most and does
not stand with a `=` before its definition, and no zero and no missing end stops the search. -/
theorem located_iff {buf name : Bytes} {index : ℕ} (h : Script buf name index) :
    Located buf name index ↔ Locatable buf name index := by
  have hname : name ++ [61] <+: buf.drop index := by
    have hequals : name ++ [61] <+: definition name :=
      (List.prefix_append_right_inj name).mpr (by decide)
    exact hequals.trans h.defined.1
  rw [h.located_iff_found]
  constructor
  · rintro ⟨hmarker, -, found, hfound, hplace, hended⟩
    have hroom := indexOf_add_length_le hfound (funcPrefix_ne_nil name)
    have hshort : name.length ≤ 8 := by
      by_contra hlong
      obtain ⟨hbegins, hnine⟩ := funcPrefix_of_long (by omega : 9 ≤ name.length)
      have hcut := (hbegins.trans (List.prefix_append _ _)).trans hname
      obtain ⟨first, hle, hfirst⟩ := exists_indexOf_of_prefix
        (prefix_text hcut (by omega)) (by omega : index ≤ (text buf).length)
      obtain rfl := Option.some.inj (hfound.symm.trans hfirst)
      omega
    rw [funcPrefix_of_short hshort] at hfound hplace hroom
    have hlength : (name ++ [61]).length = name.length + 1 := List.length_append
    refine ⟨hshort, fun earlier hearlier hstarts ↦ ?_, hmarker, by omega, hended⟩
    obtain ⟨first, hle, hfirst⟩ := exists_indexOf_of_prefix
      (prefix_text hstarts (by omega)) (by omega : earlier ≤ (text buf).length)
    obtain rfl := Option.some.inj (hfound.symm.trans hfirst)
    omega
  · intro hloc
    have hbegins := funcPrefix_of_short hloc.short
    have hshort := hloc.short
    have hdefined := hloc.defined
    have hlength : (name ++ [61]).length = name.length + 1 := List.length_append
    obtain ⟨found, hle, hfound⟩ := exists_indexOf_of_prefix
      (prefix_text hname (by omega)) (by omega : index ≤ (text buf).length)
    have hsame : found = index := by
      by_contra hne
      have hstarts := (prefix_of_indexOf hfound).trans ((text_starts_buf buf).drop found)
      exact hloc.first found (by omega) hstarts
    subst hsame
    refine ⟨hloc.marker, by omega, found, ?_, ?_, hloc.ended⟩
    · rw [hbegins, hfound]
    · rw [hbegins, hlength]

/-! ## Scripts with one definition -/

/-- A script that defines a function, and the function `Qa` behind it, up to the marker. -/
def scriptFront (other : Bytes) : Bytes :=
  ascii "var " ++ other ++ ascii "=function(a)\x7breturn a\x7d," ++
    ascii "Qa=function(a)\x7bvar b=a.split(\"\");return b.join(\"\")\x7d;a.C&&(b=a"

def script (other : Bytes) : Bytes :=
  scriptFront other ++ (varMarker ++ (ascii "Qa" ++ 40 :: ascii "b),a.set(\"n\",b))"))

instance (buf name : Bytes) (index : ℕ) : Decidable (DefinedAt buf name index) :=
  decidable_of_iff (definition name <+: buf.drop index ∧
    ((buf.take index).getLast?.all fun ch ↦ decide (¬ IsIdentChar ch)) = true) (by
      rw [DefinedAt, Option.all_eq_true]
      simp)

/-- Nothing is defined behind the end of the script. -/
theorem DefinedAt.lt {buf name : Bytes} {index : ℕ} (h : DefinedAt buf name index) :
    index < buf.length := by
  by_contra hge
  have hnil : buf.drop index = [] := List.drop_eq_nil_of_le (Nat.not_lt.mp hge)
  have hbegins := h.1
  rw [hnil, List.prefix_nil] at hbegins
  simp [definition, ascii] at hbegins

theorem script_of_decide {other : Bytes} {index : ℕ}
    (hmarker : indexOf varMarker (script other) = some (scriptFront other).length)
    (hdefined : DefinedAt (script other) (ascii "Qa") index)
    (honce : ∀ later < (script other).length,
      DefinedAt (script other) (ascii "Qa") later → later = index) :
    Script (script other) (ascii "Qa") index where
  identifier := ⟨List.all_iff_forall_prop.mp (by decide), 81, by decide, by decide⟩
  marker := ⟨scriptFront other, _, rfl, skips_of_indexOf hmarker⟩
  defined := hdefined
  once later hlater := honce later hlater.lt hlater

set_option maxRecDepth 2000 in
/-- Another name that does not end like the name of the function. -/
theorem located_qa :
    Script (script (ascii "Pb")) (ascii "Qa") 29 ∧
      Located (script (ascii "Pb")) (ascii "Qa") 29 := by
  have hscript : Script (script (ascii "Pb")) (ascii "Qa") 29 :=
    script_of_decide (by decide) (by decide) (by decide)
  refine ⟨hscript, (located_iff hscript).mpr ⟨?_, ?_, ?_, ?_, ?_⟩⟩ <;> decide

set_option maxRecDepth 2000 in
/-- A name that ends like it takes the place of the function. -/
theorem xqa_not_located :
    Script (script (ascii "xQa")) (ascii "Qa") 30 ∧
      ¬ Located (script (ascii "xQa")) (ascii "Qa") 30 := by
  refine ⟨script_of_decide (by decide) (by decide) (by decide), ?_⟩
  rintro ⟨stop, hstop⟩
  have hfound : extractFunc (script (ascii "xQa")) = some (some (8, 81)) := by decide
  rw [hfound] at hstop
  have hstart : 8 = 33 := (Prod.mk.inj (Option.some.inj (Option.some.inj hstop))).1
  exact absurd hstart (by decide)

end LibYtdl.Sig.NFunction
