import LibYtdl.Foundation.Scanner
import LibYtdl.Foundation.Search
import LibYtdl.Sig.Actions

/-!
# The scanner of the action object

The first loop of `ytdl_sig_actions_extract` goes through the body of the object that
`action_obj_regexp` has matched, and records for each kind of function where the name of its
property stands. It takes a name to start behind the last line feed and to end at a colon. The
expression also allows several members on a line and names in quotes.
-/

namespace LibYtdl.Sig.ObjectScan

open Machine Search Scanner Actions

/-! ## The characters -/

/-- The character `:`. -/
def colon : UInt8 := 58

/-- The character `,`. -/
def comma : UInt8 := 44

/-- The character `'`. -/
def quote : UInt8 := 39

/-- The character `"`. -/
def doubleQuote : UInt8 := 34

/-- The character `\`. -/
def backslash : UInt8 := 92

def lineFeed : UInt8 := 10

def carriageReturn : UInt8 := 13

/-! ## The loop -/

/-- A kind's `_s` and `_e`: where its name starts, and where it ends. The end 0 says that there is
no name. -/
structure Range where
  start : ℕ
  stop : ℕ
  deriving DecidableEq, Repr

/-- The ranges of the four kinds. -/
abbrev Ranges := SigAction → Range

def noRanges : Ranges := fun _ ↦ ⟨0, 0⟩

/-- `strncmp(first, second, n) == 0`, where neither string may end before the comparison does. -/
def strncmp : Bytes → Bytes → ℕ → Option Bool
  | _, _, 0 => some true
  | first :: firsts, second :: seconds, n + 1 =>
    if first ≠ second then some false
    else if first = 0 then some true
    else strncmp firsts seconds n
  | _, _, _ => none

/-- What the functions start with, in the order in which they are tried. -/
def functionStarts : List (Bytes × SigAction) :=
  [(ascii "function(a,b)\x7bvar c=a[0]", .swap),
    (ascii "function(a,b)\x7ba.splice(0", .splice),
    (ascii "function(a)\x7ba.reverse()\x7d", .reverse),
    (ascii "function(a)\x7breturn a.rev", .reverse),
    (ascii "function(a,b)\x7breturn a.s", .slice)]

/-- The kind of the function that the text starts with. -/
def functionAt (text : Bytes) : List (Bytes × SigAction) → Option (Option SigAction)
  | [] => some none
  | (start, kind) :: starts => do
    if ← strncmp start text 24 then some (some kind) else functionAt text starts

/-- The variables of the loop; `kend` is set where it is used. -/
structure ObjectState where
  kstart : ℕ
  ranges : Ranges

/-- One iteration. Behind a colon the next character is looked at in the same iteration. -/
def objectStep (idx : ℕ) (state : ObjectState) (ch : UInt8) (rest : Bytes) :
    Option (ObjectState × ℕ) :=
  if ch = colon then do
    let kind ← functionAt rest functionStarts
    let ranges :=
      match kind with
      | none => state.ranges
      | some kind => Function.update state.ranges kind ⟨state.kstart, idx⟩
    let next ← rest.head?
    if next = lineFeed then some (⟨idx + 2, ranges⟩, 2) else some (⟨state.kstart, ranges⟩, 1)
  else if ch = lineFeed then
    some (⟨idx + 1, state.ranges⟩, 1)
  else
    some (state, 0)

/-- The loop. It has no value where it reads behind the end of the body. -/
def objectLoop (objBody : Bytes) : Option ObjectState := scan objectStep 0 0 ⟨0, noRanges⟩ objBody

/-! ## The bodies that the expression matches -/

/-- A character of `[a-zA-Z_0-9]`, or `$`. -/
def isIdentifierChar (ch : UInt8) : Bool :=
  97 ≤ ch && ch ≤ 122 || 65 ≤ ch && ch ≤ 90 || 48 ≤ ch && ch ≤ 57 || ch = 95 || ch = 36

/-- `[a-zA-Z_\$][a-zA-Z_0-9]*`. -/
def isIdentifier : Bytes → Bool
  | [] => false
  | head :: tail =>
    isIdentifierChar head && !(48 ≤ head && head ≤ 57) &&
      tail.all fun ch ↦ isIdentifierChar ch && ch ≠ 36

/-- What may stand between two quotes: characters that are neither the quote nor a backslash, and
any character behind a backslash. -/
inductive IsContent (mark : UInt8) : Bytes → Prop
  | nil : IsContent mark []
  | plain {ch : UInt8} {content : Bytes} (hmark : ch ≠ mark) (hbackslash : ch ≠ backslash)
      (hcontent : IsContent mark content) : IsContent mark (ch :: content)
  | escaped {content : Bytes} (ch : UInt8) (hcontent : IsContent mark content) :
      IsContent mark (backslash :: ch :: content)

theorem isMark_quote : quote = quote ∨ quote = doubleQuote := .inl rfl

theorem isMark_doubleQuote : doubleQuote = quote ∨ doubleQuote = doubleQuote := .inr rfl

/-- The name of a property. -/
inductive Name
  | identifier (name : Bytes) (hname : isIdentifier name = true)
  | quoted (mark : UInt8) (hmark : mark = quote ∨ mark = doubleQuote) (content : Bytes)
      (hcontent : IsContent mark content)

def Name.text : Name → Bytes
  | .identifier name _ => name
  | .quoted mark _ content _ => mark :: (content ++ [mark])

/-- One of the four functions, with what is optional in it. -/
inductive Method
  | reverse (returns : Bool)
  | slice
  | splice
  | swap (firstModulo secondModulo returns : Bool)

def Method.kind : Method → SigAction
  | .reverse _ => .reverse
  | .slice => .slice
  | .splice => .splice
  | .swap .. => .swap

/-- A part that is optional. -/
def optional (present : Bool) (text : Bytes) : Bytes := if present then text else []

def Method.text : Method → Bytes
  | .reverse returns =>
    ascii "function(a)\x7b" ++ optional returns (ascii "return ") ++ ascii "a.reverse()\x7d"
  | .slice => ascii "function(a,b)\x7breturn a.slice(b)\x7d"
  | .splice => ascii "function(a,b)\x7ba.splice(0,b)\x7d"
  | .swap firstModulo secondModulo returns =>
    ascii "function(a,b)\x7bvar c=a[0];a[0]=a[b" ++ optional firstModulo (ascii "%a.length") ++
      ascii "];a[b" ++ optional secondModulo (ascii "%a.length") ++ ascii "]=c" ++
      optional returns (ascii ";return a") ++ ascii "\x7d"

/-- A property of the object with what separates it from the next one. -/
structure Member where
  name : Name
  method : Method
  hasComma : Bool
  hasReturn : Bool
  hasFeed : Bool

def Member.separator (member : Member) : Bytes :=
  optional member.hasComma [comma] ++ optional member.hasReturn [carriageReturn]

def Member.text (member : Member) : Bytes :=
  member.name.text ++ colon :: (member.method.text ++ member.separator) ++
    optional member.hasFeed [lineFeed]

/-- The body of an object with these properties. -/
def bodyOf (members : List Member) : Bytes := members.flatMap Member.text

theorem bodyOf_cons (member : Member) (members : List Member) :
    bodyOf (member :: members) = member.text ++ bodyOf members := List.flatMap_cons

theorem bodyOf_append (members more : List Member) :
    bodyOf (members ++ more) = bodyOf members ++ bodyOf more := List.flatMap_append

/-! ## The names that are to be recorded -/

/-- Where the name of a property stands, without its quotes. -/
def Name.range (pos : ℕ) : Name → Range
  | .identifier name _ => ⟨pos, pos + name.length⟩
  | .quoted _ _ content _ => ⟨pos + 1, pos + 1 + content.length⟩

/-- The one member of this kind, with those in front of it and behind it. -/
structure Alone (kind : SigAction) (members before : List Member) (member : Member)
    (after : List Member) : Prop where
  members_eq : members = before ++ member :: after
  kind_eq : member.method.kind = kind
  others : ∀ other ∈ before ++ after, other.method.kind ≠ kind

/-- No member is of this kind. -/
def Absent (kind : SigAction) (members : List Member) : Prop :=
  ∀ member ∈ members, member.method.kind ≠ kind

/-- A kind that is there once has the range of its name, and one that is not there has none. -/
structure Agrees (members : List Member) (kind : SigAction) (range : Range) : Prop where
  alone : ∀ before member after, Alone kind members before member after →
    range = member.name.range (bodyOf before).length
  absent : Absent kind members → range = ⟨0, 0⟩

/-! ## When the loop records them -/

def Name.isUnquoted : Name → Bool
  | .identifier .. => true
  | .quoted .. => false

/-- The texts behind the colons that the loop reads in a text, of which it passes over the first
`skip` characters: it does not read what stands behind a colon or a line feed that it has read. -/
def readColons : ℕ → Bytes → List Bytes
  | _, [] => []
  | skip + 1, _ :: rest => readColons skip rest
  | 0, ch :: rest =>
    if ch = colon then rest :: readColons (if rest.head? = some lineFeed then 2 else 1) rest
    else if ch = lineFeed then readColons 1 rest
    else readColons 0 rest

/-- The kind whose functions the text starts like. -/
def kindAt (text : Bytes) : Option SigAction :=
  (functionStarts.find? fun start ↦ start.1.isPrefixOf text).map Prod.snd

/-- A quoted name in which a colon is read with a function of this kind behind it. -/
def Name.Mentions (kind : SigAction) : Name → Prop
  | .identifier .. => False
  | .quoted _ _ content _ => some kind ∈ (readColons 0 content).map kindAt

/-- A member behind these ones stands at the start of a line. -/
def StartsLine (members : List Member) : Prop :=
  ∀ last, members.getLast? = some last → last.hasFeed = true

/-- A kind that is there once has a name without quotes at the start of a line, and no name behind
it mentions the kind. A kind that is not there is not mentioned. -/
structure Readable (members : List Member) (kind : SigAction) : Prop where
  alone : ∀ before member after, Alone kind members before member after →
    member.name.isUnquoted = true ∧ StartsLine before ∧
      ∀ other ∈ after, ¬ other.name.Mentions kind
  absent : Absent kind members → ∀ member ∈ members, ¬ member.name.Mentions kind

/-! ## One member more -/

section Append

variable {kind : SigAction} {members before after : List Member} {last member : Member}

theorem absent_append : Absent kind (members ++ [last]) ↔
    Absent kind members ∧ last.method.kind ≠ kind := by
  simp [Absent, or_imp, forall_and]

theorem alone_append_same (hlast : last.method.kind = kind) :
    Alone kind (members ++ [last]) before member after ↔
      before = members ∧ member = last ∧ after = [] ∧ Absent kind members := by
  constructor
  · rintro ⟨hmembers, -, hothers⟩
    obtain rfl | ⟨front, final, rfl⟩ := after.eq_nil_or_concat
    · obtain ⟨rfl, hlast⟩ := List.append_inj' hmembers rfl
      obtain rfl := List.singleton_inj.mp hlast
      refine ⟨rfl, rfl, rfl, ?_⟩
      simpa [Absent] using hothers
    · rw [List.concat_eq_append, ← List.cons_append, ← List.append_assoc] at hmembers
      obtain ⟨-, hfinal⟩ := List.append_inj' hmembers rfl
      obtain rfl := List.singleton_inj.mp hfinal
      exact absurd hlast (hothers last (by simp))
  · rintro ⟨rfl, rfl, rfl, habsent⟩
    exact ⟨rfl, hlast, by simpa [Absent] using habsent⟩

theorem alone_append_other (hlast : last.method.kind ≠ kind) :
    Alone kind (members ++ [last]) before member after ↔
      ∃ front, after = front ++ [last] ∧ Alone kind members before member front := by
  constructor
  · rintro ⟨hmembers, hkind, hothers⟩
    obtain rfl | ⟨front, final, rfl⟩ := after.eq_nil_or_concat
    · obtain ⟨-, hmember⟩ := List.append_inj' hmembers rfl
      obtain rfl := List.singleton_inj.mp hmember
      exact absurd hkind hlast
    · rw [List.concat_eq_append, ← List.cons_append, ← List.append_assoc] at hmembers
      obtain ⟨rfl, hfinal⟩ := List.append_inj' hmembers rfl
      obtain rfl := List.singleton_inj.mp hfinal
      refine ⟨front, by simp, rfl, hkind, fun other hother ↦ hothers other ?_⟩
      obtain hother | hother := List.mem_append.mp hother
      · exact List.mem_append_left _ hother
      · exact List.mem_append_right _ (by simp [hother])
  · rintro ⟨front, rfl, rfl, hkind, hothers⟩
    refine ⟨by simp, hkind, fun other hother ↦ ?_⟩
    simp only [List.mem_append, List.mem_singleton] at hother hothers
    obtain hother | hother | rfl := hother
    · exact hothers other (.inl hother)
    · exact hothers other (.inr hother)
    · exact hlast

theorem agrees_append_same (hlast : last.method.kind = kind) (range : Range) :
    Agrees (members ++ [last]) kind range ↔
      (Absent kind members → range = last.name.range (bodyOf members).length) := by
  constructor
  · intro h habsent
    exact h.alone members last [] ((alone_append_same hlast).mpr ⟨rfl, rfl, rfl, habsent⟩)
  · intro h
    refine ⟨fun before member after halone ↦ ?_, fun habsent ↦ ?_⟩
    · obtain ⟨rfl, rfl, rfl, habsent⟩ := (alone_append_same hlast).mp halone
      exact h habsent
    · exact absurd hlast (Iff.mp absent_append habsent).2

theorem agrees_append_other (hlast : last.method.kind ≠ kind) (range : Range) :
    Agrees (members ++ [last]) kind range ↔ Agrees members kind range := by
  constructor
  · intro h
    refine ⟨fun before member after halone ↦ ?_, fun habsent ↦ ?_⟩
    · exact h.alone before member (after ++ [last])
        ((alone_append_other hlast).mpr ⟨after, rfl, halone⟩)
    · exact h.absent (Iff.mpr absent_append ⟨habsent, hlast⟩)
  · intro h
    refine ⟨fun before member after halone ↦ ?_, fun habsent ↦ ?_⟩
    · obtain ⟨front, -, halone⟩ := (alone_append_other hlast).mp halone
      exact h.alone before member front halone
    · exact h.absent (Iff.mp absent_append habsent).1

theorem readable_append_same (hlast : last.method.kind = kind) :
    Readable (members ++ [last]) kind ↔
      (Absent kind members → last.name.isUnquoted = true ∧ StartsLine members) := by
  constructor
  · intro h habsent
    obtain ⟨hunquoted, hline, -⟩ :=
      h.alone members last [] ((alone_append_same hlast).mpr ⟨rfl, rfl, rfl, habsent⟩)
    exact ⟨hunquoted, hline⟩
  · intro h
    refine ⟨fun before member after halone ↦ ?_, fun habsent ↦ ?_⟩
    · obtain ⟨rfl, rfl, rfl, habsent⟩ := (alone_append_same hlast).mp halone
      exact ⟨(h habsent).1, (h habsent).2, by simp⟩
    · exact absurd hlast (Iff.mp absent_append habsent).2

theorem readable_append_other (hlast : last.method.kind ≠ kind)
    (hmentions : ¬ last.name.Mentions kind) :
    Readable (members ++ [last]) kind ↔ Readable members kind := by
  constructor
  · intro h
    refine ⟨fun before member after halone ↦ ?_, fun habsent ↦ ?_⟩
    · obtain ⟨hunquoted, hline, hafter⟩ := h.alone before member (after ++ [last])
        ((alone_append_other hlast).mpr ⟨after, rfl, halone⟩)
      exact ⟨hunquoted, hline, fun other hother ↦ hafter other (List.mem_append_left _ hother)⟩
    · intro member hmember
      exact h.absent (Iff.mpr absent_append ⟨habsent, hlast⟩) member
        (List.mem_append_left _ hmember)
  · intro h
    refine ⟨fun before member after halone ↦ ?_, fun habsent ↦ ?_⟩
    · obtain ⟨front, rfl, hfront⟩ := (alone_append_other hlast).mp halone
      obtain ⟨hunquoted, hline, hafter⟩ := h.alone before member front hfront
      refine ⟨hunquoted, hline, fun other hother ↦ ?_⟩
      obtain hother | hother := List.mem_append.mp hother
      · exact hafter other hother
      · obtain rfl := List.mem_singleton.mp hother
        exact hmentions
    · intro member hmember
      obtain hmember | hmember := List.mem_append.mp hmember
      · exact h.absent (Iff.mp absent_append habsent).1 member hmember
      · obtain rfl := List.mem_singleton.mp hmember
        exact hmentions

theorem readable_append_mentions (hlast : last.method.kind ≠ kind)
    (hmentions : last.name.Mentions kind) :
    Readable (members ++ [last]) kind ↔
      (∀ before member after, ¬ Alone kind members before member after) ∧
        ¬ Absent kind members := by
  constructor
  · intro h
    refine ⟨fun before member after halone ↦ ?_, fun habsent ↦ ?_⟩
    · obtain ⟨-, -, hafter⟩ := h.alone before member (after ++ [last])
        ((alone_append_other hlast).mpr ⟨after, rfl, halone⟩)
      exact hafter last (by simp) hmentions
    · exact h.absent (Iff.mpr absent_append ⟨habsent, hlast⟩) last (by simp) hmentions
  · rintro ⟨halone, habsent⟩
    refine ⟨fun before member after h ↦ ?_, fun h ↦ ?_⟩
    · obtain ⟨front, -, hfront⟩ := (alone_append_other hlast).mp h
      exact absurd hfront (halone before member front)
    · exact absurd (Iff.mp absent_append h).1 habsent

theorem Name.range_stop_le (pos : ℕ) (name : Name) :
    (name.range pos).stop ≤ pos + name.text.length := by
  cases name with
  | identifier name hname => exact le_refl _
  | quoted mark hmark content hcontent =>
    simp only [Name.range, Name.text, List.length_cons, List.length_append]
    omega

theorem Alone.stop_le (h : Alone kind members before member after) :
    (member.name.range (bodyOf before).length).stop ≤ (bodyOf members).length := by
  have hle := member.name.range_stop_le (bodyOf before).length
  rw [h.members_eq, bodyOf_append, bodyOf_cons, Member.text]
  simp only [List.length_append, List.length_cons]
  omega

theorem agrees_append_later {range : Range} (hlast : last.method.kind ≠ kind)
    (hstop : (bodyOf members).length < range.stop) :
    Agrees (members ++ [last]) kind range ↔
      (∀ before member after, ¬ Alone kind members before member after) ∧
        ¬ Absent kind members := by
  rw [agrees_append_other hlast]
  constructor
  · intro h
    refine ⟨fun before member after halone ↦ ?_, fun habsent ↦ ?_⟩
    · have hle := halone.stop_le
      rw [← h.alone before member after halone] at hle
      omega
    · rw [h.absent habsent] at hstop
      exact absurd hstop (Nat.not_lt_zero _)
  · rintro ⟨halone, habsent⟩
    exact ⟨fun before member after h ↦ absurd h (halone before member after),
      fun h ↦ absurd h habsent⟩

end Append

/-! ## The loop on a name -/

theorem quiet_of_ne {ch : UInt8} (hcolon : ch ≠ colon) (hfeed : ch ≠ lineFeed) :
    Quiet objectStep ch := by
  intro idx state rest
  rw [objectStep, if_neg hcolon, if_neg hfeed]
  rfl

theorem ne_of_isIdentifierChar {ch other : UInt8} (h : isIdentifierChar ch = true)
    (hother : isIdentifierChar other = false) : ch ≠ other := by
  rintro rfl
  exact Bool.false_ne_true (hother.symm.trans h)

theorem isIdentifierChar_of_mem {name : Bytes} (h : isIdentifier name = true) {ch : UInt8}
    (hch : ch ∈ name) : isIdentifierChar ch = true := by
  cases name with
  | nil => cases hch
  | cons head tail =>
    simp only [isIdentifier, Bool.and_eq_true] at h
    obtain rfl | hch := List.mem_cons.mp hch
    · exact h.1.1
    · exact (Bool.and_eq_true_iff.mp (List.all_eq_true.mp h.2 ch hch)).1

theorem quiet_of_isIdentifier {name : Bytes} (h : isIdentifier name = true) :
    ∀ ch ∈ name, Quiet objectStep ch := by
  intro ch hch
  have hchar := isIdentifierChar_of_mem h hch
  exact quiet_of_ne (ne_of_isIdentifierChar hchar (by decide))
    (ne_of_isIdentifierChar hchar (by decide))

/-- The comparison with a text that goes on with a character the start does not have. -/
theorem strncmp_eq {start : Bytes} {mark : UInt8} (hzero : 0 ∉ start) (hmark : mark ∉ start)
    (text after : Bytes) :
    strncmp start (text ++ mark :: after) start.length = some (start.isPrefixOf text) := by
  induction start generalizing text with
  | nil => rfl
  | cons first start ih =>
    have hfirst : first ≠ 0 := fun h ↦ hzero (by simp [h])
    have hne : first ≠ mark := fun h ↦ hmark (by simp [h])
    cases text with
    | nil => simp [strncmp, hne]
    | cons second text =>
      have hrest := ih (fun h ↦ hzero (List.mem_cons_of_mem _ h))
        (fun h ↦ hmark (List.mem_cons_of_mem _ h)) text
      by_cases hsame : first = second
      · subst hsame
        simp [strncmp, hfirst, hrest]
      · simp [strncmp, hsame, List.isPrefixOf]

/-- A text that goes on with a quote: the kind is decided in front of it. -/
theorem functionAt_eq {mark : UInt8} (hmark : mark = quote ∨ mark = doubleQuote)
    (text after : Bytes) :
    functionAt (text ++ mark :: after) functionStarts = some (kindAt text) := by
  have hstart : ∀ start ∈ functionStarts, 0 ∉ start.1 ∧ mark ∉ start.1 ∧ start.1.length = 24 := by
    obtain rfl | rfl := hmark <;> decide
  have hstarts (starts : List (Bytes × SigAction)) (hsub : starts ⊆ functionStarts) :
      functionAt (text ++ mark :: after) starts =
        some ((starts.find? fun start ↦ start.1.isPrefixOf text).map Prod.snd) := by
    induction starts with
    | nil => rfl
    | cons start starts ih =>
      obtain ⟨hzero, hmark, hlength⟩ := hstart start (hsub List.mem_cons_self)
      have hcmp := strncmp_eq hzero hmark text after
      rw [hlength] at hcmp
      rw [functionAt, hcmp, ih fun _ h ↦ hsub (List.mem_cons_of_mem _ h)]
      cases hlike : start.1.isPrefixOf text <;> simp [hlike]
  exact hstarts functionStarts (List.Subset.refl _)

/-- What the loop makes of the ranges when it reads a colon. -/
def recorded (state : ObjectState) (idx : ℕ) : Option SigAction → Ranges
  | none => state.ranges
  | some kind => Function.update state.ranges kind ⟨state.kstart, idx⟩

theorem objectStep_colon {idx : ℕ} {state : ObjectState} {rest : Bytes} {kind : Option SigAction}
    {next : UInt8} (hkind : functionAt rest functionStarts = some kind)
    (hnext : rest.head? = some next) :
    objectStep idx state colon rest =
      some (if next = lineFeed then (⟨idx + 2, recorded state idx kind⟩, 2)
        else (⟨state.kstart, recorded state idx kind⟩, 1)) := by
  rw [objectStep, if_pos rfl, hkind, hnext]
  cases kind with
  | none =>
    simp only [Option.bind_eq_bind, Option.bind_some, recorded]
    split <;> rfl
  | some kind =>
    simp only [Option.bind_eq_bind, Option.bind_some, recorded]
    split <;> rfl

theorem objectStep_lineFeed (idx : ℕ) (state : ObjectState) (rest : Bytes) :
    objectStep idx state lineFeed rest = some (⟨idx + 1, state.ranges⟩, 1) := rfl

/-- From some ranges to others: a kind that is mentioned from an index on ends behind it, and the
others are as they were. -/
def Recorded (mentioned : SigAction → Prop) (idx : ℕ) (ranges next : Ranges) : Prop :=
  ∀ kind, (mentioned kind → idx ≤ (next kind).stop) ∧ (¬ mentioned kind → next kind = ranges kind)

theorem Recorded.skipped {mentioned : SigAction → Prop} {idx : ℕ} {ranges next : Ranges}
    (h : Recorded mentioned (idx + 1) ranges next) : Recorded mentioned idx ranges next :=
  fun kind ↦ ⟨fun hkind ↦ (Nat.le_succ idx).trans ((h kind).1 hkind), (h kind).2⟩

theorem Recorded.read {mentioned : SigAction → Prop} {idx : ℕ} {state : ObjectState}
    {next : Ranges} {found : Option SigAction}
    (h : Recorded mentioned (idx + 1) (recorded state idx found) next) :
    Recorded (fun kind ↦ found = some kind ∨ mentioned kind) idx state.ranges next := by
  intro kind
  obtain ⟨hmentioned, hkept⟩ := h kind
  by_cases hkind : mentioned kind
  · exact ⟨fun _ ↦ (Nat.le_succ idx).trans (hmentioned hkind), fun hnot ↦ absurd (.inr hkind) hnot⟩
  · rw [hkept hkind]
    constructor
    · rintro (rfl | hkind')
      · rw [recorded, Function.update_self]
      · exact absurd hkind' hkind
    · intro hnot
      cases found with
      | none => rfl
      | some other =>
        have hne : kind ≠ other := fun heq ↦ hnot (.inl (congrArg some heq.symm))
        rw [recorded, Function.update_of_ne hne]

theorem Recorded.congr {mentioned other : SigAction → Prop} {idx : ℕ} {ranges next : Ranges}
    (h : Recorded mentioned idx ranges next) (hiff : ∀ kind, other kind ↔ mentioned kind) :
    Recorded other idx ranges next :=
  fun kind ↦ ⟨fun hkind ↦ (h kind).1 ((hiff kind).mp hkind),
    fun hkind ↦ (h kind).2 fun hmentioned ↦ hkind ((hiff kind).mpr hmentioned)⟩

/-- A colon in a quoted name. -/
theorem objectStep_content {mark : UInt8} (hmark : mark = quote ∨ mark = doubleQuote)
    (content after : Bytes) (idx : ℕ) (state : ObjectState) :
    objectStep idx state colon (content ++ mark :: after) =
      some (⟨if content.head? = some lineFeed then idx + 2 else state.kstart,
          recorded state idx (kindAt content)⟩,
        if content.head? = some lineFeed then 2 else 1) := by
  have hkind := functionAt_eq hmark content after
  cases content with
  | nil =>
    have hfeed : mark ≠ lineFeed := by obtain rfl | rfl := hmark <;> decide
    rw [objectStep_colon hkind rfl, if_neg hfeed]
    rfl
  | cons head content =>
    rw [objectStep_colon hkind rfl, List.head?_cons]
    by_cases hfeed : head = lineFeed <;> simp [hfeed]

/-- The content of a quoted name. The quote behind it is the next character, and may be passed
over. -/
theorem scan_content {mark : UInt8} (hmark : mark = quote ∨ mark = doubleQuote)
    (content : Bytes) {skip : ℕ} (hskip : skip ≤ content.length + 1) (idx : ℕ)
    (state : ObjectState) (hkstart : state.kstart ≤ idx + content.length) :
    ∃ last lastSkip,
      (∀ after, scan objectStep idx skip state (content ++ mark :: after) =
          scan objectStep (idx + content.length) lastSkip last (mark :: after)) ∧
        lastSkip ≤ 1 ∧ last.kstart ≤ idx + content.length ∧
        Recorded (fun kind ↦ some kind ∈ (readColons skip content).map kindAt) idx state.ranges
          last.ranges := by
  induction content generalizing skip idx state with
  | nil =>
    refine ⟨state, skip, fun _ ↦ rfl, hskip, hkstart, fun kind ↦ ⟨?_, fun _ ↦ rfl⟩⟩
    simp [readColons]
  | cons ch content ih =>
    rw [List.length_cons] at hskip hkstart
    have hlength : idx + (ch :: content).length = idx + 1 + content.length := by
      rw [List.length_cons]
      omega
    rw [hlength]
    cases skip with
    | succ skip =>
      obtain ⟨last, lastSkip, hscan, hlast, hkstart, hrecorded⟩ :=
        ih (by omega : skip ≤ content.length + 1) (idx + 1) state (by omega)
      exact ⟨last, lastSkip, hscan, hlast, hkstart, hrecorded.skipped⟩
    | zero =>
      by_cases hcolon : ch = colon
      · subst hcolon
        have hroom : (if content.head? = some lineFeed then 2 else 1) ≤ content.length + 1 := by
          cases content with
          | nil => simp
          | cons head tail => split <;> simp
        have hnew : (if content.head? = some lineFeed then idx + 2 else state.kstart) ≤
            idx + 1 + content.length := by
          cases content with
          | nil => simpa using hkstart
          | cons head tail =>
            rw [List.length_cons] at hkstart ⊢
            split <;> omega
        obtain ⟨last, lastSkip, hscan, hlast, hkstart, hrecorded⟩ :=
          ih hroom (idx + 1) ⟨_, recorded state idx (kindAt content)⟩ hnew
        refine ⟨last, lastSkip, ?_, hlast, hkstart, ?_⟩
        · intro after
          exact (scan_of_step (objectStep_content hmark content after idx state)).trans
            (hscan after)
        · refine hrecorded.read.congr fun kind ↦ ?_
          rw [readColons, if_pos rfl, List.map_cons, List.mem_cons]
          exact or_congr_left eq_comm
      · by_cases hfeed : ch = lineFeed
        · subst hfeed
          obtain ⟨last, lastSkip, hscan, hlast, hkstart, hrecorded⟩ :=
            ih (by omega : 1 ≤ content.length + 1) (idx + 1) ⟨idx + 1, state.ranges⟩
              (Nat.le_add_right _ _)
          refine ⟨last, lastSkip, ?_, hlast, hkstart, ?_⟩
          · intro after
            exact (scan_of_step (objectStep_lineFeed idx state _)).trans (hscan after)
          · rw [readColons, if_neg (by decide), if_pos rfl]
            exact hrecorded.skipped
        · obtain ⟨last, lastSkip, hscan, hlast, hkstart, hrecorded⟩ :=
            ih (Nat.zero_le (content.length + 1)) (idx + 1) state (by omega)
          refine ⟨last, lastSkip, ?_, hlast, hkstart, ?_⟩
          · intro after
            exact (scan_quiet (quiet_of_ne hcolon hfeed) idx state _).trans (hscan after)
          · rw [readColons, if_neg hcolon, if_neg hfeed]
            exact hrecorded.skipped

/-- A name, from its first character to the colon behind it. -/
theorem scan_name (name : Name) {skip : ℕ} (hskip : skip ≤ 1) (idx : ℕ) (state : ObjectState)
    (hkstart : state.kstart ≤ idx) :
    ∃ last,
      (∀ rest, scan objectStep idx skip state (name.text ++ rest) =
          scan objectStep (idx + name.text.length) 0 last rest) ∧
        (name.isUnquoted = true → last.kstart = state.kstart) ∧
        last.kstart ≤ idx + name.text.length ∧
        Recorded name.Mentions (idx + 1) state.ranges last.ranges := by
  cases name with
  | identifier name hname =>
    have hlength : 1 ≤ name.length := by
      cases name with
      | nil => cases hname
      | cons head tail => simp
    refine ⟨state, ?_, fun _ ↦ rfl, Nat.le_add_right_of_le hkstart, fun kind ↦ ⟨False.elim, ?_⟩⟩
    · exact scan_quiet_append (quiet_of_isIdentifier hname) (hskip.trans hlength) idx state
    · exact fun _ ↦ rfl
  | quoted mark hmark content hcontent =>
    have hquiet : ∀ ch ∈ [mark], Quiet objectStep ch := by
      intro ch hch
      obtain rfl := List.mem_singleton.mp hch
      obtain rfl | rfl := hmark
      · exact quiet_of_ne (by decide) (by decide)
      · exact quiet_of_ne (by decide) (by decide)
    obtain ⟨last, lastSkip, hscan, hlast, hnew, hrecorded⟩ :=
      scan_content hmark content (Nat.zero_le _) (idx + 1) state (by omega)
    have hlength : idx + (Name.quoted mark hmark content hcontent).text.length =
        idx + 1 + content.length + 1 := by
      simp only [Name.text, List.length_cons, List.length_append, List.length_nil]
      omega
    refine ⟨last, ?_, fun h ↦ absurd h Bool.false_ne_true, ?_, hrecorded⟩
    · intro rest
      calc
        scan objectStep idx skip state ((Name.quoted mark hmark content hcontent).text ++ rest) =
            scan objectStep idx skip state ([mark] ++ (content ++ mark :: rest)) := by
          simp [Name.text]
        _ = scan objectStep (idx + 1) 0 state (content ++ mark :: rest) :=
          scan_quiet_append hquiet hskip idx state _
        _ = scan objectStep (idx + 1 + content.length) lastSkip last ([mark] ++ rest) :=
          hscan rest
        _ = scan objectStep (idx + 1 + content.length + 1) 0 last rest :=
          scan_quiet_append hquiet hlast _ last rest
        _ = _ := by rw [hlength]
    · rw [hlength]
      exact Nat.le_succ_of_le hnew

/-! ## The loop on a member -/

theorem functionAt_method (method : Method) (rest : Bytes) :
    functionAt (method.text ++ rest) functionStarts = some (some method.kind) := by
  cases method with
  | reverse returns => cases returns <;> rfl
  | slice => rfl
  | splice => rfl
  | swap firstModulo secondModulo returns => rfl

theorem quiet_of_all {text : Bytes}
    (h : text.all (fun ch ↦ ch != colon && ch != lineFeed) = true) :
    ∀ ch ∈ text, Quiet objectStep ch := by
  intro ch hch
  have hplain := List.all_eq_true.mp h ch hch
  rw [Bool.and_eq_true, bne_iff_ne, bne_iff_ne] at hplain
  exact quiet_of_ne hplain.1 hplain.2

theorem quiet_method (method : Method) : ∀ ch ∈ method.text, Quiet objectStep ch := by
  apply quiet_of_all
  cases method with
  | reverse returns => cases returns <;> rfl
  | slice => rfl
  | splice => rfl
  | swap firstModulo secondModulo returns =>
    cases firstModulo <;> cases secondModulo <;> cases returns <;> rfl

theorem quiet_separator (member : Member) : ∀ ch ∈ member.separator, Quiet objectStep ch := by
  apply quiet_of_all
  rw [Member.separator]
  cases member.hasComma <;> cases member.hasReturn <;> rfl

theorem Method.head_text (method : Method) : method.text.head? = some 102 := by
  cases method with
  | reverse returns => cases returns <;> rfl
  | slice => rfl
  | splice => rfl
  | swap firstModulo secondModulo returns => rfl

/-- A colon behind a name. -/
theorem objectStep_method (method : Method) (rest : Bytes) (idx : ℕ) (state : ObjectState) :
    objectStep idx state colon (method.text ++ rest) =
      some (⟨state.kstart, Function.update state.ranges method.kind ⟨state.kstart, idx⟩⟩, 1) := by
  have hhead : (method.text ++ rest).head? = some 102 := by
    rw [List.head?_append, method.head_text]
    rfl
  rw [objectStep_colon (functionAt_method method rest) hhead, if_neg (by decide)]
  rfl

/-- What is new in the ranges behind a member: its kind is recorded, and so are the kinds that its
name mentions. -/
structure RecordsMember (member : Member) (idx : ℕ) (state last : ObjectState) : Prop where
  stop : (last.ranges member.method.kind).stop = idx + member.name.text.length
  start : member.name.isUnquoted = true →
    (last.ranges member.method.kind).start = state.kstart
  mentioned : ∀ kind, kind ≠ member.method.kind → member.name.Mentions kind →
    idx < (last.ranges kind).stop
  kept : ∀ kind, kind ≠ member.method.kind → ¬ member.name.Mentions kind →
    last.ranges kind = state.ranges kind

/-- A member without the line feed at its end. -/
def Member.property (member : Member) : Bytes :=
  member.name.text ++ colon :: (member.method.text ++ member.separator)

theorem Member.text_eq (member : Member) :
    member.text = member.property ++ optional member.hasFeed [lineFeed] := rfl

theorem scan_property (member : Member) {skip : ℕ} (hskip : skip ≤ 1) (idx : ℕ)
    (state : ObjectState) (hkstart : state.kstart ≤ idx) :
    ∃ last,
      (∀ rest, scan objectStep idx skip state (member.property ++ rest) =
          scan objectStep (idx + member.property.length) 0 last rest) ∧
        last.kstart < idx + member.property.length ∧ RecordsMember member idx state last := by
  have htext (rest : Bytes) : member.property ++ rest =
      member.name.text ++ colon :: (member.method.text ++ member.separator ++ rest) := by
    simp [Member.property]
  have hlength : idx + member.property.length =
      idx + member.name.text.length + 1 +
        (member.method.text ++ member.separator).length := by
    simp only [Member.property, List.length_append, List.length_cons]
    omega
  obtain ⟨named, hname, hunquoted, hnamed, hrecorded⟩ :=
    scan_name member.name hskip idx state hkstart
  have hcolon (rest : Bytes) := objectStep_method member.method (member.separator ++ rest)
    (idx + member.name.text.length) named
  simp only [← List.append_assoc] at hcolon
  have hquiet : ∀ ch ∈ member.method.text ++ member.separator, Quiet objectStep ch := by
    intro ch hch
    obtain hch | hch := List.mem_append.mp hch
    · exact quiet_method member.method ch hch
    · exact quiet_separator member ch hch
  have hroom : 1 ≤ (member.method.text ++ member.separator).length := by
    have hpositive := List.length_pos_of_mem (List.mem_of_mem_head? member.method.head_text)
    rw [List.length_append]
    omega
  refine ⟨⟨named.kstart, Function.update named.ranges member.method.kind
    ⟨named.kstart, idx + member.name.text.length⟩⟩, ?_, ?_, ?_⟩
  · intro rest
    rw [htext, hname, scan_of_step (hcolon rest), hlength]
    exact scan_quiet_append hquiet hroom _ _ _
  · dsimp only
    omega
  · exact
      { stop := by
          dsimp only
          rw [Function.update_self]
        start := by
          intro h
          dsimp only
          rw [Function.update_self]
          exact hunquoted h
        mentioned := by
          intro kind hkind
          dsimp only
          rw [Function.update_of_ne hkind]
          exact (hrecorded kind).1
        kept := by
          intro kind hkind
          dsimp only
          rw [Function.update_of_ne hkind]
          exact (hrecorded kind).2 }

/-- A member, with the line feed at its end if it has one. -/
theorem scan_member (member : Member) {skip : ℕ} (hskip : skip ≤ 1) (idx : ℕ)
    (state : ObjectState) (hkstart : state.kstart ≤ idx) :
    ∃ last lastSkip,
      (∀ rest, scan objectStep idx skip state (member.text ++ rest) =
          scan objectStep (idx + member.text.length) lastSkip last rest) ∧
        lastSkip ≤ 1 ∧ last.kstart ≤ idx + member.text.length ∧
        (last.kstart = idx + member.text.length ↔ member.hasFeed = true) ∧
        RecordsMember member idx state last := by
  obtain ⟨last, hscan, hlast, hrecords⟩ :=
    scan_property member hskip idx state hkstart
  rw [member.text_eq]
  cases hfeed : member.hasFeed with
  | false =>
    rw [optional, if_neg Bool.false_ne_true, List.append_nil]
    refine ⟨last, 0, hscan, Nat.zero_le 1, hlast.le, ?_, hrecords⟩
    simp [hlast.ne]
  | true =>
    rw [optional, if_pos rfl, List.length_append, List.length_singleton, ← Nat.add_assoc]
    refine ⟨⟨idx + member.property.length + 1, last.ranges⟩, 1, ?_, le_refl 1, le_refl _, ?_, ?_⟩
    · intro rest
      rw [List.append_assoc, hscan]
      exact scan_of_step (objectStep_lineFeed _ last rest)
    · simp
    · exact ⟨hrecords.stop, hrecords.start, hrecords.mentioned, hrecords.kept⟩

/-! ## The loop on a body -/

theorem startsLine_append (members : List Member) (last : Member) :
    StartsLine (members ++ [last]) ↔ last.hasFeed = true := by
  simp [StartsLine]

/-- What the loop knows after these members. -/
structure Scanned (members : List Member) (skip : ℕ) (state : ObjectState) : Prop where
  scan : ∀ rest,
    scan objectStep 0 0 ⟨0, noRanges⟩ (bodyOf members ++ rest) =
      Scanner.scan objectStep (bodyOf members).length skip state rest
  skip_le : skip ≤ 1
  kstart_le : state.kstart ≤ (bodyOf members).length
  kstart_eq : state.kstart = (bodyOf members).length ↔ StartsLine members
  agrees : ∀ kind, Agrees members kind (state.ranges kind) ↔ Readable members kind

theorem scanned_nil : Scanned [] 0 ⟨0, noRanges⟩ where
  scan _ := rfl
  skip_le := Nat.zero_le 1
  kstart_le := le_refl 0
  kstart_eq := by simp [StartsLine, bodyOf]
  agrees kind := by
    have hnone (before : List Member) (member : Member) (after : List Member)
        (h : Alone kind [] before member after) : False := by
      simpa using h.members_eq
    constructor
    · intro _
      exact ⟨fun before member after h ↦ (hnone before member after h).elim, by simp⟩
    · intro _
      exact ⟨fun before member after h ↦ (hnone before member after h).elim, fun _ ↦ rfl⟩

/-- The range of a member is that of its name when it has no quotes and its line starts with it. -/
theorem RecordsMember.range_eq {member : Member} {idx : ℕ} {state last : ObjectState}
    (h : RecordsMember member idx state last) :
    last.ranges member.method.kind = member.name.range idx ↔
      member.name.isUnquoted = true ∧ state.kstart = idx := by
  obtain ⟨hstop, hstart, -, -⟩ := h
  generalize last.ranges member.method.kind = range at hstop hstart ⊢
  obtain ⟨start, stop⟩ := range
  obtain ⟨name, method, hasComma, hasReturn, hasFeed⟩ := member
  cases name with
  | identifier name hname =>
    obtain rfl : start = state.kstart := hstart rfl
    obtain rfl : stop = idx + name.length := hstop
    simp [Name.range, Name.isUnquoted]
  | quoted mark hmark content hcontent =>
    simp only [Name.text, List.length_cons, List.length_append, List.length_nil] at hstop
    simp only [Name.range, Name.isUnquoted, Range.mk.injEq, Bool.false_eq_true, false_and,
      iff_false, not_and]
    omega

theorem agrees_append {members : List Member} {member : Member} {kind : SigAction}
    {state last : ObjectState}
    (hline : state.kstart = (bodyOf members).length ↔ StartsLine members)
    (hagrees : Agrees members kind (state.ranges kind) ↔ Readable members kind)
    (hrecords : RecordsMember member (bodyOf members).length state last) :
    Agrees (members ++ [member]) kind (last.ranges kind) ↔
      Readable (members ++ [member]) kind := by
  by_cases hkind : member.method.kind = kind
  · rw [agrees_append_same hkind, readable_append_same hkind, ← hline, ← hkind, hrecords.range_eq]
  · by_cases hmentions : member.name.Mentions kind
    · rw [readable_append_mentions hkind hmentions]
      exact agrees_append_later hkind (hrecords.mentioned kind (Ne.symm hkind) hmentions)
    · rw [agrees_append_other hkind, readable_append_other hkind hmentions,
        hrecords.kept kind (Ne.symm hkind) hmentions]
      exact hagrees

/-- One member more. -/
theorem Scanned.append {members : List Member} {skip : ℕ} {state : ObjectState}
    (h : Scanned members skip state) (member : Member) :
    ∃ last lastSkip, Scanned (members ++ [member]) lastSkip last := by
  have hlength : (bodyOf (members ++ [member])).length =
      (bodyOf members).length + member.text.length := by
    simp [bodyOf]
  obtain ⟨last, lastSkip, hscan, hskip, hle, hfeed, hrecords⟩ :=
    scan_member member h.skip_le _ state h.kstart_le
  refine ⟨last, lastSkip, ?_, hskip, ?_, ?_, ?_⟩
  · intro rest
    rw [hlength, bodyOf_append, List.append_assoc, h.scan, bodyOf_cons, List.append_assoc, hscan]
    rfl
  · rw [hlength]
    exact hle
  · rw [hlength, startsLine_append]
    exact hfeed
  · intro kind
    exact agrees_append h.kstart_eq (h.agrees kind) hrecords

/-- **The scanner of the action object.** For every body that the expression matches the loop goes
to its end. For each kind of function it records the names that it should exactly when the kind is
readable. -/
theorem objectLoop_agrees_iff (members : List Member) :
    ∃ state, objectLoop (bodyOf members) = some state ∧
      ((∀ kind, Agrees members kind (state.ranges kind)) ↔ ∀ kind, Readable members kind) := by
  have hscanned : ∃ state skip, Scanned members skip state := by
    induction members using List.reverseRecOn with
    | nil => exact ⟨_, _, scanned_nil⟩
    | append_singleton members member ih =>
      obtain ⟨state, skip, h⟩ := ih
      exact h.append member
  obtain ⟨state, skip, h⟩ := hscanned
  refine ⟨state, ?_, forall_congr' h.agrees⟩
  have hscan := h.scan []
  rw [List.append_nil, scan_nil] at hscan
  exact hscan

/-- The member `xy` that reverses, and behind a comma the member `zz` that splices. -/
def oneLine : List Member :=
  [⟨.identifier (ascii "xy") rfl, .reverse false, true, false, false⟩,
    ⟨.identifier (ascii "zz") rfl, .splice, false, false, false⟩]

/-- The member `'a'` that reverses. -/
def inQuotes : List Member :=
  [⟨.quoted quote isMark_quote (ascii "a") (.plain (by decide) (by decide) .nil), .reverse false,
   false,
    false, true⟩]

/-- The name of the second member on a line is taken to start with the line, and a name in quotes to
contain them. -/
theorem objectLoop_not_agrees :
    (∃ state, objectLoop (bodyOf oneLine) = some state ∧
        ¬ ∀ kind, Agrees oneLine kind (state.ranges kind)) ∧
      ∃ state, objectLoop (bodyOf inQuotes) = some state ∧
        ¬ ∀ kind, Agrees inQuotes kind (state.ranges kind) := by
  refine ⟨⟨_, rfl, fun h ↦ ?_⟩, ⟨_, rfl, fun h ↦ ?_⟩⟩
  · have hrange := (h .splice).alone [_] _ [] ⟨rfl, rfl, by simp [Method.kind]⟩
    exact absurd hrange (by decide)
  · have hrange := (h .reverse).alone [] _ [] ⟨rfl, rfl, by simp⟩
    exact absurd hrange (by decide)

end LibYtdl.Sig.ObjectScan
