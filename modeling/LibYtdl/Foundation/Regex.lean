import Mathlib

/-!
# Regular expressions and their ordered matches

A backtracking matcher tries the ways to match an expression in an order: the first alternative
before the second, one more repetition before none. The list of its results, each of them an end and
the captured positions, is what such a matcher goes through; its answer is the first of them.

A loop whose body matches the empty word leaves the loop. This costs no word of the language.
-/

namespace LibYtdl.Regex

/-- A regular expression over classes of characters. A group keeps the positions that it starts and
ends at, and a reset forgets the positions of a range of groups. -/
inductive Node (C : Type*)
  | one (cls : C)
  | seq (first second : Node C)
  | alt (first second : Node C)
  | group (index : ℕ) (body : Node C)
  | reset (first last : ℕ)
  | many (least : ℕ) (most : Option ℕ) (word : List C)
  | maybe (body : Node C)
  | loop (body : Node C)

/-- The captured positions: of each group where it starts and where it ends. -/
abbrev Captures := List (Option ℕ)

/-- The groups from one on are forgotten. -/
def Captures.forget : ℕ → ℕ → Captures → Captures
  | _, 0, captures => captures
  | index, count + 1, captures =>
    Captures.forget (index + 1) count ((captures.set (2 * index) none).set (2 * index + 1) none)

variable {C α : Type*}

section Results

variable (accepts : C → α → Bool) (input : List α)

/-- The character at a position is of the class. -/
def oneAt (cls : C) (pos : ℕ) : Bool := input[pos]?.any (accepts cls)

/-- The characters from a position on are of the classes. -/
def wordAt : List C → ℕ → Bool
  | [], _ => true
  | cls :: word, pos => oneAt accepts input cls pos && wordAt word (pos + 1)

/-- How often the word stands from a position on, one behind the other, up to a number. -/
def countAt (word : List C) : ℕ → ℕ → ℕ
  | 0, _ => 0
  | most + 1, pos =>
    if wordAt accepts input word pos then countAt word most (pos + word.length) + 1 else 0

/-- The repetitions of a body, the longest ones first. -/
def iterate (body : ℕ → Captures → List (ℕ × Captures)) : ℕ → ℕ → Captures → List (ℕ × Captures)
  | 0, pos, captures => [(pos, captures)]
  | fuel + 1, pos, captures =>
    ((body pos captures).flatMap fun (last, next) ↦
      if last = pos then [(last, next)] else iterate body fuel last next) ++ [(pos, captures)]

/-- The ways to match an expression from a position on, in the order in which they are tried. -/
def results : Node C → ℕ → Captures → List (ℕ × Captures)
  | .one cls, pos, captures => if oneAt accepts input cls pos then [(pos + 1, captures)] else []
  | .seq first second, pos, captures =>
    (results first pos captures).flatMap fun (last, next) ↦ results second last next
  | .alt first second, pos, captures => results first pos captures ++ results second pos captures
  | .group index body, pos, captures =>
    (results body pos (captures.set (2 * index) (some pos))).map fun (last, next) ↦
      (last, next.set (2 * index + 1) (some last))
  | .reset first last, pos, captures => [(pos, captures.forget first (last + 1 - first))]
  | .many least most word, pos, captures =>
    let count := countAt accepts input word (most.getD (input.length + 1)) pos
    (List.range (count + 1 - least)).map fun k ↦ (pos + (count - k) * word.length, captures)
  | .maybe body, pos, captures => results body pos captures ++ [(pos, captures)]
  | .loop body, pos, captures => iterate (results body) (input.length + 1 - pos) pos captures

/-- The words of an expression. -/
inductive Matches : Node C → List α → Prop
  | one {cls : C} {char : α} (h : accepts cls char = true) : Matches (.one cls) [char]
  | seq {first second : Node C} {u v : List α} (hfirst : Matches first u)
    (hsecond : Matches second v) :
    Matches (.seq first second) (u ++ v)
  | altFirst {first second : Node C} {u : List α} (h : Matches first u) :
    Matches (.alt first second) u
  | altSecond {first second : Node C} {u : List α} (h : Matches second u) :
    Matches (.alt first second) u
  | group {index : ℕ} {body : Node C} {u : List α} (h : Matches body u) :
    Matches (.group index body) u
  | reset (first last : ℕ) : Matches (.reset first last) []
  | many {least : ℕ} {most : Option ℕ} {word : List C} {words : List (List α)}
    (hleast : least ≤ words.length) (hmost : ∀ m ∈ most, words.length ≤ m)
    (hwords : ∀ u ∈ words, List.Forall₂ (fun cls char ↦ accepts cls char = true) word u) :
    Matches (.many least most word) words.flatten
  | maybeNone (body : Node C) : Matches (.maybe body) []
  | maybeSome {body : Node C} {u : List α} (h : Matches body u) : Matches (.maybe body) u
  | loopNil (body : Node C) : Matches (.loop body) []
  | loopCons {body : Node C} {u v : List α} (hfirst : Matches body u)
    (hrest : Matches (.loop body) v) :
    Matches (.loop body) (u ++ v)

end Results

/-- The groups and resets of an expression. -/
def Node.groups : Node C → List ℕ
  | .one _ | .many _ _ _ => []
  | .seq first second | .alt first second => first.groups ++ second.groups
  | .group index body => index :: body.groups
  | .reset first last => (List.range (last + 1 - first)).map (first + ·)
  | .maybe body | .loop body => body.groups

/-- A word that is repeated is not empty, and it may be repeated at all. -/
def Node.Proper : Node C → Prop
  | .one _ | .reset _ _ => True
  | .seq first second | .alt first second => first.Proper ∧ second.Proper
  | .group _ body | .maybe body | .loop body => body.Proper
  | .many _ most word => word ≠ [] ∧ most ≠ some 0

/-! ## Words at positions -/

section Positions

variable {accepts : C → α → Bool} {input : List α} {cls : C} {word : List C} {pos : ℕ}

theorem oneAt_iff : oneAt accepts input cls pos = true ↔
    ∃ char, input[pos]? = some char ∧ accepts cls char = true := by
  rw [oneAt, Option.any_eq_true]

theorem wordAt_iff : wordAt accepts input word pos = true ↔
    ∃ u, u <+: input.drop pos ∧ List.Forall₂ (fun cls char ↦ accepts cls char = true) word u := by
  induction word generalizing pos with
  | nil =>
    rw [wordAt]
    exact iff_of_true rfl ⟨[], List.nil_prefix, .nil⟩
  | cons cls word ih =>
    rw [wordAt, Bool.and_eq_true, oneAt_iff, ih]
    constructor
    · rintro ⟨⟨char, hchar, haccepts⟩, u, hstarts, hall⟩
      obtain ⟨hlt, hget⟩ := List.getElem?_eq_some_iff.mp hchar
      refine ⟨char :: u, ?_, .cons haccepts hall⟩
      rw [List.drop_eq_getElem_cons hlt, hget]
      exact List.cons_prefix_cons.mpr ⟨rfl, hstarts⟩
    · rintro ⟨u, hstarts, hall⟩
      cases hall with
      | cons haccepts hall =>
        obtain ⟨rest, hrest⟩ := hstarts
        rw [List.cons_append] at hrest
        have hhead := congrArg List.head? hrest
        have htail := congrArg List.tail hrest
        rw [List.head?_cons, List.head?_drop] at hhead
        rw [List.tail_cons, List.tail_drop] at htail
        exact ⟨⟨_, hhead.symm, haccepts⟩, _, ⟨rest, htail⟩, hall⟩

theorem wordAt_lt (hword : word ≠ []) (h : wordAt accepts input word pos = true) :
    pos + word.length ≤ input.length := by
  obtain ⟨u, hstarts, hall⟩ := Iff.mp wordAt_iff h
  have hle := hstarts.length_le
  have hlength := hall.length_eq
  have hpos := List.length_pos_iff.mpr hword
  rw [List.length_drop] at hle
  omega

theorem le_countAt {most count : ℕ} : count ≤ countAt accepts input word most pos ↔
    count ≤ most ∧ ∀ k < count, wordAt accepts input word (pos + k * word.length) = true := by
  induction most generalizing count pos with
  | zero =>
    rw [countAt, Nat.le_zero]
    constructor
    · rintro rfl
      exact ⟨rfl, fun k hk ↦ absurd hk (Nat.not_lt_zero k)⟩
    · exact And.left
  | succ most ih =>
    cases count with
    | zero => exact iff_of_true (Nat.zero_le _) ⟨Nat.zero_le _,
      fun k hk ↦ absurd hk (Nat.not_lt_zero k)⟩
    | succ count =>
      have hshift (k : ℕ) : pos + (k + 1) * word.length = pos + word.length + k * word.length := by
        ring
      rw [countAt]
      split
      · next hfirst =>
        rw [Nat.add_le_add_iff_right, Nat.add_le_add_iff_right, ih]
        refine and_congr_right fun _ ↦ ⟨fun hall k hk ↦ ?_, fun hall k hk ↦ ?_⟩
        · cases k with
          | zero => rwa [Nat.zero_mul, Nat.add_zero]
          | succ k =>
            rw [hshift]
            exact hall k (Nat.lt_of_succ_lt_succ hk)
        · rw [← hshift]
          exact hall (k + 1) (Nat.succ_lt_succ hk)
      · next hfirst =>
        refine iff_of_false (Nat.not_succ_le_zero _) fun ⟨_, hall⟩ ↦ hfirst ?_
        have hzero := hall 0 count.succ_pos
        rwa [Nat.zero_mul, Nat.add_zero] at hzero

theorem flatten_length {words : List (List α)}
    (h : ∀ u ∈ words, List.Forall₂ (fun cls char ↦ accepts cls char = true) word u) :
    words.flatten.length = words.length * word.length := by
  have hmap : words.map List.length = List.replicate words.length word.length := by
    refine List.eq_replicate_iff.mpr ⟨List.length_map _, fun n hn ↦ ?_⟩
    obtain ⟨u, hu, rfl⟩ := List.mem_map.mp hn
    exact (h u hu).length_eq.symm
  rw [List.length_flatten, hmap, List.sum_replicate, smul_eq_mul]

/-- Words one behind the other. -/
theorem words_iff {count : ℕ} :
    (∀ k < count, wordAt accepts input word (pos + k * word.length) = true) ↔
      ∃ words : List (List α), words.length = count ∧ words.flatten <+: input.drop pos ∧
        ∀ u ∈ words, List.Forall₂ (fun cls char ↦ accepts cls char = true) word u := by
  induction count generalizing pos with
  | zero =>
    refine iff_of_true (fun k hk ↦ absurd hk (Nat.not_lt_zero k)) ⟨[], rfl, List.nil_prefix, ?_⟩
    exact fun u hu ↦ absurd hu List.not_mem_nil
  | succ count ih =>
    have hshift (k : ℕ) : pos + (k + 1) * word.length = pos + word.length + k * word.length := by
      ring
    constructor
    · intro h
      have hzero := h 0 count.succ_pos
      rw [Nat.zero_mul, Nat.add_zero] at hzero
      obtain ⟨u, ⟨rest, hrest⟩, hall⟩ := Iff.mp wordAt_iff hzero
      have hlength := hall.length_eq
      obtain ⟨words, hcount, hstarts, hwords⟩ := (@ih (pos + word.length)).mp fun k hk ↦ by
        rw [← hshift]
        exact h (k + 1) (Nat.succ_lt_succ hk)
      refine ⟨u :: words, congrArg (· + 1) hcount, ?_, ?_⟩
      · rw [hlength, ← List.drop_drop, ← hrest, List.drop_left] at hstarts
        rw [List.flatten_cons, ← hrest]
        exact (List.prefix_append_right_inj u).mpr hstarts
      · intro other hother
        obtain rfl | hmem := List.mem_cons.mp hother
        · exact hall
        · exact hwords other hmem
    · rintro ⟨words, hcount, hstarts, hwords⟩ k hk
      cases words with
      | nil => exact absurd hcount (Nat.succ_ne_zero count).symm
      | cons u words =>
        rw [List.flatten_cons] at hstarts
        have hhead := hwords u List.mem_cons_self
        have hlength := hhead.length_eq
        obtain ⟨rest, hrest⟩ := (List.prefix_append u words.flatten).trans hstarts
        cases k with
        | zero =>
          rw [Nat.zero_mul, Nat.add_zero, wordAt_iff]
          exact ⟨u, ⟨rest, hrest⟩, hhead⟩
        | succ k =>
          rw [hshift]
          refine (@ih (pos + word.length)).mpr ⟨words, Nat.succ_inj.mp hcount, ?_, ?_⟩ k
            (Nat.lt_of_succ_lt_succ hk)
          · rw [← hrest, List.prefix_append_right_inj] at hstarts
            rw [hlength, ← List.drop_drop, ← hrest, List.drop_left]
            exact hstarts
          · exact fun other hother ↦ hwords other (List.mem_cons_of_mem u hother)

end Positions

/-! ## The results are the words -/

section Results

variable {accepts : C → α → Bool} {input : List α} {node first second body : Node C} {pos last : ℕ}
  {captures next : Captures}

theorem results_one {cls : C} : results accepts input (.one cls) pos captures =
    if oneAt accepts input cls pos then [(pos + 1, captures)] else [] := rfl

theorem results_seq : results accepts input (.seq first second) pos captures =
    (results accepts input first pos captures).flatMap fun (last, next) ↦
      results accepts input second last next := rfl

theorem results_alt : results accepts input (.alt first second) pos captures =
    results accepts input first pos captures ++ results accepts input second pos captures := rfl

theorem results_group {index : ℕ} : results accepts input (.group index body) pos captures =
    (results accepts input body pos (captures.set (2 * index) (some pos))).map fun (last, next) ↦
      (last, next.set (2 * index + 1) (some last)) := rfl

theorem results_reset {first last : ℕ} : results accepts input (.reset first last) pos captures =
    [(pos, captures.forget first (last + 1 - first))] := rfl

theorem results_many {least : ℕ} {most : Option ℕ} {word : List C} :
    results accepts input (.many least most word) pos captures =
      (List.range (countAt accepts input word (most.getD (input.length + 1)) pos + 1 - least)).map
        fun k ↦
        (pos + (countAt accepts input word (most.getD (input.length + 1)) pos - k) * word.length,
          captures) := rfl

theorem results_maybe : results accepts input (.maybe body) pos captures =
    results accepts input body pos captures ++ [(pos, captures)] := rfl

theorem results_loop : results accepts input (.loop body) pos captures =
    iterate (results accepts input body) (input.length + 1 - pos) pos captures := rfl

theorem mem_one {cls : C} : (last, next) ∈ results accepts input (.one cls) pos captures ↔
    oneAt accepts input cls pos = true ∧ last = pos + 1 ∧ next = captures := by
  rw [results_one]
  split
  · next h => rw [List.mem_singleton, Prod.mk.injEq, and_iff_right h]
  · next h => exact iff_of_false List.not_mem_nil fun ⟨hone, _⟩ ↦ h hone

theorem mem_seq : (last, next) ∈ results accepts input (.seq first second) pos captures ↔
    ∃ middle between, (middle, between) ∈ results accepts input first pos captures ∧
      (last, next) ∈ results accepts input second middle between := by
  rw [results_seq, List.mem_flatMap, Prod.exists]

theorem mem_alt : (last, next) ∈ results accepts input (.alt first second) pos captures ↔
    (last, next) ∈ results accepts input first pos captures ∨
      (last, next) ∈ results accepts input second pos captures := by
  rw [results_alt, List.mem_append]

theorem mem_group {index : ℕ} :
    (last, next) ∈ results accepts input (.group index body) pos captures ↔ ∃ between,
      (last, between) ∈ results accepts input body pos (captures.set (2 * index) (some pos)) ∧
      next = between.set (2 * index + 1) (some last) := by
  rw [results_group, List.mem_map]
  constructor
  · rintro ⟨⟨middle, between⟩, hmem, heq⟩
    obtain ⟨rfl, rfl⟩ := Prod.mk.inj heq
    exact ⟨between, hmem, rfl⟩
  · rintro ⟨between, hmem, rfl⟩
    exact ⟨(last, between), hmem, rfl⟩

theorem mem_many {least : ℕ} {most : Option ℕ} {word : List C} :
    (last, next) ∈ results accepts input (.many least most word) pos captures ↔
      next = captures ∧ ∃ count, least ≤ count ∧
        count ≤ countAt accepts input word (most.getD (input.length + 1)) pos ∧
        last = pos + count * word.length := by
  rw [results_many, List.mem_map]
  constructor
  · rintro ⟨k, hk, heq⟩
    obtain ⟨rfl, rfl⟩ := Prod.mk.inj heq
    rw [List.mem_range] at hk
    exact ⟨rfl, _, by omega, Nat.sub_le _ _, rfl⟩
  · rintro ⟨rfl, count, hleast, hmost, rfl⟩
    refine ⟨countAt accepts input word (most.getD (input.length + 1)) pos - count, ?_, ?_⟩
    · rw [List.mem_range]
      omega
    · rw [Nat.sub_sub_self hmost]

theorem mem_maybe : (last, next) ∈ results accepts input (.maybe body) pos captures ↔
    (last, next) ∈ results accepts input body pos captures ∨ last = pos ∧ next = captures := by
  rw [results_maybe, List.mem_append, List.mem_singleton, Prod.mk.injEq]

theorem mem_iterate_succ {step : ℕ → Captures → List (ℕ × Captures)} {fuel : ℕ} :
    (last, next) ∈ iterate step (fuel + 1) pos captures ↔
      (∃ middle between, (middle, between) ∈ step pos captures ∧
        if middle = pos then last = middle ∧ next = between
        else (last, next) ∈ iterate step fuel middle between) ∨ last = pos ∧ next = captures := by
  rw [iterate, List.mem_append, List.mem_singleton, Prod.mk.injEq, List.mem_flatMap, Prod.exists]
  refine or_congr_left (exists₂_congr fun middle between ↦ and_congr_right fun _ ↦ ?_)
  dsimp only
  split
  · rw [List.mem_singleton, Prod.mk.injEq]
  · rfl

theorem mem_iterate_self {step : ℕ → Captures → List (ℕ × Captures)} (fuel : ℕ) :
    (pos, captures) ∈ iterate step fuel pos captures := by
  cases fuel with
  | zero => exact List.mem_singleton_self _
  | succ fuel => exact List.mem_append_right _ (List.mem_singleton_self _)

/-- With more fuel there are no fewer results. -/
theorem mem_iterate_of_le {step : ℕ → Captures → List (ℕ × Captures)} {fuel more : ℕ}
    (hle : fuel ≤ more)
    (h : (last, next) ∈ iterate step fuel pos captures) :
      (last, next) ∈ iterate step more pos captures := by
  induction more generalizing fuel pos captures with
  | zero => rwa [Nat.le_zero.mp hle] at h
  | succ more ih =>
    cases fuel with
    | zero =>
      rw [iterate, List.mem_singleton, Prod.mk.injEq] at h
      exact Iff.mpr mem_iterate_succ (.inr h)
    | succ fuel =>
      obtain ⟨middle, between, hmem, hrest⟩ | hhere := Iff.mp mem_iterate_succ h
      · refine Iff.mpr mem_iterate_succ (.inl ⟨middle, between, hmem, ?_⟩)
        split at hrest
        · next heq => rwa [if_pos heq]
        · next hne =>
          rw [if_neg hne]
          exact ih (Nat.le_of_succ_le_succ hle) hrest
      · exact Iff.mpr mem_iterate_succ (.inr hhere)

/-- A piece of the input, and one behind it. -/
theorem append_prefix_drop {u v : List α} (hu : u <+: input.drop pos)
    (hv : v <+: input.drop (pos + u.length)) : u ++ v <+: input.drop pos := by
  obtain ⟨rest, hrest⟩ := hu
  rw [← List.drop_drop, ← hrest, List.drop_left] at hv
  rw [← hrest]
  exact (List.prefix_append_right_inj u).mpr hv

theorem prefix_drop_of_append {u v : List α} (h : u ++ v <+: input.drop pos) :
    u <+: input.drop pos ∧ v <+: input.drop (pos + u.length) := by
  refine ⟨(List.prefix_append u v).trans h, ?_⟩
  obtain ⟨rest, hrest⟩ := h
  rw [← List.drop_drop, ← hrest, List.append_assoc, List.drop_left]
  exact List.prefix_append v rest

/-- Every result is the end of a word. -/
theorem results_sound (h : (last, next) ∈ results accepts input node pos captures) :
    ∃ u, u <+: input.drop pos ∧ last = pos + u.length ∧ Matches accepts node u := by
  induction node generalizing pos captures last next with
  | one cls =>
    obtain ⟨hone, rfl, -⟩ := Iff.mp mem_one h
    obtain ⟨char, hchar, haccepts⟩ := Iff.mp oneAt_iff hone
    obtain ⟨hlt, hget⟩ := List.getElem?_eq_some_iff.mp hchar
    refine ⟨[char], ?_, rfl, .one haccepts⟩
    rw [List.drop_eq_getElem_cons hlt, hget]
    exact List.cons_prefix_cons.mpr ⟨rfl, List.nil_prefix⟩
  | seq first second ihFirst ihSecond =>
    obtain ⟨middle, between, hfirst, hsecond⟩ := Iff.mp mem_seq h
    obtain ⟨u, hu, rfl, hmatchFirst⟩ := ihFirst hfirst
    obtain ⟨v, hv, rfl, hmatchSecond⟩ := ihSecond hsecond
    exact ⟨u ++ v, append_prefix_drop hu hv, by rw [List.length_append, Nat.add_assoc],
      .seq hmatchFirst hmatchSecond⟩
  | alt first second ihFirst ihSecond =>
    obtain hfirst | hsecond := Iff.mp mem_alt h
    · obtain ⟨u, hu, hlast, hmatch⟩ := ihFirst hfirst
      exact ⟨u, hu, hlast, .altFirst hmatch⟩
    · obtain ⟨u, hu, hlast, hmatch⟩ := ihSecond hsecond
      exact ⟨u, hu, hlast, .altSecond hmatch⟩
  | group index body ih =>
    obtain ⟨between, hbody, -⟩ := Iff.mp mem_group h
    obtain ⟨u, hu, hlast, hmatch⟩ := ih hbody
    exact ⟨u, hu, hlast, .group hmatch⟩
  | reset =>
    obtain ⟨rfl, -⟩ := Prod.mk.inj (List.mem_singleton.mp h)
    exact ⟨[], List.nil_prefix, rfl, .reset _ _⟩
  | many least most word =>
    obtain ⟨-, count, hleast, hcount, rfl⟩ := Iff.mp mem_many h
    obtain ⟨hmost, hall⟩ := Iff.mp le_countAt hcount
    obtain ⟨words, rfl, hstarts, hwords⟩ := Iff.mp words_iff hall
    have hlength := flatten_length hwords
    refine ⟨words.flatten, hstarts, by rw [hlength], .many hleast (fun m hm ↦ ?_) hwords⟩
    rwa [Option.mem_def.mp hm, Option.getD_some] at hmost
  | maybe body ih =>
    obtain hbody | ⟨rfl, -⟩ := Iff.mp mem_maybe h
    · obtain ⟨u, hu, hlast, hmatch⟩ := ih hbody
      exact ⟨u, hu, hlast, .maybeSome hmatch⟩
    · exact ⟨[], List.nil_prefix, rfl, .maybeNone body⟩
  | loop body ih =>
    rw [results_loop] at h
    generalize input.length + 1 - pos = fuel at h
    induction fuel generalizing pos captures with
    | zero =>
      obtain ⟨rfl, -⟩ := Prod.mk.inj (List.mem_singleton.mp h)
      exact ⟨[], List.nil_prefix, rfl, .loopNil body⟩
    | succ fuel ihLoop =>
      obtain ⟨middle, between, hmem, hrest⟩ | ⟨rfl, -⟩ := Iff.mp mem_iterate_succ h
      · obtain ⟨u, hu, hmiddle, hmatch⟩ := ih hmem
        split at hrest
        · obtain ⟨rfl, -⟩ := hrest
          refine ⟨u ++ [], by rwa [List.append_nil], by rwa [List.append_nil], ?_⟩
          exact .loopCons hmatch (.loopNil body)
        · obtain ⟨v, hv, rfl, hmatchRest⟩ := ihLoop hrest
          rw [hmiddle] at hv ⊢
          exact ⟨u ++ v, append_prefix_drop hu hv, by rw [List.length_append, Nat.add_assoc],
            .loopCons hmatch hmatchRest⟩
      · exact ⟨[], List.nil_prefix, rfl, .loopNil body⟩

/-- Every word at a position is among the results. -/
theorem results_complete (hproper : node.Proper) {u : List α} (h : Matches accepts node u)
    (hstarts : u <+: input.drop pos) (captures : Captures) :
    ∃ next, (pos + u.length, next) ∈ results accepts input node pos captures := by
  induction h generalizing pos captures with
  | one haccepts =>
    refine ⟨captures, Iff.mpr mem_one ⟨Iff.mpr oneAt_iff ⟨_, ?_, haccepts⟩, rfl, rfl⟩⟩
    obtain ⟨rest, hrest⟩ := hstarts
    rw [← List.head?_drop, ← hrest]
    rfl
  | seq _ _ ihFirst ihSecond =>
    obtain ⟨hu, hv⟩ := prefix_drop_of_append hstarts
    obtain ⟨between, hfirst⟩ := ihFirst hproper.1 hu captures
    obtain ⟨next, hsecond⟩ := ihSecond hproper.2 hv between
    rw [List.length_append, ← Nat.add_assoc]
    exact ⟨next, Iff.mpr mem_seq ⟨_, between, hfirst, hsecond⟩⟩
  | altFirst _ ih =>
    obtain ⟨next, hnext⟩ := ih hproper.1 hstarts captures
    exact ⟨next, Iff.mpr mem_alt (.inl hnext)⟩
  | altSecond _ ih =>
    obtain ⟨next, hnext⟩ := ih hproper.2 hstarts captures
    exact ⟨next, Iff.mpr mem_alt (.inr hnext)⟩
  | group _ ih =>
    obtain ⟨between, hbody⟩ := ih hproper hstarts _
    exact ⟨_, Iff.mpr mem_group ⟨between, hbody, rfl⟩⟩
  | reset first last => exact ⟨_, List.mem_singleton.mpr rfl⟩
  | @many least most word words hleast hmost hwords =>
    have hlength := flatten_length hwords
    have hall := Iff.mpr words_iff ⟨words, rfl, hstarts, hwords⟩
    refine ⟨captures, Iff.mpr mem_many ⟨rfl, words.length, hleast, Iff.mpr le_countAt ⟨?_, hall⟩,
      by rw [hlength]⟩⟩
    cases most with
    | some m => exact hmost m rfl
    | none =>
      have hle := hstarts.length_le
      have hpos := List.length_pos_iff.mpr hproper.1
      rw [hlength, List.length_drop] at hle
      have hmul := Nat.le_mul_of_pos_right words.length hpos
      rw [Option.getD_none]
      omega
  | maybeNone body => exact ⟨captures, Iff.mpr mem_maybe (.inr ⟨rfl, rfl⟩)⟩
  | maybeSome _ ih =>
    obtain ⟨next, hnext⟩ := ih hproper hstarts captures
    exact ⟨next, Iff.mpr mem_maybe (.inl hnext)⟩
  | loopNil body => exact ⟨captures, mem_iterate_self _⟩
  | @loopCons body u v _ _ ihFirst ihRest =>
    obtain ⟨hu, hv⟩ := prefix_drop_of_append hstarts
    obtain ⟨between, hfirst⟩ := ihFirst hproper hu captures
    by_cases hnil : u = []
    · subst hnil
      exact ihRest hproper hv captures
    · obtain ⟨next, hrest⟩ := ihRest hproper hv between
      refine ⟨next, ?_⟩
      have hpos := List.length_pos_iff.mpr hnil
      have hle := hu.length_le
      rw [List.length_drop] at hle
      rw [results_loop] at hrest ⊢
      obtain ⟨fuel, hfuel⟩ : ∃ fuel, input.length + 1 - pos = fuel + 1 :=
        ⟨input.length - pos, by omega⟩
      rw [hfuel, List.length_append, ← Nat.add_assoc]
      refine Iff.mpr mem_iterate_succ (.inl ⟨_, between, hfirst, ?_⟩)
      rw [if_neg (by omega)]
      exact mem_iterate_of_le (by omega) hrest

theorem results_bounds (hpos : pos ≤ input.length)
    (h : (last, next) ∈ results accepts input node pos captures) :
      pos ≤ last ∧ last ≤ input.length := by
  obtain ⟨u, hu, rfl, -⟩ := results_sound h
  have hle := hu.length_le
  rw [List.length_drop] at hle
  omega

end Results

/-! ## Captures -/

section Captures

variable {accepts : C → α → Bool} {input : List α} {node body : Node C} {pos last : ℕ}
  {captures next : Captures}

/-- The groups in the list may have been set or forgotten, and nothing else. -/
structure Within (groups : List ℕ) (captures next : Captures) : Prop where
  length : next.length = captures.length
  kept : ∀ index, index / 2 ∉ groups → next[index]? = captures[index]?

theorem within_refl (groups : List ℕ) (captures : Captures) : Within groups captures captures :=
  ⟨rfl, fun _ _ ↦ rfl⟩

theorem Within.trans {groups : List ℕ} {first second third : Captures}
    (h : Within groups first second)
    (hnext : Within groups second third) : Within groups first third :=
  ⟨hnext.length.trans h.length, fun index hindex ↦
    (hnext.kept index hindex).trans (h.kept index hindex)⟩

theorem Within.mono {groups more : List ℕ} (hsubset : groups ⊆ more)
    (h : Within groups captures next) :
    Within more captures next :=
  ⟨h.length, fun index hindex ↦ h.kept index fun hmem ↦ hindex (hsubset hmem)⟩

theorem group_of_start (index : ℕ) : 2 * index / 2 = index := by omega

theorem group_of_end (index : ℕ) : (2 * index + 1) / 2 = index := by omega

theorem within_set {groups : List ℕ} {index : ℕ} (h : index / 2 ∈ groups) (captures : Captures)
    (value : Option ℕ) : Within groups captures (captures.set index value) := by
  refine ⟨List.length_set, fun other hother ↦ List.getElem?_set_ne ?_⟩
  rintro rfl
  exact hother h

theorem within_forget {groups : List ℕ} {index count : ℕ} (h : ∀ k < count, index + k ∈ groups)
    (captures : Captures) : Within groups captures (captures.forget index count) := by
  induction count generalizing index captures with
  | zero => exact within_refl groups captures
  | succ count ih =>
    have hindex : index ∈ groups := h 0 count.succ_pos
    refine (within_set (by rwa [group_of_start]) captures none).trans
      ((within_set (by rwa [group_of_end]) _ none).trans (ih (fun k hk ↦ ?_) _))
    rw [Nat.add_assoc, Nat.add_comm 1 k]
    exact h (k + 1) (Nat.succ_lt_succ hk)

/-- A match sets the groups of the expression only. -/
theorem results_within (h : (last, next) ∈ results accepts input node pos captures) :
    Within node.groups captures next := by
  induction node generalizing pos captures last next with
  | one cls =>
    obtain ⟨-, -, rfl⟩ := Iff.mp mem_one h
    exact within_refl _ _
  | seq first second ihFirst ihSecond =>
    obtain ⟨middle, between, hfirst, hsecond⟩ := Iff.mp mem_seq h
    exact ((ihFirst hfirst).mono (List.subset_append_left _ _)).trans
      ((ihSecond hsecond).mono (List.subset_append_right _ _))
  | alt first second ihFirst ihSecond =>
    obtain hfirst | hsecond := Iff.mp mem_alt h
    · exact (ihFirst hfirst).mono (List.subset_append_left _ _)
    · exact (ihSecond hsecond).mono (List.subset_append_right _ _)
  | group index body ih =>
    obtain ⟨between, hbody, rfl⟩ := Iff.mp mem_group h
    have hstart : 2 * index / 2 ∈ (Node.group index body).groups := by
      rw [group_of_start]
      exact List.mem_cons_self
    have hend : (2 * index + 1) / 2 ∈ (Node.group index body).groups := by
      rw [group_of_end]
      exact List.mem_cons_self
    exact (within_set hstart captures _).trans
      (((ih hbody).mono (List.subset_cons_self _ _)).trans (within_set hend between _))
  | reset first last =>
    obtain ⟨-, rfl⟩ := Prod.mk.inj (List.mem_singleton.mp h)
    refine within_forget (fun k hk ↦ ?_) captures
    exact List.mem_map.mpr ⟨k, List.mem_range.mpr hk, rfl⟩
  | many least most word =>
    obtain ⟨rfl, -⟩ := Iff.mp mem_many h
    exact within_refl _ _
  | maybe body ih =>
    obtain hbody | ⟨-, rfl⟩ := Iff.mp mem_maybe h
    · exact ih hbody
    · exact within_refl _ _
  | loop body ih =>
    rw [results_loop] at h
    generalize input.length + 1 - pos = fuel at h
    induction fuel generalizing pos captures with
    | zero =>
      obtain ⟨-, rfl⟩ := Prod.mk.inj (List.mem_singleton.mp h)
      exact within_refl _ _
    | succ fuel ihLoop =>
      obtain ⟨middle, between, hmem, hrest⟩ | ⟨-, rfl⟩ := Iff.mp mem_iterate_succ h
      · split at hrest
        · obtain ⟨-, rfl⟩ := hrest
          exact ih hmem
        · exact (ih hmem).trans (ihLoop hrest)
      · exact within_refl _ _

/-- A group that is not set again within itself holds what its body has matched. -/
theorem group_captures {index : ℕ} (hindex : index ∉ body.groups)
    (hlt : 2 * index + 1 < captures.length)
    (h : (last, next) ∈ results accepts input (.group index body) pos captures) :
    next[2 * index]? = some (some pos) ∧ next[2 * index + 1]? = some (some last) := by
  obtain ⟨between, hbody, rfl⟩ := Iff.mp mem_group h
  have hwithin := results_within hbody
  have hlength := hwithin.length
  rw [List.length_set] at hlength
  constructor
  · rw [List.getElem?_set_ne (by omega), hwithin.kept _ (by rwa [group_of_start]),
      List.getElem?_set_self (by omega)]
  · exact List.getElem?_set_self (by omega)

/-- The piece of the input that a group holds. -/
def piece (input : List α) (captures : Captures) (index : ℕ) : Option (List α) :=
  match captures[2 * index]?.join, captures[2 * index + 1]?.join with
  | some start, some stop => if start ≤ stop then some ((input.take stop).drop start) else none
  | _, _ => none

theorem piece_group {index : ℕ} (hindex : index ∉ body.groups)
    (hlt : 2 * index + 1 < captures.length)
    (h : (last, next) ∈ results accepts input (.group index body) pos captures) :
    ∃ u, u <+: input.drop pos ∧ last = pos + u.length ∧ Matches accepts body u ∧
      piece input next index = some u := by
  obtain ⟨hstart, hstop⟩ := group_captures hindex hlt h
  obtain ⟨between, hbody, -⟩ := Iff.mp mem_group h
  obtain ⟨u, hu, rfl, hmatch⟩ := results_sound hbody
  refine ⟨u, hu, rfl, hmatch, ?_⟩
  have hpiece : (input.take (pos + u.length)).drop pos = u := by
    rw [List.drop_take, Nat.add_sub_cancel_left]
    exact List.prefix_iff_eq_take.mp hu ▸ rfl
  simp only [piece, hstart, hstop, Option.join_some, if_pos (Nat.le_add_right pos u.length), hpiece]

theorem Within.piece_eq {groups : List ℕ} {index : ℕ} (h : Within groups captures next)
    (hindex : index ∉ groups) : piece input next index = piece input captures index := by
  rw [piece, piece, h.kept _ (by rwa [group_of_start]), h.kept _ (by rwa [group_of_end])]

end Captures

/-! ## Words by their expression -/

section Words

variable {accepts : C → α → Bool} {first second body : Node C} {u : List α}

theorem matches_one_iff {cls : C} :
    Matches accepts (.one cls) u ↔ ∃ char, accepts cls char = true ∧ u = [char] := by
  constructor
  · intro h
    cases h with
    | one haccepts => exact ⟨_, haccepts, rfl⟩
  · rintro ⟨char, haccepts, rfl⟩
    exact .one haccepts

theorem matches_seq_iff : Matches accepts (.seq first second) u ↔
    ∃ v w, u = v ++ w ∧ Matches accepts first v ∧ Matches accepts second w := by
  constructor
  · intro h
    cases h with
    | seq hfirst hsecond => exact ⟨_, _, rfl, hfirst, hsecond⟩
  · rintro ⟨v, w, rfl, hfirst, hsecond⟩
    exact .seq hfirst hsecond

theorem matches_alt_iff : Matches accepts (.alt first second) u ↔
    Matches accepts first u ∨ Matches accepts second u := by
  constructor
  · intro h
    cases h with
    | altFirst h => exact .inl h
    | altSecond h => exact .inr h
  · rintro (h | h)
    · exact .altFirst h
    · exact .altSecond h

theorem matches_group_iff {index : ℕ} :
    Matches accepts (.group index body) u ↔ Matches accepts body u := by
  constructor
  · intro h
    cases h with
    | group h => exact h
  · exact .group

theorem matches_reset_iff {first last : ℕ} :
    Matches accepts (.reset (C := C) first last) u ↔ u = [] := by
  constructor
  · intro h
    cases h
    rfl
  · rintro rfl
    exact .reset first last

theorem matches_maybe_iff :
    Matches accepts (.maybe body) u ↔ u = [] ∨ Matches accepts body u := by
  constructor
  · intro h
    cases h with
    | maybeNone => exact .inl rfl
    | maybeSome h => exact .inr h
  · rintro (rfl | h)
    · exact .maybeNone body
    · exact .maybeSome h

theorem matches_loop_iff : Matches accepts (.loop body) u ↔
    ∃ words : List (List α), u = words.flatten ∧ ∀ word ∈ words, Matches accepts body word := by
  constructor
  · intro h
    generalize hnode : Node.loop body = node at h
    induction h with
    | loopNil =>
      exact ⟨[], rfl, fun word hword ↦ absurd hword List.not_mem_nil⟩
    | @loopCons other v w hfirst _ _ ih =>
      obtain rfl := Node.loop.inj hnode
      obtain ⟨words, rfl, hwords⟩ := ih rfl
      refine ⟨v :: words, rfl, fun word hword ↦ ?_⟩
      obtain rfl | hword := List.mem_cons.mp hword
      · exact hfirst
      · exact hwords word hword
    | _ => cases hnode
  · rintro ⟨words, rfl, hwords⟩
    induction words with
    | nil => exact .loopNil body
    | cons word words ih =>
      exact .loopCons (hwords word List.mem_cons_self)
        (ih fun other hother ↦ hwords other (List.mem_cons_of_mem word hother))

/-- One or more repetitions. -/
theorem matches_seq_loop_iff : Matches accepts (.seq body (.loop body)) u ↔
    ∃ words : List (List α), words ≠ [] ∧ u = words.flatten ∧
      ∀ word ∈ words, Matches accepts body word := by
  rw [matches_seq_iff]
  constructor
  · rintro ⟨v, w, rfl, hfirst, hrest⟩
    obtain ⟨words, rfl, hwords⟩ := Iff.mp matches_loop_iff hrest
    refine ⟨v :: words, List.cons_ne_nil _ _, rfl, fun word hword ↦ ?_⟩
    obtain rfl | hword := List.mem_cons.mp hword
    · exact hfirst
    · exact hwords word hword
  · rintro ⟨words, hne, rfl, hwords⟩
    cases words with
    | nil => exact absurd rfl hne
    | cons word words =>
      exact ⟨word, words.flatten, rfl, hwords word List.mem_cons_self,
        Iff.mpr matches_loop_iff ⟨words, rfl, fun other hother ↦
          hwords other (List.mem_cons_of_mem word hother)⟩⟩

/-- Repetitions of a single character. -/
theorem matches_many_one_iff {least : ℕ} {cls : C} : Matches accepts (.many least none [cls]) u ↔
    least ≤ u.length ∧ ∀ char ∈ u, accepts cls char = true := by
  constructor
  · intro h
    cases h with
    | @many _ _ _ words hleast _ hwords =>
      refine ⟨?_, fun char hchar ↦ ?_⟩
      · rwa [flatten_length hwords, List.length_singleton, Nat.mul_one]
      · obtain ⟨word, hword, hchar⟩ := List.mem_flatten.mp hchar
        obtain ⟨other, rest, haccepts, hrest, rfl⟩ :=
          List.forall₂_cons_left_iff.mp (hwords word hword)
        obtain rfl := List.forall₂_nil_left_iff.mp hrest
        rwa [List.mem_singleton.mp hchar]
  · rintro ⟨hleast, hall⟩
    have hflatten : (u.map fun char ↦ [char]).flatten = u := by
      rw [← List.flatMap_def, List.flatMap_singleton']
    rw [← hflatten]
    refine .many (by rwa [List.length_map]) (fun m hm ↦ nomatch hm) fun word hword ↦ ?_
    obtain ⟨char, hchar, rfl⟩ := List.mem_map.mp hword
    exact .cons (hall char hchar) .nil

/-- A word or nothing. -/
theorem matches_many_maybe_iff {word : List C} : Matches accepts (.many 0 (some 1) word) u ↔
    u = [] ∨ List.Forall₂ (fun cls char ↦ accepts cls char = true) word u := by
  constructor
  · intro h
    cases h with
    | @many _ _ _ words _ hmost hwords =>
      have hone : words.length ≤ 1 := hmost 1 rfl
      match words with
      | [] => exact .inl rfl
      | [v] =>
        refine .inr ?_
        rw [List.flatten_singleton]
        exact hwords v List.mem_cons_self
  · rintro (rfl | h)
    · have hnone : Matches accepts (.many 0 (some 1) word) ([] : List (List α)).flatten :=
        .many le_rfl (fun m _ ↦ Nat.zero_le m) fun v hv ↦ absurd hv List.not_mem_nil
      exact hnone
    · have hsome : Matches accepts (.many 0 (some 1) word) [u].flatten :=
        .many (Nat.zero_le _) (fun m hm ↦ (Option.some.inj hm).le) fun v hv ↦
          List.mem_singleton.mp hv ▸ h
      rwa [List.flatten_singleton] at hsome

end Words

/-! ## Searching -/

section Search

variable (accepts : C → α → Bool) (input : List α)

/-- The matches from each position on, one position after the other; the whole match is group
zero. -/
def search (node : Node C) (captures : Captures) (pos : ℕ) : List (ℕ × Captures) :=
  (List.range' pos (input.length + 1 - pos)).flatMap fun start ↦
    results accepts input (.group 0 node) start captures

variable {accepts input} {node : Node C} {captures : Captures} {pos : ℕ}

theorem search_of_le (hpos : pos ≤ input.length) : search accepts input node captures pos =
    results accepts input (.group 0 node) pos captures ++
      search accepts input node captures (pos + 1) := by
  have hsucc : input.length + 1 - pos = input.length + 1 - (pos + 1) + 1 := by omega
  rw [search, hsucc, List.range'_succ, List.flatMap_cons, search]

theorem search_of_gt (hpos : input.length < pos) : search accepts input node captures pos = [] := by
  have hzero : input.length + 1 - pos = 0 := by omega
  rw [search, hzero]
  rfl

theorem results_complete_group (hproper : node.Proper) {word : List α}
    (h : Matches accepts node word)
    (hstarts : word <+: input.drop pos) (captures : Captures) :
    ∃ next, (pos + word.length, next) ∈ results accepts input (.group 0 node) pos captures :=
  results_complete (show (Node.group 0 node).Proper from hproper) (.group h) hstarts captures

/-- There is a match in the text exactly if a piece of it is a word. -/
theorem search_ne_nil (hproper : node.Proper) (captures : Captures) :
    search accepts input node captures 0 ≠ [] ↔
      ∃ before word behind, input = before ++ word ++ behind ∧ Matches accepts node word := by
  rw [ne_eq, List.eq_nil_iff_forall_not_mem, not_forall_not, search]
  constructor
  · rintro ⟨⟨last, next⟩, hmem⟩
    obtain ⟨start, -, hresult⟩ := List.mem_flatMap.mp hmem
    obtain ⟨word, ⟨behind, hbehind⟩, -, hmatch⟩ := results_sound hresult
    cases hmatch with
    | group hmatch =>
      refine ⟨input.take start, word, behind, ?_, hmatch⟩
      rw [List.append_assoc, hbehind, List.take_append_drop]
  · rintro ⟨before, word, behind, rfl, hmatch⟩
    have hstarts : word <+: (before ++ word ++ behind).drop before.length := by
      rw [List.append_assoc, List.drop_left]
      exact List.prefix_append word behind
    obtain ⟨next, hresult⟩ := results_complete_group hproper hmatch hstarts captures
    refine ⟨_, List.mem_flatMap.mpr ⟨before.length, ?_, hresult⟩⟩
    simp only [List.mem_range', List.length_append]
    exact ⟨before.length, by omega, by omega⟩

/-- The first match of a search starts at the first position from which there is one. -/
def Leftmost (accepts : C → α → Bool) (input : List α) (node : Node C) (captures : Captures)
    (last : ℕ) (next : Captures) : Prop :=
  ∃ start ≤ input.length,
    (results accepts input (.group 0 node) start captures).head? = some (last, next) ∧
      ∀ before word behind, input = before ++ word ++ behind → Matches accepts node word →
        start ≤ before.length

theorem leftmost_of_search (hproper : node.Proper) {last : ℕ} {next : Captures}
    (h : (search accepts input node captures 0).head? = some (last, next)) :
    Leftmost accepts input node captures last next := by
  have hfrom (rest pos : ℕ) (hrest : input.length + 1 - pos = rest)
      (hnone : ∀ before word behind, input = before ++ word ++ behind → Matches accepts node word →
        pos ≤ before.length)
      (h : (search accepts input node captures pos).head? = some (last, next)) :
      Leftmost accepts input node captures last next := by
    induction rest generalizing pos with
    | zero =>
      rw [search_of_gt (by omega)] at h
      exact absurd h.symm (Option.some_ne_none _)
    | succ rest ih =>
      have hpos : pos ≤ input.length := by omega
      rw [search_of_le hpos, List.head?_append] at h
      cases hhead : (results accepts input (.group 0 node) pos captures).head? with
      | some result =>
        rw [hhead, Option.some_or] at h
        exact ⟨pos, hpos, hhead.trans h, hnone⟩
      | none =>
        rw [hhead, Option.none_or] at h
        refine ih (pos + 1) (by omega) (fun before word behind hinput hmatch ↦ ?_) h
        obtain hlt | heq := Nat.lt_or_eq_of_le (hnone before word behind hinput hmatch)
        · exact hlt
        · have hstarts : word <+: input.drop pos := by
            rw [hinput, heq, List.append_assoc, List.drop_left]
            exact List.prefix_append word behind
          obtain ⟨other, hresult⟩ := results_complete_group hproper hmatch hstarts captures
          rw [List.head?_eq_none_iff.mp hhead] at hresult
          exact absurd hresult List.not_mem_nil
  exact hfrom _ 0 rfl (fun _ _ _ _ _ ↦ Nat.zero_le _) h

end Search

end LibYtdl.Regex
