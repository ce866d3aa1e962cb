import LibYtdl.Foundation.Regex
import LibYtdl.Regexp.Threads

/-!
# Emitting regular expressions

The instructions that `re_parse_disjunction`, `re_parse_alternative` and `re_parse_term` emit for
the expressions of the two signature patterns: characters and classes, sequences, alternatives,
groups, and greedy quantifiers. The machine goes through the matches of an expression in its order.
-/

namespace LibYtdl.Regexp.Emit

open Machine Regex Exec Threads

/-- A character, or the ranges of a class with their lowest and highest characters. -/
inductive CharSet
  | char (val : ℕ)
  | range (ranges : List (ℕ × ℕ))

/-- The character is in the class. -/
def CharSet.accepts : CharSet → UInt8 → Bool
  | .char val, c => val == c.toNat
  | .range ranges, c => ranges.any fun (low, high) ↦ low ≤ c.toNat && c.toNat ≤ high

/-! ## Instructions -/

/-- The byte of an opcode. -/
def opByte (op : REOp) : UInt8 := UInt8.ofNat (reOps.idxOf op)

/-- `dbuf_put_u16`. -/
def putU16 (val : ℕ) : Bytes := [UInt8.ofNat val, UInt8.ofNat (val / 2 ^ 8)]

/-- `dbuf_put_u32`. -/
def putU32 (val : ℕ) : Bytes := putU16 val ++ putU16 (val / 2 ^ 16)

/-- The operand of a jump backwards. -/
def putBack (distance : ℕ) : Bytes := putU32 (2 ^ 32 - distance)

/-- A character, or `re_emit_range`. -/
def emitSet : CharSet → Bytes
  | .char val => opByte .char :: putU16 val
  | .range ranges =>
    opByte .range :: (putU16 ranges.length ++ ranges.flatMap fun (low, high) ↦
      putU16 low ++ putU16 high)

/-- `INT32_MAX`, a quantifier without an upper bound. -/
def int32Max : ℕ := 2 ^ 31 - 1

/-- The instructions of an expression. -/
def emit : Node CharSet → Bytes
  | .one cls => emitSet cls
  | .seq first second => emit first ++ emit second
  | .alt first second =>
    (opByte .splitNextFirst :: putU32 ((emit first).length + 5)) ++ emit first ++
      (opByte .goto :: putU32 (emit second).length) ++ emit second
  | .group index body =>
    [opByte .saveStart, UInt8.ofNat index] ++ emit body ++ [opByte .saveEnd, UInt8.ofNat index]
  | .reset first last => [opByte .saveReset, UInt8.ofNat first, UInt8.ofNat last]
  | .many least most word =>
    (opByte .simpleGreedyQuant :: putU32 ((word.flatMap emitSet).length + 1)) ++ putU32 least ++
      putU32 (most.getD int32Max) ++ putU32 word.length ++ word.flatMap emitSet ++ [opByte .matched]
  | .maybe body => (opByte .splitNextFirst :: putU32 (emit body).length) ++ emit body
  | .loop body =>
    (opByte .splitNextFirst :: putU32 ((emit body).length + 6)) ++ [opByte .pushCharPos] ++
      emit body ++
      (opByte .bneCharPos :: putBack ((emit body).length + 11))

/-- The operands of a class fit. -/
def CharSet.encodable : CharSet → Bool
  | .char val => val < 2 ^ 16
  | .range ranges =>
    ranges ≠ [] && ranges.length < 2 ^ 16 && ranges.all (fun (low, high) ↦ low ≤ high &&
      high < 2 ^ 16) &&
      decide (ranges.Pairwise fun first second ↦ first.2 < second.1)

/-- The operands of an expression fit, and the word of a quantifier is not empty. -/
def encodable : Node CharSet → Bool
  | .one cls => cls.encodable
  | .seq first second => encodable first && encodable second
  | .alt first second =>
    encodable first && encodable second && (emit first).length + 5 < 2 ^ 31 &&
      (emit second).length < 2 ^ 31
  | .group index body => index < 2 ^ 8 && encodable body
  | .reset first last => first ≤ last && last < 2 ^ 8
  | .many least most word =>
    word ≠ [] && word.all CharSet.encodable && least < 2 ^ 32 &&
      most.all (fun m ↦ 0 < m && m < int32Max) &&
      word.length < 2 ^ 32 && (word.flatMap emitSet).length + 1 < 2 ^ 31
  | .maybe body | .loop body => encodable body && (emit body).length + 11 < 2 ^ 31

/-- How deep the stack grows. -/
def depth : Node CharSet → ℕ
  | .one _ | .reset _ _ | .many _ _ _ => 0
  | .seq first second | .alt first second => max (depth first) (depth second)
  | .group _ body | .maybe body => depth body
  | .loop body => depth body + 1

/-- An expression whose operands fit is proper. -/
theorem proper_of_encodable {node : Node CharSet} (h : encodable node = true) : node.Proper := by
  induction node with
  | one | reset => exact trivial
  | seq first second ihFirst ihSecond =>
    rw [encodable, Bool.and_eq_true] at h
    exact ⟨ihFirst h.1, ihSecond h.2⟩
  | alt first second ihFirst ihSecond =>
    simp only [encodable, Bool.and_eq_true] at h
    exact ⟨ihFirst h.1.1.1, ihSecond h.1.1.2⟩
  | group index body ih =>
    rw [encodable, Bool.and_eq_true] at h
    exact ih h.2
  | many least most word =>
    simp only [encodable, Bool.and_eq_true, decide_eq_true_eq] at h
    refine ⟨h.1.1.1.1.1, ?_⟩
    rintro rfl
    have hzero := h.1.1.2
    rw [Option.all_some, Bool.and_eq_true, decide_eq_true_eq] at hzero
    exact Nat.lt_irrefl 0 hzero.1
  | maybe body ih | loop body ih =>
    rw [encodable, Bool.and_eq_true] at h
    exact ih h.1

/-! ## Reading instructions -/

/-- The bytes stand at a position of the program. -/
def At (buf : Bytes) (pc : ℕ) (bytes : Bytes) : Prop := bytes <+: buf.drop pc

section At

variable {buf bytes first second : Bytes} {pc val : ℕ}

theorem At.append (h : At buf pc (first ++ second)) :
    At buf pc first ∧ At buf (pc + first.length) second := prefix_drop_of_append h

theorem At.cons {byte : UInt8} (h : At buf pc (byte :: bytes)) :
    buf[pc]? = some byte ∧ At buf (pc + 1) bytes := by
  rw [← List.singleton_append] at h
  obtain ⟨⟨rest, hrest⟩, htail⟩ := h.append
  refine ⟨?_, htail⟩
  rw [← List.head?_drop, ← hrest]
  rfl

theorem At.length_le (h : At buf pc bytes) : bytes.length ≤ buf.length - pc := by
  rw [← List.length_drop]
  exact List.IsPrefix.length_le h

theorem At.getU8 (h : At buf pc [UInt8.ofNat val]) (hval : val < 2 ^ 8) :
    getU8 buf pc = some val := by
  rw [Exec.getU8, h.cons.1, Option.map_some, UInt8.toNat_ofNat_of_lt' hval]

theorem At.getU16 (h : At buf pc (putU16 val)) (hval : val < 2 ^ 16) :
    getU16 buf pc = some val := by
  obtain ⟨hlow, hrest⟩ := h.cons
  have hhigh := hrest.cons.1
  rw [Exec.getU16, Exec.getU8, Exec.getU8, hlow, hhigh]
  simp only [Option.map_some, Option.bind_eq_bind, Option.bind_some, UInt8.toNat_ofNat']
  congr 1
  omega

theorem At.getU32 (h : At buf pc (putU32 val)) (hval : val < 2 ^ 32) :
    getU32 buf pc = some val := by
  obtain ⟨hlow, hhigh⟩ := h.append
  have hlow : At buf pc (putU16 (val % 2 ^ 16)) := by
    have hsame : putU16 (val % 2 ^ 16) = putU16 val := by
      rw [putU16, putU16]
      congr 1
      · exact UInt8.toNat_inj.mp (by simp only [UInt8.toNat_ofNat']; omega)
      · congr 1
        exact UInt8.toNat_inj.mp (by simp only [UInt8.toNat_ofNat']; omega)
    rwa [hsame]
  have hhigh := hhigh.getU16 (by omega)
  rw [Exec.getU32, hlow.getU16 (Nat.mod_lt _ (by decide)),
    show pc + 2 = pc + (putU16 val).length from rfl,
    hhigh]
  simp only [Option.bind_eq_bind, Option.bind_some]
  congr 1
  omega

theorem reOps_opByte (op : REOp) : reOps[(opByte op).toNat]? = some op := by
  cases op <;> rfl

theorem At.fetch {op : REOp} (h : At buf pc (opByte op :: bytes)) :
    fetch buf pc = operands buf (pc + 1) op := by
  rw [Exec.fetch, Exec.getU8, h.cons.1, Option.map_some, Option.bind_some, reOps_opByte,
    Option.bind_some]

/-- A jump forwards. -/
theorem jump_forward (hval : val < 2 ^ 31) : jump pc val = some (pc + val) := by
  have hnonneg : ¬ (pc : ℤ) + (val : ℤ) < 0 := by omega
  rw [jump, toInt_of_lt hval]
  rw [if_neg hnonneg, ← Nat.cast_add, Int.toNat_natCast]

/-- A jump backwards. -/
theorem jump_back {distance target : ℕ} (hpos : 0 < distance) (hdistance : distance < 2 ^ 31)
    (htarget : target + distance = pc) : jump pc (2 ^ 32 - distance) = some target := by
  have hval : toInt (2 ^ 32 - distance) = -(distance : ℤ) := by
    dsimp only [toInt]
    split <;> omega
  have hsum : (pc : ℤ) + -(distance : ℤ) = target := by omega
  have hnonneg : ¬ (target : ℤ) < 0 := by omega
  rw [jump, hval, hsum]
  rw [if_neg hnonneg, Int.toNat_natCast]

theorem At.getRanges {ranges : List (ℕ × ℕ)}
    (h : At buf pc (ranges.flatMap fun (low, high) ↦ putU16 low ++ putU16 high))
    (hfits : ∀ range ∈ ranges, range.1 < 2 ^ 16 ∧ range.2 < 2 ^ 16) :
    getRanges (Exec.getU16 buf) 2 ranges.length pc = some ranges := by
  induction ranges generalizing pc with
  | nil => rfl
  | cons range ranges ih =>
    obtain ⟨low, high⟩ := range
    obtain ⟨hlowFits, hhighFits⟩ := hfits (low, high) List.mem_cons_self
    rw [List.flatMap_cons] at h
    obtain ⟨hrange, hrest⟩ := h.append
    obtain ⟨hlow, hhigh⟩ := hrange.append
    have hlow := hlow.getU16 hlowFits
    have hhigh : Exec.getU16 buf (pc + 2) = some high := hhigh.getU16 hhighFits
    have hrest : Exec.getRanges (Exec.getU16 buf) 2 ranges.length (pc + 2 * 2) = some ranges :=
      ih hrest fun other hother ↦ hfits other (List.mem_cons_of_mem _ hother)
    rw [List.length_cons, Exec.getRanges, hlow, hhigh, hrest]
    rfl

end At

/-! ## Ranges -/

section Ranges

variable {ranges : List (ℕ × ℕ)} {c : ℕ}

/-- The ranges of a class stand in order. -/
structure Ordered (ranges : List (ℕ × ℕ)) : Prop where
  low_le : ∀ range ∈ ranges, range.1 ≤ range.2
  pairwise : ranges.Pairwise fun first second ↦ first.2 < second.1

theorem Ordered.sorted (h : Ordered ranges) {first second : ℕ} (hlt : first < second)
    {range other : ℕ × ℕ} (hrange : ranges[first]? = some range)
      (hother : ranges[second]? = some other) :
    range.2 < other.1 := by
  obtain ⟨hfirstLt, hfirstEq⟩ := List.getElem?_eq_some_iff.mp hrange
  obtain ⟨hsecondLt, hsecondEq⟩ := List.getElem?_eq_some_iff.mp hother
  rw [← hfirstEq, ← hsecondEq]
  exact List.pairwise_iff_getElem.mp h.pairwise first second hfirstLt hsecondLt hlt

theorem Ordered.head_le (h : Ordered ranges) {first range : ℕ × ℕ}
    (hhead : ranges.head? = some first)
    (hmem : range ∈ ranges) : first.1 ≤ range.1 := by
  rw [List.head?_eq_getElem?] at hhead
  obtain ⟨k, hk⟩ := List.mem_iff_getElem?.mp hmem
  have hfirst := h.low_le first (List.mem_of_getElem? hhead)
  obtain rfl | hpos := Nat.eq_zero_or_pos k
  · rw [Option.some.inj (hhead.symm.trans hk)]
  · exact (hfirst.trans_lt (h.sorted hpos hhead hk)).le

theorem Ordered.le_last (h : Ordered ranges) {last range : ℕ × ℕ}
    (hlast : ranges.getLast? = some last)
    (hmem : range ∈ ranges) : range.2 ≤ last.2 := by
  rw [List.getLast?_eq_getElem?] at hlast
  obtain ⟨k, hk⟩ := List.mem_iff_getElem?.mp hmem
  have hbound := (List.getElem?_eq_some_iff.mp hk).1
  have hend := h.low_le last (List.mem_of_getElem? hlast)
  obtain hlt | rfl := Nat.lt_or_eq_of_le (Nat.le_sub_one_of_lt hbound)
  · exact (h.sorted hlt hk hlast).le.trans hend
  · rw [Option.some.inj (hlast.symm.trans hk)]

/-- The binary search finds the range of a character, when the character is not below the first. -/
theorem rangeLoop_eq (h : Ordered ranges) (hlength : ranges.length < 2 ^ 16)
    (hfirst : ∀ range ∈ ranges.head?, range.1 ≤ c) {fuel idxMin idxMax : ℕ}
    (hmax : idxMax < ranges.length) (hfuel : idxMax + 1 < fuel + idxMin) (hle : idxMin ≤ idxMax + 1)
    (hbelow : ∀ k < idxMin, ∀ range ∈ ranges[k]?, range.2 < c)
    (habove : ∀ k, idxMax < k → ∀ range ∈ ranges[k]?, c < range.1) :
    rangeLoop ranges c fuel idxMin idxMax =
      some (ranges.any fun (low, high) ↦ low ≤ c && c ≤ high) := by
  induction fuel generalizing idxMin idxMax with
  | zero => omega
  | succ fuel ih =>
    rw [rangeLoop]
    split
    · next hsome =>
      have hidx : (idxMin + idxMax) % 2 ^ 32 / 2 < ranges.length := by omega
      obtain ⟨⟨low, high⟩, hrange⟩ : ∃ range,
        ranges[(idxMin + idxMax) % 2 ^ 32 / 2]? = some range :=
        ⟨_, List.getElem?_eq_getElem hidx⟩
      have hlowHigh : low ≤ high := h.low_le _ (List.mem_of_getElem? hrange)
      dsimp only
      rw [hrange, Option.bind_eq_bind, Option.bind_some]
      generalize hmiddle : (idxMin + idxMax) % 2 ^ 32 / 2 = idx at hrange hidx ⊢
      split
      · next hlow =>
        have hpos : idx ≠ 0 := by
          rintro rfl
          have hhead := hfirst (low, high) (by rw [List.head?_eq_getElem?, hrange]; rfl)
          exact absurd hlow (Nat.not_lt_of_le hhead)
        have hprev : (idx + 2 ^ 32 - 1) % 2 ^ 32 = idx - 1 := by omega
        rw [hprev]
        refine ih (by omega) (by omega) (by omega) hbelow fun k hk range hother ↦ ?_
        obtain hlt | rfl := Nat.lt_or_eq_of_le (show idx ≤ k by omega)
        · have hbetween := h.sorted hlt hrange hother
          omega
        · obtain rfl := Option.some.inj (hother.symm.trans hrange)
          exact hlow
      · next hlow =>
        split
        · next hhigh =>
          refine ih hmax (by omega) (by omega) (fun k hk range hother ↦ ?_) habove
          obtain hlt | rfl := Nat.lt_or_eq_of_le (show k ≤ idx by omega)
          · have hbetween := h.sorted hlt hother hrange
            omega
          · obtain rfl := Option.some.inj (hother.symm.trans hrange)
            exact hhigh
        · next hhigh =>
          refine congrArg some (List.any_eq_true.mpr ⟨(low, high), List.mem_of_getElem? hrange,
            ?_⟩).symm
          simp only [Bool.and_eq_true, decide_eq_true_eq]
          omega
    · next hnone =>
      refine congrArg some (List.any_eq_false.mpr fun range hmem ↦ ?_).symm
      obtain ⟨k, hk⟩ := List.mem_iff_getElem?.mp hmem
      simp only [Bool.and_eq_true, decide_eq_true_eq]
      rintro ⟨hlow, hhigh⟩
      obtain hlt | hge := Nat.lt_or_ge k idxMin
      · have hbelow := hbelow k hlt range hk
        omega
      · have habove := habove k (by omega) range hk
        omega

/-- The test of a range instruction is membership in one of the ranges. -/
theorem rangeTest_eq (h : Ordered ranges) (hne : ranges ≠ []) (hlength : ranges.length < 2 ^ 16)
    (hc : c < 2 ^ 8) :
    rangeTest true ranges c = some (ranges.any fun (low, high) ↦ low ≤ c && c ≤ high) := by
  have hpos := List.length_pos_iff.mpr hne
  obtain ⟨⟨low, firstHigh⟩, hhead⟩ : ∃ range, ranges.head? = some range :=
    ⟨_, List.head?_eq_some_head hne⟩
  obtain ⟨⟨lastLow, high⟩, hlast⟩ : ∃ range, ranges.getLast? = some range :=
    ⟨_, List.getLast?_eq_some_getLast hne⟩
  rw [rangeTest, hhead, hlast]
  simp only [Option.bind_eq_bind, Option.bind_some]
  split
  · next hlow =>
    refine congrArg some (List.any_eq_false.mpr fun range hmem ↦ ?_).symm
    have hle : low ≤ range.1 := h.head_le hhead hmem
    simp only [Bool.and_eq_true, decide_eq_true_eq]
    omega
  · next hlow =>
    rw [if_neg (by omega)]
    split
    · next hhigh =>
      refine congrArg some (List.any_eq_false.mpr fun range hmem ↦ ?_).symm
      have hle : range.2 ≤ high := h.le_last hlast hmem
      simp only [Bool.and_eq_true, decide_eq_true_eq]
      omega
    · next hhigh =>
      refine rangeLoop_eq h hlength (fun range hmem ↦ ?_) (by omega) (by omega) (by omega)
        (fun k hk ↦ absurd hk (Nat.not_lt_zero k)) fun k hk range hmem ↦ ?_
      · rw [Option.some.inj (hmem.symm.trans hhead)]
        exact Nat.le_of_not_lt hlow
      · have hbound := (List.getElem?_eq_some_iff.mp hmem).1
        omega

end Ranges

/-! ## Characters and words -/

/-- The instruction of a class. -/
def setInstr : CharSet → Instr
  | .char val => .char val
  | .range ranges => .range true ranges

section Sets

variable {s : REExecContext} {cls : CharSet} {word : List CharSet} {pc cptr : ℕ}

theorem length_ranges (ranges : List (ℕ × ℕ)) :
    (ranges.flatMap fun (low, high) ↦ putU16 low ++ putU16 high).length = 4 * ranges.length := by
  induction ranges with
  | nil => rfl
  | cons range ranges ih =>
    rw [List.flatMap_cons, List.length_append, ih, List.length_cons, Nat.mul_add, Nat.add_comm]
    rfl

theorem length_emitSet_pos (cls : CharSet) : 0 < (emitSet cls).length := by
  cases cls <;> exact Nat.succ_pos _

theorem length_le_flatMap (word : List CharSet) : word.length ≤ (word.flatMap emitSet).length := by
  induction word with
  | nil => exact le_rfl
  | cons cls word ih =>
    have hpos := length_emitSet_pos cls
    rw [List.flatMap_cons, List.length_append, List.length_cons]
    omega

theorem fetch_set (hcls : cls.encodable = true) (h : At s.bcBuf pc (emitSet cls)) :
    fetch s.bcBuf pc = some (setInstr cls, pc + (emitSet cls).length) := by
  cases cls with
  | char val =>
    rw [emitSet] at h
    rw [h.fetch, operands, h.cons.2.getU16 (of_decide_eq_true hcls)]
    rfl
  | range ranges =>
    simp only [CharSet.encodable, Bool.and_eq_true, decide_eq_true_eq, List.all_eq_true] at hcls
    obtain ⟨⟨⟨-, hlength⟩, hfits⟩, -⟩ := hcls
    have hbounds (range : ℕ × ℕ) (hmem : range ∈ ranges) : range.1 < 2 ^ 16 ∧ range.2 < 2 ^ 16 := by
      obtain ⟨hle, hlt⟩ := hfits range hmem
      exact ⟨hle.trans_lt hlt, hlt⟩
    have hsize := length_ranges ranges
    rw [emitSet] at h
    obtain ⟨hcount, htable⟩ := h.cons.2.append
    have htable : getRanges (getU16 s.bcBuf) 2 ranges.length (pc + 1 + 2) = some ranges :=
      htable.getRanges hbounds
    rw [h.fetch, operands, hcount.getU16 hlength]
    simp only [Option.bind_eq_bind, Option.bind_some, htable, setInstr]
    rw [emitSet, List.length_cons, List.length_append, hsize]
    congr 2
    rw [putU16, List.length_cons, List.length_singleton]
    omega

theorem testStep_set (hcls : cls.encodable = true) (hcase : s.ignoreCase = false) (cptr : ℕ) :
    testStep s (setInstr cls) cptr =
      some (if oneAt CharSet.accepts s.cbuf cls cptr then some (cptr + 1) else none) := by
  have hcanonical (c : ℕ) : canonical s c = c := by rw [canonical, hcase, if_neg Bool.false_ne_true]
  cases cls with
  | char val =>
    rw [setInstr, testStep, getChar, oneAt]
    cases s.cbuf[cptr]? with
    | none => rfl
    | some char =>
      simp only [Option.map_some, Option.bind_some, hcanonical, Option.any_some, CharSet.accepts,
        beq_iff_eq]
  | range ranges =>
    simp only [CharSet.encodable, Bool.and_eq_true, decide_eq_true_eq, List.all_eq_true] at hcls
    obtain ⟨⟨⟨hne, hlength⟩, hfits⟩, hpairwise⟩ := hcls
    have hordered : Ordered ranges := ⟨fun range hmem ↦ (hfits range hmem).1, hpairwise⟩
    rw [setInstr, testStep, getChar, oneAt]
    cases s.cbuf[cptr]? with
    | none => rfl
    | some char =>
      simp only [Option.map_some, hcanonical, rangeTest_eq hordered hne hlength char.toNat_lt,
        Option.any_some, CharSet.accepts]
      rfl

theorem vmStep_set {thread : Thread} {states : List REExecState} {size : ℕ}
    (hcls : cls.encodable = true)
    (hcase : s.ignoreCase = false) (h : At s.bcBuf thread.pc (emitSet cls)) :
    vmStep s ⟨thread, states, size⟩ =
      if oneAt CharSet.accepts s.cbuf cls thread.cptr then
        some (.run ⟨{ thread with pc := thread.pc + (emitSet cls).length, cptr := thread.cptr + 1 },
          states, size⟩)
      else backtrack s size false thread states := by
  have htest := testStep_set hcls hcase thread.cptr
  rw [vmStep, fetch_set hcls h]
  cases cls with
  | char val =>
    simp only [setInstr] at htest
    simp only [Option.bind_eq_bind, Option.bind_some, setInstr, htest]
    cases oneAt CharSet.accepts s.cbuf _ thread.cptr <;> rfl
  | range ranges =>
    simp only [setInstr] at htest
    simp only [Option.bind_eq_bind, Option.bind_some, setInstr, htest]
    cases oneAt CharSet.accepts s.cbuf _ thread.cptr <;> rfl

/-- The atom of a simple quantifier matches when its characters stand in the text. -/
theorem execAtom_eq (hword : word.all CharSet.encodable = true) (hcase : s.ignoreCase = false)
    (h : At s.bcBuf pc (word.flatMap emitSet ++ [opByte .matched])) {fuel : ℕ}
      (hfuel : word.length < fuel)
    (cptr : ℕ) :
    execAtom s fuel pc cptr =
      some (if wordAt CharSet.accepts s.cbuf word cptr then some (cptr + word.length)
        else none) := by
  induction word generalizing pc cptr fuel with
  | nil =>
    obtain ⟨fuel, rfl⟩ : ∃ rest, fuel = rest + 1 :=
      ⟨fuel - 1, by rw [List.length_nil] at hfuel; omega⟩
    rw [execAtom, At.fetch h]
    rfl
  | cons cls word ih =>
    obtain ⟨fuel, rfl⟩ : ∃ rest, fuel = rest + 1 := ⟨fuel - 1, by omega⟩
    rw [List.all_cons, Bool.and_eq_true] at hword
    rw [List.flatMap_cons, List.append_assoc] at h
    obtain ⟨hset, hrest⟩ := h.append
    have htest := testStep_set hword.1 hcase cptr
    rw [execAtom, fetch_set hword.1 hset, Option.bind_some]
    have hatom : (testStep s (setInstr cls) cptr).bind (fun found ↦
        found.elim (some none) fun cptr ↦ execAtom s fuel (pc + (emitSet cls).length) cptr) =
        some (if wordAt CharSet.accepts s.cbuf (cls :: word) cptr then some
          (cptr + (cls :: word).length)
          else none) := by
      rw [htest, Option.bind_some, wordAt]
      cases oneAt CharSet.accepts s.cbuf cls cptr with
      | false => rfl
      | true =>
        have hnext := ih hword.2 hrest (Nat.lt_of_succ_lt_succ hfuel) (cptr + 1)
        rw [if_pos rfl, Bool.true_and, List.length_cons]
        refine hnext.trans ?_
        rw [Nat.add_assoc, Nat.add_comm 1]
    refine Eq.trans ?_ hatom
    cases cls with
    | char val =>
      refine congrArg (Option.bind (testStep s (setInstr (.char val)) cptr)) (funext fun found ↦ ?_)
      cases found <;> rfl
    | range ranges =>
      refine congrArg (Option.bind (testStep s (setInstr (.range ranges)) cptr))
        (funext fun found ↦ ?_)
      cases found <;> rfl

/-- The loop of a simple quantifier counts the words. -/
theorem quantLoop_eq (hword : word.all CharSet.encodable = true) (hne : word ≠ [])
    (hcase : s.ignoreCase = false) (h : At s.bcBuf pc (word.flatMap emitSet ++ [opByte .matched]))
    {quantMax most fuel q : ℕ} (hcptr : cptr ≤ s.cbuf.length) (hmost : 0 < most)
    (hfuel : s.cbuf.length < fuel + cptr)
    (hbound : quantMax = q + most ∧ quantMax < int32Max ∨
      quantMax = int32Max ∧ s.cbuf.length < most + cptr) :
    quantLoop s pc quantMax fuel q cptr =
      some (q + countAt CharSet.accepts s.cbuf word most cptr,
        cptr + countAt CharSet.accepts s.cbuf word most cptr * word.length) := by
  have hatom : word.length < s.bcBuf.length := by
    have hle := h.length_le
    have hlong := length_le_flatMap word
    rw [List.length_append, List.length_singleton] at hle
    omega
  have hpos := List.length_pos_iff.mpr hne
  induction fuel generalizing q cptr most with
  | zero => omega
  | succ fuel ih =>
    obtain ⟨most, rfl⟩ : ∃ rest, most = rest + 1 := ⟨most - 1, by omega⟩
    rw [quantLoop, execAtom_eq hword hcase h hatom, Option.bind_some, countAt]
    cases hat : wordAt CharSet.accepts s.cbuf word cptr with
    | false => simp
    | true =>
      have hlast := wordAt_lt hne hat
      simp only [if_true]
      split
      · next hfull =>
        have hzero : most = 0 := by
          rw [int32Max] at hbound
          omega
        subst hzero
        simp [countAt]
      · next hmore =>
        have hnext : 0 < most ∧ (quantMax = q + 1 + most ∧ quantMax < int32Max ∨
            quantMax = int32Max ∧ s.cbuf.length < most + (cptr + word.length)) := by
          rw [int32Max] at hbound ⊢
          omega
        rw [ih hlast hnext.1 (by omega) hnext.2, Nat.succ_mul]
        congr 2
        · omega
        · omega

end Sets

end LibYtdl.Regexp.Emit
