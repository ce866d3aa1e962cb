import LibYtdl.Foundation.Machine
import LibYtdl.Foundation.Memory

/-!
# Percent-decoding

`urldecode` copies a string and replaces `%` with two hexadecimal digits by the byte that they
write. It ends at the first byte that is zero, be it the terminator of the source or one that was
decoded. The destination may be the source: what is read next stands behind what was written.
-/

namespace LibYtdl.Info.Urldecode

open Machine Memory

/-- `isxdigit`. -/
def isXDigit (char : UInt8) : Bool :=
  (48 ≤ char ∧ char ≤ 57) ∨ (65 ≤ char ∧ char ≤ 70) ∨ (97 ≤ char ∧ char ≤ 102)

/-- The value of a hexadecimal digit. -/
def digitValue (char : UInt8) : UInt8 :=
  if char < 65 then char - 48 else if char < 97 then char - 55 else char - 87

/-! ## The function -/

/-- The next character of the source, and where it goes on. -/
def nextChar (read : ℕ → Option UInt8) (src : ℕ) : Option (UInt8 × ℕ) := do
  let ch ← read src
  let src := src + 1
  if ch = 37 then
    let a ← read src
    if isXDigit a then
      let b ← read (src + 1)
      if isXDigit b then some (16 * digitValue a + digitValue b, src + 2) else some (ch, src)
    else some (ch, src)
  else some (ch, src)

/-- The loop of `urldecode`; `fuel` bounds its iterations. The source is read through `read`, which
sees what was written when it is the destination as well. -/
def urldecodeLoop (read : Object UInt8 → ℕ → Option UInt8) :
    ℕ → Object UInt8 → ℕ → ℕ → Option (Object UInt8)
  | 0, _, _, _ => none
  | fuel + 1, org, dst, src => do
    let (ch, src) ← nextChar (read org) src
    let org ← org.write dst ch
    if ch = 0 then some org else urldecodeLoop read fuel org (dst + 1) src

/-- `urldecode(dst, src + start)` for two objects. -/
def urldecode (dst src : Object UInt8) (start : ℕ) : Option (Object UInt8) :=
  urldecodeLoop (fun _ index ↦ src.read (start + index)) (src.size + 1) dst 0 0

/-- `urldecode(dst, dst)`. -/
def urldecodeInPlace (dst : Object UInt8) : Option (Object UInt8) :=
  urldecodeLoop Object.read (dst.size + 1) dst 0 0

/-! ## What it computes -/

/-- The character that a text starts with, and the text behind it. -/
def firstChar : Bytes → UInt8 × Bytes
  | [] => (0, [])
  | [ch] => (ch, [])
  | [ch, a] => (ch, [a])
  | ch :: a :: b :: rest =>
    if ch = 37 ∧ isXDigit a ∧ isXDigit b then (16 * digitValue a + digitValue b, rest)
    else (ch, a :: b :: rest)

theorem firstChar_of_ne {ch : UInt8} (h : ch ≠ 37) (rest : Bytes) :
    firstChar (ch :: rest) = (ch, rest) := by
  unfold firstChar
  split <;> simp_all

theorem firstChar_length_lt {text : Bytes} (h : text ≠ []) :
    (firstChar text).2.length < text.length := by
  unfold firstChar
  split
  · exact absurd rfl h
  · simp
  · simp
  · split
    · simp only [List.length_cons]
      omega
    · simp

/-- Percent-decoding, up to the first byte that is zero. -/
def decode (text : Bytes) : Bytes :=
  if _h : (firstChar text).1 = 0 then []
  else (firstChar text).1 :: decode (firstChar text).2
termination_by text.length
decreasing_by
  apply firstChar_length_lt
  rintro rfl
  exact _h rfl

theorem decode_of_zero {text : Bytes} (h : (firstChar text).1 = 0) : decode text = [] := by
  rw [decode, dif_pos h]

theorem decode_of_ne {text : Bytes} (h : (firstChar text).1 ≠ 0) :
    decode text = (firstChar text).1 :: decode (firstChar text).2 := by
  rw [decode, dif_neg h]

@[simp] theorem decode_nil : decode [] = [] := decode_of_zero rfl

/-- What is proved of a text from what stands behind its first character. -/
theorem decodeInduction {motive : Bytes → Prop}
    (zero : ∀ text, (firstChar text).1 = 0 → motive text)
    (next : ∀ text, (firstChar text).1 ≠ 0 → motive (firstChar text).2 → motive text)
    (text : Bytes) : motive text := by
  induction text using decode.induct with
  | case1 text h => exact zero text h
  | case2 text h ih => exact next text h ih

theorem zero_not_mem_decode (text : Bytes) : 0 ∉ decode text := by
  induction text using decodeInduction with
  | zero text h => simp [decode_of_zero h]
  | next text h ih =>
    rw [decode_of_ne h]
    exact List.not_mem_cons_of_ne_of_not_mem h.symm ih

/-- Decoding makes no text longer. -/
theorem decode_length_le (text : Bytes) : (decode text).length ≤ text.length := by
  induction text using decodeInduction with
  | zero text h => simp [decode_of_zero h]
  | next text h ih =>
    have hne : text ≠ [] := by
      rintro rfl
      exact h rfl
    have hlt := firstChar_length_lt hne
    rw [decode_of_ne h, List.length_cons]
    omega

/-- A byte that is not `%` stands for itself. -/
theorem decode_plain {ch : UInt8} (hzero : ch ≠ 0) (hpercent : ch ≠ 37) (rest : Bytes) :
    decode (ch :: rest) = ch :: decode rest := by
  have hfirst := firstChar_of_ne hpercent rest
  have hne : (firstChar (ch :: rest)).1 ≠ 0 := by rwa [hfirst]
  rw [decode_of_ne hne, hfirst]

/-- `%` and two hexadecimal digits stand for the byte that they write. -/
theorem decode_escape {a b : UInt8} (ha : isXDigit a = true) (hb : isXDigit b = true)
    (hzero : 16 * digitValue a + digitValue b ≠ 0) (rest : Bytes) :
    decode (37 :: a :: b :: rest) = (16 * digitValue a + digitValue b) :: decode rest := by
  have hfirst : firstChar (37 :: a :: b :: rest) = (16 * digitValue a + digitValue b, rest) :=
    if_pos ⟨rfl, ha, hb⟩
  have hne : (firstChar (37 :: a :: b :: rest)).1 ≠ 0 := by rwa [hfirst]
  rw [decode_of_ne hne, hfirst]

/-! ## What the loop reads -/

/-- From an index on, the reads give the text and a zero behind it. -/
def Reads (read : ℕ → Option UInt8) : ℕ → Bytes → Prop
  | src, [] => read src = some 0
  | src, ch :: rest => read src = some ch ∧ Reads read (src + 1) rest

theorem Reads.congr {read other : ℕ → Option UInt8} {src : ℕ} {text : Bytes}
    (h : Reads read src text) (hother : ∀ index, src ≤ index → other index = read index) :
    Reads other src text := by
  induction text generalizing src with
  | nil => exact (hother src le_rfl).trans h
  | cons ch rest ih =>
    exact ⟨(hother src le_rfl).trans h.1, ih h.2 fun index hindex ↦ hother index (by omega)⟩

theorem Reads.shift {read : ℕ → Option UInt8} {start src : ℕ} {text : Bytes}
    (h : Reads read (start + src) text) : Reads (fun index ↦ read (start + index)) src text := by
  induction text generalizing src with
  | nil => exact h
  | cons ch rest ih => exact ⟨h.1, ih h.2⟩

theorem reads_of_cells {object : Object UInt8} {before text after : Bytes}
    (hcells : object.cells = before ++ text ++ 0 :: after) :
    Reads (fun index ↦ object.read index) before.length text := by
  induction text generalizing before with
  | nil =>
    rw [List.append_nil] at hcells
    exact Object.read_of_cells hcells rfl
  | cons ch rest ih =>
    have hsplit : object.cells = before ++ ch :: (rest ++ 0 :: after) := by simpa using hcells
    have hnext : object.cells = (before ++ [ch]) ++ rest ++ 0 :: after := by simpa using hcells
    refine ⟨Object.read_of_cells hsplit rfl, ?_⟩
    simpa using ih hnext

/-- A `%` that two hexadecimal digits do not follow. -/
theorem nextChar_percent {read : ℕ → Option UInt8} {src : ℕ} {rest : Bytes}
    (hpercent : read src = some 37) (hrest : Reads read (src + 1) rest)
    (hplain : firstChar (37 :: rest) = (37, rest)) : nextChar read src = some (37, src + 1) := by
  have hzero : isXDigit 0 = false := by decide
  unfold nextChar
  simp only [hpercent, Option.bind_eq_bind, Option.bind_some, ↓reduceIte]
  cases rest with
  | nil => simp [show read (src + 1) = some 0 from hrest, hzero]
  | cons a rest =>
    obtain ⟨ha, hrest⟩ := hrest
    rw [ha, Option.bind_some]
    by_cases hdigit : isXDigit a = true
    · rw [if_pos hdigit]
      cases rest with
      | nil => simp [show read (src + 1 + 1) = some 0 from hrest, hzero]
      | cons b rest =>
        have hb : isXDigit b = false := by
          by_contra hb
          rw [Bool.not_eq_false] at hb
          have hescape : firstChar (37 :: a :: b :: rest) =
              (16 * digitValue a + digitValue b, rest) :=
            if_pos ⟨rfl, hdigit, hb⟩
          have hlength := congrArg List.length (congrArg Prod.snd (hescape.symm.trans hplain))
          simp only [List.length_cons] at hlength
          omega
        simp [hrest.1, hb]
    · rw [if_neg hdigit]

/-- What the loop reads is the first character of the text, and it goes on behind it. -/
theorem nextChar_of_reads {read : ℕ → Option UInt8} {src : ℕ} {text : Bytes}
    (h : Reads read src text) :
    ∃ next, nextChar read src = some ((firstChar text).1, next) ∧ src < next ∧
      ((firstChar text).1 ≠ 0 → Reads read next (firstChar text).2) := by
  have hplain {ch : UInt8} {rest : Bytes} (hread : Reads read src (ch :: rest))
      (hfirst : firstChar (ch :: rest) = (ch, rest))
      (hnext : nextChar read src = some (ch, src + 1)) :
      ∃ next, nextChar read src = some ((firstChar (ch :: rest)).1, next) ∧ src < next ∧
        ((firstChar (ch :: rest)).1 ≠ 0 → Reads read next (firstChar (ch :: rest)).2) := by
    rw [hfirst]
    exact ⟨src + 1, hnext, Nat.lt_succ_self src, fun _ ↦ hread.2⟩
  cases text with
  | nil =>
    refine ⟨src + 1, ?_, Nat.lt_succ_self src, fun hne ↦ absurd rfl hne⟩
    simp [nextChar, show read src = some 0 from h, firstChar]
  | cons ch rest =>
    by_cases hpercent : ch = 37
    · subst hpercent
      by_cases hescape : ∃ a b after, rest = a :: b :: after ∧ isXDigit a = true ∧ isXDigit b = true
      · obtain ⟨a, b, after, rfl, ha, hb⟩ := hescape
        obtain ⟨hread, hreadA, hreadB, hafter⟩ := h
        have hfirst : firstChar (37 :: a :: b :: after) =
            (16 * digitValue a + digitValue b, after) :=
          if_pos ⟨rfl, ha, hb⟩
        rw [hfirst]
        refine ⟨src + 3, ?_, by omega, fun _ ↦ hafter⟩
        simp [nextChar, hread, hreadA, hreadB, ha, hb]
      · have hfirst : firstChar (37 :: rest) = (37, rest) := by
          unfold firstChar
          split
          · simp_all
          · simp_all
          · simp_all
          · next heq => 
            obtain ⟨rfl, rfl⟩ := List.cons.inj heq
            rw [if_neg fun hdigits ↦ hescape ⟨_, _, _, rfl, hdigits.2⟩]
        exact hplain h hfirst (nextChar_percent h.1 h.2 hfirst)
    · apply hplain h (firstChar_of_ne hpercent rest)
      simp [nextChar, h.1, hpercent]

section Loop

-- A read sees the same after a write in front of it: the source is another object, or the loop
-- reads ahead of what it writes.
variable {read : Object UInt8 → ℕ → Option UInt8}
  (hread : ∀ org written dst ch index, org.write dst ch = some written → dst < index →
    read written index = read org index)
include hread

/-- One iteration of the loop. -/
theorem urldecodeLoop_succ {text : Bytes} (fuel : ℕ) {org : Object UInt8} {dst src : ℕ}
    (hle : dst ≤ src) (hreads : Reads (read org) src text) {before after : Bytes} {head : UInt8}
    (hcells : org.cells = before ++ head :: after) (hdst : dst = before.length) :
    ∃ written next, written.cells = before ++ (firstChar text).1 :: after ∧ dst + 1 ≤ next ∧
      ((firstChar text).1 ≠ 0 → Reads (read written) next (firstChar text).2) ∧
      urldecodeLoop read (fuel + 1) org dst src =
        if (firstChar text).1 = 0 then some written
        else urldecodeLoop read fuel written (dst + 1) next := by
  obtain ⟨next, hnext, hlt, hrest⟩ := nextChar_of_reads hreads
  obtain ⟨written, hwrite, hwritten⟩ := Object.write_of_cells hcells hdst (firstChar text).1
  refine ⟨written, next, hwritten, by omega, fun hne ↦ ?_, ?_⟩
  · exact (hrest hne).congr fun index hindex ↦ hread org written dst _ index hwrite (by omega)
  · simp only [urldecodeLoop, hnext, hwrite, Option.bind_eq_bind, Option.bind_some]

/-- The loop leaves the decoded text behind what it has written, ended by a zero. -/
theorem urldecodeLoop_holds (text : Bytes) {fuel : ℕ} (hfuel : text.length < fuel)
    {org : Object UInt8} {dst src : ℕ} (hle : dst ≤ src) (hreads : Reads (read org) src text)
    {before after : Bytes} (hcells : org.cells = before ++ after) (hdst : dst = before.length)
    (hroom : (decode text).length < after.length) :
    ∃ out slack, urldecodeLoop read fuel org dst src = some out ∧
      out.cells = before ++ decode text ++ 0 :: slack := by
  induction text using decodeInduction generalizing fuel org dst src before after with
  | zero text h =>
    obtain ⟨fuel, rfl⟩ : ∃ rest, fuel = rest + 1 := ⟨fuel - 1, by omega⟩
    obtain ⟨head, after, rfl⟩ := List.exists_cons_of_length_pos (Nat.zero_lt_of_lt hroom)
    obtain ⟨written, next, hwritten, -, -, hloop⟩ :=
      urldecodeLoop_succ hread fuel hle hreads hcells hdst
    refine ⟨written, after, by rw [hloop, if_pos h], ?_⟩
    rw [hwritten, h, decode_of_zero h, List.append_nil]
  | next text h ih =>
    obtain ⟨fuel, rfl⟩ : ∃ rest, fuel = rest + 1 := ⟨fuel - 1, by omega⟩
    obtain ⟨head, after, rfl⟩ := List.exists_cons_of_length_pos (Nat.zero_lt_of_lt hroom)
    obtain ⟨written, next, hwritten, hnext, hrest, hloop⟩ :=
      urldecodeLoop_succ hread fuel hle hreads hcells hdst
    have hne : text ≠ [] := by
      rintro rfl
      exact h rfl
    have hfuel : (firstChar text).2.length < fuel := by
      have hshorter := firstChar_length_lt hne
      omega
    rw [decode_of_ne h, List.length_cons, List.length_cons] at hroom
    have hsplit : written.cells = (before ++ [(firstChar text).1]) ++ after := by simp [hwritten]
    obtain ⟨out, slack, hout, hdecoded⟩ :=
      ih hfuel hnext (hrest h) hsplit (by simp [hdst]) (by omega)
    refine ⟨out, slack, ?_, ?_⟩
    · rw [hloop, if_neg h, hout]
    · rw [hdecoded, decode_of_ne h, List.append_assoc before, List.singleton_append]

end Loop

/-- Decoding from one object into another that has room for the text. -/
theorem urldecode_holds {dst src : Object UInt8} {before text after : Bytes}
    (hcells : src.cells = before ++ text ++ 0 :: after) (hroom : text.length < dst.size) :
    ∃ out, urldecode dst src before.length = some out ∧ out.Holds (decode text) := by
  let read : Object UInt8 → ℕ → Option UInt8 := fun _ index ↦ src.read (before.length + index)
  have hreads : Reads (read dst) 0 text := (reads_of_cells hcells).shift
  have hread (org written : Object UInt8) (dst : ℕ) (ch : UInt8) (index : ℕ)
      (_ : org.write dst ch = some written) (_ : dst < index) :
      read written index = read org index :=
    rfl
  have hfuel : text.length < src.size + 1 := by
    simp only [Object.size, hcells, List.length_append, List.length_cons]
    omega
  obtain ⟨out, slack, hout, hdecoded⟩ :=
    urldecodeLoop_holds hread text hfuel le_rfl hreads (List.nil_append dst.cells).symm rfl
      ((decode_length_le text).trans_lt hroom)
  exact ⟨out, hout, zero_not_mem_decode text, slack, hdecoded⟩

/-- Decoding a string in place. -/
theorem urldecodeInPlace_holds {dst : Object UInt8} {text : Bytes} (h : dst.Holds text) :
    ∃ out, urldecodeInPlace dst = some out ∧ out.Holds (decode text) := by
  obtain ⟨slack, hcells⟩ := h.2
  have hreads : Reads dst.read 0 text :=
    reads_of_cells (show dst.cells = [] ++ text ++ 0 :: slack from hcells)
  have hread (org written : Object UInt8) (dst : ℕ) (ch : UInt8) (index : ℕ)
      (hwrite : org.write dst ch = some written) (hlt : dst < index) :
      written.read index = org.read index := by
    rw [Object.read, Object.read, (Object.write_eq_some.mp hwrite).2, List.getElem?_set_ne hlt.ne]
  have hlength := h.length_lt
  obtain ⟨out, slack', hout, hdecoded⟩ :=
    urldecodeLoop_holds hread text (Nat.lt_succ_of_lt hlength) le_rfl hreads
      (List.nil_append dst.cells).symm rfl ((decode_length_le text).trans_lt hlength)
  exact ⟨out, hout, zero_not_mem_decode text, slack', hdecoded⟩

end LibYtdl.Info.Urldecode
