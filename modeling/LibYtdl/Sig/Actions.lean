import LibYtdl.Foundation.Machine
import LibYtdl.Foundation.Memory

/-!
# The signature actions

The action loop of `ytdl_info_get_format_url2` edits the signature in place, in the buffer that
`calloc` returned for it. Next to it stand the functions of the player's JavaScript that the loop
imitates, on the split characters. A value `none` of the loop means that it divided by zero or
touched an index outside of the buffer.
-/

namespace LibYtdl.Sig.Actions

open Machine Memory

abbrev Chars := Bytes

/-- `ytdl_sig_action_t`. -/
inductive SigAction
  | swap
  | reverse
  | slice
  | splice
  deriving DecidableEq, Repr

/-- An entry of `actions` with its entry of `actions_arg`. -/
abbrev Entry := SigAction × ℤ

/-! ## The C side -/

/-- The loop of `ytdl__strrev`; `fuel` bounds its iterations. -/
def strrevLoop : ℕ → ℤ → ℤ → Object UInt8 → Option (Object UInt8)
  | 0, _, _, _ => none
  | fuel + 1, i, j, str =>
    if i > j then do
      let ch ← str.read i.toNat
      let other ← str.read j.toNat
      let str ← str.write i.toNat other
      let str ← str.write j.toNat ch
      strrevLoop fuel (i - 1) (j + 1) str
    else
      some str

/-- `ytdl__strrev`, which keeps the index of the last character in an `int`. -/
def strrev (str : Object UInt8) : Option (Object UInt8) := do
  let first ← str.read 0
  if first = 0 then
    some str
  else
    let len ← str.strlen
    strrevLoop (len + 1) (toInt (len - 1)) 0 str

/-- The branch of `YTDL_SIG_ACTION_SWAP`: the first index is reduced, the second is not. -/
def swapAction (arg : ℤ) (sig : Object UInt8) : Option (Object UInt8) := do
  let first ← sig.read 0
  let len ← sig.strlen
  if len = 0 then
    none
  else
    let other ← sig.read (sizeT arg % len)
    let sig ← sig.write 0 other
    if arg < 0 then none else sig.write arg.toNat first

/-- The copying loop of `YTDL_SIG_ACTION_SPLICE` and `YTDL_SIG_ACTION_SLICE`, with `remaining`
iterations left from index `x` on. -/
def copyLoop (arg : ℤ) : ℕ → ℕ → Object UInt8 → Option (Object UInt8)
  | 0, _, sig => some sig
  | remaining + 1, x, sig => do
    let ch ← sig.read ((sizeT arg + x) % 2 ^ 64)
    let sig ← sig.write x ch
    copyLoop arg remaining (x + 1) sig

def dropAction (arg : ℤ) (sig : Object UInt8) : Option (Object UInt8) := do
  let len ← sig.strlen
  let sigLen := sizeT (len - arg + 1)
  copyLoop arg sigLen 0 sig

/-- One iteration of the action loop. -/
def action (sig : Object UInt8) : Entry → Option (Object UInt8)
  | (.reverse, _) => strrev sig
  | (.swap, arg) => swapAction arg sig
  | (.splice, arg) => dropAction arg sig
  | (.slice, arg) => dropAction arg sig

def actionLoop (actions : List Entry) (sig : Object UInt8) : Option (Object UInt8) :=
  actions.foldlM action sig

/-! ## The JavaScript side -/

/-- `c=a[0];a[0]=a[b%a.length];a[b%a.length]=c`. -/
def jsSwap (b : ℤ) (a : Chars) : Chars :=
  let index := b.toNat % a.length
  match a[0]?, a[index]? with
  | some c, some other => (a.set 0 other).set index c
  | _, _ => a

/-- `a.slice(b)`. -/
def jsSlice (b : ℤ) (a : Chars) : Chars := a.drop b.toNat

/-- `a.splice(0,b)`. -/
def jsSplice (b : ℤ) (a : Chars) : Chars := a.drop b.toNat

def jsAction (a : Chars) : Entry → Chars
  | (.reverse, _) => a.reverse
  | (.swap, b) => jsSwap b a
  | (.splice, b) => jsSplice b a
  | (.slice, b) => jsSlice b a

def jsRun (actions : List Entry) (a : Chars) : Chars := actions.foldl jsAction a

/-! ## The loops -/

theorem strrevLoop_stop {fuel : ℕ} {i j : ℤ} (hstop : i ≤ j) (str : Object UInt8) :
    strrevLoop (fuel + 1) i j str = some str :=
  if_neg (not_lt.mpr hstop)

/-- One exchange of the loop of `ytdl__strrev`. -/
theorem strrevLoop_exchange (fuel : ℕ) {i j : ℤ} {before middle after : Chars} {first last : UInt8}
    {str : Object UInt8} (hcells : str.cells = before ++ first :: (middle ++ last :: after))
    (hi : i = before.length + middle.length + 1) (hj : j = before.length) :
    ∃ next, next.cells = (before ++ [last]) ++ middle ++ (first :: after) ∧
      strrevLoop (fuel + 1) i j str = strrevLoop fuel (i - 1) (j + 1) next := by
  have hend : str.cells = (before ++ first :: middle) ++ last :: after := by simp [hcells]
  have hlast : i.toNat = (before ++ first :: middle).length := by
    simp only [List.length_append, List.length_cons]
    omega
  have hfirst : j.toNat = before.length := by omega
  obtain ⟨half, hwriteLast, hhalf⟩ := Object.write_of_cells hend hlast first
  have hstart : half.cells = before ++ first :: (middle ++ first :: after) := by
    simpa using hhalf
  obtain ⟨next, hwriteFirst, hnext⟩ := Object.write_of_cells hstart hfirst last
  refine ⟨next, by simpa using hnext, ?_⟩
  have hgo : i > j := by omega
  simp [strrevLoop, hgo, Object.read_of_cells hend hlast, Object.read_of_cells hcells hfirst,
    hwriteLast, hwriteFirst]

/-- The loop of `ytdl__strrev`, started at the ends of a segment, reverses the segment. -/
theorem strrevLoop_reverse (middle : Chars) {fuel : ℕ} (hfuel : middle.length < fuel)
    {before after : Chars} {str : Object UInt8} (hcells : str.cells = before ++ middle ++ after) :
    ∃ out, strrevLoop fuel (before.length + middle.length - 1) before.length str = some out ∧
      out.cells = before ++ middle.reverse ++ after := by
  obtain ⟨fuel, rfl⟩ : ∃ rest, fuel = rest + 1 := ⟨fuel - 1, by omega⟩
  induction middle using List.bidirectionalRec generalizing fuel before after str with
  | nil =>
    refine ⟨str, strrevLoop_stop ?_ str, by simpa using hcells⟩
    simp only [List.length_nil]
    omega
  | singleton ch => exact ⟨str, strrevLoop_stop (by simp) str, by simpa using hcells⟩
  | cons_append first middle last ih =>
    have hlength : (first :: (middle ++ [last])).length = middle.length + 2 := by simp
    rw [hlength] at hfuel ⊢
    obtain ⟨fuel, rfl⟩ : ∃ rest, fuel = rest + 1 := ⟨fuel - 1, by omega⟩
    have hends : str.cells = before ++ first :: (middle ++ last :: after) := by
      simpa using hcells
    have hspan : (before.length : ℤ) + (middle.length + 2 : ℕ) - 1 =
        before.length + middle.length + 1 := by omega
    obtain ⟨next, hnext, hloop⟩ := strrevLoop_exchange (fuel + 1) hends hspan rfl
    obtain ⟨out, hout, hreversed⟩ := ih hnext fuel (by omega)
    refine ⟨out, ?_, by simpa using hreversed⟩
    have hi : (before.length : ℤ) + (middle.length + 2 : ℕ) - 1 - 1 =
        (before ++ [last]).length + middle.length - 1 := by
      simp only [List.length_append, List.length_singleton]
      omega
    have hj : (before.length : ℤ) + 1 = (before ++ [last]).length := by simp
    calc
      strrevLoop (fuel + 1 + 1) (before.length + (middle.length + 2 : ℕ) - 1) before.length str =
          strrevLoop (fuel + 1) (before.length + (middle.length + 2 : ℕ) - 1 - 1)
            (before.length + 1) next := hloop
      _ = strrevLoop (fuel + 1) ((before ++ [last]).length + middle.length - 1)
            (before ++ [last]).length next := by rw [hi, hj]
      _ = some out := hout

theorem copyLoop_succ {arg : ℤ} {x : ℕ} {sig next : Object UInt8} {ch : UInt8}
    (hread : sig.read ((sizeT arg + x) % 2 ^ 64) = some ch) (hwrite : sig.write x ch = some next)
    (remaining : ℕ) :
    copyLoop arg (remaining + 1) x sig = copyLoop arg remaining (x + 1) next := by
  rw [copyLoop, hread]
  simp [hwrite]

/-- One iteration of the copying loop, `gap` cells ahead of the place it writes to. -/
theorem copyLoop_copy {arg : ℤ} (remaining : ℕ) {copied gap after : Chars} {ch : UInt8}
    {sig : Object UInt8} (harg : sizeT arg = gap.length)
    (hcells : sig.cells = copied ++ (gap ++ ch :: after)) :
    ∃ next shifted, shifted.length = gap.length ∧
      next.cells = (copied ++ [ch]) ++ (shifted ++ after) ∧
      copyLoop arg (remaining + 1) copied.length sig =
        copyLoop arg remaining (copied.length + 1) next := by
  have hsize : copied.length + gap.length < 2 ^ 63 := by
    have := sig.size_lt
    simp only [hcells, List.length_append] at this
    omega
  have hread : sig.read ((sizeT arg + copied.length) % 2 ^ 64) = some ch := by
    rw [harg, Nat.mod_eq_of_lt (by omega)]
    have hsplit : sig.cells = (copied ++ gap) ++ ch :: after := by simpa using hcells
    exact Object.read_of_cells hsplit (by simp; omega)
  cases gap with
  | nil =>
    obtain ⟨next, hwrite, hnext⟩ := Object.write_of_cells hcells rfl ch
    exact ⟨next, [], rfl, by simpa using hnext, copyLoop_succ hread hwrite remaining⟩
  | cons overwritten gap =>
    obtain ⟨next, hwrite, hnext⟩ := Object.write_of_cells hcells rfl ch
    exact ⟨next, gap ++ [ch], by simp, by simpa using hnext, copyLoop_succ hread hwrite remaining⟩

/-- The copying loop moves `source` down over the `gap` before it. -/
theorem copyLoop_copies {arg : ℤ} (source : Chars) {copied gap after : Chars} {sig : Object UInt8}
    (harg : sizeT arg = gap.length) (hcells : sig.cells = copied ++ (gap ++ (source ++ after))) :
    ∃ out slack, copyLoop arg source.length copied.length sig = some out ∧
      out.cells = copied ++ source ++ slack := by
  induction source generalizing copied gap sig with
  | nil => exact ⟨sig, gap ++ after, rfl, by simpa using hcells⟩
  | cons ch source ih =>
    obtain ⟨next, shifted, hshifted, hnext, hloop⟩ :=
      copyLoop_copy source.length harg hcells
    obtain ⟨out, slack, hout, hcopied⟩ := ih (harg.trans hshifted.symm) hnext
    refine ⟨out, slack, ?_, by simpa using hcopied⟩
    calc
      copyLoop arg (source.length + 1) copied.length sig =
          copyLoop arg source.length (copied.length + 1) next := hloop
      _ = copyLoop arg source.length (copied ++ [ch]).length next := by
        rw [List.length_append, List.length_singleton]
      _ = some out := hout

/-- A copying loop with too many iterations leaves the buffer. -/
theorem copyLoop_eq_none {arg : ℤ} {remaining x : ℕ} {sig : Object UInt8} (hpos : 0 < remaining)
    (hwrap : sizeT arg + x < 2 ^ 64) (hsize : sig.size < sizeT arg + x + remaining) :
    copyLoop arg remaining x sig = none := by
  induction remaining generalizing x sig with
  | zero => omega
  | succ remaining ih =>
    rw [copyLoop, Nat.mod_eq_of_lt hwrap]
    by_cases hinside : sig.size ≤ sizeT arg + x
    · simp [Object.read_eq_none.mpr hinside]
    · obtain ⟨ch, hread⟩ := Object.read_of_lt (Nat.lt_of_not_le hinside)
      have hx : x < sig.size := by omega
      obtain ⟨next, hwrite, hnext⟩ := Object.write_of_lt hx ch
      have hkeep : next.size = sig.size := by simp [Object.size, hnext]
      have hlt := sig.size_lt
      have hrest : copyLoop arg remaining (x + 1) next = none := by
        refine ih (by omega) ?_ (by omega)
        rw [Object.size] at hinside
        omega
      simp [hread, hwrite, hrest]

/-! ## The buffer keeps its size -/

theorem strrevLoop_size {fuel : ℕ} {i j : ℤ} {str out : Object UInt8}
    (h : strrevLoop fuel i j str = some out) : out.size = str.size := by
  induction fuel generalizing i j str with
  | zero => simp [strrevLoop] at h
  | succ fuel ih =>
    rw [strrevLoop] at h
    split at h
    · simp only [Option.bind_eq_bind, Option.bind_eq_some_iff] at h
      obtain ⟨ch, -, other, -, half, hhalf, next, hnext, hrest⟩ := h
      rw [ih hrest, Object.size_of_write hnext, Object.size_of_write hhalf]
    · exact Option.some.inj h ▸ rfl

theorem copyLoop_size {arg : ℤ} {remaining x : ℕ} {sig out : Object UInt8}
    (h : copyLoop arg remaining x sig = some out) : out.size = sig.size := by
  induction remaining generalizing x sig with
  | zero => exact Option.some.inj h ▸ rfl
  | succ remaining ih =>
    simp only [copyLoop, Option.bind_eq_bind, Option.bind_eq_some_iff] at h
    obtain ⟨ch, -, next, hnext, hrest⟩ := h
    rw [ih hrest, Object.size_of_write hnext]

theorem strrev_size {str out : Object UInt8} (h : strrev str = some out) : out.size = str.size := by
  simp only [strrev, Option.bind_eq_bind, Option.bind_eq_some_iff] at h
  obtain ⟨first, -, h⟩ := h
  split at h
  · exact Option.some.inj h ▸ rfl
  · obtain ⟨len, -, hloop⟩ := Option.bind_eq_some_iff.mp h
    exact strrevLoop_size hloop

theorem swapAction_size {arg : ℤ} {sig out : Object UInt8} (h : swapAction arg sig = some out) :
    out.size = sig.size := by
  simp only [swapAction, Option.bind_eq_bind, Option.bind_eq_some_iff] at h
  obtain ⟨first, -, len, -, h⟩ := h
  split at h
  · simp at h
  · simp only [Option.bind_eq_some_iff] at h
    obtain ⟨other, -, half, hhalf, h⟩ := h
    split at h
    · simp at h
    · rw [Object.size_of_write h, Object.size_of_write hhalf]

theorem dropAction_size {arg : ℤ} {sig out : Object UInt8} (h : dropAction arg sig = some out) :
    out.size = sig.size := by
  obtain ⟨len, -, hloop⟩ := Option.bind_eq_some_iff.mp h
  exact copyLoop_size hloop

/-- No action changes the size of the buffer. -/
theorem action_size {sig out : Object UInt8} {entry : Entry} (h : action sig entry = some out) :
    out.size = sig.size := by
  obtain ⟨kind, arg⟩ := entry
  cases kind with
  | swap => exact swapAction_size h
  | reverse => exact strrev_size h
  | slice => exact dropAction_size h
  | splice => exact dropAction_size h

end LibYtdl.Sig.Actions
