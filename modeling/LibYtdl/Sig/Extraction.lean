import LibYtdl.Sig.SigUnique
import LibYtdl.Sig.Refinement

/-!
# From the player's source to the actions

`ytdl_sig_actions_extract` runs the two compiled patterns on the source of the player, copies what
their groups hold, and goes through the copies with its two loops.
-/

namespace LibYtdl.Sig.Extraction

open Machine Memory Search Regex Regexp Exec Threads Emit Correctness Actions ObjectScan CallScan
  Refinement SigRegex
  SigGrammar SigUnique

/-! ## Running a pattern -/

/-- `ytdl__regex_exec`: the result and the captures, which are `NULL` when there is no memory for
them. The length of the text is passed on as an `int`. -/
def regexExec (malloc : Bool) (lreRealloc : ℕ → Bool) (lreCanonicalize : ℕ → ℕ)
    (reBytecode buf : Bytes)
    (lastIndex fuel : ℕ) : Option (ℤ × Captures) := do
  let reFlags ← getU8 reBytecode 0
  let lastIndex := if reFlags.testBit 0 || reFlags.testBit 5 then lastIndex else 0
  let captureCount ← getU8 reBytecode 1
  if captureCount > 0 ∧ malloc = false then some (-1, [])
  else if lastIndex > buf.length then some (-1, [])
  else if buf.length < 2 ^ 31 then
    lreExec lreRealloc lreCanonicalize reBytecode buf lastIndex fuel
  else none

/-- The first place of a text where one of the values stands, and what is in front of it. -/
structure FirstIn {α : Type} (text : α → Bytes) (buf before : Bytes) (value : α) : Prop where
  occurs : before ++ text value <+: buf
  first : ∀ earlier other, earlier ++ text other <+: buf → before.length ≤ earlier.length

/-- What a pattern finds: an error when there is no memory, nothing when there is no such value in
the text, or the first of them. -/
inductive Finds {α : Type} (text : α → Bytes) (held : α → Captures → Prop) (noMemory : Prop)
    (buf : Bytes)
    (capture : Captures) : ℤ → Prop
  | error (h : noMemory) : Finds text held noMemory buf capture (-1)
  | none (h : ∀ before value, ¬ before ++ text value <+: buf) :
    Finds text held noMemory buf capture 0
  | some (before : Bytes) (value : α) (h : FirstIn text buf before value)
    (hheld : held value capture) :
    Finds text held noMemory buf capture 1

section Patterns

variable {captureCount : ℕ} {node : Node CharSet} {buf : Bytes} {α : Type} {text : α → Bytes}
  {held : α → Captures → Prop}

/-- A pattern whose words are the texts of some values finds the first of them. -/
theorem regexExec_finds (hnode : Compiles captureCount node)
    (hwords : ∀ u, Matches CharSet.accepts node u ↔ ∃ value, u = text value)
    (hheld : ∀ pos captures last next, captures.length = 2 * captureCount →
      (last, next) ∈ results CharSet.accepts buf (.group 0 node) pos captures →
        ∃ value, text value <+: buf.drop pos ∧ held value next)
    (malloc : Bool) (lreRealloc : ℕ → Bool) (lreCanonicalize : ℕ → ℕ)
      (hlength : buf.length < 2 ^ 31) :
    ∃ fuel result capture,
      regexExec malloc lreRealloc lreCanonicalize (emitProgram captureCount node) buf 0 fuel =
        some (result, capture) ∧
      Finds text held (malloc = false ∨ ∃ size, lreRealloc size = false) buf capture result := by
  have hflags : getU8 (emitProgram captureCount node) 0 = some 0 := rfl
  have hcount : getU8 (emitProgram captureCount node) 1 = some captureCount := by
    rw [emitProgram, getU8]
    exact congrArg some (UInt8.toNat_ofNat_of_lt' hnode.count)
  cases malloc with
  | false =>
    refine ⟨0, -1, [], ?_, .error (.inl rfl)⟩
    rw [regexExec, hflags, hcount]
    exact if_pos ⟨hnode.pos, rfl⟩
  | true =>
    obtain ⟨fuel, result, capture, hrun, hreturns⟩ :=
      lreExec_emitProgram hnode lreRealloc lreCanonicalize (Nat.zero_le buf.length)
    refine ⟨fuel, result, capture, ?_, ?_⟩
    · rw [regexExec, hflags, hcount]
      simp only [Option.bind_eq_bind, Option.bind_some]
      rw [ite_self, if_neg fun h ↦ Bool.noConfusion h.2, if_neg (Nat.not_lt_zero _), if_pos hlength]
      exact hrun
    · cases hreturns.found (proper_of_encodable hnode.encodable) with
      | error size hsize => exact .error (.inr ⟨size, hsize⟩)
      | none hnone =>
        refine .none fun before value hoccurs ↦ ?_
        obtain ⟨behind, hbehind⟩ := hoccurs
        exact hnone before _ behind hbehind.symm ((hwords _).mpr ⟨value, rfl⟩)
      | some last hleftmost =>
        obtain ⟨start, hstart, hresult, hfirst⟩ := hleftmost
        obtain ⟨value, hvalue, hheldValue⟩ :=
          hheld start _ last capture List.length_replicate (List.mem_of_head? hresult)
        have htake : (buf.take start).length = start := List.length_take_of_le hstart
        refine .some (buf.take start) value ⟨?_, fun earlier other hother ↦ ?_⟩ hheldValue
        · obtain ⟨behind, hbehind⟩ := hvalue
          exact ⟨behind, by rw [List.append_assoc, hbehind, List.take_append_drop]⟩
        · obtain ⟨behind, hbehind⟩ := hother
          rw [htake]
          exact hfirst earlier _ behind hbehind.symm ((hwords _).mpr ⟨other, rfl⟩)

end Patterns

section Shipped

variable {buf : Bytes}

/-- The groups that are copied from a match of the first pattern. -/
def ObjHeld (buf : Bytes) (obj : ActionObj) (capture : Captures) : Prop :=
  piece buf capture 1 = some obj.name ∧ piece buf capture 2 = some (bodyOf obj.members)

/-- The group that is copied from a match of the second pattern. -/
def FuncHeld (buf : Bytes) (func : ActionFunc) (capture : Captures) : Prop :=
  piece buf capture 1 = some func.body

theorem objHeld_of_results (pos : ℕ) (captures : Captures) (last : ℕ) (next : Captures)
    (hlength : captures.length = 2 * 11)
    (h : (last, next) ∈ results CharSet.accepts buf (.group 0 objPattern) pos captures) :
    ∃ obj : ActionObj, obj.text <+: buf.drop pos ∧ ObjHeld buf obj next := by
  obtain ⟨obj, htext, -, hname, hbody⟩ := objPattern_pieces hlength h
  exact ⟨obj, htext, hname, hbody⟩

theorem funcHeld_of_results (pos : ℕ) (captures : Captures) (last : ℕ) (next : Captures)
    (hlength : captures.length = 2 * 4)
    (h : (last, next) ∈ results CharSet.accepts buf (.group 0 funcPattern) pos captures) :
    ∃ func : ActionFunc, func.text <+: buf.drop pos ∧ FuncHeld buf func next := by
  obtain ⟨func, htext, -, hbody⟩ := funcPattern_pieces hlength h
  exact ⟨func, htext, hbody⟩

/-- **The object pattern.** On every text `action_obj_regexp` finds the first object whose
properties are the four functions, with its name and its body in the groups that are copied. -/
theorem actionObjRegexp_finds (malloc : Bool) (lreRealloc : ℕ → Bool) (lreCanonicalize : ℕ → ℕ)
    (hlength : buf.length < 2 ^ 31) :
    ∃ fuel result capture,
      regexExec malloc lreRealloc lreCanonicalize actionObjRegexp buf 0 fuel =
        some (result, capture) ∧
      Finds ActionObj.text (ObjHeld buf) (malloc = false ∨ ∃ size, lreRealloc size = false) buf
        capture
        result := by
  rw [actionObjRegexp_eq]
  exact regexExec_finds compiles_obj (fun _ ↦ matches_objPattern) objHeld_of_results malloc
    lreRealloc
    lreCanonicalize hlength

theorem actionObjRegexp_finds_splice :
    ∃ fuel result capture,
      regexExec true (fun _ ↦ true) id actionObjRegexp
        (ascii "a;var X=\x7bab:function(a,b)\x7ba.splice(0,b)\x7d\x7d;") 0 fuel =
          some (result, capture) ∧
      Finds ActionObj.text
        (ObjHeld (ascii "a;var X=\x7bab:function(a,b)\x7ba.splice(0,b)\x7d\x7d;"))
        (true = false ∨ ∃ size : ℕ, (fun _ ↦ true) size = false)
        (ascii "a;var X=\x7bab:function(a,b)\x7ba.splice(0,b)\x7d\x7d;") capture result :=
  actionObjRegexp_finds true (fun _ ↦ true) id (by decide)

/-- **The function pattern.** On every text `action_func_regexp` finds the first function that
splits its argument, makes calls and joins it, with the calls in the group that is copied. -/
theorem actionFuncRegexp_finds (malloc : Bool) (lreRealloc : ℕ → Bool) (lreCanonicalize : ℕ → ℕ)
    (hlength : buf.length < 2 ^ 31) :
    ∃ fuel result capture,
      regexExec malloc lreRealloc lreCanonicalize actionFuncRegexp buf 0 fuel =
        some (result, capture) ∧
      Finds ActionFunc.text (FuncHeld buf) (malloc = false ∨ ∃ size, lreRealloc size = false) buf
        capture
        result := by
  rw [actionFuncRegexp_eq]
  exact regexExec_finds compiles_func (fun _ ↦ matches_funcPattern) funcHeld_of_results malloc
    lreRealloc
    lreCanonicalize hlength

theorem actionFuncRegexp_finds_call :
    ∃ fuel result capture,
      regexExec true (fun _ ↦ true) id actionFuncRegexp
        (ascii "function(a)\x7ba=a.split('');X.ab(a,3);return a.join('')\x7d") 0 fuel =
          some (result, capture) ∧
      Finds ActionFunc.text
        (FuncHeld (ascii "function(a)\x7ba=a.split('');X.ab(a,3);return a.join('')\x7d"))
        (true = false ∨ ∃ size : ℕ, (fun _ ↦ true) size = false)
        (ascii "function(a)\x7ba=a.split('');X.ab(a,3);return a.join('')\x7d") capture result :=
  actionFuncRegexp_finds true (fun _ ↦ true) id (by decide)

end Shipped

/-! ## The extraction -/

/-- The two patterns. -/
inductive Pattern
  | obj | func
  deriving DecidableEq

/-- The buffers that groups are copied to. -/
inductive Buffer
  | obj | objBody | funcBody
  deriving DecidableEq

/-- Which allocations succeed: of the captures and of the states of a match, and of the buffers. -/
structure Heap where
  captures : Pattern → Bool
  states : Pattern → ℕ → Bool
  buffers : Buffer → Bool

/-- What the first part of `ytdl_sig_actions_extract` leaves in `actions`: it returns -1, or it goes
on with the n function. -/
inductive Extracted
  | failed (actions : Cells)
  | actions (actions : Cells) (actionsSize : ℕ)

/-- The pointer at the start of a group is `NULL`. -/
def isNull (capture : Captures) (index : ℕ) : Bool := capture[2 * index]?.join.isNone

/-- A buffer with a copy of a group. -/
def copyGroup (buf : Bytes) (capture : Captures) (index : ℕ) : Option (Object UInt8) := do
  let start ← capture[2 * index]?.join
  let stop ← capture[2 * index + 1]?.join
  let cells := (buf.take stop).drop start
  if h : start ≤ stop ∧ cells.length < 2 ^ 63 then some ⟨cells, h.2⟩ else none

/-- The loops of `ytdl_sig_actions_extract`. -/
def runLoops (objBody funcBody : Object UInt8) (actions : Cells) : Option Extracted := do
  let state ← objectLoop objBody.cells
  match callLoop objBody funcBody state.ranges actions with
  | .error .undefined => none
  | .error (.overflow actions) => some (.failed actions)
  | .ok (actions, actionsSize) => some (.actions actions actionsSize)

/-- `ytdl_sig_actions_extract` up to the n function. -/
def sigActionsExtract (heap : Heap) (lreCanonicalize : ℕ → ℕ) (hasBytecode : Bool) (actions : Cells)
    (buf : Bytes) (fuel : ℕ) : Option Extracted :=
  if hasBytecode then some (.failed actions)
  else do
    let (result, capture) ←
      regexExec (heap.captures .obj) (heap.states .obj) lreCanonicalize actionObjRegexp buf 0 fuel
    if result ≠ 1 ∨ isNull capture 1 ∨ isNull capture 2 then some (.failed actions)
    else do
      let _ ← copyGroup buf capture 1
      if heap.buffers .obj = false then some (.failed actions)
      else do
        let objBody ← copyGroup buf capture 2
        if heap.buffers .objBody = false then some (.failed actions)
        else do
          let (result, capture) ←
            regexExec (heap.captures .func) (heap.states .func) lreCanonicalize actionFuncRegexp buf
              0 fuel
          if result ≠ 1 ∨ isNull capture 1 then some (.failed actions)
          else do
            let funcBody ← copyGroup buf capture 1
            if heap.buffers .funcBody = false then some (.failed actions)
            else runLoops objBody funcBody actions

/-- All allocations succeed. -/
def Heap.Suffices (heap : Heap) : Prop :=
  (∀ pattern, heap.captures pattern = true ∧ ∀ size, heap.states pattern size = true) ∧
    ∀ buffer, heap.buffers buffer = true

section Runs

variable {buf : Bytes} {capture : Captures} {index : ℕ} {cells : Bytes}

theorem regexExec_of_le {malloc : Bool} {lreRealloc : ℕ → Bool} {lreCanonicalize : ℕ → ℕ}
    {reBytecode : Bytes} {lastIndex fuel more : ℕ} {result : ℤ × Captures} (hle : fuel ≤ more)
    (h : regexExec malloc lreRealloc lreCanonicalize reBytecode buf lastIndex fuel = some result) :
    regexExec malloc lreRealloc lreCanonicalize reBytecode buf lastIndex more = some result := by
  simp only [regexExec, Option.bind_eq_bind, Option.bind_eq_some_iff] at h ⊢
  obtain ⟨reFlags, hflags, captureCount, hcount, h⟩ := h
  refine ⟨reFlags, hflags, captureCount, hcount, ?_⟩
  generalize (if (reFlags.testBit 0 || reFlags.testBit 5) = true then lastIndex else 0) =
    start at h ⊢
  by_cases hmalloc : captureCount > 0 ∧ malloc = false
  · rwa [if_pos hmalloc] at h ⊢
  · rw [if_neg hmalloc] at h ⊢
    by_cases hstart : start > buf.length
    · rwa [if_pos hstart] at h ⊢
    · rw [if_neg hstart] at h ⊢
      by_cases hlength : buf.length < 2 ^ 31
      · rw [if_pos hlength] at h ⊢
        exact lreExec_of_le hle h
      · rwa [if_neg hlength] at h ⊢

theorem copyGroup_eq (hlength : buf.length < 2 ^ 31) (h : piece buf capture index = some cells) :
    isNull capture index = false ∧
      ∃ object, copyGroup buf capture index = some object ∧ object.cells = cells := by
  rw [piece] at h
  split at h
  · next start stop hstart hstop =>
    split at h
    · next hle =>
      obtain rfl := Option.some.inj h
      have hfits : ((buf.take stop).drop start).length < 2 ^ 63 := by
        rw [List.length_drop, List.length_take]
        omega
      refine ⟨by rw [isNull, hstart]; rfl, ⟨_, hfits⟩, ?_, rfl⟩
      simp only [copyGroup, hstart, hstop, Option.bind_eq_bind, Option.bind_some]
      exact dif_pos ⟨hle, hfits⟩
    · cases h
  · cases h

/-- The first of the values stands at one place. -/
theorem FirstIn.unique {α : Type} {text : α → Bytes}
    (htext : ∀ {value also : α} {rest other : Bytes}, text value ++ rest = text also ++ other →
      value = also)
    {before earlier : Bytes} {value also : α} (h : FirstIn text buf before value)
    (hother : FirstIn text buf earlier also) : value = also := by
  have hlength : before.length = earlier.length :=
    Nat.le_antisymm (h.first _ _ hother.occurs) (hother.first _ _ h.occurs)
  obtain ⟨rest, hrest⟩ := h.occurs
  obtain ⟨other, hsame⟩ := hother.occurs
  rw [← hsame, List.append_assoc, List.append_assoc] at hrest
  exact htext (List.append_inj hrest hlength).2

/-- On every source the extraction fails without a change, because of memory or because there is no
object or no function, or it goes through the bodies of the first ones. -/
theorem sigActionsExtract_spec (heap : Heap) (lreCanonicalize : ℕ → ℕ) (actions : Cells)
    (hlength : buf.length < 2 ^ 31) :
    ∃ fuel,
      (sigActionsExtract heap lreCanonicalize false actions buf fuel = some (.failed actions) ∧
        (¬ heap.Suffices ∨ (∀ before, ∀ obj : ActionObj, ¬ before ++ obj.text <+: buf) ∨
          ∀ before, ∀ func : ActionFunc, ¬ before ++ func.text <+: buf)) ∨
      ∃ beforeObj obj beforeFunc func objBody funcBody,
        FirstIn ActionObj.text buf beforeObj obj ∧ FirstIn ActionFunc.text buf beforeFunc func ∧
          objBody.cells = bodyOf obj.members ∧ funcBody.cells = func.body ∧
          sigActionsExtract heap lreCanonicalize false actions buf fuel =
            runLoops objBody funcBody actions := by
  have hcaptures {pattern : Pattern}
      (h : heap.captures pattern = false ∨ ∃ size, heap.states pattern size = false) :
      ¬ heap.Suffices := by
    rintro ⟨hall, -⟩
    obtain ⟨hcapture, hstates⟩ := hall pattern
    obtain h | ⟨size, h⟩ := h
    · exact absurd (hcapture.symm.trans h) Bool.noConfusion
    · exact absurd ((hstates size).symm.trans h) Bool.noConfusion
  have hbuffers {buffer : Buffer} (h : heap.buffers buffer = false) : ¬ heap.Suffices := fun hall ↦
    absurd ((hall.2 buffer).symm.trans h) Bool.noConfusion
  obtain ⟨fuelObj, result, capture, hobjRun, hobj⟩ := regexExec_finds compiles_obj
    (fun _ ↦ matches_objPattern) objHeld_of_results (heap.captures .obj)
      (heap.states .obj) lreCanonicalize
    hlength
  obtain ⟨fuelFunc, resultFunc, captureFunc, hfuncRun, hfunc⟩ := regexExec_finds compiles_func
    (fun _ ↦ matches_funcPattern) funcHeld_of_results (heap.captures .func) (heap.states .func)
    lreCanonicalize hlength
  rw [← actionObjRegexp_eq] at hobjRun
  rw [← actionFuncRegexp_eq] at hfuncRun
  have hobjRun := regexExec_of_le (Nat.le_max_left fuelObj fuelFunc) hobjRun
  have hfuncRun := regexExec_of_le (Nat.le_max_right fuelObj fuelFunc) hfuncRun
  refine ⟨max fuelObj fuelFunc, ?_⟩
  rw [sigActionsExtract, if_neg Bool.false_ne_true]
  simp only [Option.bind_eq_bind]
  rw [hobjRun, Option.bind_some]
  dsimp only
  cases hobj with
  | error hmemory =>
    rw [if_pos (.inl (by decide))]
    exact .inl ⟨rfl, .inl (hcaptures hmemory)⟩
  | none hnone =>
    rw [if_pos (.inl (by decide))]
    exact .inl ⟨rfl, .inr (.inl hnone)⟩
  | some beforeObj obj hfirst hheld =>
    obtain ⟨hnameNull, name, hname, -⟩ := copyGroup_eq hlength hheld.1
    obtain ⟨hbodyNull, objBody, hbody, hbodyCells⟩ := copyGroup_eq hlength hheld.2
    rw [hnameNull, hbodyNull, if_neg (by decide), hname, Option.bind_some]
    split
    · next hfail => exact .inl ⟨rfl, .inl (hbuffers hfail)⟩
    rw [hbody, Option.bind_some]
    split
    · next hfail => exact .inl ⟨rfl, .inl (hbuffers hfail)⟩
    rw [hfuncRun, Option.bind_some]
    dsimp only
    cases hfunc with
    | error hmemory =>
      rw [if_pos (.inl (by decide))]
      exact .inl ⟨rfl, .inl (hcaptures hmemory)⟩
    | none hnone =>
      rw [if_pos (.inl (by decide))]
      exact .inl ⟨rfl, .inr (.inr hnone)⟩
    | some beforeFunc func hfirstFunc hheldFunc =>
      obtain ⟨hcallsNull, funcBody, hcalls, hcallsCells⟩ := copyGroup_eq hlength hheldFunc
      rw [hcallsNull, if_neg (by decide), hcalls, Option.bind_some]
      split
      · next hfail => exact .inl ⟨rfl, .inl (hbuffers hfail)⟩
      exact .inr ⟨beforeObj, obj, beforeFunc, func, objBody, funcBody, hfirst, hfirstFunc,
        hbodyCells,
        hcallsCells, rfl⟩

end Runs

end LibYtdl.Sig.Extraction
