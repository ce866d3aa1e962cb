import LibYtdl.Sig.Extraction

/-!
# The extracted actions against the player's script

The function of the player's script calls the functions of its object on the characters of the
signature. For a source whose object and function the two scanners read rightly, the actions that
are extracted from it do the same to a buffer that holds the signature.
-/

namespace LibYtdl.Sig.Decipher

open Machine Memory Search Actions ObjectScan CallScan Refinement SigGrammar SigUnique Extraction

/-! ## The script -/

/-- The name of a property in which nothing is escaped. -/
def content : Name → Bytes
  | .identifier name _ => name
  | .quoted _ _ content _ => content

/-- What a function of the object leaves in the array that it is called with, and what it returns,
with `none` for `undefined`. It has no value where it works with an element that is not there. -/
def runMethod : Method → ℕ → Chars → Option (Chars × Option Chars)
  | .reverse returns, _, a => some (a.reverse, if returns then some a.reverse else none)
  | .slice, b, a => some (a, some (a.drop b))
  | .splice, b, a => some (a.drop b, none)
  | .swap firstModulo secondModulo returns, b, a =>
    let first := if firstModulo then b % a.length else b
    let second := if secondModulo then b % a.length else b
    match a[0]?, a[first]? with
    | some c, some other =>
      if second < a.length then
        let swapped := (a.set 0 other).set second c
        some (swapped, if returns then some swapped else none)
      else none
    | _, _ => none

/-- A call leaves its array, or what is assigned to it. -/
def runCall (obj : ActionObj) (a : Chars) (call : ActionCall) : Option Chars :=
  if call.object = obj.name then do
    let member ← obj.members.find? fun member ↦ content member.name = content call.name
    let (after, value) ← runMethod member.method (decimal call.number) a
    if call.assigns then value else some after
  else none

/-- The calls of the function, one after the other. -/
def runCalls (obj : ActionObj) (calls : List ActionCall) (a : Chars) : Option Chars :=
  calls.foldlM (runCall obj) a

/-! ## The actions of a call -/

/-- The name of the function of a kind. -/
def nameOf (obj : ActionObj) (kind : SigAction) : Option Bytes :=
  (obj.members.find? fun member ↦ member.method.kind = kind).map fun member ↦ content member.name

/-- The action of a call. -/
def actionOf (obj : ActionObj) (call : ActionCall) : Option Entry :=
  (kindOf (nameOf obj) (content call.name)).map fun kind ↦
    (kind, if kind = .reverse then 0 else (decimal call.number : ℤ))

/-- The actions of the calls, in order. -/
def actionsOf (obj : ActionObj) (calls : List ActionCall) : List Entry :=
    calls.filterMap (actionOf obj)

/-- Each kind of function is there once at most, the names are different, and the first scanner
reads them. -/
structure Regular (obj : ActionObj) : Prop where
  kinds : (obj.members.map fun member ↦ member.method.kind).Nodup
  names : (obj.members.map fun member ↦ content member.name).Nodup
  readable : ∀ kind, Readable obj.members kind

/-- The second scanner reads the call. -/
structure Plain (call : ActionCall) : Prop where
  name : content call.name ≠ []
  chars : (content call.name).all isIdentifierChar = true
  value : decimal call.number < 2 ^ 31

/-- What `slice` returns is assigned. -/
def Assigns (obj : ActionObj) (call : ActionCall) : Prop :=
  ∀ member ∈ obj.members, member.method = .slice → content member.name = content call.name →
    call.assigns = true

/-! ## The object -/

section Objects

variable {obj : ActionObj} {member other : Member} {kind : SigAction} {name : Bytes}

theorem eq_of_kind (h : Regular obj) (hmember : member ∈ obj.members) (hother : other ∈ obj.members)
    (hkind : member.method.kind = other.method.kind) : member = other :=
  List.inj_on_of_nodup_map h.kinds hmember hother hkind

theorem eq_of_name (h : Regular obj) (hmember : member ∈ obj.members) (hother : other ∈ obj.members)
    (hname : content member.name = content other.name) : member = other :=
  List.inj_on_of_nodup_map h.names hmember hother hname

theorem nameOf_eq_some : nameOf obj kind = some name →
    ∃ member ∈ obj.members, member.method.kind = kind ∧ content member.name = name := by
  intro h
  obtain ⟨member, hfind, rfl⟩ := Option.map_eq_some_iff.mp h
  have hkind := List.find?_some hfind
  exact ⟨member, List.mem_of_find?_eq_some hfind, of_decide_eq_true hkind, rfl⟩

theorem nameOf_member (h : Regular obj) (hmember : member ∈ obj.members) :
    nameOf obj member.method.kind = some (content member.name) := by
  rw [nameOf]
  cases hfind : obj.members.find? fun other ↦ other.method.kind = member.method.kind with
  | none =>
    exact absurd (decide_eq_true rfl) (List.find?_eq_none.mp hfind member hmember)
  | some other =>
    have hkind := List.find?_some hfind
    rw [eq_of_kind h (List.mem_of_find?_eq_some hfind) hmember (of_decide_eq_true hkind),
      Option.map_some]

theorem alone_of_mem (h : Regular obj) (hmember : member ∈ obj.members) :
    ∃ before after, Alone member.method.kind obj.members before member after := by
  obtain ⟨before, after, hmembers⟩ := List.append_of_mem hmember
  refine ⟨before, after, hmembers, rfl, fun other hother hkind ↦ ?_⟩
  have hnodup := h.kinds
  rw [hmembers, List.map_append, List.map_cons, List.nodup_middle, List.nodup_cons,
    ← List.map_append] at hnodup
  exact hnodup.1 (List.mem_map.mpr ⟨other, hother, hkind⟩)

/-- What the first scanner records names the kinds. -/
theorem assigned_of_agrees (h : Regular obj) {ranges : Ranges}
    (hagrees : ∀ kind, Agrees obj.members kind (ranges kind)) :
    Assigned (bodyOf obj.members) (nameOf obj) ranges where
  named := by
    intro kind name hname
    obtain ⟨member, hmember, rfl, rfl⟩ := nameOf_eq_some hname
    obtain ⟨before, after, halone⟩ := alone_of_mem h hmember
    have hrange := (hagrees _).alone _ _ _ halone
    have hunquoted := ((h.readable _).alone _ _ _ halone).1
    have hbody : bodyOf obj.members = bodyOf before ++ (member.text ++ bodyOf after) := by
      rw [halone.members_eq, bodyOf_append, bodyOf_cons]
    obtain ⟨memberName, method, hasComma, hasReturn, hasFeed⟩ := member
    cases memberName with
    | quoted => exact absurd hunquoted Bool.false_ne_true
    | identifier text htext =>
      rw [hrange]
      refine ⟨ne_nil_of_isIdentifier htext, rfl, ?_⟩
      rw [hbody]
      simp only [Name.range, content, Member.text, Name.text, List.drop_left, List.append_assoc,
        List.take_left]
  unnamed := by
    intro kind hname
    have hnone := Option.map_eq_none_iff.mp hname
    have habsent : Absent kind obj.members := fun member hmember hkind ↦
      List.find?_eq_none.mp hnone member hmember (decide_eq_true hkind)
    rw [(hagrees kind).absent habsent]
  distinct := by
    intro kind other hsame hne
    obtain ⟨name, hname⟩ := Option.ne_none_iff_exists'.mp hne
    obtain ⟨member, hmember, rfl, hcontent⟩ := nameOf_eq_some hname
    obtain ⟨also, halso, rfl, hother⟩ := nameOf_eq_some (hsame ▸ hname)
    rw [eq_of_name h hmember halso (hcontent.trans hother.symm)]

/-- The first scanner reads the body of the object. -/
theorem objectLoop_regular (h : Regular obj) :
    ∃ state, objectLoop (bodyOf obj.members) = some state ∧
    Assigned (bodyOf obj.members) (nameOf obj) state.ranges := by
  have hscanned (members : List Member) : ∃ state skip, Scanned members skip state := by
    induction members using List.reverseRecOn with
    | nil => exact ⟨_, _, scanned_nil⟩
    | append_singleton members member ih =>
      obtain ⟨state, skip, hstate⟩ := ih
      exact hstate.append member
  obtain ⟨state, skip, hstate⟩ := hscanned obj.members
  refine ⟨state, ?_, assigned_of_agrees h fun kind ↦ (hstate.agrees kind).mpr (h.readable kind)⟩
  have hscan := hstate.scan []
  rwa [List.append_nil, Scanner.scan_nil] at hscan

theorem kindOf_member (h : Regular obj) (hmember : member ∈ obj.members) :
    kindOf (nameOf obj) (content member.name) = some member.method.kind := by
  rw [kindOf]
  cases hfind : [SigAction.swap, .reverse, .slice, .splice].find? fun kind ↦
      nameOf obj kind = some (content member.name) with
  | none =>
    refine absurd (decide_eq_true (nameOf_member h hmember)) (List.find?_eq_none.mp hfind _ ?_)
    cases member.method.kind <;> decide
  | some kind =>
    have hkind := List.find?_some hfind
    obtain ⟨other, hother, rfl, hname⟩ := nameOf_eq_some (of_decide_eq_true hkind)
    rw [eq_of_name h hother hmember hname]

end Objects

/-! ## The calls -/

section Calls

variable {obj : ActionObj} {call : ActionCall} {calls : List ActionCall} {a result : Chars}

/-- A call that the second scanner reads. -/
theorem exists_call (h : Plain call) (hlength : call.number.length < 2 ^ 31) :
    ∃ read : Call, read.text = call.text ∧ entryOf (nameOf obj) read = actionOf obj call := by
  obtain ⟨assigns, object, hobject, name, number, hnumber, hdigits⟩ := call
  have hassign : ascii "a=" = [97, 61] := by decide
  have hopen : ascii "(a," = [openParen, 97, comma] := by decide
  have hclose : ascii ");" = [closeParen, semicolon] := by decide
  cases name with
  | identifier text htext =>
    refine ⟨⟨assigns, object, hobject, .dotted, text, h.name, h.chars, number, hnumber, hdigits,
      h.value,
      hlength⟩, ?_, rfl⟩
    simp only [Call.text, Call.front, Access.opening, Access.closing, ActionCall.text,
      ActionCall.back,
      accessText, hassign, hopen, hclose, List.append_assoc, List.cons_append, List.nil_append]
  | quoted mark hmark text htext =>
    refine ⟨⟨assigns, object, hobject, .bracketed mark hmark, text, h.name, h.chars, number,
      hnumber,
      hdigits, h.value, hlength⟩, ?_, rfl⟩
    simp only [Call.text, Call.front, Access.opening, Access.closing, ActionCall.text,
      ActionCall.back,
      accessText, hassign, hopen, hclose, List.append_assoc, List.cons_append, List.nil_append]

theorem exists_calls (h : ∀ call ∈ calls, Plain call)
    (hlength : (calls.flatMap ActionCall.text).length < 2 ^ 31) :
    ∃ read : List Call, textOf read = calls.flatMap ActionCall.text ∧ read.length = calls.length ∧
      entriesOf (nameOf obj) read = actionsOf obj calls := by
  induction calls with
  | nil => exact ⟨[], rfl, rfl, rfl⟩
  | cons call calls ih =>
    rw [List.flatMap_cons, List.length_append] at hlength
    have hnumber : call.number.length ≤ call.text.length := by
      simp only [ActionCall.text, ActionCall.back, List.length_append]
      omega
    obtain ⟨first, htext, hentry⟩ :=
      @exists_call obj call (h call List.mem_cons_self) (by omega)
    obtain ⟨rest, hrest, hcount, hentries⟩ :=
      ih (fun other hother ↦ h other (List.mem_cons_of_mem call hother)) (by omega)
    refine ⟨first :: rest, ?_, congrArg (· + 1) hcount, ?_⟩
    · rw [textOf_cons, htext, hrest, List.flatMap_cons]
    · rw [entriesOf_cons, hentry, hentries, actionsOf, actionsOf, List.filterMap_cons]
      cases actionOf obj call <;> rfl

/-- The two loops find the actions of the calls. -/
theorem runLoops_regular (hobj : Regular obj) (hcalls : ∀ call ∈ calls, Plain call)
    (hfits : calls.length ≤ maxSig) {objBody funcBody : Object UInt8}
      (hobjBody : objBody.cells = bodyOf obj.members)
    (hfuncBody : funcBody.cells = calls.flatMap ActionCall.text)
      (hlength : funcBody.cells.length < 2 ^ 31)
    {actions : Cells} (hroom : actions.length = maxSig) :
    runLoops objBody funcBody actions = some (.actions
      ((actionsOf obj calls).map some ++ actions.drop (actionsOf obj calls).length)
      (actionsOf obj calls).length) := by
  obtain ⟨state, hstate, hassigned⟩ := objectLoop_regular hobj
  obtain ⟨read, htext, hcount, hentries⟩ := @exists_calls obj calls hcalls (hfuncBody ▸ hlength)
  rw [← hobjBody] at hstate hassigned
  have hbody : funcBody.cells = [] ++ textOf read := by rw [List.nil_append, htext, hfuncBody]
  have hidx : (Cursor.initial actions).actionIdx + read.length ≤ maxSig := by
    rw [Cursor.initial, Nat.zero_add, hcount]
    exact hfits
  obtain ⟨last, hscan, hactions, hactionIdx⟩ := scan_calls hassigned read hbody rfl hroom hidx
  have hloop : callLoop objBody funcBody state.ranges actions =
      .ok (last.actions, last.actionIdx) := by
    rw [callLoop, hbody]
    exact congrArg (Except.map fun cursor ↦ (cursor.actions, cursor.actionIdx)) hscan
  rw [runLoops, hstate, Option.bind_eq_bind, Option.bind_some, hloop]
  dsimp only
  rw [hactions, hactionIdx, hentries]
  simp only [Cursor.initial, stored, List.take_zero, List.nil_append, Nat.zero_add]

end Calls

/-! ## Running the actions -/

section Running

variable {obj : ActionObj} {call : ActionCall} {calls : List ActionCall} {a after result : Chars}
  {value : Option Chars} {b : ℕ}

/-- A swap that works with elements of the array is one with a reduced index. -/
theorem runMethod_swap {firstModulo secondModulo returns : Bool}
    (h : runMethod (.swap firstModulo secondModulo returns) b a = some (after, value)) :
    after = jsSwap b a ∧ ∀ result ∈ value, result = after := by
  have hindex {modulo : Bool} (hlt : (if modulo = true then b % a.length else b) < a.length) :
      (if modulo = true then b % a.length else b) = b % a.length := by
    cases modulo with
    | true => rfl
    | false => exact (Nat.mod_eq_of_lt hlt).symm
  simp only [runMethod] at h
  split at h
  · next c other hc hother =>
    by_cases hsecond : (if secondModulo = true then b % a.length else b) < a.length
    · rw [if_pos hsecond] at h
      have hfirst := hindex (List.getElem?_eq_some_iff.mp hother).1
      rw [hfirst] at hother
      rw [hindex hsecond] at h
      obtain ⟨rfl, rfl⟩ := Prod.mk.inj (Option.some.inj h)
      refine ⟨?_, fun result hresult ↦ ?_⟩
      · simp only [jsSwap, Int.toNat_natCast, hc, hother]
      · cases returns with
        | true => exact (Option.some.inj hresult).symm
        | false => cases hresult
    · rw [if_neg hsecond] at h
      cases h
  · cases h

/-- What a method leaves, and what it returns, is what its action makes of the characters, but for
`slice`, which only returns it. -/
theorem runMethod_eq {method : Method} {assigns : Bool}
    (h : runMethod method b a = some (after, value)) (hassigns : method = .slice → assigns = true)
    (hresult : (if assigns then value else some after) = some result) :
    jsAction a (method.kind, if method.kind = .reverse then 0 else (b : ℤ)) = result := by
  cases method with
  | reverse returns =>
    obtain ⟨rfl, rfl⟩ := Prod.mk.inj (Option.some.inj h)
    cases assigns with
    | false => exact Option.some.inj hresult
    | true =>
      cases returns with
      | false => cases hresult
      | true => exact Option.some.inj hresult
  | slice =>
    obtain ⟨rfl, rfl⟩ := Prod.mk.inj (Option.some.inj h)
    rw [hassigns rfl, if_pos rfl] at hresult
    rw [← Option.some.inj hresult]
    simp only [Method.kind, reduceCtorEq, if_false, jsAction, jsSlice, Int.toNat_natCast]
  | splice =>
    obtain ⟨rfl, rfl⟩ := Prod.mk.inj (Option.some.inj h)
    cases assigns with
    | true => cases hresult
    | false =>
      rw [← Option.some.inj hresult]
      simp only [Method.kind, reduceCtorEq, if_false, jsAction, jsSplice, Int.toNat_natCast]
  | swap firstModulo secondModulo returns =>
    obtain ⟨hafter, hvalue⟩ := runMethod_swap h
    have hsame : result = after := by
      cases assigns with
      | true => exact hvalue result hresult
      | false => exact (Option.some.inj hresult).symm
    rw [hsame, hafter]
    simp only [Method.kind, reduceCtorEq, if_false, jsAction]

/-- A call does what its action does. -/
theorem runCall_eq (hobj : Regular obj) (hassigns : Assigns obj call)
    (h : runCall obj a call = some result) :
    ∃ entry, actionOf obj call = some entry ∧ jsAction a entry = result := by
  rw [runCall] at h
  split at h
  · simp only [Option.bind_eq_bind, Option.bind_eq_some_iff] at h
    obtain ⟨member, hfind, ⟨after, value⟩, hrun, hresult⟩ := h
    have hmember := List.mem_of_find?_eq_some hfind
    have hname := List.find?_some hfind
    have hname : content member.name = content call.name := of_decide_eq_true hname
    refine ⟨(member.method.kind,
        if member.method.kind = .reverse then 0 else (decimal call.number : ℤ)),
      ?_, ?_⟩
    · rw [actionOf, ← hname, kindOf_member hobj hmember, Option.map_some]
    · exact runMethod_eq hrun (fun hslice ↦ hassigns member hmember hslice hname) hresult
  · exact nomatch h

theorem runCalls_eq (hobj : Regular obj) (hassigns : ∀ call ∈ calls, Assigns obj call)
    (h : runCalls obj calls a = some result) : jsRun (actionsOf obj calls) a = result := by
  induction calls generalizing a with
  | nil => exact Option.some.inj h
  | cons call calls ih =>
    rw [runCalls, List.foldlM_cons, Option.bind_eq_bind] at h
    obtain ⟨next, hnext, hrest⟩ := Option.bind_eq_some_iff.mp h
    obtain ⟨entry, hentry, rfl⟩ := runCall_eq hobj (hassigns call List.mem_cons_self) hnext
    rw [actionsOf, List.filterMap_cons, hentry]
    exact ih (fun other hother ↦ hassigns other (List.mem_cons_of_mem call hother)) hrest

theorem actionsOf_args (hcalls : ∀ call ∈ calls, Plain call) :
    ∀ entry ∈ actionsOf obj calls, 0 ≤ entry.2 ∧ entry.2 < 2 ^ 31 := by
  intro entry hentry
  obtain ⟨call, hcall, haction⟩ := List.mem_filterMap.mp hentry
  obtain ⟨kind, -, rfl⟩ := Option.map_eq_some_iff.mp haction
  have hvalue := (hcalls call hcall).value
  dsimp only
  split <;> omega

/-- In range, the actions do to the buffer what they do to the characters. -/
theorem actionLoop_of_inRange {actions : List Entry} {sig : Object UInt8} (hsig : sig.Holds a)
    (hargs : ∀ entry ∈ actions, 0 ≤ entry.2 ∧ entry.2 < 2 ^ 31)
      (hrange : InRange sig.size a actions) :
    ∃ out, actionLoop actions sig = some out ∧ out.Holds (jsRun actions a) := by
  induction actions generalizing sig a with
  | nil => exact ⟨sig, rfl, hsig⟩
  | cons entry actions ih =>
    obtain ⟨hb, hlt⟩ := hargs entry List.mem_cons_self
    obtain ⟨next, hnext, hholds⟩ := (action_iff hsig hb hlt).mpr hrange.1
    rw [← action_size hnext] at hrange
    obtain ⟨out, hout, hrun⟩ :=
      ih hholds (fun other hother ↦ hargs other (List.mem_cons_of_mem entry hother)) hrange.2
    refine ⟨out, ?_, hrun⟩
    rw [actionLoop, List.foldlM_cons, hnext]
    exact hout

/-- **From the source to the signature.** From every source whose first object and first function
the scanners read, the actions of the calls are extracted, unless there is no memory. On every
buffer that holds a signature for which they are in range they leave what the function of the script
makes of it. -/
theorem sigActionsExtract_runs (heap : Heap) (lreCanonicalize : ℕ → ℕ)
    {buf beforeObj beforeFunc : Bytes}
    (hlength : buf.length < 2 ^ 31) {func : ActionFunc}
      (hfirst : FirstIn ActionObj.text buf beforeObj obj)
    (hfirstFunc : FirstIn ActionFunc.text buf beforeFunc func) (hobj : Regular obj)
    (hcalls : ∀ call ∈ func.calls, Plain call ∧ Assigns obj call)
      (hfits : func.calls.length ≤ maxSig)
    {actions : Cells} (hroom : actions.length = maxSig) :
    (∃ fuel,
      (sigActionsExtract heap lreCanonicalize false actions buf fuel = some (.failed actions) ∧
        ¬ heap.Suffices) ∨
      sigActionsExtract heap lreCanonicalize false actions buf fuel = some (.actions
        ((actionsOf obj func.calls).map some ++ actions.drop (actionsOf obj func.calls).length)
        (actionsOf obj func.calls).length)) ∧
    ∀ (sig : Object UInt8) (a result : Chars), sig.Holds a →
      runCalls obj func.calls a = some result →
      InRange sig.size a (actionsOf obj func.calls) →
        ∃ out, actionLoop (actionsOf obj func.calls) sig = some out ∧ out.Holds result := by
  have hplain : ∀ call ∈ func.calls, Plain call := fun call hcall ↦ (hcalls call hcall).1
  constructor
  · obtain ⟨fuel, ⟨hfailed, hreason⟩ |
      ⟨beforeOther, other, beforeAlso, also, objBody, funcBody, hother, halso, hobjBody, hfuncBody,
        hrun⟩⟩ :=
      sigActionsExtract_spec heap lreCanonicalize actions hlength
    · refine ⟨fuel, .inl ⟨hfailed, ?_⟩⟩
      obtain hmemory | hnone | hnone := hreason
      · exact hmemory
      · exact absurd hfirst.occurs (hnone _ _)
      · exact absurd hfirstFunc.occurs (hnone _ _)
    · obtain rfl := hfirst.unique obj_unique hother
      obtain rfl := hfirstFunc.unique func_unique halso
      refine ⟨fuel, .inr (hrun.trans
        (runLoops_regular hobj hplain hfits hobjBody hfuncBody ?_ hroom))⟩
      have hle := hfirstFunc.occurs.length_le
      rw [hfuncBody]
      simp only [ActionFunc.text, List.length_append] at hle
      omega
  · intro sig a result hsig hrun hrange
    rw [← runCalls_eq hobj (fun call hcall ↦ (hcalls call hcall).2) hrun]
    exact actionLoop_of_inRange hsig (actionsOf_args hplain) hrange

end Running

/-- `var X=\x7bab:function(a,b)\x7ba.splice(0,b)\x7d\x7d;`. -/
def spliceObj : ActionObj :=
  ⟨ascii "X", by decide, [⟨.identifier (ascii "ab") (by decide), .splice, false, false, false⟩],
    List.cons_ne_nil _ _⟩

/-- The function that drops the first three characters. -/
def spliceFunc : ActionFunc where
  name := none
  hname := nofun
  splitMark := doubleQuote
  hsplitMark := .inr rfl
  spaces := []
  hspaces := rfl
  calls := [⟨false, ascii "X", by decide, .identifier (ascii "ab") (by decide), ascii "3",
    by decide,
    by decide⟩]
  hcalls := List.cons_ne_nil _ _
  joinMark := doubleQuote
  hjoinMark := .inr rfl

theorem regular_splice : Regular spliceObj where
  kinds := List.nodup_singleton _
  names := List.nodup_singleton _
  readable := by
    intro kind
    refine ⟨fun before member after halone ↦ ?_, fun _ member hmember hmentions ↦ ?_⟩
    · have hmembers := halone.members_eq
      cases before with
      | nil =>
        obtain ⟨rfl, rfl⟩ := List.cons.inj hmembers
        exact ⟨rfl, fun _ hlast ↦ (nomatch hlast), fun _ hother ↦ absurd hother List.not_mem_nil⟩
      | cons first before => exact absurd (List.cons.inj hmembers).2 (by simp)
    · obtain rfl := List.mem_singleton.mp hmember
      exact hmentions

theorem firstIn_splice :
    FirstIn ActionObj.text (spliceFunc.text ++ spliceObj.text) spliceFunc.text spliceObj := by
  refine ⟨List.prefix_rfl, fun earlier other hother ↦ Nat.le_of_not_lt fun hlt ↦ ?_⟩
  have hnone : ∀ k < spliceFunc.text.length,
      ¬ ascii "var " <+: (spliceFunc.text ++ spliceObj.text).drop k := by decide
  have hdrop := hother.drop earlier.length
  rw [List.drop_left, ActionObj.text] at hdrop
  exact hnone _ hlt ((List.prefix_append _ _).trans hdrop)

theorem plain_splice : ∀ call ∈ spliceFunc.calls, Plain call ∧ Assigns spliceObj call := by
  intro call hcall
  obtain rfl := List.mem_singleton.mp hcall
  refine ⟨⟨by decide, by decide, by decide⟩, fun member hmember hslice ↦ ?_⟩
  obtain rfl := List.mem_singleton.mp hmember
  exact nomatch hslice

theorem firstIn_func :
    FirstIn ActionFunc.text (spliceFunc.text ++ spliceObj.text) [] spliceFunc :=
  ⟨⟨spliceObj.text, rfl⟩, fun _ _ _ ↦ Nat.zero_le _⟩

theorem sigActionsExtract_runs_splice :
    (∃ fuel,
      (sigActionsExtract ⟨fun _ ↦ true, fun _ _ ↦ true, fun _ ↦ true⟩ id false
          (List.replicate maxSig none) (spliceFunc.text ++ spliceObj.text) fuel =
            some (.failed (List.replicate maxSig none)) ∧
        ¬ Heap.Suffices ⟨fun _ ↦ true, fun _ _ ↦ true, fun _ ↦ true⟩) ∨
      sigActionsExtract ⟨fun _ ↦ true, fun _ _ ↦ true, fun _ ↦ true⟩ id false
        (List.replicate maxSig none) (spliceFunc.text ++ spliceObj.text) fuel =
          some (.actions ([some (.splice, 3)] ++ List.replicate 19 none) 1)) ∧
    ∀ (sig : Object UInt8) (a result : Chars), sig.Holds a →
      runCalls spliceObj spliceFunc.calls a = some result → InRange sig.size a [(.splice, 3)] →
        ∃ out, actionLoop [(.splice, 3)] sig = some out ∧ out.Holds result :=
  sigActionsExtract_runs _ _ (by decide) firstIn_splice firstIn_func regular_splice plain_splice
    (by decide) List.length_replicate

end LibYtdl.Sig.Decipher
