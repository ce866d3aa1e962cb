import LibYtdl.Foundation.Machine

/-!
# Running regular expressions

The backtracking machine of `libregexp.c`, for characters of eight bits. A program is the header and
the instructions behind it; positions in the text and in the program are counted from their starts,
and a stack is a list with its top first.

A value `none` is a run that is not harmless: it leaves the program, a stack or the captures, or
fails an assertion. Whether the memory for a stack of states is there, and the case tables, are
parameters.
-/

namespace LibYtdl.Regexp.Exec

open Machine

/-! ## Programs -/

/-- `REOPCodeEnum`, in the order of the opcodes. -/
inductive REOp
  | invalid | char | char32 | dot | any | lineStart | lineEnd | goto | splitGotoFirst
  | splitNextFirst | matched | saveStart | saveEnd | saveReset | loop | pushI32 | drop
  | wordBoundary | notWordBoundary | backReference | backwardBackReference | range | range32
  | lookahead
  | negativeLookahead | pushCharPos | bneCharPos | prev | simpleGreedyQuant
  deriving DecidableEq

/-- The opcodes, from zero on. -/
def reOps : List REOp :=
  [.invalid, .char, .char32, .dot, .any, .lineStart, .lineEnd, .goto, .splitGotoFirst,
    .splitNextFirst, .matched, .saveStart, .saveEnd, .saveReset, .loop, .pushI32, .drop,
    .wordBoundary, .notWordBoundary, .backReference, .backwardBackReference, .range, .range32,
    .lookahead, .negativeLookahead, .pushCharPos, .bneCharPos, .prev, .simpleGreedyQuant]

/-- A byte of a program. -/
def getU8 (buf : Bytes) (pc : ℕ) : Option ℕ := buf[pc]?.map UInt8.toNat

/-- `get_u16`. -/
def getU16 (buf : Bytes) (pc : ℕ) : Option ℕ := do
  let low ← getU8 buf pc
  let high ← getU8 buf (pc + 1)
  some (low + 2 ^ 8 * high)

/-- `get_u32`. -/
def getU32 (buf : Bytes) (pc : ℕ) : Option ℕ := do
  let low ← getU16 buf pc
  let high ← getU16 buf (pc + 2)
  some (low + 2 ^ 16 * high)

/-- A position of the program that is an `int` away. -/
def jump (pc val : ℕ) : Option ℕ :=
  let target := pc + toInt val
  if target < 0 then none else some target.toNat

/-- The table of a range instruction: pairs of lowest and highest characters. -/
def getRanges (get : ℕ → Option ℕ) (size : ℕ) : ℕ → ℕ → Option (List (ℕ × ℕ))
  | 0, _ => some []
  | n + 1, pc => do
    let low ← get pc
    let high ← get (pc + size)
    let ranges ← getRanges get size n (pc + 2 * size)
    some ((low, high) :: ranges)

/-- An instruction with its operands. -/
inductive Instr
  | char (val : ℕ)
  | dot
  | any
  | lineStart
  | lineEnd
  | goto (target : ℕ)
  | split (first second : ℕ)
  | matched
  | save (slot : ℕ)
  | saveReset (val last : ℕ)
  | loop (target : ℕ)
  | pushI32 (val : ℕ)
  | drop
  | wordBoundary (negated : Bool)
  | backReference (backward : Bool) (val : ℕ)
  | range (infinity : Bool) (ranges : List (ℕ × ℕ))
  | lookahead (negative : Bool) (target : ℕ)
  | pushCharPos
  | bneCharPos (target : ℕ)
  | prev
  | simpleGreedyQuant (target quantMin quantMax : ℕ)

/-- The operands of an opcode, and the position behind them. -/
def operands (buf : Bytes) (pc : ℕ) : REOp → Option (Instr × ℕ)
  | .char => (getU16 buf pc).map fun val ↦ (.char val, pc + 2)
  | .char32 => (getU32 buf pc).map fun val ↦ (.char val, pc + 4)
  | .dot => some (.dot, pc)
  | .any => some (.any, pc)
  | .lineStart => some (.lineStart, pc)
  | .lineEnd => some (.lineEnd, pc)
  | .goto => do
    let target ← jump (pc + 4) (← getU32 buf pc)
    some (.goto target, pc + 4)
  | .splitGotoFirst => do
    let target ← jump (pc + 4) (← getU32 buf pc)
    some (.split target (pc + 4), pc + 4)
  | .splitNextFirst => do
    let target ← jump (pc + 4) (← getU32 buf pc)
    some (.split (pc + 4) target, pc + 4)
  | .matched => some (.matched, pc)
  | .saveStart => (getU8 buf pc).map fun val ↦ (.save (2 * val), pc + 1)
  | .saveEnd => (getU8 buf pc).map fun val ↦ (.save (2 * val + 1), pc + 1)
  | .saveReset => do
    let val ← getU8 buf pc
    let last ← getU8 buf (pc + 1)
    some (.saveReset val last, pc + 2)
  | .loop => do
    let target ← jump (pc + 4) (← getU32 buf pc)
    some (.loop target, pc + 4)
  | .pushI32 => (getU32 buf pc).map fun val ↦ (.pushI32 val, pc + 4)
  | .drop => some (.drop, pc)
  | .wordBoundary => some (.wordBoundary false, pc)
  | .notWordBoundary => some (.wordBoundary true, pc)
  | .backReference => (getU8 buf pc).map fun val ↦ (.backReference false val, pc + 1)
  | .backwardBackReference => (getU8 buf pc).map fun val ↦ (.backReference true val, pc + 1)
  | .range => do
    let n ← getU16 buf pc
    let ranges ← getRanges (getU16 buf) 2 n (pc + 2)
    some (.range true ranges, pc + 2 + 4 * n)
  | .range32 => do
    let n ← getU16 buf pc
    let ranges ← getRanges (getU32 buf) 4 n (pc + 2)
    some (.range false ranges, pc + 2 + 8 * n)
  | .lookahead => do
    let target ← jump (pc + 4) (← getU32 buf pc)
    some (.lookahead false target, pc + 4)
  | .negativeLookahead => do
    let target ← jump (pc + 4) (← getU32 buf pc)
    some (.lookahead true target, pc + 4)
  | .pushCharPos => some (.pushCharPos, pc)
  | .bneCharPos => do
    let target ← jump (pc + 4) (← getU32 buf pc)
    some (.bneCharPos target, pc + 4)
  | .prev => some (.prev, pc)
  | .simpleGreedyQuant => do
    let target ← jump (pc + 16) (← getU32 buf pc)
    let quantMin ← getU32 buf (pc + 4)
    let quantMax ← getU32 buf (pc + 8)
    some (.simpleGreedyQuant target quantMin quantMax, pc + 16)
  | .invalid => none

/-- The instruction at a position of the program, and the position behind it. -/
def fetch (buf : Bytes) (pc : ℕ) : Option (Instr × ℕ) :=
  (getU8 buf pc).bind fun byte ↦ reOps[byte]?.bind (operands buf (pc + 1))

/-! ## The machine -/

/-- `REExecContext`, apart from its stack of states. -/
structure REExecContext where
  bcBuf : Bytes
  cbuf : Bytes
  captureCount : ℕ
  stackSizeMax : ℕ
  multiLine : Bool
  ignoreCase : Bool
  lreRealloc : ℕ → Bool
  lreCanonicalize : ℕ → ℕ

/-- The variables of `lre_exec_backtrack`. -/
structure Thread where
  pc : ℕ
  cptr : ℕ
  capture : List (Option ℕ)
  stack : List ℕ

/-- `REExecStateEnum`. -/
inductive REExecStateEnum
  | split | lookahead | negativeLookahead | greedyQuant
  deriving DecidableEq

/-- `REExecState`. -/
structure REExecState where
  type : REExecStateEnum
  count : ℕ
  thread : Thread

/-- The variables and the stack of states. -/
structure VM where
  thread : Thread
  states : List REExecState
  stateStackSize : ℕ

/-- The machine goes on, or it returns and leaves the captures. -/
inductive Next
  | run (vm : VM)
  | done (ret : ℤ) (capture : List (Option ℕ))

/-- `is_line_terminator`. -/
def isLineTerminator (c : ℕ) : Bool := c == 10 || c == 13 || c == 0x2028 || c == 0x2029

/-- `is_word_char`. -/
def isWordChar (c : ℕ) : Bool :=
  (48 ≤ c && c ≤ 57) || (97 ≤ c && c ≤ 122) || (65 ≤ c && c ≤ 90) || c == 95

/-- The binary search of the range instructions. The indices are of type `uint32_t`. -/
def rangeLoop (ranges : List (ℕ × ℕ)) (c : ℕ) : ℕ → ℕ → ℕ → Option Bool
  | 0, _, _ => none
  | fuel + 1, idxMin, idxMax =>
    if idxMin ≤ idxMax then do
      let idx := (idxMin + idxMax) % 2 ^ 32 / 2
      let (low, high) ← ranges[idx]?
      if c < low then rangeLoop ranges c fuel idxMin ((idx + 2 ^ 32 - 1) % 2 ^ 32)
      else if c > high then rangeLoop ranges c fuel (idx + 1) idxMax
      else some true
    else some false

/-- The test of the range instructions; the last 16-bit range may go up to infinity. -/
def rangeTest (infinity : Bool) (ranges : List (ℕ × ℕ)) (c : ℕ) : Option Bool := do
  let (low, _) ← ranges.head?
  let (_, high) ← ranges.getLast?
  if c < low then some false
  else if infinity ∧ c ≥ 0xffff ∧ high = 0xffff then some true
  else if c > high then some false
  else rangeLoop ranges c (ranges.length + 1) 0 (ranges.length - 1)

section Run

variable (s : REExecContext)

/-- `GET_CHAR` and `PEEK_CHAR`. -/
def getChar (cptr : ℕ) : Option ℕ := s.cbuf[cptr]?.map UInt8.toNat

/-- `PEEK_PREV_CHAR`. -/
def peekPrevChar : ℕ → Option ℕ
  | 0 => none
  | cptr + 1 => getChar s cptr

/-- The character that is compared. -/
def canonical (c : ℕ) : ℕ := if s.ignoreCase then s.lreCanonicalize c else c

/-- The loop of the back references. -/
def referenceLoop (backward : Bool) : List UInt8 → ℕ → Option ℕ
  | [], cptr => some cptr
  | char :: chars, cptr =>
    match if backward then peekPrevChar s cptr else getChar s cptr with
    | none => none
    | some c =>
      if canonical s char.toNat = canonical s c then
        referenceLoop backward chars (if backward then cptr - 1 else cptr + 1)
      else none

/-- The instructions that look at the text only: whether they match, and the position behind. -/
def testStep (instr : Instr) (cptr : ℕ) : Option (Option ℕ) :=
  match instr with
  | .char val =>
    some ((getChar s cptr).bind fun c ↦ if val = canonical s c then some (cptr + 1) else none)
  | .dot =>
    some ((getChar s cptr).bind fun c ↦ if isLineTerminator c then none else some (cptr + 1))
  | .any => some ((getChar s cptr).map fun _ ↦ cptr + 1)
  | .lineStart =>
    some (if cptr = 0 ∨ s.multiLine ∧ (peekPrevChar s cptr).any isLineTerminator then some cptr
      else none)
  | .lineEnd =>
    some (if cptr = s.cbuf.length ∨ s.multiLine ∧ (getChar s cptr).any isLineTerminator then
        some cptr
      else none)
  | .wordBoundary negated =>
    let v1 := (peekPrevChar s cptr).any isWordChar
    let v2 := (getChar s cptr).any isWordChar
    some (if (v1 ^^ v2) = !negated then some cptr else none)
  | .range infinity ranges =>
    match getChar s cptr with
    | none => some none
    | some c => (rangeTest infinity ranges (canonical s c)).map fun found ↦
        if found then some (cptr + 1) else none
  | .prev => some (if cptr = 0 then none else some (cptr - 1))
  | _ => none

/-- `lre_exec_backtrack` for the atom of a simple quantifier, which looks at the text only. -/
def execAtom : ℕ → ℕ → ℕ → Option (Option ℕ)
  | 0, _, _ => none
  | fuel + 1, pc, cptr =>
    (fetch s.bcBuf pc).bind fun (instr, pc) ↦
      match instr with
      | .matched => some (some cptr)
      | instr => (testStep s instr cptr).bind fun
        | none => some none
        | some cptr => execAtom fuel pc cptr

/-- The loop of `REOP_simple_greedy_quant`: how often the atom matched, and the position behind. -/
def quantLoop (pc quantMax : ℕ) : ℕ → ℕ → ℕ → Option (ℕ × ℕ)
  | 0, _, _ => none
  | fuel + 1, q, cptr =>
    (execAtom s s.bcBuf.length pc cptr).bind fun
      | none => some (q, cptr)
      | some cptr =>
        if q + 1 ≥ quantMax ∧ quantMax ≠ 2 ^ 31 - 1 then some (q + 1, cptr)
        else quantLoop pc quantMax fuel (q + 1) cptr

/-- `push_state`, and what the machine goes on with. -/
def pushState (vm : VM) (state : REExecState) (thread : Thread) : Next :=
  if vm.states.length + 1 > vm.stateStackSize then
    let newSize := max 8 (vm.stateStackSize * 3 / 2)
    if s.lreRealloc newSize then .run ⟨thread, state :: vm.states, newSize⟩
    else .done (-1) vm.thread.capture
  else .run ⟨thread, state :: vm.states, vm.stateStackSize⟩

/-- What the machine does with its states, after a match or none. -/
def backtrack (stateStackSize : ℕ) : Bool → Thread → List REExecState → Option Next
  | ret, thread, [] => some (.done (if ret then 1 else 0) thread.capture)
  | ret, thread, state :: states =>
    match state.type with
    | .split =>
      if ret then backtrack stateStackSize ret thread states
      else some (.run ⟨state.thread, states, stateStackSize⟩)
    | .greedyQuant =>
      if ret then backtrack stateStackSize ret thread states
      else do
        let pc := state.thread.pc
        let charCount ← getU32 s.bcBuf (pc + 12)
        let target ← jump (pc + 16) (← getU32 s.bcBuf pc)
        if state.thread.cptr < charCount then none
        else
          let cptr := state.thread.cptr - charCount
          let state :=
            { state with count := state.count - 1, thread := { state.thread with cptr := cptr } }
          some (.run ⟨{ state.thread with pc := target },
            if state.count = 0 then states else state :: states, stateStackSize⟩)
    | .lookahead =>
      if ret then some (.run ⟨{ state.thread with capture := thread.capture }, states,
        stateStackSize⟩)
      else backtrack stateStackSize false thread states
    | .negativeLookahead =>
      if ret then backtrack stateStackSize false thread states
      else some (.run ⟨state.thread, states, stateStackSize⟩)

/-- One instruction of `lre_exec_backtrack`. -/
def vmStep (vm : VM) : Option Next := do
  let thread := vm.thread
  let (instr, pc) ← fetch s.bcBuf thread.pc
  match instr with
  | .matched => backtrack s vm.stateStackSize true thread vm.states
  | .split first second =>
    some (pushState s vm ⟨.split, 0, { thread with pc := second }⟩ { thread with pc := first })
  | .lookahead negative target =>
    let type := if negative then .negativeLookahead else .lookahead
    some (pushState s vm ⟨type, 0, { thread with pc := target }⟩ { thread with pc := pc })
  | .goto target => some (.run { vm with thread := { thread with pc := target } })
  | .save slot =>
    if slot / 2 < s.captureCount then
      some (.run { vm with
        thread := { thread with pc := pc, capture := thread.capture.set slot (some thread.cptr) } })
    else none
  | .saveReset val last =>
    if last < s.captureCount then
      let slots := (List.range' val (last + 1 - val)).flatMap fun val ↦ [2 * val, 2 * val + 1]
      some (.run { vm with
        thread := { thread with
          pc := pc
          capture := slots.foldl (fun capture slot ↦ capture.set slot none) thread.capture } })
    else none
  | .pushI32 val =>
    if thread.stack.length < s.stackSizeMax then
      some (.run { vm with thread := { thread with pc := pc, stack := val :: thread.stack } })
    else none
  | .drop =>
    match thread.stack with
    | [] => none
    | _ :: stack => some (.run { vm with thread := { thread with pc := pc, stack := stack } })
  | .loop target =>
    match thread.stack with
    | [] => none
    | count :: stack =>
      let count := (count + 2 ^ 64 - 1) % 2 ^ 64
      some (.run { vm with
        thread := { thread with pc := if count ≠ 0 then target else pc, stack := count :: stack } })
  | .pushCharPos =>
    if thread.stack.length < s.stackSizeMax then
      some (.run { vm with
        thread := { thread with pc := pc, stack := thread.cptr :: thread.stack } })
    else none
  | .bneCharPos target =>
    match thread.stack with
    | [] => none
    | charPos :: stack =>
      some (.run { vm with
        thread :=
          { thread with pc := if charPos ≠ thread.cptr then target else pc, stack := stack } })
  | .backReference backward val =>
    if val ≥ s.captureCount then backtrack s vm.stateStackSize false thread vm.states
    else
      match thread.capture[2 * val]?.join, thread.capture[2 * val + 1]?.join with
      | some start, some stop =>
        let chars := (s.cbuf.take stop).drop start
        match referenceLoop s backward (if backward then chars.reverse else chars) thread.cptr with
        | none => backtrack s vm.stateStackSize false thread vm.states
        | some cptr => some (.run { vm with thread := { thread with pc := pc, cptr := cptr } })
      | _, _ => some (.run { vm with thread := { thread with pc := pc } })
  | .simpleGreedyQuant target quantMin quantMax =>
    let (q, cptr) ← quantLoop s pc quantMax (s.cbuf.length + 2) 0 thread.cptr
    if q < quantMin then backtrack s vm.stateStackSize false thread vm.states
    else
      let next := { thread with pc := target, cptr := cptr }
      if q > quantMin then
        some (pushState s vm ⟨.greedyQuant, q - quantMin,
          { thread with pc := pc - 16, cptr := cptr }⟩ next)
      else some (.run { vm with thread := next })
  | instr =>
    (testStep s instr thread.cptr).bind fun
      | none => backtrack s vm.stateStackSize false thread vm.states
      | some cptr => some (.run { vm with thread := { thread with pc := pc, cptr := cptr } })

/-- `lre_exec_backtrack`, for a number of instructions. -/
def lreExecBacktrack : ℕ → VM → Option (ℤ × List (Option ℕ))
  | 0, _ => none
  | fuel + 1, vm =>
    (vmStep s vm).bind fun
      | .done ret capture => some (ret, capture)
      | .run vm => lreExecBacktrack fuel vm

end Run

/-- `RE_HEADER_LEN`. -/
def reHeaderLen : ℕ := 7

/-- `lre_exec`, for a number of instructions: 1 if match, 0 if not match or -1 if error. -/
def lreExec (lreRealloc : ℕ → Bool) (lreCanonicalize : ℕ → ℕ) (bcBuf cbuf : Bytes)
    (cindex fuel : ℕ) :
    Option (ℤ × List (Option ℕ)) := do
  let reFlags ← getU8 bcBuf 0
  let captureCount ← getU8 bcBuf 1
  let stackSizeMax ← getU8 bcBuf 2
  lreExecBacktrack
    { bcBuf := bcBuf
      cbuf := cbuf
      captureCount := captureCount
      stackSizeMax := stackSizeMax
      multiLine := reFlags.testBit 2
      ignoreCase := reFlags.testBit 1
      lreRealloc := lreRealloc
      lreCanonicalize := lreCanonicalize }
    fuel
    { thread := ⟨reHeaderLen, cindex, List.replicate (2 * captureCount) none, []⟩
      states := []
      stateStackSize := 0 }

end LibYtdl.Regexp.Exec
