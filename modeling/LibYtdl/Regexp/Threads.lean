import LibYtdl.Regexp.Exec

/-!
# The outcomes of a thread

What a thread of the backtracking machine leads to does not depend on the states below it: the
positions and captures at which it matches, in the order in which the machine would come to them.
The machine answers with the first of them, and goes on with the states below when there is none.
-/

namespace LibYtdl.Regexp.Threads

open Machine Exec

variable (s : REExecContext)

/-- The matches that a thread leads to. -/
inductive Outcomes : Thread → List (ℕ × List (Option ℕ)) → Prop
  | matched {thread : Thread} {pc : ℕ} (hfetch : fetch s.bcBuf thread.pc = some (.matched, pc)) :
    Outcomes thread [(thread.cptr, thread.capture)]
  | fail {thread : Thread}
    (hstep : ∀ states size, vmStep s ⟨thread, states, size⟩ =
      backtrack s size false thread states) :
    Outcomes thread []
  | next {thread next : Thread} {matches' : List (ℕ × List (Option ℕ))}
    (hstep : ∀ states size, vmStep s ⟨thread, states, size⟩ = some (.run ⟨next, states, size⟩))
    (hnext : Outcomes next matches') : Outcomes thread matches'
  | split {thread : Thread} {first second pc : ℕ} {matches₁ matches₂ : List (ℕ × List (Option ℕ))}
    (hfetch : fetch s.bcBuf thread.pc = some (.split first second, pc))
    (hfirst : Outcomes { thread with pc := first } matches₁)
    (hsecond : Outcomes { thread with pc := second } matches₂) :
      Outcomes thread (matches₁ ++ matches₂)
  | quantFail {thread : Thread} {target quantMin quantMax pc q cptr : ℕ}
    (hfetch : fetch s.bcBuf thread.pc = some (.simpleGreedyQuant target quantMin quantMax, pc))
    (hloop : quantLoop s pc quantMax (s.cbuf.length + 2) 0 thread.cptr = some (q, cptr))
    (hq : q < quantMin) : Outcomes thread []
  | quant {thread : Thread} {target quantMin quantMax pc val charCount q cptr : ℕ}
    {matches' : ℕ → List (ℕ × List (Option ℕ))}
    (hfetch : fetch s.bcBuf thread.pc = some (.simpleGreedyQuant target quantMin quantMax, pc))
    (hcount : getU32 s.bcBuf (pc - 16 + 12) = some charCount)
    (hval : getU32 s.bcBuf (pc - 16) = some val) (htarget : jump (pc - 16 + 16) val = some target)
    (hloop : quantLoop s pc quantMax (s.cbuf.length + 2) 0 thread.cptr = some (q, cptr))
    (hq : quantMin ≤ q) (hcptr : q * charCount ≤ cptr)
    (hmatches : ∀ k < q + 1 - quantMin,
      Outcomes { thread with pc := target, cptr := cptr - k * charCount } (matches' k)) :
    Outcomes thread ((List.range (q + 1 - quantMin)).flatMap matches')

/-! ## Runs -/

/-- The machine returns, and what it returns satisfies the predicate. -/
def Ends (P : ℤ → List (Option ℕ) → Prop) (vm : VM) : Prop :=
  ∃ fuel ret capture, lreExecBacktrack s fuel vm = some (ret, capture) ∧ P ret capture

/-- The same for what the machine does next. -/
def NextEnds (P : ℤ → List (Option ℕ) → Prop) : Option Next → Prop
  | none => False
  | some (.done ret capture) => P ret capture
  | some (.run vm) => Ends s P vm

/-- A failure of the thread leads to what the states below it lead to. -/
def FailEnds (P : ℤ → List (Option ℕ) → Prop) (states : List REExecState) : Prop :=
  ∀ size thread, NextEnds s P (backtrack s size false thread states)

/-- What a thread with these matches returns, above these states. -/
def Answers (P : ℤ → List (Option ℕ) → Prop) (states : List REExecState) :
    List (ℕ × List (Option ℕ)) → Prop
  | [] => FailEnds s P states
  | (_, capture) :: _ => P 1 capture

/-- No lookahead is pending. -/
def Plain (states : List REExecState) : Prop :=
  ∀ state ∈ states, state.type = .split ∨ state.type = .greedyQuant

section Runs

variable {s} {P : ℤ → List (Option ℕ) → Prop} {thread : Thread} {states : List REExecState}
  {size : ℕ}
  {matches' : List (ℕ × List (Option ℕ))}

theorem Ends.of_step {vm : VM} (h : NextEnds s P (vmStep s vm)) : Ends s P vm := by
  cases hstep : vmStep s vm with
  | none =>
    rw [hstep] at h
    exact h.elim
  | some next =>
    rw [hstep] at h
    cases next with
    | done ret capture =>
      exact ⟨1, ret, capture, by rw [lreExecBacktrack, hstep, Option.bind_some], h⟩
    | run vm =>
      obtain ⟨fuel, ret, capture, hrun, hP⟩ := h
      exact ⟨fuel + 1, ret, capture, by rwa [lreExecBacktrack, hstep, Option.bind_some], hP⟩

/-- More instructions change nothing once the machine has returned. -/
theorem lreExecBacktrack_of_le {fuel more : ℕ} (hle : fuel ≤ more) {vm : VM}
    {result : ℤ × List (Option ℕ)} (h : lreExecBacktrack s fuel vm = some result) :
    lreExecBacktrack s more vm = some result := by
  induction fuel generalizing more vm with
  | zero => exact absurd h.symm (Option.some_ne_none result)
  | succ fuel ih =>
    obtain ⟨more, rfl⟩ : ∃ rest, more = rest + 1 := ⟨more - 1, by omega⟩
    rw [lreExecBacktrack] at h ⊢
    obtain ⟨next, hnext, hrest⟩ := Option.bind_eq_some_iff.mp h
    rw [hnext, Option.bind_some]
    cases next with
    | done ret capture => exact hrest
    | run vm => exact ih (Nat.le_of_succ_le_succ hle) hrest

/-- After a match the machine returns, whatever is still to be tried. -/
theorem backtrack_true (hplain : Plain states) :
    backtrack s size true thread states = some (.done 1 thread.capture) := by
  induction states with
  | nil => rfl
  | cons state states ih =>
    have hrest := ih fun other hother ↦ hplain other (List.mem_cons_of_mem state hother)
    rw [backtrack]
    obtain hsplit | hquant := hplain state List.mem_cons_self
    · rw [hsplit]
      exact hrest
    · rw [hquant]
      exact hrest

theorem Plain.cons {state : REExecState} (h : Plain states)
    (htype : state.type = .split ∨ state.type = .greedyQuant) : Plain (state :: states) :=
  List.forall_mem_cons.mpr ⟨htype, h⟩

/-- A state is pushed, or there is no memory for it. -/
theorem pushState_ends (hmemory : (∀ size, s.lreRealloc size = true) ∨ ∀ capture, P (-1) capture)
    {vm : VM} {state : REExecState}
    (h : ∀ size, Ends s P ⟨thread, state :: vm.states, size⟩) :
    NextEnds s P (some (pushState s vm state thread)) := by
  rw [pushState]
  split
  · cases hrealloc : s.lreRealloc (max 8 (vm.stateStackSize * 3 / 2)) with
    | true =>
      dsimp only
      rw [hrealloc, if_pos rfl]
      exact h _
    | false =>
      dsimp only
      rw [hrealloc, if_neg Bool.false_ne_true]
      refine hmemory.resolve_left (fun hall ↦ ?_) _
      rw [hall] at hrealloc
      exact Bool.false_ne_true hrealloc.symm
  · exact h _

theorem backtrack_quant {target pc val charCount cptr count : ℕ}
    (hcount : getU32 s.bcBuf (pc + 12) = some charCount) (hval : getU32 s.bcBuf pc = some val)
    (htarget : jump (pc + 16) val = some target) (hroom : charCount ≤ cptr) (other : Thread) :
    backtrack s size false other
        (⟨.greedyQuant, count + 1, { thread with pc := pc, cptr := cptr }⟩ :: states) =
      some (.run ⟨{ thread with pc := target, cptr := cptr - charCount },
        if count = 0 then states
        else ⟨.greedyQuant, count, { thread with pc := pc, cptr := cptr - charCount }⟩ :: states,
          size⟩) := by
  rw [backtrack]
  dsimp only
  rw [if_neg Bool.false_ne_true, hcount, hval, Option.bind_eq_bind, Option.bind_some,
    Option.bind_some,
    htarget, Option.bind_some, if_neg (Nat.not_lt_of_le hroom), Nat.add_sub_cancel]

/-- The repetitions of an atom are given back one after the other. -/
theorem quant_ends {target pc val charCount cptr count : ℕ}
    {repeats : ℕ → List (ℕ × List (Option ℕ))}
    (hcount : getU32 s.bcBuf (pc + 12) = some charCount) (hval : getU32 s.bcBuf pc = some val)
    (htarget : jump (pc + 16) val = some target) (hcptr : count * charCount ≤ cptr)
    (hrepeats : ∀ k ≤ count, ∀ states, Plain states → Answers s P states (repeats k) → ∀ size,
      Ends s P ⟨{ thread with pc := target, cptr := cptr - k * charCount }, states, size⟩)
    (hplain : Plain states) {k rest : ℕ} (hk : k + rest = count)
    (hanswers : Answers s P states ((List.range' k (rest + 1)).flatMap repeats)) (size : ℕ) :
    Ends s P ⟨{ thread with pc := target, cptr := cptr - k * charCount },
      if rest = 0 then states
      else ⟨.greedyQuant, rest, { thread with pc := pc, cptr := cptr - k * charCount }⟩ :: states,
      size⟩ := by
  induction rest generalizing k size with
  | zero =>
    rw [List.range'_one, List.flatMap_singleton] at hanswers
    exact hrepeats k (by omega) states hplain hanswers size
  | succ rest ih =>
    rw [List.range'_succ, List.flatMap_cons] at hanswers
    have hlater {later : ℕ × List (Option ℕ)} {others : List (ℕ × List (Option ℕ))}
        (heq : repeats k = later :: others) : P 1 later.2 := by
      rw [heq] at hanswers
      exact hanswers
    rw [if_neg (Nat.succ_ne_zero rest)]
    refine hrepeats k (by omega) _ (hplain.cons (.inr rfl)) ?_ size
    cases heq : repeats k with
    | cons later others => exact hlater heq
    | nil =>
      rw [heq, List.nil_append] at hanswers
      intro size other
      have hle : (k + 1) * charCount ≤ count * charCount := Nat.mul_le_mul_right _ (by omega)
      have hback : cptr - k * charCount - charCount = cptr - (k + 1) * charCount := by
        rw [Nat.sub_sub, Nat.succ_mul]
      have hroom : charCount ≤ cptr - k * charCount := by
        rw [Nat.succ_mul] at hle
        omega
      rw [backtrack_quant hcount hval htarget hroom, hback]
      exact ih (by omega) hanswers size

/-- **The machine** answers with the first outcome of its thread, or goes on with the states
below. -/
theorem Outcomes.ends (h : Outcomes s thread matches')
    (hmemory : (∀ size, s.lreRealloc size = true) ∨ ∀ capture, P (-1) capture)
      (hplain : Plain states)
    (hanswers : Answers s P states matches') (size : ℕ) : Ends s P ⟨thread, states, size⟩ := by
  induction h generalizing states size with
  | @matched thread pc hfetch =>
    apply Ends.of_step
    have hstep : vmStep s ⟨thread, states, size⟩ = backtrack s size true thread states := by
      rw [vmStep, hfetch]
      rfl
    rw [hstep, backtrack_true hplain]
    exact hanswers
  | fail hstep =>
    apply Ends.of_step
    rw [hstep]
    exact hanswers size _
  | next hstep _ ih =>
    apply Ends.of_step
    rw [hstep]
    exact ih hplain hanswers size
  | @split thread first second pc matches₁ matches₂ hfetch _ _ ihFirst ihSecond =>
    apply Ends.of_step
    rw [vmStep, hfetch]
    refine pushState_ends hmemory fun size ↦ ihFirst (hplain.cons (.inl rfl)) ?_ size
    cases matches₁ with
    | nil => exact fun size _ ↦ ihSecond hplain hanswers size
    | cons result matches₁ => exact hanswers
  | @quantFail thread target quantMin quantMax pc q cptr hfetch hloop hq =>
    apply Ends.of_step
    have hstep : vmStep s ⟨thread, states, size⟩ = backtrack s size false thread states := by
      rw [vmStep, hfetch]
      simp only [Option.bind_eq_bind, Option.bind_some, hloop]
      exact if_pos hq
    rw [hstep]
    exact hanswers size thread
  | @quant thread target quantMin quantMax pc val charCount q cptr matches' hfetch hcount hval
      htarget hloop hq hcptr _ ih =>
    apply Ends.of_step
    have hcount' : q - quantMin + 1 = q + 1 - quantMin := by omega
    have hwidth : (q - quantMin) * charCount ≤ cptr :=
      le_trans (Nat.mul_le_mul_right _ (Nat.sub_le _ _)) hcptr
    rw [List.range_eq_range', ← hcount'] at hanswers
    have hrun (size : ℕ) := quant_ends (k := 0) hcount hval htarget hwidth
      (fun k hk states hplain hanswers size ↦ ih k (by omega) hplain hanswers size) hplain
      (Nat.zero_add _) hanswers size
    simp only [Nat.zero_mul, Nat.sub_zero] at hrun
    rw [vmStep, hfetch]
    simp only [Option.bind_eq_bind, Option.bind_some, hloop, if_neg (Nat.not_lt_of_le hq)]
    split
    · next hmore =>
      refine pushState_ends hmemory fun size ↦ ?_
      have hne : q - quantMin ≠ 0 := by omega
      have hrun := hrun size
      rwa [if_neg hne] at hrun
    · next hnone =>
      have hzero : q - quantMin = 0 := by omega
      have hrun := hrun size
      rwa [if_pos hzero] at hrun

end Runs

theorem lreExec_of_le {lreRealloc : ℕ → Bool} {lreCanonicalize : ℕ → ℕ} {bcBuf cbuf : Bytes}
    {cindex fuel more : ℕ} {result : ℤ × List (Option ℕ)} (hle : fuel ≤ more)
    (h : lreExec lreRealloc lreCanonicalize bcBuf cbuf cindex fuel = some result) :
    lreExec lreRealloc lreCanonicalize bcBuf cbuf cindex more = some result := by
  simp only [lreExec, Option.bind_eq_bind, Option.bind_eq_some_iff] at h ⊢
  obtain ⟨reFlags, hflags, captureCount, hcount, stackSizeMax, hstack, hrun⟩ := h
  exact ⟨reFlags, hflags, captureCount, hcount, stackSizeMax, hstack,
    lreExecBacktrack_of_le hle hrun⟩

end LibYtdl.Regexp.Threads
