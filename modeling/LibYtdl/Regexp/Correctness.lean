import LibYtdl.Regexp.Emit

/-!
# Emitted expressions match in order

A thread at the instructions of an expression leads to the outcomes behind them, once for each way
to match the expression and in the order of the ways. So a program that was emitted for an
expression returns its first match.
-/

namespace LibYtdl.Regexp.Correctness

open Machine Regex Exec Threads Emit

section Instructions

variable {s : REExecContext} {pc val target : ℕ} {thread next : Thread}
  {matches' : List (ℕ × List (Option ℕ))}

/-- A jump with its operand. -/
theorem bind_jump {α : Type} (h : At s.bcBuf pc (putU32 val)) (hval : val < 2 ^ 32)
    (hjump : jump (pc + 4) val = some target) (f : ℕ → Option α) :
    (do
      let target ← jump (pc + 4) (← getU32 s.bcBuf pc)
      f target) = f target := by
  rw [h.getU32 hval, Option.bind_eq_bind, Option.bind_some, hjump, Option.bind_some]

theorem goto_outcomes (h : At s.bcBuf thread.pc (opByte .goto :: putU32 val)) (hval : val < 2 ^ 31)
    (hnext : Outcomes s { thread with pc := thread.pc + 5 + val } matches') :
      Outcomes s thread matches' := by
  refine .next (fun states size ↦ ?_) hnext
  rw [vmStep, h.fetch, operands, bind_jump h.cons.2 (by omega) (jump_forward hval)]
  rfl

theorem goto_back_outcomes {distance : ℕ} (h : At s.bcBuf thread.pc
    (opByte .goto :: putBack distance))
    (hpos : 0 < distance) (hdistance : distance < 2 ^ 31)
      (htarget : target + distance = thread.pc + 5)
    (hnext : Outcomes s { thread with pc := target } matches') : Outcomes s thread matches' := by
  refine .next (fun states size ↦ ?_) hnext
  rw [vmStep, h.fetch, operands, bind_jump h.cons.2 (by omega) (jump_back hpos hdistance htarget)]
  rfl

theorem any_outcomes (h : At s.bcBuf thread.pc [opByte .any]) (hlt : thread.cptr < s.cbuf.length)
    (hnext : Outcomes s { thread with pc := thread.pc + 1, cptr := thread.cptr + 1 } matches') :
    Outcomes s thread matches' := by
  refine .next (fun states size ↦ ?_) hnext
  rw [vmStep, h.fetch, operands, Option.bind_eq_bind, Option.bind_some]
  dsimp only
  rw [testStep, getChar, List.getElem?_eq_getElem hlt]
  rfl

/-- Behind the last character there is none. -/
theorem any_fails (h : At s.bcBuf thread.pc [opByte .any]) (hge : s.cbuf.length ≤ thread.cptr) :
    Outcomes s thread [] := by
  refine .fail fun states size ↦ ?_
  rw [vmStep, h.fetch, operands, Option.bind_eq_bind, Option.bind_some]
  dsimp only
  rw [testStep, getChar, List.getElem?_eq_none hge]
  rfl

theorem split_outcomes {first second : List (ℕ × List (Option ℕ))}
    (h : At s.bcBuf thread.pc (opByte .splitNextFirst :: putU32 val)) (hval : val < 2 ^ 31)
    (hfirst : Outcomes s { thread with pc := thread.pc + 5 } first)
    (hsecond : Outcomes s { thread with pc := thread.pc + 5 + val } second) :
    Outcomes s thread (first ++ second) := by
  have hfetch : fetch s.bcBuf thread.pc =
      some (.split (thread.pc + 5) (thread.pc + 5 + val), thread.pc + 5) := by
    rw [h.fetch, operands, bind_jump h.cons.2 (by omega) (jump_forward hval)]
  exact .split hfetch hfirst hsecond

theorem saveStart_outcomes {index : ℕ}
    (h : At s.bcBuf thread.pc [opByte .saveStart, UInt8.ofNat index])
    (hindex : index < 2 ^ 8) (hcount : index < s.captureCount)
    (hnext : Outcomes s { thread with
      pc := thread.pc + 2
      capture := thread.capture.set (2 * index) (some thread.cptr) } matches') :
    Outcomes s thread matches' := by
  refine .next (fun states size ↦ ?_) hnext
  have hslot : 2 * index / 2 < s.captureCount := by rwa [group_of_start]
  rw [vmStep, h.fetch, operands, h.cons.2.getU8 hindex]
  simp only [Option.bind_eq_bind, Option.map_some, Option.bind_some, if_pos hslot]

theorem saveEnd_outcomes {index : ℕ} (h : At s.bcBuf thread.pc [opByte .saveEnd, UInt8.ofNat index])
    (hindex : index < 2 ^ 8) (hcount : index < s.captureCount)
    (hnext : Outcomes s { thread with
      pc := thread.pc + 2
      capture := thread.capture.set (2 * index + 1) (some thread.cptr) } matches') :
    Outcomes s thread matches' := by
  refine .next (fun states size ↦ ?_) hnext
  have hslot : (2 * index + 1) / 2 < s.captureCount := by rwa [group_of_end]
  rw [vmStep, h.fetch, operands, h.cons.2.getU8 hindex]
  simp only [Option.bind_eq_bind, Option.map_some, Option.bind_some, if_pos hslot]

/-- The instruction forgets the groups one by one. -/
theorem foldl_slots (first count : ℕ) (capture : Captures) :
    ((List.range' first count).flatMap fun val ↦ [2 * val, 2 * val + 1]).foldl
      (fun capture slot ↦ capture.set slot none) capture = capture.forget first count := by
  induction count generalizing first capture with
  | zero => rfl
  | succ count ih =>
    rw [List.range'_succ, List.flatMap_cons, List.foldl_append, ih]
    rfl

theorem saveReset_outcomes {first last : ℕ}
    (h : At s.bcBuf thread.pc [opByte .saveReset, UInt8.ofNat first, UInt8.ofNat last])
    (hfirst : first ≤ last) (hlast : last < 2 ^ 8) (hcount : last < s.captureCount)
    (hnext : Outcomes s { thread with
      pc := thread.pc + 3
      capture := Captures.forget first (last + 1 - first) thread.capture } matches') :
    Outcomes s thread matches' := by
  refine .next (fun states size ↦ ?_) hnext
  obtain ⟨hfirstAt, hlastAt⟩ := (show At s.bcBuf (thread.pc + 1)
    ([UInt8.ofNat first] ++ [UInt8.ofNat last])
    from h.cons.2).append
  have hlastAt : getU8 s.bcBuf (thread.pc + 1 + 1) = some last := hlastAt.getU8 hlast
  rw [vmStep, h.fetch, operands, hfirstAt.getU8 (hfirst.trans_lt hlast)]
  simp only [Option.bind_eq_bind, Option.bind_some, hlastAt, if_pos hcount, foldl_slots]

theorem pushCharPos_outcomes (h : At s.bcBuf thread.pc [opByte .pushCharPos])
    (hroom : thread.stack.length < s.stackSizeMax)
    (hnext : Outcomes s { thread with
      pc := thread.pc + 1
      stack := thread.cptr :: thread.stack } matches') : Outcomes s thread matches' := by
  refine .next (fun states size ↦ ?_) hnext
  rw [vmStep, h.fetch, operands]
  simp only [Option.bind_eq_bind, Option.bind_some, if_pos hroom]

theorem bneCharPos_outcomes {distance charPos : ℕ} {stack : List ℕ}
    (h : At s.bcBuf thread.pc (opByte .bneCharPos :: putBack distance)) (hpos : 0 < distance)
    (hdistance : distance < 2 ^ 31) (htarget : target + distance = thread.pc + 5)
    (hstack : thread.stack = charPos :: stack)
    (hnext : Outcomes s { thread with
      pc := if charPos ≠ thread.cptr then target else thread.pc + 5
      stack := stack } matches') : Outcomes s thread matches' := by
  refine .next (fun states size ↦ ?_) hnext
  have hjump : jump (thread.pc + 1 + 4) (2 ^ 32 - distance) = some target :=
    jump_back hpos hdistance htarget
  rw [vmStep, h.fetch, operands, bind_jump h.cons.2 (by omega) hjump, Option.bind_eq_bind,
    Option.bind_some]
  dsimp only
  rw [hstack]

theorem matched_outcomes (h : At s.bcBuf thread.pc [opByte .matched]) :
    Outcomes s thread [(thread.cptr, thread.capture)] := by
  have hfetch : fetch s.bcBuf thread.pc = some (.matched, thread.pc + 1) := by
    rw [h.fetch, operands]
  exact .matched hfetch

/-- The parts of a simple quantifier. -/
structure QuantAt (buf : Bytes) (pc least quantMax : ℕ) (word : List CharSet) : Prop where
  op : At buf pc (opByte .simpleGreedyQuant :: putU32 ((word.flatMap emitSet).length + 1))
  least : At buf (pc + 5) (putU32 least)
  most : At buf (pc + 9) (putU32 quantMax)
  width : At buf (pc + 13) (putU32 word.length)
  atom : At buf (pc + 17) (word.flatMap emitSet ++ [opByte .matched])

theorem quantAt_of_emit {buf : Bytes} {least : ℕ} {most : Option ℕ} {word : List CharSet}
    (h : At buf pc (emit (.many least most word))) :
      QuantAt buf pc least (most.getD int32Max) word := by
  simp only [emit, List.append_assoc] at h
  obtain ⟨hop, h⟩ := h.append
  obtain ⟨hleast, h⟩ := h.append
  obtain ⟨hmost, h⟩ := h.append
  obtain ⟨hwidth, hatom⟩ := h.append
  exact ⟨hop, hleast, hmost, hwidth, hatom⟩

theorem QuantAt.fetch {buf : Bytes} {least quantMax : ℕ} {word : List CharSet}
    (h : QuantAt buf pc least quantMax word) (hleast : least < 2 ^ 32) (hmost : quantMax < 2 ^ 32)
    (hlength : (word.flatMap emitSet).length + 1 < 2 ^ 31) :
    fetch buf pc =
      some (.simpleGreedyQuant (pc + 17 + ((word.flatMap emitSet).length + 1)) least quantMax,
      pc + 17) := by
  have hleastAt : getU32 buf (pc + 1 + 4) = some least := h.least.getU32 hleast
  have hmostAt : getU32 buf (pc + 1 + 8) = some quantMax := h.most.getU32 hmost
  rw [h.op.fetch, operands, h.op.cons.2.getU32 (by omega), Option.bind_eq_bind, Option.bind_some,
    jump_forward hlength, Option.bind_some, hleastAt, Option.bind_some, hmostAt, Option.bind_some]

theorem length_emit_many (least : ℕ) (most : Option ℕ) (word : List CharSet) :
    (emit (.many least most word)).length = 17 + ((word.flatMap emitSet).length + 1) := by
  simp only [emit, List.length_append, List.length_cons, List.length_nil, putU32, putU16]
  omega

/-- A simple quantifier leads to what is behind it, once for each number of words. -/
theorem many_outcomes {least : ℕ} {most : Option ℕ} {word : List CharSet}
    (hnode : encodable (.many least most word) = true) (hcase : s.ignoreCase = false)
    (h : At s.bcBuf thread.pc (emit (.many least most word))) (hcptr : thread.cptr ≤ s.cbuf.length)
    {rest : ℕ × Captures → List (ℕ × List (Option ℕ))}
    (hrest : ∀ result ∈
      results CharSet.accepts s.cbuf (.many least most word) thread.cptr thread.capture,
      Outcomes s ⟨thread.pc + (emit (.many least most word)).length, result.1, result.2,
        thread.stack⟩
        (rest result)) :
    Outcomes s thread
      ((results CharSet.accepts s.cbuf (.many least most word) thread.cptr
        thread.capture).flatMap rest) := by
  simp only [encodable, Bool.and_eq_true, decide_eq_true_eq] at hnode
  obtain ⟨⟨⟨⟨⟨hne, hword⟩, hleast⟩, hmost⟩, hwidth⟩, hlength⟩ := hnode
  have hbound (m : ℕ) (hm : most = some m) : 0 < m ∧ m < int32Max := by
    rw [hm] at hmost
    simpa using hmost
  have hmax : most.getD int32Max < 2 ^ 32 := by
    cases most with
    | none => decide
    | some m =>
      have hm := (hbound m rfl).2
      rw [int32Max] at hm
      exact hm.trans (by decide)
  have hat := quantAt_of_emit h
  have hfetch := hat.fetch hleast hmax hlength
  -- the loop counts as many words as there are, up to the bound
  obtain ⟨bound, hgetD⟩ : ∃ bound, most.getD (s.cbuf.length + 1) = bound := ⟨_, rfl⟩
  have hpositive : 0 < bound := by
    cases most with
    | none =>
      rw [← hgetD]
      exact Nat.succ_pos _
    | some m => exact hgetD ▸ (hbound m rfl).1
  have hlimit : most.getD int32Max = 0 + bound ∧ most.getD int32Max < int32Max ∨
      most.getD int32Max = int32Max ∧ s.cbuf.length < bound + thread.cptr := by
    cases most with
    | none =>
      rw [Option.getD_none] at hgetD
      exact .inr ⟨rfl, by omega⟩
    | some m =>
      rw [Option.getD_some] at hgetD
      exact .inl ⟨by rw [Option.getD_some, hgetD, Nat.zero_add], (hbound m rfl).2⟩
  have hfuel : s.cbuf.length < s.cbuf.length + 2 + thread.cptr := by omega
  have hloop := quantLoop_eq hword hne hcase hat.atom hcptr hpositive hfuel hlimit
  rw [Nat.zero_add] at hloop
  rw [results_many, hgetD] at hrest ⊢
  obtain hfew | henough :=
    Nat.lt_or_ge (countAt CharSet.accepts s.cbuf word bound thread.cptr) least
  · have hnil : countAt CharSet.accepts s.cbuf word bound thread.cptr + 1 - least = 0 := by omega
    rw [hnil]
    exact .quantFail hfetch hloop hfew
  · rw [List.flatMap_map]
    refine .quant hfetch (hat.width.getU32 hwidth) (hat.op.cons.2.getU32 (by omega))
      (jump_forward hlength) hloop henough (Nat.le_add_left _ _) fun k hk ↦ ?_
    have hmem := hrest _ (List.mem_map.mpr ⟨k, List.mem_range.mpr hk, rfl⟩)
    rw [length_emit_many] at hmem
    have hcount : k ≤ countAt CharSet.accepts s.cbuf word bound thread.cptr := by omega
    have hsub : thread.cptr + countAt CharSet.accepts s.cbuf word bound thread.cptr * word.length -
        k * word.length = thread.cptr +
          (countAt CharSet.accepts s.cbuf word bound thread.cptr - k) * word.length := by
      have hle := Nat.mul_le_mul_right word.length hcount
      rw [Nat.sub_mul]
      omega
    rw [hsub, Nat.add_assoc]
    exact hmem

end Instructions

/-! ## Expressions -/

section Expressions

variable {s : REExecContext} {pc cptr : ℕ} {capture : Captures} {stack : List ℕ}

/-- The repetitions of a loop, when its body leads to what is behind the body. -/
theorem loop_outcomes {body : Node CharSet} (hlength : (emit body).length + 11 < 2 ^ 31)
    (h : At s.bcBuf pc (emit (.loop body))) (hroom : stack.length < s.stackSizeMax)
    (hbody : ∀ {cptr : ℕ} {capture : Captures} {saved : List ℕ}
      {rest : ℕ × Captures → List (ℕ × List (Option ℕ))}, cptr ≤ s.cbuf.length →
      saved.length = stack.length + 1 →
      (∀ result ∈ results CharSet.accepts s.cbuf body cptr capture,
        Outcomes s ⟨pc + 6 + (emit body).length, result.1, result.2, saved⟩ (rest result)) →
      Outcomes s ⟨pc + 6, cptr, capture, saved⟩
        ((results CharSet.accepts s.cbuf body cptr capture).flatMap rest))
    {fuel : ℕ} (hfuel : s.cbuf.length < fuel + cptr) (hcptr : cptr ≤ s.cbuf.length)
    {rest : ℕ × Captures → List (ℕ × List (Option ℕ))}
    (hrest : ∀ result ∈ iterate (results CharSet.accepts s.cbuf body) fuel cptr capture,
      Outcomes s ⟨pc + (emit (.loop body)).length, result.1, result.2, stack⟩ (rest result)) :
    Outcomes s ⟨pc, cptr, capture, stack⟩
      ((iterate (results CharSet.accepts s.cbuf body) fuel cptr capture).flatMap rest) := by
  have hemit : (emit (.loop body)).length = 6 + (emit body).length + 5 := by
    simp only [emit, List.length_append, List.length_cons, List.length_nil, putU32, putU16, putBack]
  have hat := h
  rw [emit, List.append_assoc, List.append_assoc] at hat
  obtain ⟨hsplit, hat⟩ := hat.append
  obtain ⟨hpush, hat⟩ := hat.append
  have hback : At s.bcBuf (pc + 6 + (emit body).length)
      (opByte .bneCharPos :: putBack ((emit body).length + 11)) := hat.append.2
  induction fuel generalizing cptr capture rest with
  | zero => omega
  | succ fuel ih =>
    rw [iterate] at hrest ⊢
    rw [List.flatMap_append, List.flatMap_singleton, List.flatMap_assoc]
    have hexit := hrest _ (List.mem_append_right _ (List.mem_singleton_self _))
    refine split_outcomes hsplit (by omega) (pushCharPos_outcomes hpush hroom
      (hbody hcptr rfl ?_)) ?_
    · rintro ⟨last, next⟩ hresult
      have hbounds := results_bounds hcptr hresult
      have htarget : pc + ((emit body).length + 11) = pc + 6 + (emit body).length + 5 := by omega
      refine bneCharPos_outcomes hback (Nat.succ_pos _) hlength htarget rfl ?_
      have hlater : ∀ result ∈ (if last = cptr then [(last, next)]
          else iterate (results CharSet.accepts s.cbuf body) fuel last next),
          Outcomes s ⟨pc + (emit (.loop body)).length, result.1, result.2, stack⟩ (rest result) :=
        fun result hmem ↦ hrest result
          (List.mem_append_left _ (List.mem_flatMap.mpr ⟨(last, next), hresult, hmem⟩))
      dsimp only
      by_cases heq : last = cptr
      · rw [if_pos heq] at hlater ⊢
        rw [List.flatMap_singleton, if_neg (not_not_intro heq.symm)]
        have hend := hlater _ (List.mem_singleton_self _)
        rwa [hemit, ← Nat.add_assoc, ← Nat.add_assoc] at hend
      · rw [if_neg heq] at hlater ⊢
        rw [if_pos (Ne.symm heq)]
        exact ih (by omega) hbounds.2 hlater
    · rw [hemit] at hexit
      have hend : pc + 5 + ((emit body).length + 6) = pc + (6 + (emit body).length + 5) := by omega
      rw [hend]
      exact hexit

/-- **An expression** leads to what is behind it, once for each way to match it. -/
theorem emit_outcomes {node : Node CharSet} (hnode : encodable node = true)
    (hcase : s.ignoreCase = false)
    (h : At s.bcBuf pc (emit node)) (hgroups : ∀ index ∈ node.groups, index < s.captureCount)
    (hdepth : stack.length + depth node ≤ s.stackSizeMax) (hcptr : cptr ≤ s.cbuf.length)
    {rest : ℕ × Captures → List (ℕ × List (Option ℕ))}
    (hrest : ∀ result ∈ results CharSet.accepts s.cbuf node cptr capture,
      Outcomes s ⟨pc + (emit node).length, result.1, result.2, stack⟩ (rest result)) :
    Outcomes s ⟨pc, cptr, capture, stack⟩
      ((results CharSet.accepts s.cbuf node cptr capture).flatMap rest) := by
  induction node generalizing pc cptr capture stack rest with
  | one cls =>
    by_cases hone : oneAt CharSet.accepts s.cbuf cls cptr = true
    · rw [results_one, if_pos hone] at hrest ⊢
      rw [List.flatMap_singleton]
      refine .next (fun states size ↦ ?_) (hrest _ (List.mem_singleton_self _))
      rw [vmStep_set hnode hcase h, if_pos hone]
      rfl
    · rw [results_one, if_neg hone]
      refine .fail fun states size ↦ ?_
      rw [vmStep_set hnode hcase h, if_neg hone]
  | seq first second ihFirst ihSecond =>
    rw [encodable, Bool.and_eq_true] at hnode
    rw [emit] at h
    rw [depth] at hdepth
    obtain ⟨hfirst, hsecond⟩ := h.append
    rw [results_seq, List.flatMap_assoc]
    refine ihFirst hnode.1 hfirst (fun index hmem ↦ hgroups index (List.mem_append_left _ hmem))
      (by omega)
      hcptr fun middle hmiddle ↦ ?_
    refine ihSecond hnode.2 hsecond (fun index hmem ↦ hgroups index (List.mem_append_right _ hmem))
      (by omega) (results_bounds hcptr hmiddle).2 fun result hresult ↦ ?_
    have hend := hrest result (List.mem_flatMap.mpr ⟨middle, hmiddle, hresult⟩)
    rwa [emit, List.length_append, ← Nat.add_assoc] at hend
  | alt first second ihFirst ihSecond =>
    simp only [encodable, Bool.and_eq_true, decide_eq_true_eq] at hnode
    obtain ⟨⟨⟨hfirstFits, hsecondFits⟩, hfirstLength⟩, hsecondLength⟩ := hnode
    have hemit : (emit (.alt first second)).length =
      5 + (emit first).length + 5 + (emit second).length := by
      simp only [emit, List.length_append, List.length_cons, List.length_nil, putU32, putU16]
    rw [emit, List.append_assoc, List.append_assoc] at h
    obtain ⟨hsplit, h⟩ := h.append
    obtain ⟨hfirst, h⟩ := h.append
    obtain ⟨hgoto, hsecond⟩ := h.append
    rw [depth] at hdepth
    have hdepthFirst : stack.length + depth first ≤ s.stackSizeMax := by omega
    have hdepthSecond : stack.length + depth second ≤ s.stackSizeMax := by omega
    rw [results_alt] at hrest ⊢
    rw [List.flatMap_append]
    refine split_outcomes hsplit hfirstLength ?_ ?_
    · refine ihFirst hfirstFits hfirst (fun index hmem ↦
        hgroups index (List.mem_append_left _ hmem))
        hdepthFirst hcptr fun result hresult ↦ goto_outcomes hgoto hsecondLength ?_
      have hend := hrest result (List.mem_append_left _ hresult)
      rwa [hemit, ← Nat.add_assoc, ← Nat.add_assoc, ← Nat.add_assoc] at hend
    · have hstart : pc + 5 + ((emit first).length + 5) = pc + 5 + (emit first).length + 5 := rfl
      rw [hstart]
      refine ihSecond hsecondFits hsecond (fun index hmem ↦
        hgroups index (List.mem_append_right _ hmem))
        hdepthSecond hcptr fun result hresult ↦ ?_
      have hend := hrest result (List.mem_append_right _ hresult)
      rwa [hemit, ← Nat.add_assoc, ← Nat.add_assoc, ← Nat.add_assoc] at hend
  | group index body ih =>
    rw [encodable, Bool.and_eq_true, decide_eq_true_eq] at hnode
    have hcount := hgroups index List.mem_cons_self
    have hemit : (emit (.group index body)).length = 2 + (emit body).length + 2 := by
      simp only [emit, List.length_append, List.length_cons, List.length_nil]
    rw [emit, List.append_assoc] at h
    obtain ⟨hstart, h⟩ := h.append
    obtain ⟨hbody, hend⟩ := h.append
    rw [results_group, List.flatMap_map]
    refine saveStart_outcomes hstart hnode.1 hcount (ih hnode.2 hbody
      (fun other hmem ↦ hgroups other (List.mem_cons_of_mem _ hmem)) hdepth hcptr
        fun result hresult ↦ ?_)
    refine saveEnd_outcomes hend hnode.1 hcount ?_
    have hlast := hrest _ (List.mem_map.mpr ⟨result, hresult, rfl⟩)
    rwa [hemit, ← Nat.add_assoc, ← Nat.add_assoc] at hlast
  | reset first last =>
    simp only [encodable, Bool.and_eq_true, decide_eq_true_eq] at hnode
    have hcount : last < s.captureCount := by
      refine hgroups last (List.mem_map.mpr ⟨last - first, List.mem_range.mpr (by omega), ?_⟩)
      exact Nat.add_sub_cancel' hnode.1
    rw [results_reset, List.flatMap_singleton]
    exact saveReset_outcomes h hnode.1 hnode.2 hcount (hrest _ (List.mem_singleton_self _))
  | many least most word => exact many_outcomes hnode hcase h hcptr hrest
  | maybe body ih =>
    rw [encodable, Bool.and_eq_true, decide_eq_true_eq] at hnode
    have hemit : (emit (.maybe body)).length = 5 + (emit body).length := by
      simp only [emit, List.length_append, List.length_cons, List.length_nil, putU32, putU16]
    rw [emit] at h
    obtain ⟨hsplit, hbody⟩ := h.append
    rw [results_maybe] at hrest ⊢
    rw [List.flatMap_append, List.flatMap_singleton]
    refine split_outcomes hsplit (by omega) ?_ ?_
    · refine ih hnode.1 hbody hgroups hdepth hcptr fun result hresult ↦ ?_
      have hend := hrest result (List.mem_append_left _ hresult)
      rwa [hemit, ← Nat.add_assoc] at hend
    · have hend := hrest _ (List.mem_append_right _ (List.mem_singleton_self _))
      rwa [hemit, ← Nat.add_assoc] at hend
  | loop body ih =>
    rw [encodable, Bool.and_eq_true, decide_eq_true_eq] at hnode
    have hbody : At s.bcBuf (pc + 6) (emit body) := by
      have hat := h
      rw [emit, List.append_assoc, List.append_assoc] at hat
      exact hat.append.2.append.2.append.1
    rw [depth] at hdepth
    rw [results_loop] at hrest ⊢
    refine loop_outcomes hnode.2 h (by omega)
      (fun {cptr capture saved rest} hcptr hsaved hrest ↦ ?_)
      (by omega) hcptr hrest
    exact ih hnode.1 hbody hgroups (by omega) hcptr hrest

end Expressions

/-! ## Programs -/

/-- The instructions of a program: the search for a position, the expression as group zero, and the
match. -/
def emitBody (node : Node CharSet) : Bytes :=
  (opByte .splitGotoFirst :: putU32 6) ++ [opByte .any] ++ (opByte .goto :: putBack 11) ++
    emit (.group 0 node) ++ [opByte .matched]

/-- The program that `lre_compile` makes of an expression, without flags. -/
def emitProgram (captureCount : ℕ) (node : Node CharSet) : Bytes :=
  [0, UInt8.ofNat captureCount, UInt8.ofNat (depth node)] ++ putU32 (emitBody node).length ++
    emitBody node

/-- The program of an expression can be emitted. -/
structure Compiles (captureCount : ℕ) (node : Node CharSet) : Prop where
  encodable : encodable node = true
  groups : ∀ index ∈ node.groups, index < captureCount
  pos : 0 < captureCount
  count : captureCount < 2 ^ 8
  depth : depth node < 2 ^ 8

section Programs

variable {s : REExecContext} {captureCount : ℕ} {node : Node CharSet} {pos : ℕ}
  {capture next : Captures}

/-- The search goes through the matches from each position on. -/
theorem search_outcomes (hnode : Compiles captureCount node) (hcase : s.ignoreCase = false)
    (hcount : s.captureCount = captureCount) (hstack : s.stackSizeMax = depth node)
    (h : At s.bcBuf reHeaderLen (emitBody node)) (hpos : pos ≤ s.cbuf.length) :
    Outcomes s ⟨reHeaderLen, pos, capture, []⟩
      (search CharSet.accepts s.cbuf node capture pos) := by
  rw [emitBody, List.append_assoc, List.append_assoc, List.append_assoc] at h
  obtain ⟨hsplit, h⟩ := h.append
  obtain ⟨hany, h⟩ := h.append
  obtain ⟨hgoto, h⟩ := h.append
  obtain ⟨hgroup, hmatched⟩ := h.append
  have hfetch : fetch s.bcBuf reHeaderLen =
      some (.split (reHeaderLen + 11) (reHeaderLen + 5), reHeaderLen + 5) := by
    rw [hsplit.fetch, operands, bind_jump hsplit.cons.2 (by decide) (jump_forward (by decide))]
  have hencodable : encodable (.group 0 node) = true := by
    rw [encodable, hnode.encodable]
    rfl
  have hgroups (index : ℕ) (hmem : index ∈ (Node.group 0 node).groups) :
    index < s.captureCount := by
    rw [hcount]
    obtain rfl | hmem := List.mem_cons.mp hmem
    · exact hnode.pos
    · exact hnode.groups index hmem
  have hdepth : ([] : List ℕ).length + Emit.depth (.group 0 node) ≤ s.stackSizeMax := by
    rw [hstack, Emit.depth]
    exact (Nat.zero_add _).le
  have hfrom {pos : ℕ} (hpos : pos ≤ s.cbuf.length) :
    Outcomes s ⟨reHeaderLen + 11, pos, capture, []⟩
      (results CharSet.accepts s.cbuf (.group 0 node) pos capture) := by
    have houtcomes : Outcomes s ⟨reHeaderLen + 11, pos, capture, []⟩
        ((results CharSet.accepts s.cbuf (.group 0 node) pos capture).flatMap fun result ↦
          [result]) :=
      emit_outcomes hencodable hcase hgroup hgroups hdepth hpos fun result _ ↦
        matched_outcomes hmatched
    rwa [List.flatMap_singleton'] at houtcomes
  obtain ⟨rest, hrest⟩ : ∃ rest, s.cbuf.length - pos = rest := ⟨_, rfl⟩
  induction rest generalizing pos with
  | zero =>
    rw [search_of_le hpos]
    refine .split hfetch (hfrom hpos) ?_
    rw [search_of_gt (by omega)]
    exact any_fails hany (by dsimp only; omega)
  | succ rest ih =>
    rw [search_of_le hpos]
    have hnext := ih (show pos + 1 ≤ s.cbuf.length by omega)
      (show s.cbuf.length - (pos + 1) = rest by omega)
    exact .split hfetch (hfrom hpos) (any_outcomes hany (by dsimp only; omega)
      (goto_back_outcomes hgoto (by decide) (by decide) rfl hnext))

/-- What the machine may return: the first of the matches, or an error when there is no memory for
the states. -/
def Returns (lreRealloc : ℕ → Bool) (matches' : List (ℕ × Captures)) (ret : ℤ)
    (capture : Captures) :
    Prop :=
  ret = -1 ∧ (∃ size, lreRealloc size = false) ∨
    match matches'.head? with
    | none => ret = 0
    | some result => ret = 1 ∧ capture = result.2

theorem answers_returns (s : REExecContext) (lreRealloc : ℕ → Bool)
    (matches' : List (ℕ × Captures)) :
    Answers s (Returns lreRealloc matches') [] matches' := by
  cases matches' with
  | nil => exact fun _ _ ↦ .inr rfl
  | cons result results => exact .inr ⟨rfl, rfl⟩

/-- **A program** that was emitted for an expression returns its first match. -/
theorem lreExec_emitProgram (hnode : Compiles captureCount node) (lreRealloc : ℕ → Bool)
    (lreCanonicalize : ℕ → ℕ) {cbuf : Bytes} {cindex : ℕ} (hcindex : cindex ≤ cbuf.length) :
    ∃ fuel ret capture,
      lreExec lreRealloc lreCanonicalize (emitProgram captureCount node) cbuf cindex fuel =
        some (ret, capture) ∧
      Returns lreRealloc
        (search CharSet.accepts cbuf node (List.replicate (2 * captureCount) none) cindex) ret
          capture := by
  have hflags : getU8 (emitProgram captureCount node) 0 = some 0 := rfl
  have hcount : getU8 (emitProgram captureCount node) 1 = some captureCount := by
    rw [emitProgram, getU8]
    exact congrArg some (UInt8.toNat_ofNat_of_lt' hnode.count)
  have hstack : getU8 (emitProgram captureCount node) 2 = some (depth node) := by
    rw [emitProgram, getU8]
    exact congrArg some (UInt8.toNat_ofNat_of_lt' hnode.depth)
  have hbody : At (emitProgram captureCount node) reHeaderLen (emitBody node) := List.prefix_rfl
  obtain ⟨s, hs⟩ : ∃ s : REExecContext, s =
    ⟨emitProgram captureCount node, cbuf, captureCount, depth node,
    (0 : ℕ).testBit 2, (0 : ℕ).testBit 1, lreRealloc, lreCanonicalize⟩ := ⟨_, rfl⟩
  have hcase : s.ignoreCase = false := by
    rw [hs]
    rfl
  have houtcomes : Outcomes s ⟨reHeaderLen, cindex, List.replicate (2 * captureCount) none, []⟩
      (search CharSet.accepts s.cbuf node (List.replicate (2 * captureCount) none) cindex) := by
    refine search_outcomes hnode hcase ?_ ?_ ?_ ?_
    all_goals rw [hs]
    · exact hbody
    · exact hcindex
  rw [hs] at houtcomes hcase
  have hmemory : (∀ size, lreRealloc size = true) ∨ ∀ capture, Returns lreRealloc
      (search CharSet.accepts cbuf node (List.replicate (2 * captureCount) none) cindex)
        (-1) capture := by
    by_cases hall : ∀ size, lreRealloc size = true
    · exact .inl hall
    · rw [not_forall] at hall
      obtain ⟨size, hsize⟩ := hall
      exact .inr fun _ ↦ .inl ⟨rfl, size, Bool.eq_false_of_not_eq_true hsize⟩
  have hplain : Plain [] := fun state hmem ↦ absurd hmem List.not_mem_nil
  obtain ⟨fuel, ret, capture, hrun, hreturns⟩ :=
    houtcomes.ends hmemory hplain (answers_returns _ lreRealloc _) 0
  refine ⟨fuel, ret, capture, ?_, hreturns⟩
  rw [lreExec, hflags, hcount, hstack]
  exact hrun

/-- What the first match says about the text: there is none, or it is the leftmost one. -/
inductive Found (lreRealloc : ℕ → Bool) (cbuf : Bytes) (node : Node CharSet) (captures : Captures) :
    ℤ → Captures → Prop
  | error {capture : Captures} (size : ℕ) (h : lreRealloc size = false) :
    Found lreRealloc cbuf node captures (-1) capture
  | none {capture : Captures}
    (h : ∀ before word behind, cbuf = before ++ word ++ behind →
      ¬ Matches CharSet.accepts node word) :
    Found lreRealloc cbuf node captures 0 capture
  | some {capture : Captures} (last : ℕ)
    (h : Leftmost CharSet.accepts cbuf node captures last capture) :
    Found lreRealloc cbuf node captures 1 capture

theorem Returns.found {lreRealloc : ℕ → Bool} {cbuf : Bytes} {ret : ℤ} (hproper : node.Proper)
    (h : Returns lreRealloc (search CharSet.accepts cbuf node capture 0) ret next) :
    Found lreRealloc cbuf node capture ret next := by
  obtain ⟨rfl, size, hsize⟩ | h := h
  · exact .error size hsize
  · cases hhead : (search CharSet.accepts cbuf node capture 0).head? with
    | none =>
      rw [hhead] at h
      obtain rfl : ret = 0 := h
      refine .none fun before word behind hcbuf hmatch ↦ ?_
      exact (search_ne_nil hproper _).mpr ⟨before, word, behind, hcbuf, hmatch⟩
        (List.head?_eq_none_iff.mp hhead)
    | some result =>
      rw [hhead] at h
      obtain ⟨rfl, rfl⟩ : ret = 1 ∧ next = result.2 := h
      exact .some result.1 (leftmost_of_search hproper hhead)

end Programs

end LibYtdl.Regexp.Correctness
