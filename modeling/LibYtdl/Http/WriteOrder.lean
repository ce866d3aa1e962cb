import LibYtdl.Http.TlsWriteQueue

/-!
# The order of TLS writes

Each writable event sends the job in the last slot of the array, that is, the newest one. The
buffers therefore reach `SSL_write` in call order exactly as long as no writable event finds two
non-empty buffers waiting: the invariant is that the buffers handed out so far, followed by those
still waiting from the oldest to the newest, are the non-empty buffers queued so far.
-/

namespace LibYtdl.Http.WriteOrder

open Machine Transition TlsWriteQueue

variable {Callback : Type} {uvWrite : Bytes → ℤ}

/-- The jobs that `SSL_write` has to see: those with a non-empty buffer. -/
def toSend (jobs : List (WriteJob Callback)) : List (WriteJob Callback) :=
  jobs.filter fun job ↦ !isEmptyJob job

/-- No request overtakes an earlier one. -/
def InOrder (client : Client Callback) : Prop :=
  handedJobs client.trace <+: toSend (queuedJobs client.trace)

instance [DecidableEq Callback] (client : Client Callback) : Decidable (InOrder client) :=
  inferInstanceAs (Decidable (_ <+: _))

/-- `SSL_write` accepts the buffer whole, and the job's callback does not write. -/
def AcceptedQuietly : Client Callback → Event Callback → Client Callback → Prop
  | _, .write .., _ => True
  | _, .writable err _ nested, _ => err = .none ∧ nested = []

/-- A writable event finds at most one non-empty buffer in the queue. -/
def FewWaiting : Client Callback → Event Callback → Client Callback → Prop
  | _, .write .., _ => True
  | client, .writable .., _ => (toSend client.bufs).length ≤ 1

/-! ## Lists of distinct elements -/

/-- With distinct elements, skipping `between` on the way to `last` leaves the prefix order. -/
theorem concat_isPrefix_iff {α : Type*} {done between : List α} {last : α}
    (hnodup : (done ++ (between ++ [last])).Nodup) :
    done ++ [last] <+: done ++ (between ++ [last]) ↔ between = [] := by
  rw [List.prefix_append_right_inj]
  constructor
  · intro hprefix
    cases between with
    | nil => rfl
    | cons first between =>
      have hfirst : last = first := by simpa using hprefix
      subst hfirst
      exact absurd (List.nodup_append.mp hnodup).2.1 (by simp)
  · rintro rfl
    exact List.prefix_rfl

/-- Popping jobs of length zero leaves the jobs to send. -/
@[simp] theorem toSend_dropWhile (bufs : List (WriteJob Callback)) :
    toSend (bufs.dropWhile isEmptyJob) = toSend bufs := by
  induction bufs with
  | nil => rfl
  | cons buf bufs ih =>
    cases hbuf : isEmptyJob buf with
    | true => simpa [toSend, List.dropWhile_cons, hbuf] using ih
    | false => simp [hbuf]

/-- The job that a writable event hands out is the newest one to send. -/
theorem toSend_eq_cons {bufs rest : List (WriteJob Callback)} {buf : WriteJob Callback}
    (h : bufs.dropWhile isEmptyJob = buf :: rest) : toSend bufs = buf :: toSend rest := by
  have hbuf : isEmptyJob buf = false := by
    simpa [h] using List.head_dropWhile_not (p := isEmptyJob) (l := bufs) (by simp [h])
  rw [← toSend_dropWhile, h, toSend, List.filter_cons]
  simp [hbuf, toSend]

/-! ## The invariant -/

/-- What was handed out, and then what waits from the oldest job to the newest, is what was
queued; the numbering makes the queued jobs distinct. -/
structure Inv (client : Client Callback) : Prop where
  isTls : client.isTls = true
  queued : toSend (queuedJobs client.trace) =
    handedJobs client.trace ++ (toSend client.bufs).reverse
  numbered : (queuedJobs client.trace).map WriteJob.number = List.range client.queuedCount

theorem Inv.inOrder {client : Client Callback} (h : Inv client) : InOrder client := by
  rw [InOrder, h.queued]
  exact List.prefix_append _ _

theorem Inv.nodup {client : Client Callback} (h : Inv client) :
    (toSend (queuedJobs client.trace)).Nodup := by
  have hnumbers : ((queuedJobs client.trace).map WriteJob.number).Nodup := by
    rw [h.numbered]
    exact List.nodup_range
  exact (List.Nodup.of_map _ hnumbers).filter _

theorem inv_ready : Inv (Client.ready : Client Callback) where
  isTls := rfl
  queued := rfl
  numbered := rfl

theorem inv_write {client : Client Callback} (h : Inv client) (base : Bytes) (cb : Callback) :
    Inv (httpClientWrite uvWrite client base cb) := by
  rw [httpClientWrite_tls h.isTls]
  constructor
  · exact h.isTls
  · simp only [queuedJobs_append, handedJobs_append, toSend, List.filter_append, List.filter_cons]
    have hqueued := h.queued
    simp only [toSend] at hqueued
    rw [hqueued]
    by_cases hempty : isEmptyJob ⟨base, cb, client.queuedCount⟩ = true <;> simp [hempty]
  · simp [h.numbered, List.range_succ]

theorem inv_popEmptyJobs {client : Client Callback} (h : Inv client) :
    Inv (popEmptyJobs client) where
  isTls := h.isTls
  queued := by simpa [popEmptyJobs] using h.queued
  numbered := by simpa [popEmptyJobs] using h.numbered

theorem inv_accepted {client : Client Callback} (h : Inv client) (notified : Bool)
    (hfew : (toSend client.bufs).length ≤ 1) :
    Inv (tlsPollCb uvWrite SslError.none.code notified [] client) := by
  cases hbufs : client.bufs.dropWhile isEmptyJob with
  | nil =>
    rw [tlsPollCb_idle _ _ _ _ hbufs]
    exact inv_popEmptyJobs h
  | cons buf rest =>
    have hsend := toSend_eq_cons hbufs
    have hrest : toSend rest = [] := by
      rw [hsend, List.length_cons] at hfew
      exact List.eq_nil_of_length_eq_zero (by omega)
    rw [tlsPollCb_quiet _ _ notified hbufs]
    constructor
    · exact h.isTls
    · have hqueued := h.queued
      rw [hsend, hrest] at hqueued
      simpa [hrest] using hqueued
    · simpa using h.numbered

/-- Two waiting buffers at a writable event put the newer one first on the wire. -/
theorem not_inOrder_accepted {client : Client Callback} (h : Inv client) (notified : Bool)
    (hmany : ¬ (toSend client.bufs).length ≤ 1) :
    ¬ InOrder (tlsPollCb uvWrite SslError.none.code notified [] client) := by
  cases hbufs : client.bufs.dropWhile isEmptyJob with
  | nil =>
    have hsend : toSend client.bufs = [] := by
      rw [← toSend_dropWhile, hbufs]
      rfl
    simp [hsend] at hmany
  | cons buf rest =>
    have hsend := toSend_eq_cons hbufs
    have hnodup := h.nodup
    rw [h.queued, hsend, List.reverse_cons] at hnodup
    rw [tlsPollCb_quiet _ _ notified hbufs]
    intro horder
    have hprefix : handedJobs client.trace ++ [buf] <+:
        handedJobs client.trace ++ ((toSend rest).reverse ++ [buf]) := by
      rw [← List.reverse_cons, ← hsend, ← h.queued]
      simpa [InOrder] using horder
    rw [concat_isPrefix_iff hnodup, List.reverse_eq_nil_iff] at hprefix
    simp [hsend, hprefix] at hmany

/-- **Order of TLS writes.** When `SSL_write` accepts every buffer whole and callbacks do not
write, the buffers reach it in call order throughout a run exactly when no writable event of the
run finds two non-empty buffers waiting. -/
theorem inOrder_iff_fewWaiting (uvWrite : Bytes → ℤ) (events : List (Event Callback))
    (haccepted : Each (step uvWrite) AcceptedQuietly Client.ready events) :
    Always (step uvWrite) InOrder Client.ready events ↔
      Each (step uvWrite) FewWaiting Client.ready events := by
  refine always_iff_each (fun _ (h : Inv _) ↦ h.inOrder) ?_ ?_ inv_ready haccepted
  · intro client event next hinv haccept hfew hstep
    cases event with
    | write base cb => exact Option.some.inj hstep ▸ inv_write hinv base cb
    | writable err notified nested =>
      obtain ⟨rfl, rfl⟩ := haccept
      obtain ⟨-, rfl⟩ : client.polling = true ∧ _ = next := by simpa [step] using hstep
      exact inv_accepted hinv notified hfew
  · intro client event next hinv haccept hmany hstep
    cases event with
    | write base cb => exact absurd trivial hmany
    | writable err notified nested =>
      obtain ⟨rfl, rfl⟩ := haccept
      obtain ⟨-, rfl⟩ : client.polling = true ∧ _ = next := by simpa [step] using hstep
      exact not_inOrder_accepted hinv notified hmany

/-- Two requests written between two writable events leave in reverse order. -/
theorem newerWrite_overtakes :
    ∃ client, run (step fun _ ↦ 0) (Client.ready : Client Unit)
        [.write [1] (), .write [2] (), .writable .none false []] = some client ∧
      ¬ InOrder client :=
  ⟨_, rfl, by decide⟩

theorem inOrder_iff_fewWaiting_alternating :
    Always (step fun _ ↦ 0) InOrder (Client.ready : Client Unit)
        [.write [1] (), .writable .none false [], .write [2] (), .writable .none false []] ↔
      Each (step fun _ ↦ 0) FewWaiting (Client.ready : Client Unit)
        [.write [1] (), .writable .none false [], .write [2] (), .writable .none false []] :=
  inOrder_iff_fewWaiting _ _ (by simp [Each, step, AcceptedQuietly])

end LibYtdl.Http.WriteOrder
