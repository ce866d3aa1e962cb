import LibYtdl.Http.TlsWriteQueue

/-!
# What a TLS write reports

The poll callback overwrites the result of `SSL_write` by that of `SSL_get_error` and then tests for
a negative value, which `SSL_get_error` never returns. Every outcome therefore takes the success
branch: the job is popped and its callback is told that the write succeeded. A run reports its
writes correctly exactly when `SSL_write` accepts every buffer handed to it.
-/

namespace LibYtdl.Http.WriteOutcome

open Machine Transition TlsWriteQueue

variable {Callback : Type} {uvWrite : Bytes → ℤ}

/-- What a writable event owes to the job `buf` that it tried to send: a blocked job stays queued
and hears nothing, success is reported if and only if `SSL_write` accepted the bytes, and any other
failure is reported with an error type. -/
structure JobReported (buf : WriteJob Callback) (err : SslError) (next : Client Callback)
    (emitted : List (Effect Callback)) : Prop where
  blocked : err.wouldBlock → buf ∈ next.bufs ∧ ∀ type code, Effect.notify buf type code ∉ emitted
  success : (∃ code, Effect.notify buf .ok code ∈ emitted) ↔ err = .none
  failure : err ≠ .none → ¬ err.wouldBlock →
    ∃ type code, type ≠ NetErrType.ok ∧ Effect.notify buf type code ∈ emitted

/-- The job that a writable event tries to send is reported as `JobReported` asks. -/
def Reported : Client Callback → Event Callback → Client Callback → Prop
  | _, .write .., _ => True
  | client, .writable err .., next =>
    ∀ buf rest, client.bufs.dropWhile isEmptyJob = buf :: rest →
      ∃ emitted, next.trace = client.trace ++ emitted ∧ JobReported buf err next emitted

/-- Whatever buffer a writable event hands to `SSL_write` is accepted. -/
def Accepted : Client Callback → Event Callback → Client Callback → Prop
  | _, .write .., _ => True
  | client, .writable err .., _ => client.bufs.dropWhile isEmptyJob ≠ [] → err = .none

/-- A writable event with something to send reports success, whatever `SSL_write` answered. -/
theorem tlsPollCb_trace (uvWrite : Bytes → ℤ) {client : Client Callback} {buf : WriteJob Callback}
    {rest : List (WriteJob Callback)} (err : SslError) (notified : Bool)
    (nested : List (Bytes × Callback)) (h : client.bufs.dropWhile isEmptyJob = buf :: rest) :
    ∃ writes, (tlsPollCb uvWrite err.code notified nested client).trace =
        client.trace ++ ((client.bufs.takeWhile isEmptyJob).map .release ++
          (.sslWrite buf :: .notify buf .ok err.code :: (writes ++ [.release buf]))) ∧
      ∀ job type code, Effect.notify job type code ∉ writes := by
  obtain ⟨writes, hwrites, hquiet⟩ := nestedWrites_trace uvWrite nested
    (((popEmptyJobs client).emit (.sslWrite buf)).emit (.notify buf .ok err.code))
  refine ⟨writes, ?_, hquiet⟩
  rw [tlsPollCb_code, h]
  simp only [popBuf, notify, hwrites]
  simp [Client.emit, popEmptyJobs]

/-- Success is the only report that a job ever gets from a writable event. -/
theorem jobReported_iff (uvWrite : Bytes → ℤ) {client : Client Callback} {buf : WriteJob Callback}
    {rest : List (WriteJob Callback)} (err : SslError) (notified : Bool)
    (nested : List (Bytes × Callback)) (h : client.bufs.dropWhile isEmptyJob = buf :: rest) :
    (∃ emitted, (tlsPollCb uvWrite err.code notified nested client).trace =
        client.trace ++ emitted ∧
      JobReported buf err (tlsPollCb uvWrite err.code notified nested client) emitted) ↔
      err = .none := by
  obtain ⟨writes, htrace, -⟩ := tlsPollCb_trace uvWrite err notified nested h
  constructor
  · rintro ⟨emitted, hemitted, hreported⟩
    rw [htrace, List.append_cancel_left_eq] at hemitted
    exact hreported.success.mp ⟨err.code, by simp [← hemitted]⟩
  · intro herr
    refine ⟨_, htrace, ?_, ?_, ?_⟩
    · simp [herr, SslError.wouldBlock]
    · exact iff_of_true ⟨err.code, by simp⟩ herr
    · exact fun hne ↦ absurd herr hne

theorem reported_iff_accepted {client next : Client Callback} {event : Event Callback}
    (hstep : step uvWrite client event = some next) :
    Reported client event next ↔ Accepted client event next := by
  cases event with
  | write base cb => exact Iff.rfl
  | writable err notified nested =>
    obtain ⟨-, rfl⟩ : client.polling = true ∧ _ = next := by simpa [step] using hstep
    simp only [Reported, Accepted]
    cases hbufs : client.bufs.dropWhile isEmptyJob with
    | nil => simp
    | cons buf rest =>
      have hiff := jobReported_iff uvWrite err notified nested hbufs
      simpa using hiff

/-- **Outcome of TLS writes.** Along every run, every write is reported as it went exactly when
`SSL_write` accepts every buffer handed to it. -/
theorem writes_reported_iff_accepted (uvWrite : Bytes → ℤ) (events : List (Event Callback)) :
    Each (step uvWrite) Reported (Client.ready : Client Callback) events ↔
      Each (step uvWrite) Accepted (Client.ready : Client Callback) events :=
  each_congr fun _ _ _ ↦ reported_iff_accepted

/-- A write that would block is popped, and its callback is told that it succeeded. -/
theorem blockedWrite_reportedOk :
    ¬ Each (step fun _ ↦ 0) Reported (Client.ready : Client Unit)
        [.write [1] (), .writable .wantWrite false []] := by
  intro h
  have haccepted := (reported_iff_accepted rfl).mp ((h _ rfl).2 _ rfl).1
  exact absurd (haccepted (by decide)) (by decide)

end LibYtdl.Http.WriteOutcome
