import LibYtdl.Http.TlsWriteQueue

/-!
# Writes made inside a write callback

The poll callback picks the last job of the array, calls its callback and then shrinks the array by
its last slot. When the callback has queued jobs of its own, the last slot holds the newest of them:
that one is lost, and the job that was released stays in the queue. The queue keeps every job
exactly as long as no callback writes.
-/

namespace LibYtdl.Http.ReentrantWrites

open Machine Transition TlsWriteQueue

variable {Callback : Type} {uvWrite : Bytes → ℤ}

/-- Every job pushed is in the queue or was released, one of the two and once, and a job with bytes
was handed to `SSL_write` before. -/
structure Intact (client : Client Callback) : Prop where
  once : (queuedJobs client.trace).Perm (releasedJobs client.trace ++ client.bufs)
  distinct : (queuedJobs client.trace).Nodup
  sent : ∀ job ∈ releasedJobs client.trace,
    isEmptyJob job = true ∨ job ∈ handedJobs client.trace

/-- The client when the callback of `buf` has returned. -/
def afterCallback (uvWrite : Bytes → ℤ) (nested : List (Bytes × Callback))
    (buf : WriteJob Callback) (err : SslError) (client : Client Callback) : Client Callback :=
  notify uvWrite nested buf .ok err.code ((popEmptyJobs client).emit (.sslWrite buf))

/-- The entry removed after a callback is the job whose callback ran. -/
def RemovesOwn (uvWrite : Bytes → ℤ) :
    Client Callback → Event Callback → Client Callback → Prop
  | _, .write .., _ => True
  | client, .writable err _ nested, next =>
    ∀ buf rest, client.bufs.dropWhile isEmptyJob = buf :: rest →
      (afterCallback uvWrite nested buf err client).bufs.Perm (buf :: next.bufs)

/-- A callback that is called makes no writes. -/
def QuietCallbacks : Client Callback → Event Callback → Client Callback → Prop
  | _, .write .., _ => True
  | client, .writable _ _ nested, _ => client.bufs.dropWhile isEmptyJob ≠ [] → nested = []

/-! ## The invariant -/

/-- An intact queue of a TLS client, whose jobs are numbered as they were pushed. -/
structure Inv (client : Client Callback) : Prop extends Intact client where
  isTls : client.isTls = true
  numbered : (queuedJobs client.trace).map WriteJob.number = List.range client.queuedCount

theorem nodup_of_numbered {jobs : List (WriteJob Callback)} {count : ℕ}
    (h : jobs.map WriteJob.number = List.range count) : jobs.Nodup := by
  have hnumbers : (jobs.map WriteJob.number).Nodup := by
    rw [h]
    exact List.nodup_range
  exact List.Nodup.of_map _ hnumbers

theorem inv_ready : Inv (Client.ready : Client Callback) where
  once := List.Perm.refl _
  distinct := List.nodup_nil
  sent := by simp [Client.ready]
  isTls := rfl
  numbered := rfl

theorem inv_write {client : Client Callback} (h : Inv client) (base : Bytes) (cb : Callback) :
    Inv (httpClientWrite uvWrite client base cb) := by
  rw [httpClientWrite_tls h.isTls]
  generalize hjob : (⟨base, cb, client.queuedCount⟩ : WriteJob Callback) = job
  have hnumbered : (queuedJobs client.trace ++ [job]).map WriteJob.number =
      List.range (client.queuedCount + 1) := by
    simp [h.numbered, List.range_succ, ← hjob]
  have honce : (queuedJobs client.trace ++ [job]).Perm
      (releasedJobs client.trace ++ job :: client.bufs) :=
    calc
      List.Perm (queuedJobs client.trace ++ [job]) (job :: queuedJobs client.trace) :=
        List.perm_append_singleton _ _
      List.Perm _ (job :: (releasedJobs client.trace ++ client.bufs)) := h.once.cons _
      List.Perm _ (releasedJobs client.trace ++ job :: client.bufs) := List.perm_middle.symm
  refine ⟨⟨?_, ?_, ?_⟩, h.isTls, ?_⟩
  · simpa using honce
  · simpa using nodup_of_numbered hnumbered
  · simpa using h.sent
  · simpa using hnumbered

/-- Popping the jobs of length zero. -/
theorem inv_popEmptyJobs {client : Client Callback} (h : Inv client) :
    Inv (popEmptyJobs client) where
  once := by
    simpa [popEmptyJobs, List.takeWhile_append_dropWhile] using h.once
  distinct := by simpa [popEmptyJobs] using h.distinct
  sent := by
    intro job hjob
    simp only [popEmptyJobs, releasedJobs_append, releasedJobs_release, List.mem_append] at hjob
    rcases hjob with hjob | hjob
    · simpa [popEmptyJobs] using h.sent job hjob
    · exact Or.inl (List.mem_takeWhile_imp hjob)
  isTls := h.isTls
  numbered := by simpa [popEmptyJobs] using h.numbered

/-- A callback that does not write leaves the slot of its job the last one. -/
theorem inv_quiet {client : Client Callback} (h : Inv client) (err : SslError) (notified : Bool)
    {nested : List (Bytes × Callback)}
    (hquiet : client.bufs.dropWhile isEmptyJob ≠ [] → nested = []) :
    Inv (tlsPollCb uvWrite err.code notified nested client) := by
  cases hbufs : client.bufs.dropWhile isEmptyJob with
  | nil =>
    rw [tlsPollCb_idle _ _ _ _ hbufs]
    exact inv_popEmptyJobs h
  | cons buf rest =>
    obtain rfl := hquiet (by simp [hbufs])
    have hpopped := inv_popEmptyJobs h
    rw [tlsPollCb_quiet _ _ notified hbufs]
    refine ⟨⟨?_, ?_, ?_⟩, h.isTls, ?_⟩
    · simpa [popEmptyJobs, hbufs] using hpopped.once
    · simpa using h.distinct
    · intro job hjob
      have hcases : job ∈ releasedJobs (popEmptyJobs client).trace ∨ job = buf := by
        simpa [popEmptyJobs, or_assoc] using hjob
      rcases hcases with hreleased | rfl
      · refine (hpopped.sent job hreleased).imp_right fun hhanded ↦ ?_
        have hbefore : job ∈ handedJobs client.trace := by simpa [popEmptyJobs] using hhanded
        simp [hbefore]
      · simp
    · simpa using h.numbered

/-! ## Callbacks that write -/

/-- The writes of a callback are pushed behind the jobs that are queued. -/
theorem nestedWrites_bufs (uvWrite : Bytes → ℤ) {client : Client Callback}
    (htls : client.isTls = true) (nested : List (Bytes × Callback)) :
    ∃ pushed, (nestedWrites uvWrite nested client).bufs = pushed ++ client.bufs ∧
      pushed.length = nested.length := by
  induction nested generalizing client with
  | nil => exact ⟨[], rfl, rfl⟩
  | cons write nested ih =>
    have hwrite : httpClientWrite uvWrite client write.1 write.2 = _ :=
      httpClientWrite_tls htls write.1 write.2
    have hkept : (httpClientWrite uvWrite client write.1 write.2).isTls = true := by
      rw [hwrite]
      exact htls
    obtain ⟨pushed, hpushed, hlength⟩ := ih hkept
    refine ⟨pushed ++ [⟨write.1, write.2, client.queuedCount⟩], ?_, by simp [hlength]⟩
    rw [nestedWrites, hpushed, hwrite]
    simp

/-- A job whose callback writes is released and stays in the queue. -/
theorem not_intact_nested {client : Client Callback} (htls : client.isTls = true) (err : SslError)
    (notified : Bool) {nested : List (Bytes × Callback)}
    (hhands : client.bufs.dropWhile isEmptyJob ≠ []) (hnested : nested ≠ []) :
    ¬ Intact (tlsPollCb uvWrite err.code notified nested client) := by
  obtain ⟨buf, rest, hbufs⟩ := List.exists_cons_of_ne_nil hhands
  have hkept : (((popEmptyJobs client).emit (.sslWrite buf)).emit
      (.notify buf .ok err.code)).isTls = true := htls
  obtain ⟨pushed, hpushed, hlength⟩ := nestedWrites_bufs uvWrite hkept nested
  obtain ⟨last, before, rfl⟩ : ∃ last before, pushed = last :: before := by
    refine List.exists_cons_of_ne_nil fun hnil ↦ hnested ?_
    exact List.eq_nil_of_length_eq_zero (by rw [← hlength, hnil]; rfl)
  intro hintact
  have hnodup := hintact.once.nodup_iff.mp hintact.distinct
  rw [tlsPollCb_code, hbufs] at hnodup
  have hreleased : buf ∈ releasedJobs (popBuf buf (notify uvWrite nested buf .ok err.code
      ((popEmptyJobs client).emit (.sslWrite buf)))).trace := by
    simp [popBuf]
  have hqueued : buf ∈ (popBuf buf (notify uvWrite nested buf .ok err.code
      ((popEmptyJobs client).emit (.sslWrite buf)))).bufs := by
    rw [popBuf, notify, hpushed]
    simp [Client.emit, popEmptyJobs, hbufs]
  exact (List.nodup_append.mp hnodup).2.2 buf hreleased buf hqueued rfl

/-- Without writes of its own, a callback's job is the entry removed. -/
theorem removesOwn_of_quiet {client next : Client Callback} {event : Event Callback}
    (hstep : step uvWrite client event = some next)
    (hquiet : QuietCallbacks client event next) : RemovesOwn uvWrite client event next := by
  cases event with
  | write base cb => trivial
  | writable err notified nested =>
    obtain ⟨-, rfl⟩ : client.polling = true ∧ _ = next := by simpa [step] using hstep
    intro buf rest hbufs
    obtain rfl := hquiet (by simp [hbufs])
    rw [tlsPollCb_quiet _ _ notified hbufs]
    simp [afterCallback, notify, nestedWrites, Client.emit, popEmptyJobs, hbufs]

/-- **Writes inside callbacks.** Along every run the queue stays intact, and every entry removed is
the job whose callback ran, exactly when no callback of the run writes. -/
theorem intact_iff_quietCallbacks (uvWrite : Bytes → ℤ) (events : List (Event Callback)) :
    (Always (step uvWrite) Intact (Client.ready : Client Callback) events ∧
      Each (step uvWrite) (RemovesOwn uvWrite) (Client.ready : Client Callback) events) ↔
      Each (step uvWrite) QuietCallbacks (Client.ready : Client Callback) events := by
  have hintact : Always (step uvWrite) Intact (Client.ready : Client Callback) events ↔
      Each (step uvWrite) QuietCallbacks (Client.ready : Client Callback) events := by
    refine always_iff_each (fun _ (h : Inv _) ↦ h.toIntact) ?_ ?_ inv_ready
      (each_of_forall (fun _ _ _ ↦ trivial) _ _)
    · intro client event next hinv _ hquiet hstep
      cases event with
      | write base cb => exact Option.some.inj hstep ▸ inv_write hinv base cb
      | writable err notified nested =>
        obtain ⟨-, rfl⟩ : client.polling = true ∧ _ = next := by simpa [step] using hstep
        exact inv_quiet hinv err notified hquiet
    · intro client event next hinv _ hwrites hstep
      cases event with
      | write base cb => exact absurd trivial hwrites
      | writable err notified nested =>
        obtain ⟨-, rfl⟩ : client.polling = true ∧ _ = next := by simpa [step] using hstep
        obtain ⟨hhands, hnested⟩ := Classical.not_imp.mp hwrites
        exact not_intact_nested hinv.isTls err notified hhands hnested
  constructor
  · exact fun h ↦ hintact.mp h.1
  · exact fun hquiet ↦ ⟨hintact.mpr hquiet,
      hquiet.imp fun _ _ _ hstep hcalls ↦ removesOwn_of_quiet hstep hcalls⟩

/-- A callback that writes a second buffer: the second buffer is dropped, and the first one, already
released, is still in the queue. -/
theorem nestedWrite_dropped :
    ¬ Always (step fun _ ↦ 0) Intact (Client.ready : Client Unit)
        [.write [1] (), .writable .none false [([2], ())]] := by
  intro halways
  have hintact := halways.last rfl
  exact absurd (hintact.once.nodup_iff.mp hintact.distinct) (by decide)

end LibYtdl.Http.ReentrantWrites
