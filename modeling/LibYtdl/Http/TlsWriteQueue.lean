import LibYtdl.Foundation.Machine
import LibYtdl.Foundation.Transition

/-!
# The TLS write queue of the HTTP client

`ytdl_http_client_write` pushes a copy of the buffer and its callback at the end of
`tls_write_queue.bufs`; the write part of `ytdl__http_client_tls_poll_cb` takes one job per writable
event. The array is kept here with its last slot first, so that `bufs[len - 1]` is the head of the
list and the reallocation to `len - 1` slots drops it.

What OpenSSL answers and what a job's callback does are inputs of an event. The trace records, in
order, what the client did to the outside: jobs queued, buffers handed to `SSL_write`, callbacks
called with their status and jobs released.
-/

namespace LibYtdl.Http.TlsWriteQueue

open Machine Transition

/-- What `SSL_get_error` reports about the last operation. -/
inductive SslError
  | none
  | ssl
  | wantRead
  | wantWrite
  | wantX509Lookup
  | syscall
  | zeroReturn
  | wantConnect
  | wantAccept
  deriving DecidableEq, Repr

/-- The documented numbers: zero for success, positive otherwise. -/
def SslError.code : SslError → ℤ
  | .none => 0
  | .ssl => 1
  | .wantRead => 2
  | .wantWrite => 3
  | .wantX509Lookup => 4
  | .syscall => 5
  | .zeroReturn => 6
  | .wantConnect => 7
  | .wantAccept => 8

/-- The operation did not happen yet and has to be tried again. -/
def SslError.wouldBlock : SslError → Bool
  | .wantRead | .wantWrite | .wantX509Lookup => true
  | _ => false

/-- The members of `enum ytdl_net_err_type` that the write path reports. -/
inductive NetErrType
  | ok
  | writeInit
  | tlsSessionClosed
  | tlsSessionWriteFailed
  deriving DecidableEq, Repr

variable {Callback : Type}

/-- `ytdl_https_write_job_t`. The number of queued jobs before it tells equal jobs apart. -/
structure WriteJob (Callback : Type) where
  base : Bytes
  cb : Callback
  number : ℕ
  deriving DecidableEq, Repr

/-- One thing the client does to the outside. -/
inductive Effect (Callback : Type)
  | queued (job : WriteJob Callback)
  | uvWrite (base : Bytes) (cb : Callback)
  | uvWriteFailed (cb : Callback) (type : NetErrType) (code : ℤ)
  | sslWrite (job : WriteJob Callback)
  | notify (job : WriteJob Callback) (type : NetErrType) (code : ℤ)
  | status (type : NetErrType) (code : ℤ)
  | release (job : WriteJob Callback)
  deriving DecidableEq, Repr

/-- The part of `ytdl_http_client_t` that writing uses. -/
structure Client (Callback : Type) where
  isTls : Bool
  bufs : List (WriteJob Callback)
  polling : Bool
  queuedCount : ℕ
  trace : List (Effect Callback)

def Client.emit (client : Client Callback) (effect : Effect Callback) : Client Callback :=
  { client with trace := client.trace ++ [effect] }

/-- `ytdl_http_client_write`. Without a TLS session the buffer goes to `uv_write`, whose result is
given by `uvWrite`. -/
def httpClientWrite (uvWrite : Bytes → ℤ) (client : Client Callback) (base : Bytes)
    (writeCb : Callback) : Client Callback :=
  if client.isTls then
    let job : WriteJob Callback := ⟨base, writeCb, client.queuedCount⟩
    { client with
      bufs := job :: client.bufs
      queuedCount := client.queuedCount + 1
      trace := client.trace ++ [.queued job] }
  else
    let client := client.emit (.uvWrite base writeCb)
    if uvWrite base ≠ 0 then client.emit (.uvWriteFailed writeCb .writeInit (uvWrite base))
    else client

/-- The writes that a callback makes, one after the other. -/
def nestedWrites (uvWrite : Bytes → ℤ) :
    List (Bytes × Callback) → Client Callback → Client Callback
  | [], client => client
  | write :: nested, client =>
    nestedWrites uvWrite nested (httpClientWrite uvWrite client write.1 write.2)

/-- `buf->cb(client, &stat)`, in which the callback makes the writes `nested`. -/
def notify (uvWrite : Bytes → ℤ) (nested : List (Bytes × Callback)) (buf : WriteJob Callback)
    (type : NetErrType) (code : ℤ) (client : Client Callback) : Client Callback :=
  nestedWrites uvWrite nested (client.emit (.notify buf type code))

/-- `YTDL_HTTP_POP_BUF`: releases `buf` and shrinks the array by its last slot. -/
def popBuf (buf : WriteJob Callback) (client : Client Callback) : Client Callback :=
  { client with bufs := client.bufs.tail, trace := client.trace ++ [.release buf] }

def isEmptyJob (buf : WriteJob Callback) : Bool := buf.base.length == 0

/-- The `goto exit_read` loop: jobs of length zero at the end of the array are popped unsent. -/
def popEmptyJobs (client : Client Callback) : Client Callback :=
  { client with
    bufs := client.bufs.dropWhile isEmptyJob
    trace := client.trace ++ (client.bufs.takeWhile isEmptyJob).map .release }

/-- `ytdl__http_client_tls_poll_cb` from `exit_read` on, for a writable event. `err` is the value
of `SSL_get_error` after `SSL_write`; `hasNotifiedOfClosed` comes from the read part. -/
def tlsPollCb (uvWrite : Bytes → ℤ) (err : ℤ) (hasNotifiedOfClosed : Bool)
    (nested : List (Bytes × Callback)) (client : Client Callback) : Client Callback :=
  let client := popEmptyJobs client
  match client.bufs with
  | [] => client
  | buf :: _ =>
    let client := client.emit (.sslWrite buf)
    if err < 0 then
      if err = SslError.wantRead.code ∨ err = SslError.wantWrite.code ∨
          err = SslError.wantX509Lookup.code then
        client
      else if err = SslError.zeroReturn.code then
        let client := notify uvWrite nested buf .tlsSessionClosed err client
        let client :=
          if hasNotifiedOfClosed then client else client.emit (.status .tlsSessionClosed err)
        { popBuf buf client with polling := false }
      else
        popBuf buf (notify uvWrite nested buf .tlsSessionWriteFailed err client)
    else
      popBuf buf (notify uvWrite nested buf .ok err client)

/-- The events of a TLS connection that touch the write queue. -/
inductive Event (Callback : Type)
  | write (base : Bytes) (cb : Callback)
  | writable (err : SslError) (hasNotifiedOfClosed : Bool) (nested : List (Bytes × Callback))

/-- libuv delivers writable events while the poll handle is active. -/
def step (uvWrite : Bytes → ℤ) : Step (Client Callback) (Event Callback)
  | client, .write base cb => some (httpClientWrite uvWrite client base cb)
  | client, .writable err notified nested =>
    if client.polling then some (tlsPollCb uvWrite err.code notified nested client) else none

/-- A client whose handshake has just ended: `ytdl_http_client_init` left the queue empty and
polling was started. -/
def Client.ready : Client Callback where
  isTls := true
  bufs := []
  polling := true
  queuedCount := 0
  trace := []

/-- The jobs queued so far, in call order. -/
def queuedJobs (trace : List (Effect Callback)) : List (WriteJob Callback) :=
  trace.filterMap fun
    | .queued job => some job
    | _ => none

/-- The jobs whose buffers were handed to `SSL_write` so far, in that order. -/
def handedJobs (trace : List (Effect Callback)) : List (WriteJob Callback) :=
  trace.filterMap fun
    | .sslWrite job => some job
    | _ => none

/-- The jobs released so far. -/
def releasedJobs (trace : List (Effect Callback)) : List (WriteJob Callback) :=
  trace.filterMap fun
    | .release job => some job
    | _ => none

/-! ## What one step does -/

theorem SslError.code_nonneg (err : SslError) : 0 ≤ err.code := by
  cases err <;> decide

@[simp] theorem queuedJobs_nil : queuedJobs ([] : List (Effect Callback)) = [] := rfl

@[simp] theorem handedJobs_nil : handedJobs ([] : List (Effect Callback)) = [] := rfl

@[simp] theorem releasedJobs_nil : releasedJobs ([] : List (Effect Callback)) = [] := rfl

@[simp] theorem queuedJobs_cons (effect : Effect Callback) (trace : List (Effect Callback)) :
    queuedJobs (effect :: trace) =
      (match effect with
        | .queued job => [job]
        | _ => []) ++ queuedJobs trace := by
  cases effect <;> rfl

@[simp] theorem handedJobs_cons (effect : Effect Callback) (trace : List (Effect Callback)) :
    handedJobs (effect :: trace) =
      (match effect with
        | .sslWrite job => [job]
        | _ => []) ++ handedJobs trace := by
  cases effect <;> rfl

@[simp] theorem releasedJobs_cons (effect : Effect Callback) (trace : List (Effect Callback)) :
    releasedJobs (effect :: trace) =
      (match effect with
        | .release job => [job]
        | _ => []) ++ releasedJobs trace := by
  cases effect <;> rfl

@[simp] theorem queuedJobs_append (first second : List (Effect Callback)) :
    queuedJobs (first ++ second) = queuedJobs first ++ queuedJobs second :=
  List.filterMap_append

@[simp] theorem handedJobs_append (first second : List (Effect Callback)) :
    handedJobs (first ++ second) = handedJobs first ++ handedJobs second :=
  List.filterMap_append

@[simp] theorem releasedJobs_append (first second : List (Effect Callback)) :
    releasedJobs (first ++ second) = releasedJobs first ++ releasedJobs second :=
  List.filterMap_append

@[simp] theorem queuedJobs_release (jobs : List (WriteJob Callback)) :
    queuedJobs (jobs.map Effect.release) = [] := by
  simp [queuedJobs]

@[simp] theorem handedJobs_release (jobs : List (WriteJob Callback)) :
    handedJobs (jobs.map Effect.release) = [] := by
  simp [handedJobs]

@[simp] theorem releasedJobs_release (jobs : List (WriteJob Callback)) :
    releasedJobs (jobs.map Effect.release) = jobs := by
  simp [releasedJobs, List.filterMap_map]

theorem httpClientWrite_tls {uvWrite : Bytes → ℤ} {client : Client Callback}
    (htls : client.isTls = true) (base : Bytes) (cb : Callback) :
    httpClientWrite uvWrite client base cb =
      { client with
        bufs := ⟨base, cb, client.queuedCount⟩ :: client.bufs
        queuedCount := client.queuedCount + 1
        trace := client.trace ++ [.queued ⟨base, cb, client.queuedCount⟩] } := by
  simp [httpClientWrite, htls]

/-- A write calls the callback of no queued job. -/
theorem httpClientWrite_trace (uvWrite : Bytes → ℤ) (client : Client Callback) (base : Bytes)
    (cb : Callback) :
    ∃ writes, (httpClientWrite uvWrite client base cb).trace = client.trace ++ writes ∧
      ∀ job type code, Effect.notify job type code ∉ writes := by
  unfold httpClientWrite
  split
  · exact ⟨_, rfl, by simp⟩
  · dsimp only
    split
    · exact ⟨_, List.append_assoc _ _ _, by simp⟩
    · exact ⟨_, rfl, by simp⟩

theorem nestedWrites_trace (uvWrite : Bytes → ℤ) (nested : List (Bytes × Callback))
    (client : Client Callback) :
    ∃ writes, (nestedWrites uvWrite nested client).trace = client.trace ++ writes ∧
      ∀ job type code, Effect.notify job type code ∉ writes := by
  induction nested generalizing client with
  | nil => exact ⟨[], by simp [nestedWrites], by simp⟩
  | cons write nested ih =>
    obtain ⟨first, hfirst, hquiet⟩ := httpClientWrite_trace uvWrite client write.1 write.2
    obtain ⟨rest, hrest, hquietRest⟩ := ih (httpClientWrite uvWrite client write.1 write.2)
    refine ⟨first ++ rest, ?_, fun job type code ↦ ?_⟩
    · rw [nestedWrites, hrest, hfirst, List.append_assoc]
    · simp [hquiet job type code, hquietRest job type code]

/-- The documented error numbers never take the branch of negative ones, so a writable event
reports success for whatever buffer it hands out. -/
theorem tlsPollCb_code (uvWrite : Bytes → ℤ) (err : SslError) (notified : Bool)
    (nested : List (Bytes × Callback)) (client : Client Callback) :
    tlsPollCb uvWrite err.code notified nested client =
      match client.bufs.dropWhile isEmptyJob with
      | [] => popEmptyJobs client
      | buf :: _ =>
        popBuf buf <|
          notify uvWrite nested buf .ok err.code ((popEmptyJobs client).emit (.sslWrite buf)) := by
  have hcode : ¬ err.code < 0 := not_lt.mpr err.code_nonneg
  unfold tlsPollCb
  dsimp only [popEmptyJobs]
  cases client.bufs.dropWhile isEmptyJob with
  | nil => rfl
  | cons buf bufs => exact if_neg hcode

/-- A writable event that hands out `buf`, whose callback does not write. -/
theorem tlsPollCb_quiet (uvWrite : Bytes → ℤ) {client : Client Callback} {buf : WriteJob Callback}
    {rest : List (WriteJob Callback)} (err : SslError) (notified : Bool)
    (h : client.bufs.dropWhile isEmptyJob = buf :: rest) :
    tlsPollCb uvWrite err.code notified [] client =
      { client with
        bufs := rest
        trace := client.trace ++ ((client.bufs.takeWhile isEmptyJob).map .release ++
          [.sslWrite buf, .notify buf .ok err.code, .release buf]) } := by
  rw [tlsPollCb_code, h]
  simp [popBuf, notify, nestedWrites, Client.emit, popEmptyJobs, h]

/-- A writable event that finds nothing to send. -/
theorem tlsPollCb_idle (uvWrite : Bytes → ℤ) {client : Client Callback} (err : SslError)
    (notified : Bool) (nested : List (Bytes × Callback))
    (h : client.bufs.dropWhile isEmptyJob = []) :
    tlsPollCb uvWrite err.code notified nested client = popEmptyJobs client := by
  rw [tlsPollCb_code, h]

end LibYtdl.Http.TlsWriteQueue
