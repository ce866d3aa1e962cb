import LibYtdl.Http.TlsSession

/-!
# The handshake of a TLS connection

Whatever `SSL_connect` and libuv answer, turn after turn, the user is to be told once how the
connection was made: by `ready_cb` after a handshake that succeeded, or by one error.
-/

namespace LibYtdl.Http.TlsHandshake

open Transition TlsSession

/-- Before `ready_cb` is called, `SSL_connect` has returned 1 and polling was started. -/
def Authenticated (calls : List Call) : Prop :=
  ∀ before, before ++ [.ready] <+: calls → .sslConnect .success ∈ before ∧ .pollStart 0 ∈ before

/-- What the user of a connection relies on. -/
structure Contract (client : Client) : Prop where
  ready_le : client.calls.count .ready ≤ 1
  ready_after : Authenticated client.calls
  stopped : ∀ result, .sslConnect result ∈ client.calls → result.inProgress = false →
    client.handshakes = 0
  waiting : client.handshakes ≠ 0 → client.calls.countP Call.isStatus = 0
  ended : client.handshakes = 0 → .ready ∉ client.calls → client.calls.countP Call.isStatus = 1

/-- A TLS connection from its TCP connection on, with its own calls. -/
def tlsConnection (setup : Setup) (client : Client) : Client :=
  tcpConnectCb setup { client with isTls := true, handshakes := 0, calls := [] }

/-- One turn of the handshake, as long as its handle is not stopped. -/
def handshakeStep : Step Client Attempt := fun client attempt ↦ step client (.handshake attempt)

/-- A controlled failure of the handshake is answered by an error of libuv, if by any. -/
def Checked (attempt : Attempt) : Prop :=
  attempt.result = .controlledFailure → attempt.pollInit ≠ 0 ∨ attempt.pollStart ≠ 0

instance (attempt : Attempt) : Decidable (Checked attempt) :=
  inferInstanceAs (Decidable (_ → _))

/-! ## Calls, one after the other -/

theorem authenticated_concat {calls : List Call} {call : Call} :
    Authenticated (calls ++ [call]) ↔
      Authenticated calls ∧
        (call = .ready → .sslConnect .success ∈ calls ∧ .pollStart 0 ∈ calls) := by
  unfold Authenticated
  constructor
  · intro h
    refine ⟨fun before hbefore ↦ h before (hbefore.trans (List.prefix_append _ _)), ?_⟩
    rintro rfl
    exact h calls (List.prefix_refl _)
  · rintro ⟨hcalls, hcall⟩ before hbefore
    obtain heq | hstarts := List.prefix_concat_iff.mp hbefore
    · obtain ⟨rfl, hready⟩ := List.append_inj' heq rfl
      exact hcall (List.singleton_inj.mp hready).symm
    · exact hcalls before hstarts

/-- The calls of a handshake that is still going on. -/
def Trying (calls : List Call) : Prop :=
  ∀ call ∈ calls, ∃ result, call = .sslConnect result ∧ result.inProgress = true

theorem Trying.concat {calls : List Call} (h : Trying calls) {result : SslResult}
    (hresult : result.inProgress = true) : Trying (calls ++ [.sslConnect result]) := by
  intro call hcall
  obtain hcall | hcall := List.mem_append.mp hcall
  · exact h call hcall
  · exact ⟨result, List.mem_singleton.mp hcall, hresult⟩

theorem Trying.ready_not_mem {calls : List Call} (h : Trying calls) : .ready ∉ calls  := by
  intro hmem
  obtain ⟨result, hready, -⟩ := h _ hmem
  exact absurd hready nofun

theorem Trying.sslConnect {calls : List Call} (h : Trying calls) {result : SslResult}
    (hmem : .sslConnect result ∈ calls) : result.inProgress = true := by
  obtain ⟨other, hother, hprogress⟩ := h _ hmem
  obtain rfl := Call.sslConnect.inj hother
  exact hprogress

theorem Trying.countP_isStatus {calls : List Call} (h : Trying calls) :
    calls.countP Call.isStatus = 0 := by
  apply List.countP_eq_zero.mpr
  intro call hcall
  obtain ⟨result, rfl, -⟩ := h call hcall
  exact Bool.false_ne_true

/-- Calls that tell the user nothing. -/
structure Silent (calls : List Call) : Prop where
  ready : .ready ∉ calls
  status : calls.countP Call.isStatus = 0

theorem Trying.silent {calls : List Call} (h : Trying calls) : Silent calls :=
  ⟨h.ready_not_mem, h.countP_isStatus⟩

theorem Silent.append {first second : List Call} (hfirst : Silent first) (hsecond : Silent second) :
    Silent (first ++ second) where
  ready hmem := (List.mem_append.mp hmem).elim hfirst.ready hsecond.ready
  status := by rw [List.countP_append, hfirst.status, hsecond.status]

theorem Silent.authenticated {calls : List Call} (h : Silent calls) : Authenticated calls := by
  intro before hbefore
  exact absurd (hbefore.subset List.mem_concat_self) h.ready

theorem Silent.count_ready {calls : List Call} (h : Silent calls) : calls.count .ready = 0 :=
  List.count_eq_zero_of_not_mem h.ready

/-! ## One turn -/

/-- The handshake is still going on, or it has ended and the user was told of it. -/
inductive Phase (client : Client) : Prop
  | trying (hhandshakes : client.handshakes = 1) (hcalls : Trying client.calls)
  | ended (hhandshakes : client.handshakes = 0) (hcontract : Contract client)

/-- A connection that ended with an error. -/
theorem contract_of_status {client : Client} {calls : List Call} {type : NetErrType} {code : ℤ}
    (hsilent : Silent calls) (hcalls : client.calls = calls ++ [.status type code])
    (hhandshakes : client.handshakes = 0) : Contract client where
  ready_le := by simp [hcalls, hsilent.count_ready]
  ready_after := by
    rw [hcalls]
    exact Iff.mpr authenticated_concat ⟨hsilent.authenticated, nofun⟩
  stopped _ _ _ := hhandshakes
  waiting h := absurd hhandshakes h
  ended _ _ := by simp [hcalls, hsilent.status, Call.isStatus]

/-- A connection that ended with `ready_cb`. -/
theorem contract_of_ready {client : Client} {calls : List Call} (hsilent : Silent calls)
    (hcalls : client.calls = calls ++ [.ready]) (hhandshakes : client.handshakes = 0)
    (hsuccess : .sslConnect .success ∈ calls) (hpolling : .pollStart 0 ∈ calls) :
    Contract client where
  ready_le := by simp [hcalls, hsilent.count_ready]
  ready_after := by
    rw [hcalls]
    exact Iff.mpr authenticated_concat ⟨hsilent.authenticated, fun _ ↦ ⟨hsuccess, hpolling⟩⟩
  stopped _ _ _ := hhandshakes
  waiting h := absurd hhandshakes h
  ended _ h := absurd (hcalls ▸ List.mem_concat_self) h

theorem Phase.contract {client : Client} (h : Phase client) : Contract client := by
  cases h with
  | ended _ hcontract => exact hcontract
  | trying hhandshakes hcalls =>
    have hne : client.handshakes ≠ 0 := by omega
    have hsilent := hcalls.silent
    refine ⟨?_, hsilent.authenticated, fun result hmem hdone ↦ ?_, fun _ ↦ hsilent.status, ?_⟩
    · rw [hsilent.count_ready]
      exact Nat.zero_le 1
    · exact absurd (hcalls.sslConnect hmem) (by simp [hdone])
    · exact fun h ↦ absurd h hne

/-- What a turn of a handshake does: it is to be tried again; or it ends with one error; or it ends
with `ready_cb`, after `SSL_connect` did not return a negative number and polling was started. -/
inductive Turn (attempt : Attempt) (client next : Client) : Prop
  | goesOn (hprogress : attempt.result.inProgress = true)
      (hhandshakes : next.handshakes = client.handshakes)
      (hcalls : next.calls = client.calls ++ [.sslConnect attempt.result])
  | fails (hchecked : Checked attempt) (quiet : List Call) (hsilent : Silent quiet)
      (type : NetErrType) (code : ℤ) (hhandshakes : next.handshakes = client.handshakes - 1)
      (hcalls : next.calls = client.calls ++ quiet ++ [.status type code])
  | succeeds (hanswer : attempt.result = .success ∨ attempt.result = .controlledFailure)
      (hinit : attempt.pollInit = 0) (hstart : attempt.pollStart = 0)
      (hhandshakes : next.handshakes = client.handshakes - 1)
      (hcalls : next.calls =
        client.calls ++ [.sslConnect attempt.result, .pollInit 0, .pollStart 0] ++ [.ready])

/-- The turn of a handshake that `SSL_connect` has not answered with a negative number. -/
theorem turn_startPolling {attempt : Attempt} {client next : Client}
    (hanswer : attempt.result = .success ∨ attempt.result = .controlledFailure)
    (hnext : next = startPolling attempt
      ((client.exec (.use .ssl)).call (.sslConnect attempt.result)).stopHandshake) :
    Turn attempt client next := by
  unfold startPolling at hnext
  by_cases hinit : attempt.pollInit = 0
  · by_cases hstart : attempt.pollStart = 0
    · simp only [hinit, hstart, ne_eq, not_true_eq_false, ↓reduceIte] at hnext
      subst hnext
      exact .succeeds hanswer hinit hstart rfl
        (by simp [Client.call, Client.exec, Client.stopHandshake])
    · simp only [hinit, hstart, ne_eq, not_true_eq_false, not_false_eq_true, ↓reduceIte] at hnext
      subst hnext
      refine .fails (fun _ ↦ .inr hstart)
        [.sslConnect attempt.result, .pollInit 0, .pollStart attempt.pollStart] ?_
        .pollInit attempt.pollStart rfl (by simp [Client.call, Client.exec, Client.stopHandshake])
      exact ⟨by simp, rfl⟩
  · simp only [hinit, ne_eq, not_false_eq_true, ↓reduceIte] at hnext
    subst hnext
    refine .fails (fun _ ↦ .inl hinit) [.sslConnect attempt.result, .pollInit attempt.pollInit] ?_
      .pollInit attempt.pollInit rfl (by simp [Client.call, Client.exec, Client.stopHandshake])
    exact ⟨by simp, rfl⟩

theorem turn_tlsHandshakeCb (attempt : Attempt) (client : Client) :
    Turn attempt client (tlsHandshakeCb attempt client) := by
  cases hresult : attempt.result with
  | success =>
    apply turn_startPolling (.inl hresult)
    simp only [tlsHandshakeCb, hresult]
  | controlledFailure =>
    apply turn_startPolling (.inr hresult)
    simp only [tlsHandshakeCb, hresult]
  | failure err =>
    have hchecked : Checked attempt := fun h ↦ absurd (hresult.symm.trans h) nofun
    have hsilent : Silent [.sslConnect attempt.result] := ⟨by simp, rfl⟩
    let tried := ((client.exec (.use .ssl)).call (.sslConnect attempt.result)).exec (.use .ssl)
    have heq : tlsHandshakeCb attempt client =
        if wouldBlock err then tried
        else if err = TlsWriteQueue.SslError.zeroReturn.code then
          tried.stopHandshake.call (.status .tlsSessionClosed err)
        else tried.stopHandshake.call (.status .tlsSessionHandshakeFailed err) := by
      simp only [tlsHandshakeCb, tried, hresult]
    rw [heq]
    split
    · next hprogress =>
      apply Turn.goesOn
      · rw [hresult]
        exact hprogress
      · rfl
      · rfl
    · have hends (type : NetErrType) :
          Turn attempt client (tried.stopHandshake.call (.status type err)) :=
        .fails hchecked _ hsilent type err rfl rfl
      split
      · exact hends _
      · exact hends _

/-! ## Whole connections -/

/-- Out of a handshake that goes on, a checked turn keeps the contract. -/
theorem phase_of_turn {attempt : Attempt} {client next : Client}
    (hhandshakes : client.handshakes = 1) (hcalls : Trying client.calls)
    (hchecked : Checked attempt) (h : Turn attempt client next) :
    Phase next := by
  cases h with
  | goesOn hprogress hnext hnextCalls =>
    apply Phase.trying (hnext.trans hhandshakes)
    rw [hnextCalls]
    exact hcalls.concat hprogress
  | fails _ quiet hsilent type code hnext hnextCalls =>
    have hstopped : next.handshakes = 0 := by omega
    apply Phase.ended hstopped
    exact contract_of_status (hcalls.silent.append hsilent) hnextCalls hstopped
  | succeeds hanswer hinit hstart hnext hnextCalls =>
    have hstopped : next.handshakes = 0 := by omega
    have hsuccess : attempt.result = .success := by
      apply hanswer.resolve_right
      intro hfailure
      exact (hchecked hfailure).elim (absurd hinit) (absurd hstart)
    have hsilent : Silent [.sslConnect attempt.result, .pollInit 0, .pollStart 0] :=
      ⟨by simp, rfl⟩
    apply Phase.ended hstopped
    apply contract_of_ready (hcalls.silent.append hsilent) hnextCalls hstopped
    · simp [hsuccess]
    · simp

/-- A controlled failure that is taken for a success calls `ready_cb`. -/
theorem not_contract_of_turn {attempt : Attempt} {client next : Client}
    (hcalls : Trying client.calls) (hchecked : ¬ Checked attempt) (h : Turn attempt client next) :
    ¬ Contract next := by
  have hfailure : attempt.result = .controlledFailure := by
    by_contra hother
    exact hchecked fun hfailure ↦ absurd hfailure hother
  intro hcontract
  cases h with
  | goesOn hprogress => simp [hfailure, SslResult.inProgress] at hprogress
  | fails hother => exact hchecked hother
  | succeeds _ _ _ _ hnextCalls =>
    have hready := hcontract.ready_after
    rw [hnextCalls, authenticated_concat] at hready
    have hsuccess := (hready.2 rfl).1
    simp only [hfailure, List.mem_append, List.mem_cons, Call.sslConnect.injEq, reduceCtorEq,
      List.not_mem_nil, or_false] at hsuccess
    exact Bool.false_ne_true (hcalls.sslConnect hsuccess)

/-! ## The set-up -/

/-- The set-up of a session ends with a handshake to come, or with one error. -/
inductive SetUp (client next : Client) : Prop
  | started (hcalls : next.calls = client.calls)
      (hhandshakes : next.handshakes = client.handshakes + 1)
  | failed (type : NetErrType) (code : ℤ)
      (hcalls : next.calls = client.calls ++ [.status type code])
      (hhandshakes : next.handshakes = client.handshakes)

theorem SetUp.of_exec {client next : Client} {command : Ownership.Command Field}
    (h : SetUp (client.exec command) next) : SetUp client next := by
  cases h with
  | started hcalls hhandshakes => exact .started hcalls hhandshakes
  | failed type code hcalls hhandshakes => exact .failed type code hcalls hhandshakes

theorem setUp_status (client : Client) (type : NetErrType) (code : ℤ) :
    SetUp client (client.call (.status type code)) :=
  .failed type code rfl rfl

theorem setUp_attachSocket (setup : Setup) (client : Client) :
    SetUp client (attachSocket setup client) := by
  unfold attachSocket
  apply SetUp.of_exec
  dsimp only
  split
  · exact (setUp_status _ _ _).of_exec.of_exec.of_exec
  · apply SetUp.of_exec
    exact .started rfl rfl

theorem setUp_setHostName (setup : Setup) (client : Client) :
    SetUp client (setHostName setup client) := by
  unfold setHostName
  apply SetUp.of_exec
  dsimp only
  split
  · exact setUp_attachSocket setup _
  · apply SetUp.of_exec
    apply SetUp.of_exec
    split
    · exact (setUp_status _ _ _).of_exec.of_exec
    · exact setUp_attachSocket setup _

theorem setUp_setCipherList (setup : Setup) (client : Client) :
    SetUp client (setCipherList setup client) := by
  unfold setCipherList
  apply SetUp.of_exec
  dsimp only
  split
  · exact (setUp_status _ _ _).of_exec.of_exec
  · exact setUp_setHostName setup _

theorem setUp_newSession (setup : Setup) (client : Client) :
    SetUp client (newSession setup client) := by
  unfold newSession
  apply SetUp.of_exec
  dsimp only
  split
  · exact (setUp_status _ _ _).of_exec
  · apply SetUp.of_exec
    apply SetUp.of_exec
    split
    · exact (setUp_status _ _ _).of_exec.of_exec
    · apply SetUp.of_exec
      exact setUp_setCipherList setup _

theorem resetSsl_calls (client : Client) :
    (resetSsl client).calls = client.calls ∧ (resetSsl client).handshakes = client.handshakes := by
  unfold resetSsl
  dsimp only
  split
  · exact ⟨rfl, rfl⟩
  · split
    · exact ⟨rfl, rfl⟩
    · exact ⟨rfl, rfl⟩

theorem setUp_tcpConnectCb (setup : Setup) {client : Client} (htls : client.isTls = true) :
    SetUp (resetSsl client) (tcpConnectCb setup client) := by
  unfold tcpConnectCb
  rw [if_pos htls]
  dsimp only
  split
  · exact setUp_status _ _ _
  · split
    · exact (setUp_status _ _ _).of_exec
    · apply SetUp.of_exec
      exact setUp_newSession setup _

theorem phase_tlsConnection (setup : Setup) (client : Client) :
    Phase (tlsConnection setup client) := by
  let fresh : Client := { client with isTls := true, handshakes := 0, calls := [] }
  have hsetUp : SetUp (resetSsl fresh) (tlsConnection setup client) := setUp_tcpConnectCb setup rfl
  obtain ⟨hnone, hzero⟩ : (resetSsl fresh).calls = [] ∧ (resetSsl fresh).handshakes = 0 :=
    resetSsl_calls fresh
  cases hsetUp with
  | started hcalls hhandshakes =>
    apply Phase.trying
    · rw [hhandshakes, hzero]
    · rw [hcalls, hnone]
      exact List.forall_mem_nil _
  | failed type code hcalls hhandshakes =>
    have hsilent : Silent (resetSsl fresh).calls := by
      rw [hnone]
      exact ⟨List.not_mem_nil, rfl⟩
    have hstopped := hhandshakes.trans hzero
    apply Phase.ended hstopped
    exact contract_of_status hsilent hcalls hstopped

/-- A turn comes out of a handshake that goes on. -/
theorem turn_of_handshakeStep {client next : Client} {attempt : Attempt} (hphase : Phase client)
    (hstep : handshakeStep client attempt = some next) :
    client.handshakes = 1 ∧ Trying client.calls ∧ Turn attempt client next := by
  simp only [handshakeStep, step, Option.ite_none_left_eq_some, Option.some.injEq] at hstep
  obtain ⟨hpending, rfl⟩ := hstep
  cases hphase with
  | trying hhandshakes hcalls => exact ⟨hhandshakes, hcalls, turn_tlsHandshakeCb attempt client⟩
  | ended hhandshakes => exact absurd hhandshakes hpending

/-- **The handshake of a TLS connection.** However the set-up goes and whatever `SSL_connect` and
libuv answer in each turn, the contract holds after every turn exactly when no turn takes a
controlled failure for a success and goes on to poll. -/
theorem handshake_contract_iff (setup : Setup) (client : Client) (attempts : List Attempt) :
    Always handshakeStep Contract (tlsConnection setup client) attempts ↔
      Each handshakeStep (fun _ attempt _ ↦ Checked attempt) (tlsConnection setup client)
        attempts := by
  refine always_iff_each (fun _ (h : Phase _) ↦ h.contract) ?_ ?_ (phase_tlsConnection setup client)
    (each_of_forall (fun _ _ _ ↦ trivial) _ _ : Each _ (fun _ _ _ ↦ True) _ _)
  · intro client attempt next hphase _ hchecked hstep
    obtain ⟨hhandshakes, hcalls, hturn⟩ := turn_of_handshakeStep hphase hstep
    exact phase_of_turn hhandshakes hcalls hchecked hturn
  · intro client attempt next hphase _ hchecked hstep
    obtain ⟨-, hcalls, hturn⟩ := turn_of_handshakeStep hphase hstep
    exact not_contract_of_turn hcalls hchecked hturn

/-- A set-up in which nothing fails. -/
def completeSetup : Setup := ⟨none, 0, false, 0⟩

/-- The peer ends the handshake, and `ready_cb` is called all the same. -/
theorem handshake_controlledFailure :
    ¬ Always handshakeStep Contract
      (tlsConnection completeSetup (httpClientConnect true httpClientInit))
      [⟨.controlledFailure, 0, 0⟩] := by
  rintro ⟨-, h⟩
  have hready := (h _ rfl).ready_after _ (List.prefix_refl _)
  exact absurd hready.1 (by decide)

end LibYtdl.Http.TlsHandshake
