import Mathlib.Logic.Basic

/-!
# The life of a connection

A `ytdl_http_client_t` that uses TLS, from the lookup of its host to the end of its connection. Each
part ends in a callback of the event loop, and nothing takes a lookup or a handshake back:
`ytdl_http_client_shutdown` does something else at each point, and what it does depends on how far
the client has come and not on what is still to arrive.
-/

namespace LibYtdl.Http.Connection

/-- How far a client has come. A setup that failed stays as it is: `unresolved` after the lookup,
`refused` after the TCP connection, `rejected` after the handshake. -/
inductive Phase
  | unconnected
  | resolving
  | unresolved
  | connecting
  | refused
  | handshaking
  | rejected
  | up
  | lost
  | closing
  | closed
  deriving DecidableEq, Repr

/-- The callbacks of the event loop that move a client on. -/
inductive ClientEvent
  | resolved
  | resolveFailed
  | tcpConnected
  | connectFailed
  | ready
  | handshakeFailed
  | lost
  | closed
  deriving DecidableEq, Repr

/-- A callback that only reports: the user's status callback hears of it, and no other one. -/
def ClientEvent.reports : ClientEvent → Bool
  | .resolveFailed | .connectFailed | .handshakeFailed | .lost => true
  | _ => false

/-- What a callback of the event loop makes of the client, when it can come. -/
def advance : Phase → ClientEvent → Option Phase
  | .resolving, .resolved => some .connecting
  | .resolving, .resolveFailed => some .unresolved
  | .connecting, .tcpConnected => some .handshaking
  | .connecting, .connectFailed => some .refused
  | .handshaking, .ready => some .up
  | .handshaking, .handshakeFailed => some .rejected
  | .up, .lost => some .lost
  | .closing, .closed => some .closed
  | _, _ => none

/-- A client whose setup has begun and is still to end. -/
def Phase.establishing : Phase → Bool
  | .resolving | .connecting | .handshaking => true
  | _ => false

/-- A client on which `ytdl_http_client_connect` can be called: it has no connection, and none is
being made. -/
def Phase.connectable : Phase → Bool
  | .unconnected | .unresolved | .refused => true
  | _ => false

/-- A client whose connection was made and not yet closed. -/
def Phase.connected : Phase → Bool
  | .up | .lost => true
  | _ => false

/-- `ytdl_http_client_connect`. The host is looked up, unless it is numeric. -/
def httpClientConnect (isNumericHost : Bool) : Phase :=
  if isNumericHost then .connecting else .resolving

/-- What `ytdl_http_client_shutdown` does: the close callback is called by it, or the event loop
will call it when the client is closed, or a handle is stopped that is not there to be stopped. -/
inductive Closing
  | called
  | pending
  | invalid
  deriving DecidableEq, Repr

/-- `ytdl_http_client_shutdown`. Without a socket `uv_tcp_close_reset` fails, and the callback is
called at once. From the handshake on, the client has a session, and the poll handle of the
connection is stopped; it is there when the handshake has succeeded. -/
def httpClientShutdown : Phase → Closing
  | .unconnected | .resolving | .unresolved => .called
  | .connecting | .refused | .up | .lost => .pending
  | .handshaking | .rejected | .closing | .closed => .invalid

/-- A client that `ytdl_http_client_shutdown` ends: no lookup is left to come back, and the poll
handle is there if the session is. -/
def Phase.closable : Phase → Bool
  | .unconnected | .unresolved | .connecting | .refused | .up | .lost => true
  | _ => false

/-- A client with nothing to come. -/
def Phase.resting : Phase → Bool
  | .unconnected | .unresolved | .refused | .rejected | .lost | .closed => true
  | _ => false

/-- The client after `ytdl_http_client_shutdown`. -/
def Phase.shutDown (phase : Phase) : Phase :=
  if httpClientShutdown phase = .pending then .closing else phase

attribute [local simp] advance httpClientShutdown Phase.establishing Phase.connectable
  Phase.connected Phase.closable Phase.resting Phase.shutDown

theorem advance_ready {phase next : Phase} (h : advance phase .ready = some next) :
    phase = .handshaking ∧ next = .up := by
  cases phase <;> simp_all

theorem advance_closed {phase next : Phase} (h : advance phase .closed = some next) :
    phase = .closing := by
  cases phase <;> simp_all

theorem advance_closing {next : Phase} {event : ClientEvent}
    (h : advance .closing event = some next) : event = .closed ∧ next = .closed := by
  cases event <;> simp_all

theorem advance_resting {phase : Phase} (h : phase.resting = true) (event : ClientEvent) :
    advance phase event = none := by
  cases phase <;> simp_all

/-- A client that is not being closed may come to rest with nothing but a report. -/
theorem exists_rest {phase : Phase} (h : phase ≠ .closing) :
    phase.resting = true ∨
      ∃ event next, event.reports = true ∧ advance phase event = some next ∧
        next.resting = true := by
  cases phase with
  | closing => exact absurd rfl h
  | resolving => exact .inr ⟨.resolveFailed, .unresolved, rfl, rfl, rfl⟩
  | connecting => exact .inr ⟨.connectFailed, .refused, rfl, rfl, rfl⟩
  | handshaking => exact .inr ⟨.handshakeFailed, .rejected, rfl, rfl, rfl⟩
  | up => exact .inr ⟨.lost, .lost, rfl, rfl, rfl⟩
  | _ => exact .inl rfl

/-- What makes a client one that is ended by `ytdl_http_client_shutdown`. -/
theorem closable_cases {phase : Phase} (h : phase.closable = true) :
    httpClientShutdown phase = .called ∧ phase.resting = true ∨
      httpClientShutdown phase = .pending := by
  cases phase <;> simp_all

theorem not_closable_cases {phase : Phase} (h : phase.closable = false) :
    phase = .resolving ∨ httpClientShutdown phase = .invalid := by
  cases phase <;> simp_all

/-- A connection is closed by a call, not by a callback. -/
theorem advance_ne_closing {phase next : Phase} {event : ClientEvent}
    (h : advance phase event = some next) : next ≠ .closing := by
  cases phase <;> cases event <;> simp_all <;> subst h <;> decide

/-- No callback but `ready` makes a connection or takes it away. -/
theorem connected_advance {phase next : Phase} {event : ClientEvent} (hready : event ≠ .ready)
    (h : advance phase event = some next) : next.connected = phase.connected := by
  cases phase <;> cases event <;> simp_all <;> subst h <;> rfl

theorem connected_of_connectable {phase : Phase} (h : phase.connectable = true) :
    phase.connected = false := by
  cases phase <;> simp_all

theorem connected_of_establishing {phase : Phase} (h : phase.establishing = true) :
    phase.connected = false := by
  cases phase <;> simp_all

theorem connected_shutDown {phase : Phase} (h : phase.connected = true) :
    phase.shutDown.connected = false := by
  cases phase <;> simp_all

theorem establishing_shutDown {phase : Phase} (h : phase.establishing = false) :
    phase.shutDown.establishing = false := by
  cases phase <;> simp_all

/-- A client that is not being set up never comes up by itself. -/
theorem establishing_advance {phase next : Phase} {event : ClientEvent}
    (hphase : phase.establishing = false) (h : advance phase event = some next) :
    next.establishing = false ∧ event ≠ .ready := by
  cases phase <;> cases event <;> simp_all <;> subst h <;> rfl

end LibYtdl.Http.Connection
