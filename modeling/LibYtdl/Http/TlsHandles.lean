import LibYtdl.Http.TlsSession

/-!
# What a client does to its session

A failed set-up and a shutdown release what `ssl`, `tls_ctx` and `hostname` name, and most of them
leave the fields as they are. An observer of the events keeps what the fields hold; it says which
operation comes too late.
-/

namespace LibYtdl.Http.TlsHandles

open Transition Ownership TlsSession

/-- What the fields of a client hold. -/
structure Outlook where
  isTls : Bool
  ssl : Held
  tlsCtx : Held
  hostname : Held
  deriving DecidableEq, Repr

def outlook (client : Client) : Outlook where
  isTls := client.isTls
  ssl := client.handles.held .ssl
  tlsCtx := client.handles.held .tlsCtx
  hostname := client.handles.held .hostname

/-- The first call of the set-up that fails. The name of a numeric host is not set. -/
def failure (setup : Setup) : Option SetupCall :=
  if setup.numericHost ∧ setup.failing = some .setTlsextHostName then none else setup.failing

namespace Outlook

def initial : Outlook := ⟨false, .none, .none, .none⟩

/-- The old session is released when there is one. -/
def reset (outlook : Outlook) : Outlook :=
  if outlook.ssl = .none then outlook
  else { outlook with ssl := .released, tlsCtx := outlook.tlsCtx.release }

/-- What a set-up leaves in the fields, by the call at which it fails. -/
def setUp (outlook : Outlook) : Option SetupCall → Outlook
  | some .tlsClientMethod => outlook
  | some .sslCtxNew => { outlook with tlsCtx := .none }
  | some .setDefaultVerifyPaths => { outlook with tlsCtx := .released }
  | some .sslNew => { outlook with ssl := .none, tlsCtx := .released }
  | some .setCipherList => { outlook with ssl := .released, tlsCtx := .released }
  | some .setTlsextHostName => { outlook with ssl := .released, tlsCtx := .released }
  | some .setFd => { outlook with ssl := .none, tlsCtx := .released }
  | none => { outlook with ssl := .live, tlsCtx := .live }

/-- What an event leaves in the fields. -/
def after (outlook : Outlook) : Event → Outlook
  | .connect isTls => { outlook with isTls := isTls, hostname := .live }
  | .tcpConnected setup =>
    if outlook.isTls then outlook.reset.setUp (failure setup) else outlook
  | .shutdown => { outlook with hostname := outlook.hostname.release }
  | .shutdownIdle err =>
    if err < 0 ∧ wouldBlock err then outlook
    else { outlook with ssl := outlook.ssl.release, tlsCtx := outlook.tlsCtx.release }
  | .connectFailed _ _ | .handshake _ | .pollClosed _ => outlook

/-- The set-up comes as far as the host name. -/
def readsHostname : Option SetupCall → Bool
  | none | some .setTlsextHostName | some .setFd => true
  | _ => false

/-- An event that does not come too late for what it reads or releases. -/
def Allows (outlook : Outlook) : Event → Prop
  | .tcpConnected setup =>
    outlook.isTls = true → outlook.ssl ≠ .released ∧
      (readsHostname (failure setup) = true → outlook.hostname ≠ .released)
  | .handshake _ => outlook.ssl ≠ .released
  | .shutdown => outlook.hostname ≠ .released
  | .shutdownIdle err =>
    outlook.ssl ≠ .released ∧ (¬ (err < 0 ∧ wouldBlock err) → outlook.tlsCtx ≠ .released)
  | .connect _ | .connectFailed _ _ | .pollClosed _ => True

instance (outlook : Outlook) : (event : Event) → Decidable (outlook.Allows event)
  | .tcpConnected _ => inferInstanceAs (Decidable (_ → _))
  | .handshake _ => inferInstanceAs (Decidable (_ ≠ _))
  | .shutdown => inferInstanceAs (Decidable (_ ≠ _))
  | .shutdownIdle _ => inferInstanceAs (Decidable (_ ∧ (_ → _)))
  | .connect _ | .connectFailed _ _ | .pollClosed _ => isTrue trivial

end Outlook

/-- Each object of the client is released at most once, and none is used after its release. -/
structure Sound (client : Client) : Prop where
  released_once : ∀ object, client.handles.operations.count (.release object) ≤ 1
  unused_after : ∀ before object after,
    client.handles.operations = before ++ .release object :: after → .use object ∉ after

theorem sound_iff_disciplined (client : Client) :
    Sound client ↔ Disciplined client.handles.operations := by
  rw [disciplined_iff]
  exact ⟨fun h ↦ ⟨h.released_once, h.unused_after⟩, fun h ↦ ⟨h.1, h.2⟩⟩

/-- What a part of an event does to the handles: what it leaves in the fields, and when it comes too
late. -/
structure Judged (client next : Client) (allowed : Prop) (leaves : Outlook) : Prop where
  sound_iff : Sound next ↔ Sound client ∧ allowed
  outlook_eq : outlook next = leaves

/-! ## One command -/

@[simp] theorem sound_exec (client : Client) (command : Command Field) :
    Sound (client.exec command) ↔
      Sound client ∧ Held.Allows client.handles.held command := by
  rw [sound_iff_disciplined, sound_iff_disciplined]
  exact client.handles.disciplined_exec command

@[simp] theorem sound_call (client : Client) (call : Call) :
    Sound (client.call call) ↔ Sound client := by
  rw [sound_iff_disciplined, sound_iff_disciplined]
  rfl

@[simp] theorem held_exec (client : Client) (command : Command Field) :
    (client.exec command).handles.held = Held.after client.handles.held command :=
  client.handles.held_exec command

@[simp] theorem handles_call (client : Client) (call : Call) :
    (client.call call).handles = client.handles := rfl

@[simp] theorem isTls_exec (client : Client) (command : Command Field) :
    (client.exec command).isTls = client.isTls := rfl

@[simp] theorem isTls_call (client : Client) (call : Call) :
    (client.call call).isTls = client.isTls := rfl

theorem Judged.of_exec {client next : Client} {command : Command Field} {allowed : Prop}
    {leaves : Outlook} (h : Judged (client.exec command) next allowed leaves) :
    Judged client next (Held.Allows client.handles.held command ∧ allowed) leaves where
  sound_iff := by rw [h.sound_iff, sound_exec, and_assoc]
  outlook_eq := h.outlook_eq

theorem Judged.congr {client next : Client} {allowed other : Prop} {leaves left : Outlook}
    (h : Judged client next allowed leaves) (hallowed : allowed ↔ other) (hleaves : leaves = left) :
    Judged client next other left where
  sound_iff := by rw [h.sound_iff, hallowed]
  outlook_eq := by rw [h.outlook_eq, hleaves]

theorem Judged.trans {client middle next : Client} {first second : Prop} {leaves left : Outlook}
    (hfirst : Judged client middle first leaves) (hsecond : Judged middle next second left) :
    Judged client next (first ∧ second) left where
  sound_iff := by rw [hsecond.sound_iff, hfirst.sound_iff, and_assoc]
  outlook_eq := hsecond.outlook_eq

/-- A session that is being set up. -/
structure Open (client : Client) : Prop where
  ssl : client.handles.held .ssl = .live
  tlsCtx : client.handles.held .tlsCtx = .live

/-- A use takes nothing from an open session. -/
theorem Open.use {client : Client} (h : Open client) (field : Field) :
    Open (client.exec (.use field)) := by
  constructor
  · simp [Held.after, h.ssl]
  · simp [Held.after, h.tlsCtx]

end LibYtdl.Http.TlsHandles
