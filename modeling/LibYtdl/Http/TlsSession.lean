import LibYtdl.Foundation.Ownership
import LibYtdl.Foundation.Transition
import LibYtdl.Http.TlsWriteQueue

/-!
# The TLS session of the HTTP client

From `ytdl_http_client_connect` to the end of `ytdl_http_client_shutdown`: the OpenSSL session that
`ytdl__http_client_tcp_connect_cb` sets up, the idle handle that retries the handshake, and the idle
handle that ends the session. The results of OpenSSL and of libuv are inputs of each step.

The ledger of the client says what its fields `ssl`, `tls_ctx` and `hostname` hold and what was done
to it; `calls` records the callbacks of the user and the calls that lead to them.
-/

namespace LibYtdl.Http.TlsSession

open Transition Ownership
open TlsWriteQueue (SslError)

/-- The fields of `ytdl_http_client_t` that own an object. -/
inductive Field
  | ssl
  | tlsCtx
  | hostname
  deriving DecidableEq, Repr

/-- The members of `enum ytdl_net_err_type` that are reported while a connection is made. -/
inductive NetErrType
  | getaddrinfo
  | connectInit
  | tcpConnect
  | readInit
  | pollInit
  | tlsCtxMethod
  | tlsCtxNew
  | tlsCtxVerifyPaths
  | tlsCtxCiphers
  | tlsNew
  | tlsSetFd
  | tlsSessionHost
  | tlsSessionClosed
  | tlsSessionHandshakeFailed
  deriving DecidableEq, Repr

/-- What `SSL_connect` returns: 1, 0 after a controlled failure, or a negative number, and then
`SSL_get_error` says why. -/
inductive SslResult
  | success
  | controlledFailure
  | failure (error : ℤ)
  deriving DecidableEq, Repr

/-- The value of `SSL_get_error` says that the operation did not happen yet. -/
def wouldBlock (err : ℤ) : Bool :=
  err = SslError.wantRead.code || err = SslError.wantWrite.code ||
    err = SslError.wantX509Lookup.code

/-- A handshake that is to be tried again. -/
def SslResult.inProgress : SslResult → Bool
  | .failure error => wouldBlock error
  | _ => false

/-- A call of the client with its result, or a callback of the user. -/
inductive Call
  | sslConnect (result : SslResult)
  | pollInit (err : ℤ)
  | pollStart (err : ℤ)
  | readStart (err : ℤ)
  | status (type : NetErrType) (code : ℤ)
  | ready
  deriving DecidableEq, Repr

/-- An error passed to `status_cb`. -/
def Call.isStatus : Call → Bool
  | .status _ _ => true
  | _ => false

/-- The part of `ytdl_http_client_t` that a session uses, and the handles that wait in the event
loop: connections to be answered, handshakes, poll handles to be closed, and ends of sessions. -/
structure Client where
  isTls : Bool
  handles : Ledger Field
  connecting : ℕ
  handshakes : ℕ
  pollsClosing : ℕ
  shutdowns : ℕ
  calls : List Call

/-- `ytdl_http_client_init`. -/
def httpClientInit : Client where
  isTls := false
  handles := .empty
  connecting := 0
  handshakes := 0
  pollsClosing := 0
  shutdowns := 0
  calls := []

namespace Client

def exec (client : Client) (command : Command Field) : Client :=
  { client with handles := client.handles.exec command }

def call (client : Client) (call : Call) : Client := { client with calls := client.calls ++ [call] }

/-- The field is `NULL`. -/
def isNull (client : Client) (field : Field) : Bool := (client.handles.slot field).isNone

end Client

/-! ## The set-up -/

/-- The calls of the set-up that can fail. -/
inductive SetupCall
  | tlsClientMethod
  | sslCtxNew
  | setDefaultVerifyPaths
  | sslNew
  | setCipherList
  | setTlsextHostName
  | setFd
  deriving DecidableEq, Repr

/-- How a set-up goes: the first call that fails, with what `ERR_get_error` says, whether the host
is a numeric one, and for a connection without TLS the result of `uv_read_start`. -/
structure Setup where
  failing : Option SetupCall
  error : ℤ
  numericHost : Bool
  readStart : ℤ
  deriving DecidableEq, Repr

def Setup.fails (setup : Setup) (call : SetupCall) : Bool := setup.failing = some call

/-- `if (client->ssl != NULL)`: a session that was used before is released. -/
def resetSsl (client : Client) : Client :=
  if client.isNull .ssl then client
  else
    let client := client.exec (.release .ssl)
    if client.isNull .tlsCtx then client else client.exec (.release .tlsCtx)

/-- `SSL_set_fd` and what follows it, with the start of the handshake. -/
def attachSocket (setup : Setup) (client : Client) : Client :=
  let client := client.exec (.use .ssl)
  if setup.fails .setFd then
    (((client.exec (.release .tlsCtx)).exec (.release .ssl)).exec (.clear .ssl)).call
      (.status .tlsSetFd setup.error)
  else
    let client := client.exec (.use .ssl)
    { client with handshakes := client.handshakes + 1 }

/-- `ytdl_net_is_numeric_host` and `SSL_set_tlsext_host_name`. -/
def setHostName (setup : Setup) (client : Client) : Client :=
  let client := client.exec (.use .hostname)
  if setup.numericHost then attachSocket setup client
  else
    let client := (client.exec (.use .ssl)).exec (.use .hostname)
    if setup.fails .setTlsextHostName then
      ((client.exec (.release .tlsCtx)).exec (.release .ssl)).call
        (.status .tlsSessionHost setup.error)
    else
      attachSocket setup client

/-- `SSL_set_cipher_list`. -/
def setCipherList (setup : Setup) (client : Client) : Client :=
  let client := client.exec (.use .ssl)
  if setup.fails .setCipherList then
    ((client.exec (.release .tlsCtx)).exec (.release .ssl)).call
      (.status .tlsCtxCiphers setup.error)
  else
    setHostName setup client

/-- `SSL_CTX_set_default_verify_paths`, `SSL_CTX_set_verify` and `SSL_new`. -/
def newSession (setup : Setup) (client : Client) : Client :=
  let client := client.exec (.use .tlsCtx)
  if setup.fails .setDefaultVerifyPaths then
    (client.exec (.release .tlsCtx)).call (.status .tlsCtxVerifyPaths setup.error)
  else
    let client := (client.exec (.use .tlsCtx)).exec (.use .tlsCtx)
    if setup.fails .sslNew then
      ((client.exec (.clear .ssl)).exec (.release .tlsCtx)).call (.status .tlsNew setup.error)
    else
      setCipherList setup (client.exec (.create .ssl))

/-- `ytdl__http_client_tcp_connect_cb`. -/
def tcpConnectCb (setup : Setup) (client : Client) : Client :=
  if client.isTls then
    let client := resetSsl client
    if setup.fails .tlsClientMethod then client.call (.status .tlsCtxMethod setup.error)
    else if setup.fails .sslCtxNew then
      (client.exec (.clear .tlsCtx)).call (.status .tlsCtxNew setup.error)
    else
      newSession setup (client.exec (.create .tlsCtx))
  else
    let client := client.call (.readStart setup.readStart)
    if setup.readStart ≠ 0 then client.call (.status .readInit setup.readStart)
    else client.call .ready

/-- `ytdl_http_client_connect`: the host name is copied, and the lookup and the connection begin. -/
def httpClientConnect (isTls : Bool) (client : Client) : Client :=
  let client := client.exec (.create .hostname)
  { client with isTls := isTls, connecting := client.connecting + 1 }

/-! ## The handshake -/

/-- One turn of the handshake: the result of `SSL_connect`, and those of `uv_poll_init_socket` and
of `uv_poll_start` when it comes to them. -/
structure Attempt where
  result : SslResult
  pollInit : ℤ
  pollStart : ℤ
  deriving DecidableEq, Repr

/-- `uv_idle_stop` and `uv_close` of the handle of the handshake. -/
def Client.stopHandshake (client : Client) : Client :=
  { client with handshakes := client.handshakes - 1 }

/-- Once the handshake is complete: polling for I/O is started. -/
def startPolling (attempt : Attempt) (client : Client) : Client :=
  let client := client.call (.pollInit attempt.pollInit)
  if attempt.pollInit ≠ 0 then client.call (.status .pollInit attempt.pollInit)
  else
    let client := client.call (.pollStart attempt.pollStart)
    if attempt.pollStart ≠ 0 then client.call (.status .pollInit attempt.pollStart)
    else client.call .ready

/-- `ytdl__http_client_tls_handshake_cb`. -/
def tlsHandshakeCb (attempt : Attempt) (client : Client) : Client :=
  let client := (client.exec (.use .ssl)).call (.sslConnect attempt.result)
  match attempt.result with
  | .failure err =>
    let client := client.exec (.use .ssl)
    if wouldBlock err then client
    else if err = SslError.zeroReturn.code then
      client.stopHandshake.call (.status .tlsSessionClosed err)
    else
      client.stopHandshake.call (.status .tlsSessionHandshakeFailed err)
  -- `success < 0` is all that is tested
  | .success | .controlledFailure => startPolling attempt client.stopHandshake

/-! ## The shutdown -/

/-- `ytdl_http_client_shutdown`. The poll handle of a session is closed first. -/
def httpClientShutdown (client : Client) : Client :=
  let client := if client.isNull .hostname then client else client.exec (.release .hostname)
  if client.isNull .ssl then client
  else { client with pollsClosing := client.pollsClosing + 1 }

/-- `ytdl__tls_poll_close`, with the result of `uv_idle_start`. -/
def tlsPollClose (idleStart : ℤ) (client : Client) : Client :=
  { client with
    pollsClosing := client.pollsClosing - 1
    shutdowns := if idleStart ≠ 0 then client.shutdowns else client.shutdowns + 1 }

/-- `ytdl__http_client_tls_shutdown_cb`, with the result of `SSL_shutdown`. -/
def tlsShutdownCb (err : ℤ) (client : Client) : Client :=
  let client := client.exec (.use .ssl)
  if err < 0 ∧ wouldBlock err then client
  else
    let client := client.exec (.release .ssl)
    let client := if client.isNull .tlsCtx then client else client.exec (.release .tlsCtx)
    { client with shutdowns := client.shutdowns - 1 }

/-! ## The event loop -/

/-- The calls of the user, and the callbacks of the event loop with the results they get. -/
inductive Event
  | connect (isTls : Bool)
  | connectFailed (type : NetErrType) (code : ℤ)
  | tcpConnected (setup : Setup)
  | handshake (attempt : Attempt)
  | shutdown
  | pollClosed (idleStart : ℤ)
  | shutdownIdle (err : ℤ)
  deriving DecidableEq, Repr

/-- A callback comes when something waits for it. A shutdown takes no connection and no handshake
back. -/
def step : Step Client Event
  | client, .connect isTls => some (httpClientConnect isTls client)
  | client, .connectFailed type code =>
    if client.connecting = 0 then none
    else some ({ client with connecting := client.connecting - 1 }.call (.status type code))
  | client, .tcpConnected setup =>
    if client.connecting = 0 then none
    else some (tcpConnectCb setup { client with connecting := client.connecting - 1 })
  | client, .handshake attempt =>
    if client.handshakes = 0 then none else some (tlsHandshakeCb attempt client)
  | client, .shutdown => some (httpClientShutdown client)
  | client, .pollClosed idleStart =>
    if client.pollsClosing = 0 then none else some (tlsPollClose idleStart client)
  | client, .shutdownIdle err =>
    if client.shutdowns = 0 then none else some (tlsShutdownCb err client)

end LibYtdl.Http.TlsSession
