import CapyJs.Http.Request
import CapyJs.Pool.MemPool
import CapyJs.WebSocket.Frame

/-!
# One connection of the server

`ClientState` with its receive chain and its two libuv handles, and the receive
path on it: collect the read buffers, flatten them, parse, and either wait for
more or give the whole chain back. The chain is a list of filled buffers, each
with the slot of the read-buffer pool it lives in. A ghost number tells
connections apart when a slot is used again.
-/
namespace CapyJs.Server

open CapyJs.Http

/-! ## libuv handles -/

/-- A handle from its initialisation to the end of its close callback. -/
inductive HandlePhase
  | active
  | closing
  | closed
  deriving DecidableEq, Repr

/-- The callbacks a pending `uv_write` can have. The handshake's and the WebSocket
frames' callbacks only free their request. -/
inductive WriteCb
  | onStaticWrite
  | onWrite
  | onAbortWrite
  | freeRequest
  deriving DecidableEq, Repr

structure Socket where
  phase : HandlePhase
  connected : Bool
  reading : Bool
  writes : List WriteCb
  shutdown : Bool
  deriving DecidableEq, Repr

namespace Socket

/-- After `uv_tcp_init`. -/
def init : Socket := ⟨.active, false, false, [], false⟩

/-- `uv_close`, which a handle must not see twice. -/
def close (s : Socket) : Option Socket :=
  if s.phase = .active then some { s with phase := .closing, connected := false, reading := false }
  else none

/-- `uv_close` behind `uv_is_closing`. -/
def closeUnlessClosing (s : Socket) : Socket := s.close.getD s

def readStart (s : Socket) : Socket :=
  if s.phase = .active ∧ s.connected then { s with reading := true } else s

def readStop (s : Socket) : Socket := { s with reading := false }

/-- `uv_write`; it fails on a closing socket and may fail for other reasons. -/
def write (s : Socket) (cb : WriteCb) (ok : Bool) : Socket × Bool :=
  if ok ∧ s.connected then ({ s with writes := s.writes ++ [cb] }, true) else (s, false)

/-- `uv_shutdown`; its failure goes unnoticed. -/
def startShutdown (s : Socket) (ok : Bool) : Socket :=
  if ok ∧ s.connected ∧ !s.shutdown then { s with shutdown := true } else s

end Socket

/-! ## The connection -/

inductive ConnectionProtocol
  | unknown
  | http1
  | webSocket
  deriving DecidableEq, Repr

def readBufferSize : ℕ := 256
def defaultMaxConnections : ℕ := 512
def defaultReadBufferHeadroom : ℕ := 8

/-- A read buffer that holds data. -/
structure ReadBuffer where
  slot : ℕ
  bytes : Text
  deriving DecidableEq, Repr

/-- `sockJs` is the JS object that the route's handler assigns; without a handler it
is never assigned. -/
structure WebSocket where
  cli : ℕ
  sockJs : Option ℕ
  deriving DecidableEq, Repr

structure ClientState where
  socket : Socket
  idleTimer : HandlePhase
  writeInFlight : Bool
  closing : Bool
  connProtocol : ConnectionProtocol
  recv : List ReadBuffer
  recvCount : ℕ
  recvLen : ℕ
  /-- the block `pending_write_buffer` points to -/
  pendingWriteBuffer : Option Text
  activeWs : Option WebSocket
  guard : Option ℕ
  /-- ghost: the number of the connection -/
  conn : ℕ
  deriving DecidableEq, Repr

/-- A released slot reads as flags that are set and pointers to nowhere. -/
instance : Pool.MemSet ClientState where
  zeroed := ⟨.init, .active, false, false, .unknown, [], 0, 0, none, none, none, 0⟩
  poisoned := ⟨⟨.closed, true, true, [], true⟩, .closed, true, true, .unknown, [],
    0xADADADADADADADAD, 0xADADADAD, none, none, some 0xADADADADADADADAD, 0⟩

namespace ClientState

def recvNewBuffer (c : ClientState) (rb : ReadBuffer) : ClientState :=
  { c with recv := c.recv ++ [rb]
           recvCount := c.recvCount + 1
           recvLen := c.recvLen + rb.bytes.length }

/-- The connection after `clear_buffer`, which releases the buffers of the chain. -/
def clearBuffer (c : ClientState) : ClientState := { c with recv := [], recvCount := 0, recvLen := 0 }

def flattenBuffer (c : ClientState) : Text := (c.recv.map ReadBuffer.bytes).flatten

theorem flattenBuffer_recvNewBuffer (c : ClientState) (rb : ReadBuffer) :
    (c.recvNewBuffer rb).flattenBuffer = c.flattenBuffer ++ rb.bytes := by
  simp [recvNewBuffer, flattenBuffer]

@[simp] theorem flattenBuffer_clearBuffer (c : ClientState) : c.clearBuffer.flattenBuffer = [] := rfl

/-- The counters agree with the chain. -/
structure RecvOk (c : ClientState) : Prop where
  count_eq : c.recvCount = c.recv.length
  len_eq : c.recvLen = c.flattenBuffer.length

theorem RecvOk.recvNewBuffer {c : ClientState} (h : c.RecvOk) (rb : ReadBuffer) :
    (c.recvNewBuffer rb).RecvOk where
  count_eq := by simp [ClientState.recvNewBuffer, h.count_eq]
  len_eq := by
    rw [flattenBuffer_recvNewBuffer, List.length_append, ← h.len_eq]
    rfl

theorem recvOk_clearBuffer (c : ClientState) : c.clearBuffer.RecvOk := ⟨rfl, rfl⟩

/-! ## Receiving -/

/-- What is left to do once `process_http_1_request` has dealt with the chain. -/
inductive Http1Next
  | done
  | upgrade (req : RequestObject) (key : Text)
  | request (req : RequestObject)
  deriving DecidableEq, Repr

/-- `process_http_1_request` up to the call of a handler: the connection, the buffers
released, and what comes next. The flattened copy has `recv_len` bytes, an `int`. -/
def processHttp1Request (parse : Text → PhrResult) (c₀ : ClientState) (rb : ReadBuffer) :
    Option (ClientState × List ReadBuffer × Http1Next) :=
  let c := c₀.recvNewBuffer rb
  if Pool.intMax < c.recvLen then none
  else
    match parse c.flattenBuffer with
    | .incomplete => some (c, [], .done)
    | .malformed => some ({ c with socket := c.socket.closeUnlessClosing }, [], .done)
    | .request _ method path headers =>
      if c.writeInFlight || c.closing then
        some ({ c.clearBuffer with socket := c.socket.readStop }, c.recv, .done)
      else
        let req := RequestObject.fill method path
        let info := parseWSUpgrade headers
        some ({ c.clearBuffer with writeInFlight := true }, c.recv,
          if info.isUpgrade then .upgrade req info.key else .request req)

/-- `process_web_socket_request` up to and including the JS call: the connection, the
bytes consumed and the text of the call. -/
def receiveMessage (handler : Bool) (c₀ : ClientState) (rb : ReadBuffer) :
    Option (ClientState × ℕ × Option Text) :=
  let c := c₀.recvNewBuffer rb
  if Pool.intMax < c.recvLen then none
  else (WebSocket.onMessage handler c.flattenBuffer).map fun r => (c, r.1, r.2)

/-- The rest of `process_web_socket_request`. -/
def finishMessage (c : ClientState) (rc : ℕ) : ClientState × List ReadBuffer :=
  if rc = 0 then (c, []) else (c.clearBuffer, c.recv)

end ClientState
end CapyJs.Server
