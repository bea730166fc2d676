import CapyJs.Server.Connection
import CapyJs.Transition.Machine

/-!
# The server as a machine

The three pools of `ServerPool`, the responses that handlers hold, the buffer that
libuv has been handed for the read in progress, and the JS call the server is
inside of. Labels are the events of the event loop and the calls JS code can make;
results of system calls are part of the label. Callbacks of one read are
consecutive, and while JS code runs no event of the loop is delivered.
-/
namespace CapyJs.Server

open CapyJs.Http CapyJs.Pool

structure ConnGuard where
  alive : Bool
  refCount : ℤ
  /-- ghost: the connection it was acquired for -/
  conn : ℕ
  deriving DecidableEq, Repr

/-- A released guard reads as alive. -/
instance : MemSet ConnGuard := ⟨⟨false, 0, 0⟩, ⟨true, -1381126739, 0⟩⟩

namespace ConnGuard

/-- `ConnGuard::acquire`, on whatever the pointer points to. -/
def acquire (p : MemPool ConnGuard) (g : ℕ) : MemPool ConnGuard :=
  p.modify g fun gd => { gd with refCount := gd.refCount + 1 }

/-- `ConnGuard::release`: the last reference gives the slot back. -/
def release (p : MemPool ConnGuard) (g : ℕ) : Option (MemPool ConnGuard) :=
  match p.deref g with
  | none => none
  | some gd =>
    let p := p.modify g fun gd => { gd with refCount := gd.refCount - 1 }
    if gd.refCount - 1 = 0 then p.release g else some p

def invalidate (p : MemPool ConnGuard) (g : ℕ) : MemPool ConnGuard :=
  p.modify g fun gd => { gd with alive := false }

end ConnGuard

/-- The contents of read buffers stand in the receive chains. -/
instance : MemSet Unit := ⟨(), ()⟩

/-- The loop of `clear_buffer` over the buffers of a chain. -/
def releaseAll (p : MemPool Unit) : List ReadBuffer → Option (MemPool Unit)
  | [] => some p
  | rb :: rest =>
    match p.release rb.slot with
    | none => none
    | some p => releaseAll p rest

/-- A response that a handler has not ended yet. -/
structure ResponseObject where
  cli : ℕ
  guard : ℕ
  req : RequestObject
  /-- ghost: the connection its request arrived on -/
  conn : ℕ
  deriving DecidableEq, Repr

/-- Where the server waits for a JS function to return, and in which client slot. -/
inductive JsFrame
  | setup (i : ℕ) (ws : WebSocket)
  | message (i rc : ℕ)
  | onClose (i : ℕ)
  deriving DecidableEq, Repr

/-- A client slot with the buffer that `on_alloc_buffer_cb` supplied for it, if any. -/
structure Handed where
  client : ℕ
  buffer : Option ℕ
  deriving DecidableEq, Repr

structure State where
  clients : MemPool ClientState
  readBuffers : MemPool Unit
  guards : MemPool ConnGuard
  responses : List ResponseObject
  handed : Option Handed
  frame : Option JsFrame
  http : HttpContext
  /-- ghost: the number the next connection gets -/
  nextConn : ℕ

/-- What an observer of the server sees. -/
inductive Output
  | accepted (conn : ℕ)
  | rejected
  | received (conn : ℕ) (bytes : Text)
  | invoked (conn : ℕ) (req : RequestObject) (handler : Option ℕ)
  | written (conn : ℕ)
  | message (conn : ℕ) (text : Text)
  | closed (conn : ℕ)
  | timerClosed (conn : ℕ)
  deriving DecidableEq, Repr

/-- A response of connection `c` has been written when this is its next write to end. -/
def ClientState.written (c : ClientState) : List Output :=
  match c.socket.writes with
  | .onStaticWrite :: _ | .onWrite :: _ => [.written c.conn]
  | _ => []

/-- How a read ended: some bytes, or one of the other values of `nread`. -/
inductive ReadResult
  | data (bytes : Text)
  | zero
  | eof
  | enobufs
  | error
  deriving DecidableEq, Repr

inductive Label
  | peerConnected (accepted named : Bool)
  | allocBuffer (i : ℕ)
  | read (nread : ReadResult) (handler ok : Bool)
  | writeDone (i : ℕ) (ok : Bool)
  | shutdownDone (i : ℕ)
  | idleTimeout (i : ℕ)
  | clientClosed (i : ℕ)
  | idleTimerClosed (i : ℕ)
  | send (k : ℕ) (isStatic : Bool) (body : Text) (ok : Bool)
  | abort (k : ℕ) (ok : Bool)
  | wsSend (i : ℕ) (ok : Bool)
  | jsReturn (ok : Bool)
  | registerApi (method uri : Text) (handler : ℕ)
  | registerWs (uri : Text) (handler : ℕ)
  deriving DecidableEq, Repr

namespace State

def releaseReadBuffers (s : State) (l : List ReadBuffer) : Option State :=
  (releaseAll s.readBuffers l).map fun p => { s with readBuffers := p }

def acquireGuard (s : State) (g : ℕ) : State := { s with guards := ConnGuard.acquire s.guards g }

def releaseGuard (s : State) (g : ℕ) : Option State :=
  (ConnGuard.release s.guards g).map fun p => { s with guards := p }

/-- Run an event on the `ClientState` at slot `i`, wherever the pointer came from. -/
def onClient (parse : Text → PhrResult) (s : State) (i : ℕ) (c : ClientState)
    (e : ClientState.Event) : Option (State × ClientState.Next) :=
  match c.step parse e with
  | none => none
  | some eff =>
    (({ s with clients := s.clients.modify i fun _ => eff.client } : State).releaseReadBuffers
      eff.released).map fun s' => (s', eff.next)

/-- The event loop can deliver an event. -/
def Idle (s : State) : Prop := s.handed = none ∧ s.frame = none

instance (s : State) : Decidable s.Idle := inferInstanceAs (Decidable (_ ∧ _))

/-- The WebSocket handler of the connection in slot `i` is running. -/
def inSetup (s : State) (i : ℕ) : Bool :=
  match s.frame with
  | some (.setup j _) => j == i
  | _ => false

/-- What `on_peer_connected` makes of a zeroed client slot. -/
def newClient (g conn : ℕ) (accepted named : Bool) : ClientState :=
  { (MemSet.zeroed : ClientState) with
    socket := ⟨.active, accepted, accepted && named, [], false⟩
    connProtocol := .http1
    guard := some g
    conn }

/-- `on_peer_connected`. The guard starts with the reference of its client. -/
def onPeerConnected (s : State) (accepted named : Bool) : Option (State × List Output) :=
  match s.clients.acquire with
  | none => none
  | some (none, clients) => some ({ s with clients }, [.rejected])
  | some (some i, clients) =>
    match s.guards.acquire with
    | none => none
    | some (none, guards) =>
      (clients.release i).map fun clients => ({ s with clients, guards }, [.rejected])
    | some (some g, guards) =>
      some ({ s with
        clients := clients.modify i fun _ => newClient g s.nextConn accepted named
        guards := guards.modify g fun _ => ⟨true, 1, s.nextConn⟩
        nextConn := s.nextConn + 1 }, [.accepted s.nextConn])

/-- `on_alloc_buffer_cb`. -/
def onAllocBuffer (s : State) (i : ℕ) : Option (State × List Output) :=
  match s.readBuffers.acquire with
  | none => none
  | some (buffer, readBuffers) => some ({ s with readBuffers, handed := some ⟨i, buffer⟩ }, [])

section Parser
variable (parse : Text → PhrResult)

/-- The end of `process_http_1_request`: a response is made and `invoke_function` finds
its handler or answers with a 404. -/
def invokeFunction (s : State) (i : ℕ) (c : ClientState) (req : RequestObject) (ok : Bool) :
    Option (State × List Output) :=
  match c.guard with
  | none => none
  | some g =>
    let s := s.acquireGuard g
    match s.http.findRoute req with
    | some handler =>
      some ({ s with responses := s.responses ++ [⟨i, g, req, c.conn⟩] },
        [.invoked c.conn req (some handler)])
    | none =>
      match s.clients.deref i with
      | none => none
      | some c' =>
        match s.onClient parse i c' (.notFound ok) with
        | none => none
        | some (s, _) => (s.releaseGuard g).map fun s => (s, [.invoked c.conn req none])

/-- `on_read_cb` with data in buffer `b`. -/
def onReadData (s : State) (i : ℕ) (c : ClientState) (b : ℕ) (bytes : Text) (handler ok : Bool) :
    Option (State × List Output) :=
  match s.onClient parse i c (.data ⟨b, bytes⟩ handler) with
  | none => none
  | some (s, .done) => some (s, [.received c.conn bytes])
  | some (s, .upgrade req _) =>
    some ({ s with frame := some (.setup i ⟨i, s.http.findWsRoute req.uri⟩) },
      [.received c.conn bytes])
  | some (s, .message rc text) =>
    some ({ s with frame := some (.message i rc) },
      [.received c.conn bytes, .message c.conn text])
  | some (s, .request req) =>
    (s.invokeFunction parse i c req ok).map fun r => (r.1, .received c.conn bytes :: r.2)

/-- `on_read_cb`. Without a buffer libuv reports `UV_ENOBUFS`, with one it does not. -/
def onRead (s : State) (h : Handed) (nread : ReadResult) (handler ok : Bool) :
    Option (State × List Output) :=
  match s.clients.live h.client with
  | none => none
  | some c =>
    match nread, h.buffer with
    | .data bytes, some b =>
      if 1 ≤ bytes.length ∧ bytes.length ≤ readBufferSize then
        s.onReadData parse h.client c b bytes handler ok
      else none
    | .data _, none => none
    | .enobufs, none => (s.onClient parse h.client c .readFailed).map fun r => (r.1, [])
    | .enobufs, some _ => none
    | _, none => none
    | _, some b =>
      match s.readBuffers.release b with
      | none => none
      | some readBuffers =>
        (({ s with readBuffers } : State).onClient parse h.client c .readFailed).map
          fun r => (r.1, [])

/-- The end of `on_client_closed_cb`. -/
def finishClose (s : State) (i : ℕ) (c : ClientState) : Option (State × List Output) :=
  let dropped := match c.guard with
    | none => some s
    | some g =>
      ({ s with guards := ConnGuard.invalidate s.guards g } : State).releaseGuard g
  match dropped with
  | none => none
  | some s => (s.onClient parse i c .closeFinished).map fun r => (r.1, [.closed c.conn])

/-- `on_client_closed_cb`. The JS `onClose` handler of a WebSocket runs in the middle. -/
def onClientClosed (s : State) (i : ℕ) (c : ClientState) : Option (State × List Output) :=
  match s.onClient parse i c .closeStarted with
  | none => none
  | some (s, _) =>
    match c.activeWs with
    | none => s.finishClose parse i c.closeStarted
    | some ⟨_, none⟩ => none
    | some ⟨_, some _⟩ => some ({ s with frame := some (.onClose i) }, [])

/-- `ResponseObject::send` and `ResponseObject::abort`, up to what they start on the
connection. -/
def endResponse (s : State) (k : ℕ) (e : ClientState.Event) : Option (State × List Output) :=
  match s.responses[k]? with
  | none => none
  | some r =>
    let s := { s with responses := s.responses.eraseIdx k }
    match s.guards.deref r.guard with
    | none => none
    | some gd =>
      if !gd.alive then (s.releaseGuard r.guard).map fun s => (s, [])
      else
        match s.clients.deref r.cli with
        | none => none
        | some c =>
          if c.closing then (s.releaseGuard r.guard).map fun s => (s, [])
          else
            match s.onClient parse r.cli c e with
            | none => none
            | some (s, _) => (s.releaseGuard r.guard).map fun s => (s, [])

/-- A JS call has returned. -/
def onJsReturn (s : State) (f : JsFrame) (ok : Bool) : Option (State × List Output) :=
  match f with
  | .setup i ws =>
    match s.clients.live i with
    | none => none
    | some c => (s.onClient parse i c (.handshake ws ok)).map fun r => (r.1, [])
  | .message i rc =>
    match s.clients.live i with
    | none => none
    | some c => (s.onClient parse i c (.messageDone rc)).map fun r => (r.1, [])
  | .onClose i =>
    match s.clients.live i with
    | none => none
    | some c => s.finishClose parse i c

/-- An event of the loop on the connection in slot `i`, delivered when its handles are
in the right state for it. -/
def onLoopEvent (s : State) (i : ℕ) (enabled : ClientState → Bool)
    (run : ClientState → Option (State × List Output)) : Option (State × List Output) :=
  if s.Idle then
    match s.clients.live i with
    | none => none
    | some c => if enabled c then run c else none
  else none

def step (s : State) : Label → Option (State × List Output)
  | .peerConnected accepted named => if s.Idle then s.onPeerConnected accepted named else none
  | .allocBuffer i => s.onLoopEvent i (·.socket.reading) fun _ => s.onAllocBuffer i
  | .read nread handler ok =>
    match s.handed with
    | none => none
    | some h => ({ s with handed := none } : State).onRead parse h nread handler ok
  | .writeDone i ok => s.onLoopEvent i (·.socket.phase != .closed) fun c =>
      (s.onClient parse i c (.writeDone ok)).map fun r => (r.1, c.written)
  | .shutdownDone i => s.onLoopEvent i (·.socket.phase != .closed) fun c =>
      (s.onClient parse i c .shutdownDone).map fun r => (r.1, [])
  | .idleTimeout i => s.onLoopEvent i (·.idleTimer == .active) fun c =>
      (s.onClient parse i c .idleTimeout).map fun r => (r.1, [])
  | .clientClosed i =>
    -- libuv cancels what is pending on the socket first
    s.onLoopEvent i
      (fun c => c.socket.phase == .closing && c.socket.writes.isEmpty && !c.socket.shutdown)
      (s.onClientClosed parse i)
  | .idleTimerClosed i => s.onLoopEvent i (·.idleTimer == .closing) fun c =>
      (s.clients.release i).map fun clients => ({ s with clients }, [.timerClosed c.conn])
  | .send k isStatic body ok =>
    if s.handed = none then s.endResponse parse k (.send isStatic body ok) else none
  | .abort k ok => if s.handed = none then s.endResponse parse k (.abort ok) else none
  | .wsSend i ok =>
    match s.handed, s.clients.live i with
    | none, some c =>
      -- also from inside the handler that sets the object up
      if c.activeWs.isSome || s.inSetup i then
        (s.onClient parse i c (.sendFrame ok)).map fun r => (r.1, [])
      else none
    | _, _ => none
  | .jsReturn ok =>
    match s.handed, s.frame with
    | none, some f => ({ s with frame := none } : State).onJsReturn parse f ok
    | _, _ => none
  | .registerApi method uri handler =>
    if s.handed = none then
      some ({ s with http := s.http.registerApiFunction method uri handler }, [])
    else none
  | .registerWs uri handler =>
    if s.handed = none then some ({ s with http := s.http.registerWsCb uri handler }, []) else none

end Parser

/-- A server whose pools have just been built for `m` connections. -/
structure Initial (s : State) : Prop where
  pools : ∃ m clientJunk bufferJunk guardJunk,
    MemPool.new clientJunk m = some s.clients ∧
    MemPool.new bufferJunk (m * defaultReadBufferHeadroom) = some s.readBuffers ∧
    MemPool.new guardJunk m = some s.guards
  responses : s.responses = []
  handed : s.handed = none
  frame : s.frame = none
  nextConn : s.nextConn = 0

end State

def machine (parse : Text → PhrResult) : Transition.Machine State Label Output where
  init := State.Initial
  step := State.step parse

end CapyJs.Server
