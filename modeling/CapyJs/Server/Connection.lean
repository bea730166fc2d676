import CapyJs.Server.ClientState

/-!
# The callbacks of one connection

Every libuv callback and every response operation does its work on one
`ClientState`; what it does there is collected in `ClientState.step`, together
with the read buffers it gives back and what is left to do outside the
connection.
-/
namespace CapyJs.Server

open CapyJs.Http

namespace ClientState

def onStaticWriteCb (c : ClientState) : ClientState :=
  { c with writeInFlight := false, socket := c.socket.readStart }

/-- `on_write_cb` also frees the body of the response. -/
def onWriteCb (c : ClientState) : ClientState :=
  { c with writeInFlight := false, pendingWriteBuffer := none, socket := c.socket.readStart }

def onAbortWriteCb (c : ClientState) (ok : Bool) : ClientState :=
  { c with socket := c.socket.startShutdown ok }

/-- This one closes the socket without asking whether it is closing already. -/
def onAbortShutdownCb (c : ClientState) : Option ClientState :=
  ({ c.socket with shutdown := false } : Socket).close.map fun s => { c with socket := s }

def onIdleTimeoutCb (c : ClientState) : ClientState :=
  { c with socket := c.socket.closeUnlessClosing }

/-- The oldest pending write is done; `ok` is for a `uv_shutdown` that may follow. -/
def writeDone (c : ClientState) (ok : Bool) : Option ClientState :=
  match c.socket.writes with
  | [] => none
  | cb :: rest =>
    let c := { c with socket := { c.socket with writes := rest } }
    match cb with
    | .onStaticWrite => some c.onStaticWriteCb
    | .onWrite => some c.onWriteCb
    | .onAbortWrite => some (c.onAbortWriteCb ok)
    | .freeRequest => some c

/-- The branches of `on_read_cb` for everything that is not data. -/
def readFailed (c : ClientState) : ClientState := { c with socket := c.socket.closeUnlessClosing }

/-- The two ways `ResponseObject::send` starts its write. -/
def startSend (c : ClientState) (isStatic : Bool) (body : Text) (ok : Bool) : ClientState :=
  if isStatic then { c with socket := (c.socket.write .onStaticWrite ok).1 }
  else { c with pendingWriteBuffer := some body, socket := (c.socket.write .onWrite ok).1 }

def startNotFound (c : ClientState) (ok : Bool) : ClientState :=
  { c with socket := (c.socket.write .onStaticWrite ok).1 }

/-- `abort` closes the socket itself when its write fails. -/
def startAbort (c : ClientState) (ok : Bool) : Option ClientState :=
  match c.socket.write .onAbortWrite ok with
  | (s, true) => some { c with socket := s }
  | (s, false) => s.close.map fun s => { c with socket := s }

def completeProtocolUpgradeHandshake (c : ClientState) (ws : WebSocket) (ok : Bool) : ClientState :=
  if c.closing then c
  else
    { c with socket := (c.socket.write .freeRequest ok).1
             activeWs := some ws
             connProtocol := .webSocket }

def sendFrame (c : ClientState) (ok : Bool) : ClientState :=
  { c with socket := (c.socket.write .freeRequest ok).1 }

/-- `on_client_closed_cb` up to the call of the JS `onClose` handler. -/
def closeStarted (c : ClientState) : ClientState :=
  { c.clearBuffer with closing := true, socket := { c.socket with phase := .closed } }

/-- The rest of it on the connection itself. -/
def closeFinished (c : ClientState) : ClientState :=
  { c with activeWs := none, guard := none, idleTimer := .closing }

/-- Something that happens to one connection. -/
inductive Event
  | data (rb : ReadBuffer) (handler : Bool)
  | readFailed
  | messageDone (rc : ℕ)
  | handshake (ws : WebSocket) (ok : Bool)
  | send (isStatic : Bool) (body : Text) (ok : Bool)
  | notFound (ok : Bool)
  | abort (ok : Bool)
  | sendFrame (ok : Bool)
  | writeDone (ok : Bool)
  | shutdownDone
  | idleTimeout
  | closeStarted
  | closeFinished

/-- What remains to be done outside the connection. -/
inductive Next
  | done
  | upgrade (req : RequestObject) (key : Text)
  | request (req : RequestObject)
  | message (rc : ℕ) (text : Text)
  deriving DecidableEq, Repr

structure Effect where
  client : ClientState
  released : List ReadBuffer
  next : Next

def Http1Next.toNext : Http1Next → Next
  | .done => .done
  | .upgrade req key => .upgrade req key
  | .request req => .request req

/-- `on_read_cb` with data. A WebSocket whose JS object was never assigned cannot be
asked for its handler, and no other protocol is known. -/
def onData (parse : Text → PhrResult) (c : ClientState) (rb : ReadBuffer) (handler : Bool) :
    Option Effect :=
  match c.connProtocol with
  | .http1 =>
    (c.processHttp1Request parse rb).map fun r => ⟨r.1, r.2.1, r.2.2.toNext⟩
  | .webSocket =>
    match c.activeWs, c.receiveMessage handler rb with
    | some ws, some (c', rc, text) =>
      if rc ≠ 0 ∧ ws.sockJs = none then none
      else
        match text with
        | some text => some ⟨c', [], .message rc text⟩
        | none => some ⟨(c'.finishMessage rc).1, (c'.finishMessage rc).2, .done⟩
    | _, _ => none
  | .unknown => none

def step (parse : Text → PhrResult) (c : ClientState) : Event → Option Effect
  | .data rb handler => c.onData parse rb handler
  | .readFailed => some ⟨c.readFailed, [], .done⟩
  | .messageDone rc => some ⟨(c.finishMessage rc).1, (c.finishMessage rc).2, .done⟩
  | .handshake ws ok => some ⟨c.completeProtocolUpgradeHandshake ws ok, [], .done⟩
  | .send isStatic body ok => some ⟨c.startSend isStatic body ok, [], .done⟩
  | .notFound ok => some ⟨c.startNotFound ok, [], .done⟩
  | .abort ok => (c.startAbort ok).map fun c' => ⟨c', [], .done⟩
  | .sendFrame ok => some ⟨c.sendFrame ok, [], .done⟩
  | .writeDone ok => (c.writeDone ok).map fun c' => ⟨c', [], .done⟩
  | .shutdownDone =>
    if c.socket.shutdown then c.onAbortShutdownCb.map fun c' => ⟨c', [], .done⟩ else none
  | .idleTimeout => some ⟨c.onIdleTimeoutCb, [], .done⟩
  | .closeStarted => some ⟨c.closeStarted, c.recv, .done⟩
  | .closeFinished => some ⟨c.closeFinished, [], .done⟩

/-! ## What an event does to the receive chain

Buffers only enter the chain with data and only leave it by being released. -/

/-- The read buffers an event brings along. -/
def Event.buffers : Event → List ReadBuffer
  | .data rb _ => [rb]
  | _ => []

/-- The sum of a weight over the buffers of a list. -/
def weigh (f : ℕ → ℕ) (l : List ReadBuffer) : ℕ := (l.map fun rb => f rb.slot).sum

@[simp] theorem weigh_nil (f : ℕ → ℕ) : weigh f [] = 0 := rfl

@[simp] theorem weigh_cons (f : ℕ → ℕ) (rb : ReadBuffer) (l : List ReadBuffer) :
    weigh f (rb :: l) = f rb.slot + weigh f l := rfl

@[simp] theorem weigh_append (f : ℕ → ℕ) (l l' : List ReadBuffer) :
    weigh f (l ++ l') = weigh f l + weigh f l' := by
  simp [weigh]

theorem finishMessage_recv (c : ClientState) (rc : ℕ) :
    (c.finishMessage rc).1.recv ++ (c.finishMessage rc).2 = c.recv := by
  unfold finishMessage
  split_ifs <;> simp [clearBuffer]

/-- `process_http_1_request`, case by case: more data needed, a parse error, a request
dropped because of the one before it, and a request taken. -/
theorem processHttp1Request_cases {parse : Text → PhrResult} {c c' : ClientState}
    {rb : ReadBuffer} {released : List ReadBuffer} {next : Http1Next}
    (h : c.processHttp1Request parse rb = some (c', released, next)) :
    (parse (c.flattenBuffer ++ rb.bytes) = .incomplete ∧ c' = c.recvNewBuffer rb ∧
      released = [] ∧ next = .done) ∨
    (parse (c.flattenBuffer ++ rb.bytes) = .malformed ∧
      c' = { c.recvNewBuffer rb with socket := c.socket.closeUnlessClosing } ∧
      released = [] ∧ next = .done) ∨
    ∃ n method path headers,
      parse (c.flattenBuffer ++ rb.bytes) = .request n method path headers ∧
      released = c.recv ++ [rb] ∧
      (((c.writeInFlight || c.closing) = true ∧
          c' = { c.clearBuffer with socket := c.socket.readStop } ∧ next = .done) ∨
        (c.writeInFlight = false ∧ c.closing = false ∧
          c' = { c.clearBuffer with writeInFlight := true } ∧
          next = if (parseWSUpgrade headers).isUpgrade
            then .upgrade (.fill method path) (parseWSUpgrade headers).key
            else .request (.fill method path))) := by
  simp only [processHttp1Request, flattenBuffer_recvNewBuffer] at h
  by_cases hbig : Pool.intMax < (c.recvNewBuffer rb).recvLen
  · rw [if_pos hbig] at h
    cases h
  rw [if_neg hbig] at h
  cases hparse : parse (c.flattenBuffer ++ rb.bytes) with
  | incomplete =>
    rw [hparse] at h
    cases h
    exact .inl ⟨rfl, rfl, rfl, rfl⟩
  | malformed =>
    rw [hparse] at h
    cases h
    exact .inr (.inl ⟨rfl, rfl, rfl, rfl⟩)
  | request n method path headers =>
    rw [hparse] at h
    refine .inr (.inr ⟨n, method, path, headers, rfl, ?_⟩)
    by_cases hbusy : (c.writeInFlight || c.closing) = true
    · simp only [recvNewBuffer, hbusy, if_true] at h
      cases h
      exact ⟨rfl, .inl ⟨hbusy, rfl, rfl⟩⟩
    · simp only [recvNewBuffer, hbusy] at h
      cases h
      simp only [Bool.not_eq_true, Bool.or_eq_false_iff] at hbusy
      exact ⟨rfl, .inr ⟨hbusy.1, hbusy.2, rfl, rfl⟩⟩

theorem processHttp1Request_recv {parse : Text → PhrResult} {c c' : ClientState} {rb : ReadBuffer}
    {released : List ReadBuffer} {next : Http1Next}
    (h : c.processHttp1Request parse rb = some (c', released, next)) :
    c'.recv ++ released = c.recv ++ [rb] := by
  rcases processHttp1Request_cases h with ⟨-, rfl, rfl, -⟩ | ⟨-, rfl, rfl, -⟩ |
    ⟨n, method, path, headers, -, rfl, ⟨-, rfl, -⟩ | ⟨-, -, rfl, -⟩⟩
  all_goals simp [recvNewBuffer, clearBuffer]

theorem receiveMessage_eq {handler : Bool} {c c' : ClientState} {rb : ReadBuffer} {rc : ℕ}
    {text : Option Text} (h : c.receiveMessage handler rb = some (c', rc, text)) :
    c' = c.recvNewBuffer rb := by
  simp only [receiveMessage] at h
  split_ifs at h
  obtain ⟨r, -, hr⟩ := Option.map_eq_some_iff.mp h
  exact (congrArg Prod.fst hr).symm

/-- `on_read_cb` with data, case by case. -/
theorem onData_cases {parse : Text → PhrResult} {c : ClientState} {rb : ReadBuffer}
    {handler : Bool} {eff : Effect} (h : c.onData parse rb handler = some eff) :
    (c.connProtocol = .http1 ∧ ∃ next,
      c.processHttp1Request parse rb = some (eff.client, eff.released, next) ∧
      eff.next = next.toNext) ∨
    (c.connProtocol = .webSocket ∧ ∃ rc, c.activeWs.isSome ∧
      ((∃ text, eff = ⟨c.recvNewBuffer rb, [], .message rc text⟩) ∨
        eff = ⟨((c.recvNewBuffer rb).finishMessage rc).1,
          ((c.recvNewBuffer rb).finishMessage rc).2, .done⟩)) := by
  unfold onData at h
  split at h
  · next hproto =>
    obtain ⟨⟨c', released, next⟩, hproc, rfl⟩ := Option.map_eq_some_iff.mp h
    exact .inl ⟨hproto, next, hproc, rfl⟩
  · next hproto =>
    split at h
    · next ws c' rc text hws hmsg =>
      obtain rfl := receiveMessage_eq hmsg
      split_ifs at h
      refine .inr ⟨hproto, rc, by simp [hws], ?_⟩
      split at h
      · exact .inl ⟨_, (Option.some.inj h).symm⟩
      · exact .inr (Option.some.inj h).symm
    · cases h
  · cases h

/-- A request is taken while no response is on its way. -/
theorem idle_of_request {parse : Text → PhrResult} {c : ClientState} {rb : ReadBuffer}
    {handler : Bool} {eff : Effect} {req : RequestObject}
    (h : c.onData parse rb handler = some eff) (hnext : eff.next = .request req) :
    c.writeInFlight = false := by
  rcases onData_cases h with ⟨-, next, hproc, htoNext⟩ | ⟨-, rc, -, ⟨text, rfl⟩ | rfl⟩
  · rcases processHttp1Request_cases hproc with ⟨-, -, -, rfl⟩ | ⟨-, -, -, rfl⟩ |
      ⟨n, method, path, headers, -, -, ⟨-, -, rfl⟩ | ⟨hidle, -⟩⟩
    · exact absurd (htoNext.symm.trans hnext) nofun
    · exact absurd (htoNext.symm.trans hnext) nofun
    · exact absurd (htoNext.symm.trans hnext) nofun
    · exact hidle
  · cases hnext
  · cases hnext

theorem socket_of_upgrade {parse : Text → PhrResult} {c : ClientState} {rb : ReadBuffer}
    {handler : Bool} {eff : Effect} {req : RequestObject} {key : Text}
    (h : c.onData parse rb handler = some eff) (hnext : eff.next = .upgrade req key) :
    eff.client.socket = c.socket := by
  rcases onData_cases h with ⟨-, next, hproc, htoNext⟩ | ⟨-, rc, -, ⟨text, rfl⟩ | rfl⟩
  · rcases processHttp1Request_cases hproc with ⟨-, -, -, rfl⟩ | ⟨-, -, -, rfl⟩ |
      ⟨n, method, path, headers, -, -, ⟨-, -, rfl⟩ | ⟨-, -, hc, -⟩⟩
    · exact absurd (htoNext.symm.trans hnext) nofun
    · exact absurd (htoNext.symm.trans hnext) nofun
    · exact absurd (htoNext.symm.trans hnext) nofun
    · rw [hc]
      rfl
  · cases hnext
  · cases hnext

/-- `abort` either starts its write or closes the socket. -/
theorem startAbort_cases {c c' : ClientState} {ok : Bool} (h : c.startAbort ok = some c') :
    ∃ s, c' = { c with socket := s } ∧
      ((s = (c.socket.write .onAbortWrite ok).1 ∧ (c.socket.write .onAbortWrite ok).2 = true) ∨
        ((c.socket.write .onAbortWrite ok).1.close = some s ∧
          (c.socket.write .onAbortWrite ok).2 = false)) := by
  unfold startAbort at h
  split at h
  · next s heq =>
    cases h
    exact ⟨s, rfl, .inl (by rw [heq]; exact ⟨rfl, rfl⟩)⟩
  · next s heq =>
    obtain ⟨s', hclose, rfl⟩ := Option.map_eq_some_iff.mp h
    exact ⟨s', rfl, .inr (by rw [heq]; exact ⟨hclose, rfl⟩)⟩

theorem shutdownDone_spec {parse : Text → PhrResult} {c : ClientState} {eff : Effect}
    (h : c.step parse .shutdownDone = some eff) : c.socket.shutdown = true ∧
      ∃ s, ({ c.socket with shutdown := false } : Socket).close = some s ∧
        eff = ⟨{ c with socket := s }, [], .done⟩ := by
  simp only [step] at h
  split_ifs at h with hshutdown
  obtain ⟨c', hc', rfl⟩ := Option.map_eq_some_iff.mp h
  obtain ⟨s, hclose, rfl⟩ := Option.map_eq_some_iff.mp hc'
  exact ⟨hshutdown, s, hclose, rfl⟩

theorem onData_recv {parse : Text → PhrResult} {c : ClientState} {rb : ReadBuffer}
    {handler : Bool} {eff : Effect} (h : c.onData parse rb handler = some eff) :
    eff.client.recv ++ eff.released = c.recv ++ [rb] := by
  rcases onData_cases h with ⟨-, next, hproc, -⟩ | ⟨-, rc, -, ⟨text, rfl⟩ | rfl⟩
  · exact processHttp1Request_recv hproc
  · simp [recvNewBuffer]
  · exact finishMessage_recv _ rc

end ClientState
end CapyJs.Server
