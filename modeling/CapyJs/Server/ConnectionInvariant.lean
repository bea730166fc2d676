import CapyJs.Server.Connection

/-!
# What every event on a connection keeps

The handles, flags and counters of a `ClientState` fit together, and the right to
answer is never handed out twice: at most one of the live response, the pending
response write and the WebSocket of a connection exists, and only while
`write_in_flight` is set.
-/
namespace CapyJs.Server

open CapyJs.Http

/-! ## Sockets -/

structure Socket.Ok (s : Socket) : Prop where
  reading : s.reading = true → s.connected = true
  connected : s.connected = true → s.phase = .active

/-- Another well-formed socket that has been closed as little or as much. -/
structure Socket.Follows (s' s : Socket) : Prop where
  ok : s'.Ok
  closed_iff : s'.phase = .closed ↔ s.phase = .closed

namespace Socket.Ok
variable {s s' : Socket}

theorem readStart (h : s.Ok) : s.readStart.Follows s := by
  unfold Socket.readStart
  split_ifs with hcond
  · exact ⟨⟨fun _ => hcond.2, h.connected⟩, Iff.rfl⟩
  · exact ⟨h, Iff.rfl⟩

theorem readStop (h : s.Ok) : s.readStop.Follows s :=
  ⟨⟨nofun, h.connected⟩, Iff.rfl⟩

theorem write (h : s.Ok) (cb : WriteCb) (ok : Bool) : (s.write cb ok).1.Follows s := by
  unfold Socket.write
  split_ifs
  · exact ⟨⟨h.reading, h.connected⟩, Iff.rfl⟩
  · exact ⟨h, Iff.rfl⟩

theorem startShutdown (h : s.Ok) (ok : Bool) : (s.startShutdown ok).Follows s := by
  unfold Socket.startShutdown
  split_ifs
  · exact ⟨⟨h.reading, h.connected⟩, Iff.rfl⟩
  · exact ⟨h, Iff.rfl⟩

theorem close (hs : s.close = some s') : s'.Follows s := by
  unfold Socket.close at hs
  split_ifs at hs with hactive
  cases hs
  exact ⟨⟨nofun, nofun⟩, by simp [hactive]⟩

theorem closeUnlessClosing (h : s.Ok) : s.closeUnlessClosing.Follows s := by
  unfold Socket.closeUnlessClosing
  cases hclose : s.close with
  | none => exact ⟨h, Iff.rfl⟩
  | some s' => exact close hclose

end Socket.Ok

namespace ClientState

structure Ok (c : ClientState) : Prop where
  recv : c.RecvOk
  socket : c.socket.Ok
  closing_iff : c.closing = true ↔ c.socket.phase = .closed
  recv_nil : c.closing = true → c.recv = []
  guard_none : c.guard = none → c.closing = true ∧ c.activeWs = none ∧ c.idleTimer = .closing
  guard_some : c.guard ≠ none → c.idleTimer = .active

/-- When an event can happen: data only while the connection is being read, the close
callback in two parts once the socket is closing. -/
def Event.Enabled (c : ClientState) : Event → Prop
  | .data _ _ => c.closing = false
  | .closeStarted => c.socket.phase = .closing
  | .closeFinished => c.closing = true
  | _ => True

namespace Ok
variable {c : ClientState}

theorem closing_of_active (h : c.Ok) (hactive : c.socket.phase = .active) : c.closing = false := by
  by_contra hclosing
  rw [Bool.not_eq_false, h.closing_iff, hactive] at hclosing
  cases hclosing

/-- Most events only act on the socket. -/
theorem withSocket (h : c.Ok) {s : Socket} (hs : s.Follows c.socket) (w : Bool)
    (b : Option Text) :
    Ok { c with socket := s, writeInFlight := w, pendingWriteBuffer := b } where
  recv := ⟨h.recv.count_eq, h.recv.len_eq⟩
  socket := hs.ok
  closing_iff := h.closing_iff.trans hs.closed_iff.symm
  recv_nil := h.recv_nil
  guard_none := h.guard_none
  guard_some := h.guard_some

theorem recvNewBuffer (h : c.Ok) (hopen : c.closing = false) (rb : ReadBuffer) :
    (c.recvNewBuffer rb).Ok where
  recv := h.recv.recvNewBuffer rb
  socket := h.socket
  closing_iff := h.closing_iff
  recv_nil hc := by
    have hc' : c.closing = true := hc
    rw [hopen] at hc'
    cases hc'
  guard_none := h.guard_none
  guard_some := h.guard_some

theorem clearBuffer (h : c.Ok) : c.clearBuffer.Ok where
  recv := recvOk_clearBuffer c
  socket := h.socket
  closing_iff := h.closing_iff
  recv_nil _ := rfl
  guard_none := h.guard_none
  guard_some := h.guard_some

theorem finishMessage (h : c.Ok) (rc : ℕ) : (c.finishMessage rc).1.Ok := by
  unfold ClientState.finishMessage
  split_ifs
  · exact h
  · exact h.clearBuffer

theorem onData (h : c.Ok) (hopen : c.closing = false) {parse : Text → PhrResult}
    {rb : ReadBuffer} {handler : Bool} {eff : Effect}
    (hs : c.onData parse rb handler = some eff) : eff.client.Ok := by
  rcases onData_cases hs with ⟨-, next, hproc, -⟩ | ⟨-, rc, -, ⟨text, rfl⟩ | rfl⟩
  · rcases processHttp1Request_cases hproc with ⟨-, hc, -⟩ | ⟨-, hc, -⟩ |
      ⟨n, method, path, headers, -, -, ⟨-, hc, -⟩ | ⟨-, -, hc, -⟩⟩
    · rw [hc]
      exact h.recvNewBuffer hopen rb
    · rw [hc]
      exact (h.recvNewBuffer hopen rb).withSocket h.socket.closeUnlessClosing _ _
    · rw [hc]
      exact h.clearBuffer.withSocket h.socket.readStop _ _
    · rw [hc]
      exact h.clearBuffer.withSocket ⟨h.socket, Iff.rfl⟩ _ _
  · exact h.recvNewBuffer hopen rb
  · exact (h.recvNewBuffer hopen rb).finishMessage rc

theorem writeDone (h : c.Ok) {ok : Bool} {c' : ClientState} (hs : c.writeDone ok = some c') :
    c'.Ok := by
  unfold ClientState.writeDone at hs
  split at hs
  · cases hs
  · next cb rest hwrites =>
    have hpop : Socket.Ok { c.socket with writes := rest } := ⟨h.socket.reading, h.socket.connected⟩
    split at hs <;> cases hs
    · exact h.withSocket ⟨hpop.readStart.ok, hpop.readStart.closed_iff⟩ _ _
    · exact h.withSocket ⟨hpop.readStart.ok, hpop.readStart.closed_iff⟩ _ _
    · exact h.withSocket ⟨(hpop.startShutdown ok).ok, (hpop.startShutdown ok).closed_iff⟩ _ _
    · exact h.withSocket ⟨hpop, Iff.rfl⟩ _ _

theorem closeStarted (h : c.Ok) (hclosing : c.socket.phase = .closing) : c.closeStarted.Ok where
  recv := ⟨rfl, rfl⟩
  socket := by
    have hdisconnected : c.socket.connected ≠ true := by
      intro hc
      rw [h.socket.connected hc] at hclosing
      cases hclosing
    exact ⟨fun hr => absurd (h.socket.reading hr) hdisconnected, fun hc => absurd hc hdisconnected⟩
  closing_iff := by simp [ClientState.closeStarted]
  recv_nil _ := rfl
  guard_none hg := ⟨rfl, (h.guard_none hg).2⟩
  guard_some := h.guard_some

theorem closeFinished (h : c.Ok) (hclosing : c.closing = true) : c.closeFinished.Ok where
  recv := ⟨h.recv.count_eq, h.recv.len_eq⟩
  socket := h.socket
  closing_iff := h.closing_iff
  recv_nil := h.recv_nil
  guard_none _ := ⟨hclosing, rfl, rfl⟩
  guard_some hg := absurd rfl hg

theorem startAbort (h : c.Ok) {ok : Bool} {c' : ClientState} (hs : c.startAbort ok = some c') :
    c'.Ok := by
  have hwrite := h.socket.write .onAbortWrite ok
  obtain ⟨s, rfl, ⟨rfl, -⟩ | ⟨hclose, -⟩⟩ := startAbort_cases hs
  · exact h.withSocket hwrite _ _
  · have hfollows := Socket.Ok.close hclose
    exact h.withSocket ⟨hfollows.ok, hfollows.closed_iff.trans hwrite.closed_iff⟩ _ _

theorem handshake (h : c.Ok) (ws : WebSocket) (ok : Bool) :
    (c.completeProtocolUpgradeHandshake ws ok).Ok := by
  unfold completeProtocolUpgradeHandshake
  split_ifs with hclosing
  · exact h
  · have hwrite := h.socket.write .freeRequest ok
    refine ⟨⟨h.recv.count_eq, h.recv.len_eq⟩, hwrite.ok, h.closing_iff.trans hwrite.closed_iff.symm,
      h.recv_nil, fun hg => ?_, h.guard_some⟩
    exact absurd (h.guard_none hg).1 hclosing

theorem step (h : c.Ok) {e : Event} (he : e.Enabled c) {parse : Text → PhrResult} {eff : Effect}
    (hs : c.step parse e = some eff) : eff.client.Ok := by
  cases e with
  | data rb handler => exact h.onData he hs
  | readFailed =>
    cases hs
    exact h.withSocket h.socket.closeUnlessClosing _ _
  | messageDone rc =>
    cases hs
    exact h.finishMessage rc
  | handshake ws ok =>
    cases hs
    exact h.handshake ws ok
  | send isStatic body ok =>
    cases hs
    unfold startSend
    split_ifs
    · exact h.withSocket (h.socket.write _ ok) _ _
    · exact h.withSocket (h.socket.write _ ok) _ _
  | notFound ok =>
    cases hs
    exact h.withSocket (h.socket.write _ ok) _ _
  | abort ok =>
    obtain ⟨c', hc', rfl⟩ := Option.map_eq_some_iff.mp hs
    exact h.startAbort hc'
  | sendFrame ok =>
    cases hs
    exact h.withSocket (h.socket.write _ ok) _ _
  | writeDone ok =>
    obtain ⟨c', hc', rfl⟩ := Option.map_eq_some_iff.mp hs
    exact h.writeDone hc'
  | shutdownDone =>
    obtain ⟨-, s, hclose, rfl⟩ := shutdownDone_spec hs
    have hfollows := Socket.Ok.close hclose
    exact h.withSocket ⟨hfollows.ok, hfollows.closed_iff⟩ _ _
  | idleTimeout =>
    cases hs
    exact h.withSocket h.socket.closeUnlessClosing _ _
  | closeStarted =>
    cases hs
    exact h.closeStarted he
  | closeFinished =>
    cases hs
    exact h.closeFinished he

end Ok

/-! ## What an event leaves alone -/

/-- An event keeps the connection's number, and its guard, its WebSocket and its
`closing` flag outside the close callback; buffers come in with data and go out by being released. -/
structure Keeps (c : ClientState) (e : Event) (eff : Effect) : Prop where
  conn : eff.client.conn = c.conn
  guard : e ≠ .closeFinished → eff.client.guard = c.guard
  closing : e ≠ .closeStarted → eff.client.closing = c.closing
  activeWs : e ≠ .closeFinished → c.activeWs.isSome → eff.client.activeWs.isSome
  recv : eff.client.recv ++ eff.released = c.recv ++ e.buffers

theorem finishMessage_keeps (c : ClientState) (rc : ℕ) :
    (c.finishMessage rc).1.conn = c.conn ∧ (c.finishMessage rc).1.guard = c.guard ∧
      (c.finishMessage rc).1.closing = c.closing ∧
      (c.finishMessage rc).1.activeWs = c.activeWs := by
  unfold finishMessage
  split_ifs <;> exact ⟨rfl, rfl, rfl, rfl⟩

theorem onData_keeps {parse : Text → PhrResult} {c : ClientState} {rb : ReadBuffer}
    {handler : Bool} {eff : Effect} (hs : c.onData parse rb handler = some eff) :
    Keeps c (.data rb handler) eff := by
  have hrecv := onData_recv hs
  rcases onData_cases hs with ⟨-, next, hproc, -⟩ | ⟨-, rc, -, ⟨text, rfl⟩ | rfl⟩
  · rcases processHttp1Request_cases hproc with ⟨-, hc, -⟩ | ⟨-, hc, -⟩ |
      ⟨n, method, path, headers, -, -, ⟨-, hc, -⟩ | ⟨-, -, hc, -⟩⟩
    all_goals
      refine ⟨by rw [hc]; rfl, fun _ => by rw [hc]; rfl, fun _ => by rw [hc]; rfl, ?_, hrecv⟩
      rw [hc]
      exact fun _ hws => hws
  · exact ⟨rfl, fun _ => rfl, fun _ => rfl, fun _ hws => hws, hrecv⟩
  · obtain ⟨hconn, hguard, hclosing, hws⟩ := finishMessage_keeps (c.recvNewBuffer rb) rc
    exact ⟨hconn, fun _ => hguard, fun _ => hclosing, fun _ h => hws ▸ h, hrecv⟩

theorem writeDone_keeps {c c' : ClientState} {ok : Bool} (hs : c.writeDone ok = some c') :
    c'.conn = c.conn ∧ c'.guard = c.guard ∧ c'.closing = c.closing ∧ c'.activeWs = c.activeWs ∧
      c'.recv = c.recv := by
  unfold writeDone at hs
  split at hs
  · cases hs
  · split at hs <;> cases hs <;> exact ⟨rfl, rfl, rfl, rfl, rfl⟩

theorem step_keeps {parse : Text → PhrResult} {c : ClientState} {e : Event} {eff : Effect}
    (hs : c.step parse e = some eff) : Keeps c e eff := by
  cases e with
  | data rb handler => exact onData_keeps hs
  | messageDone rc =>
    cases hs
    obtain ⟨hconn, hguard, hclosing, hws⟩ := finishMessage_keeps c rc
    refine ⟨hconn, fun _ => hguard, fun _ => hclosing, fun _ h => hws ▸ h, ?_⟩
    simpa [Event.buffers] using finishMessage_recv c rc
  | handshake ws ok =>
    cases hs
    unfold completeProtocolUpgradeHandshake
    split_ifs
    · exact ⟨rfl, fun _ => rfl, fun _ => rfl, fun _ h => h, rfl⟩
    · exact ⟨rfl, fun _ => rfl, fun _ => rfl, fun _ _ => rfl, rfl⟩
  | send isStatic body ok =>
    cases hs
    unfold startSend
    split_ifs <;> exact ⟨rfl, fun _ => rfl, fun _ => rfl, fun _ h => h, rfl⟩
  | abort ok =>
    obtain ⟨c', hc', rfl⟩ := Option.map_eq_some_iff.mp hs
    obtain ⟨s, rfl, -⟩ := startAbort_cases hc'
    exact ⟨rfl, fun _ => rfl, fun _ => rfl, fun _ h => h, rfl⟩
  | writeDone ok =>
    obtain ⟨c', hc', rfl⟩ := Option.map_eq_some_iff.mp hs
    obtain ⟨hconn, hguard, hclosing, hws, hrecv⟩ := writeDone_keeps hc'
    exact ⟨hconn, fun _ => hguard, fun _ => hclosing, fun _ h => hws ▸ h, by rw [hrecv]; rfl⟩
  | shutdownDone =>
    obtain ⟨-, s, -, rfl⟩ := shutdownDone_spec hs
    exact ⟨rfl, fun _ => rfl, fun _ => rfl, fun _ h => h, rfl⟩
  | closeStarted =>
    cases hs
    exact ⟨rfl, fun _ => rfl, fun he => absurd rfl he, fun _ h => h,
      by simp [closeStarted, clearBuffer, Event.buffers]⟩
  | closeFinished =>
    cases hs
    exact ⟨rfl, fun he => absurd rfl he, fun _ => rfl, fun he => absurd rfl he, rfl⟩
  | readFailed | notFound | sendFrame | idleTimeout =>
    cases hs
    exact ⟨rfl, fun _ => rfl, fun _ => rfl, fun _ h => h, rfl⟩

/-- The guard is given up at the end of the close callback and never taken again. -/
theorem guard_of_step {parse : Text → PhrResult} {c : ClientState} {e : Event} {eff : Effect}
    (hs : c.step parse e = some eff) (hguard : eff.client.guard ≠ none) :
    e ≠ .closeFinished ∧ c.guard ≠ none := by
  have he : e ≠ .closeFinished := by
    rintro rfl
    cases hs
    exact hguard rfl
  rw [(step_keeps hs).guard he] at hguard
  exact ⟨he, hguard⟩

/-! ## The right to answer -/

/-- The callback of the write of a response, which clears `write_in_flight`. -/
def isResponse (cb : WriteCb) : Bool := cb == .onStaticWrite || cb == .onWrite

/-- The end of a write: of a response, of an abort, or of something the connection keeps
no account of. -/
theorem writeDone_cases {c c' : ClientState} {ok : Bool} (hs : c.writeDone ok = some c') :
    ∃ cb rest, c.socket.writes = cb :: rest ∧
      ((isResponse cb = true ∧ c'.writeInFlight = false ∧ c'.connProtocol = c.connProtocol ∧
          c'.activeWs = c.activeWs ∧
          c'.socket = ({ c.socket with writes := rest } : Socket).readStart) ∨
        (cb = .onAbortWrite ∧
          c' = { c with socket := ({ c.socket with writes := rest } : Socket).startShutdown ok }) ∨
        (cb = .freeRequest ∧ c' = { c with socket := { c.socket with writes := rest } })) := by
  unfold writeDone at hs
  split at hs
  · cases hs
  · next cb rest hwrites =>
    refine ⟨cb, rest, hwrites, ?_⟩
    cases cb with
    | onStaticWrite | onWrite =>
      cases hs
      exact .inl ⟨rfl, rfl, rfl, rfl, rfl⟩
    | onAbortWrite =>
      cases hs
      exact .inr (.inl ⟨rfl, rfl⟩)
    | freeRequest =>
      cases hs
      exact .inr (.inr ⟨rfl, rfl⟩)

def pending (s : Socket) : ℕ := s.writes.countP isResponse

@[simp] theorem pending_readStart (s : Socket) : pending s.readStart = pending s := by
  unfold Socket.readStart
  split_ifs <;> rfl

theorem pending_of_close {s s' : Socket} (h : s.close = some s') : pending s' = pending s := by
  unfold Socket.close at h
  split_ifs at h
  cases h
  rfl

@[simp] theorem pending_closeUnlessClosing (s : Socket) :
    pending s.closeUnlessClosing = pending s := by
  unfold Socket.closeUnlessClosing
  cases h : s.close with
  | none => rfl
  | some s' => exact pending_of_close h

@[simp] theorem pending_startShutdown (s : Socket) (ok : Bool) :
    pending (s.startShutdown ok) = pending s := by
  unfold Socket.startShutdown
  split_ifs <;> rfl

theorem pending_write_le (s : Socket) (cb : WriteCb) (ok : Bool) :
    pending (s.write cb ok).1 ≤ pending s + if isResponse cb then 1 else 0 := by
  unfold Socket.write
  split_ifs <;> simp [pending, List.countP_append, *]

/-- `u` rights to answer are held outside the connection; with the pending writes and
the WebSocket there is at most one, and none unless `write_in_flight` is set. -/
def Budget (c : ClientState) (u : ℕ) : Prop :=
  u + pending c.socket + (if c.activeWs.isSome then 1 else 0) ≤ if c.writeInFlight then 1 else 0

/-- The rights an event uses up. -/
def Event.cost : Event → ℕ
  | .handshake _ _ | .send _ _ _ | .notFound _ | .abort _ => 1
  | _ => 0

/-- The rights handed out with what is left to do. -/
def Next.gain : Next → ℕ
  | .upgrade _ _ | .request _ => 1
  | _ => 0

namespace Budget
variable {c c' : ClientState} {u : ℕ}

theorem mono {v : ℕ} (h : c.Budget u) (hv : v ≤ u) : c.Budget v := by
  unfold Budget at h ⊢
  omega

/-- Events that start no response and touch nothing but the socket. -/
theorem of_pending_le (h : c.Budget u) (hw : c'.writeInFlight = c.writeInFlight)
    (hws : c'.activeWs = c.activeWs) (hp : pending c'.socket ≤ pending c.socket) :
    c'.Budget u := by
  unfold Budget at h ⊢
  rw [hw, hws]
  omega

/-- The write of a response was the one right that was out. -/
theorem answered (h : c.Budget u) (hws : c'.activeWs = c.activeWs)
    (hp : pending c.socket = pending c'.socket + 1) : c'.Budget u := by
  unfold Budget at h ⊢
  rw [hws]
  split_ifs at h ⊢ <;> omega

theorem onData {parse : Text → PhrResult} {rb : ReadBuffer} {handler : Bool} {eff : Effect}
    (h : c.Budget u) (hs : c.onData parse rb handler = some eff) :
    eff.client.Budget (u + eff.next.gain) := by
  rcases onData_cases hs with ⟨-, next, hproc, hnext⟩ | ⟨-, rc, -, ⟨text, rfl⟩ | rfl⟩
  · rcases processHttp1Request_cases hproc with ⟨-, hc, -, rfl⟩ | ⟨-, hc, -, rfl⟩ |
      ⟨n, method, path, headers, -, -, ⟨-, hc, rfl⟩ | ⟨hidle, -, hc, rfl⟩⟩
    · rw [hc, hnext]
      exact h
    · rw [hc, hnext]
      exact h.of_pending_le rfl rfl (by simp)
    · rw [hc, hnext]
      exact h.of_pending_le rfl rfl (Nat.le_refl _)
    · -- a request is taken only when no right was out
      have hgain : eff.next.gain ≤ 1 := by
        rw [hnext]
        split_ifs <;> simp [Http1Next.toNext, Next.gain]
      unfold Budget at h ⊢
      rw [hc]
      simp only [hidle, Bool.false_eq_true, if_false, clearBuffer, if_true] at h ⊢
      omega
  · exact h
  · unfold finishMessage
    split_ifs <;> exact h

theorem writeDone {ok : Bool} (h : c.Budget u) (hs : c.writeDone ok = some c') :
    c'.Budget u := by
  obtain ⟨cb, rest, hwrites, hcases⟩ := writeDone_cases hs
  have hpending : pending c.socket = rest.countP isResponse + if isResponse cb then 1 else 0 := by
    rw [pending, hwrites, List.countP_cons]
  rcases hcases with ⟨hcb, -, -, hws, hsocket⟩ | ⟨rfl, rfl⟩ | ⟨rfl, rfl⟩
  · apply h.answered hws
    rw [hsocket, pending_readStart, hpending, if_pos hcb]
    rfl
  · refine h.of_pending_le rfl rfl ?_
    rw [pending_startShutdown]
    exact hpending.ge
  · exact h.of_pending_le rfl rfl hpending.ge

/-- Starting a write keeps the budget when the right it needs is given up. -/
theorem write (cb : WriteCb) {ok : Bool} (h : c.Budget (u + if isResponse cb then 1 else 0))
    (hw : c'.writeInFlight = c.writeInFlight) (hws : c'.activeWs = c.activeWs)
    (hs : c'.socket = (c.socket.write cb ok).1) : c'.Budget u := by
  have hle := pending_write_le c.socket cb ok
  unfold Budget at h ⊢
  rw [hw, hws, hs]
  omega

theorem startAbort {ok : Bool} (h : c.Budget u) (hs : c.startAbort ok = some c') :
    c'.Budget u := by
  have hle := pending_write_le c.socket .onAbortWrite ok
  obtain ⟨s, rfl, ⟨rfl, -⟩ | ⟨hclose, -⟩⟩ := startAbort_cases hs
  · exact h.of_pending_le rfl rfl hle
  · exact h.of_pending_le rfl rfl ((pending_of_close hclose).trans_le hle)

theorem step {e : Event} {parse : Text → PhrResult} {eff : Effect} (h : c.Budget (u + e.cost))
    (hs : c.step parse e = some eff) : eff.client.Budget (u + eff.next.gain) := by
  cases e with
  | data rb handler => exact h.onData hs
  | readFailed | idleTimeout =>
    cases hs
    exact h.of_pending_le rfl rfl (pending_closeUnlessClosing _).le
  | messageDone rc =>
    cases hs
    unfold finishMessage
    split_ifs <;> exact h
  | handshake ws ok =>
    cases hs
    unfold completeProtocolUpgradeHandshake
    split_ifs with hclosing
    · exact h.mono (Nat.le_succ u)
    · have hle : pending (c.socket.write .freeRequest ok).1 ≤ pending c.socket :=
        pending_write_le c.socket .freeRequest ok
      unfold Budget at h ⊢
      change u + 1 + pending c.socket + _ ≤ _ at h
      change u + pending (c.socket.write .freeRequest ok).1 + 1 ≤ if c.writeInFlight then 1 else 0
      omega
  | send isStatic body ok =>
    cases hs
    unfold startSend
    split_ifs
    · exact write .onStaticWrite h rfl rfl rfl
    · exact write .onWrite h rfl rfl rfl
  | notFound ok =>
    cases hs
    exact write .onStaticWrite h rfl rfl rfl
  | abort ok =>
    obtain ⟨c', hc', rfl⟩ := Option.map_eq_some_iff.mp hs
    exact (h.mono (Nat.le_succ u)).startAbort hc'
  | sendFrame ok =>
    cases hs
    exact write .freeRequest h rfl rfl rfl
  | writeDone ok =>
    obtain ⟨c', hc', rfl⟩ := Option.map_eq_some_iff.mp hs
    exact h.writeDone hc'
  | shutdownDone =>
    obtain ⟨-, s, hclose, rfl⟩ := shutdownDone_spec hs
    exact h.of_pending_le rfl rfl (pending_of_close hclose).le
  | closeStarted =>
    cases hs
    exact h
  | closeFinished =>
    cases hs
    unfold Budget at h ⊢
    change u + pending c.socket + 0 ≤ if c.writeInFlight then 1 else 0
    change u + pending c.socket + _ ≤ _ at h
    omega

end Budget
end ClientState
end CapyJs.Server
