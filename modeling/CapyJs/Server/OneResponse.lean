import CapyJs.Server.KeepAlive
import CapyJs.Server.LocalRun

/-!
# One response at a time

When no response is aborted and `uv_write` fails only on a closing socket, an open HTTP
connection whose `write_in_flight` is set has one live response or one pending response
write, and it has neither otherwise. Reading that was stopped is restarted by the end of
that write.
-/
namespace CapyJs.Server

open CapyJs.Http CapyJs.Pool CapyJs.Transition ClientState

/-! ## Pending writes -/

namespace Socket
variable {s : Socket}

@[simp] theorem readStart_writes : s.readStart.writes = s.writes := by
  unfold readStart
  split_ifs <;> rfl

@[simp] theorem readStart_shutdown : s.readStart.shutdown = s.shutdown := by
  unfold readStart
  split_ifs <;> rfl

@[simp] theorem readStart_connected : s.readStart.connected = s.connected := by
  unfold readStart
  split_ifs <;> rfl

theorem reading_readStart (hactive : s.phase = .active) (hconnected : s.connected = true) :
    s.readStart.reading = true := by
  rw [readStart, if_pos ⟨hactive, hconnected⟩]

@[simp] theorem startShutdown_reading (ok : Bool) : (s.startShutdown ok).reading = s.reading := by
  unfold startShutdown
  split_ifs <;> rfl

@[simp] theorem startShutdown_connected (ok : Bool) :
    (s.startShutdown ok).connected = s.connected := by
  unfold startShutdown
  split_ifs <;> rfl

@[simp] theorem startShutdown_writes (ok : Bool) : (s.startShutdown ok).writes = s.writes := by
  unfold startShutdown
  split_ifs <;> rfl

theorem close_keeps {s' : Socket} (h : s.close = some s') :
    s'.writes = s.writes ∧ s'.shutdown = s.shutdown := by
  unfold close at h
  split_ifs at h
  cases h
  exact ⟨rfl, rfl⟩

theorem closeUnlessClosing_keeps :
    s.closeUnlessClosing.writes = s.writes ∧ s.closeUnlessClosing.shutdown = s.shutdown := by
  unfold closeUnlessClosing
  cases h : s.close with
  | none => exact ⟨rfl, rfl⟩
  | some s' => exact close_keeps h

theorem write_writes (cb : WriteCb) (ok : Bool) :
    (s.write cb ok).1.writes = s.writes ∨ (s.write cb ok).1.writes = s.writes ++ [cb] := by
  unfold write
  split_ifs
  · exact .inr rfl
  · exact .inl rfl

@[simp] theorem write_shutdown (cb : WriteCb) (ok : Bool) :
    (s.write cb ok).1.shutdown = s.shutdown := by
  unfold write
  split_ifs <;> rfl

@[simp] theorem write_reading (cb : WriteCb) (ok : Bool) :
    (s.write cb ok).1.reading = s.reading := by
  unfold write
  split_ifs <;> rfl

@[simp] theorem write_connected (cb : WriteCb) (ok : Bool) :
    (s.write cb ok).1.connected = s.connected := by
  unfold write
  split_ifs <;> rfl

end Socket

namespace ClientState
variable {parse : Text → PhrResult} {c : ClientState} {e : Event} {eff : Effect} {u : ℕ}

/-- The callback of the write that an event starts. -/
def Event.callback : Event → Option WriteCb
  | .send isStatic _ _ => some (if isStatic then .onStaticWrite else .onWrite)
  | .notFound _ => some .onStaticWrite
  | .abort _ => some .onAbortWrite
  | .handshake _ _ | .sendFrame _ => some .freeRequest
  | _ => none

/-- Data leave the socket alone but for closing it and for stopping to read it. -/
theorem onData_socket {rb : ReadBuffer} {handler : Bool}
    (hs : c.onData parse rb handler = some eff) :
    eff.client.socket.writes = c.socket.writes ∧
      eff.client.socket.shutdown = c.socket.shutdown := by
  rcases onData_cases hs with ⟨-, next, hproc, -⟩ | ⟨-, rc, -, ⟨text, rfl⟩ | rfl⟩
  · rcases processHttp1Request_cases hproc with ⟨-, hc, -⟩ | ⟨-, hc, -⟩ |
      ⟨n, method, path, headers, -, -, ⟨-, hc, -⟩ | ⟨-, -, hc, -⟩⟩
    · rw [hc]
      exact ⟨rfl, rfl⟩
    · rw [hc]
      exact Socket.closeUnlessClosing_keeps
    · rw [hc]
      exact ⟨rfl, rfl⟩
    · rw [hc]
      exact ⟨rfl, rfl⟩
  · exact ⟨rfl, rfl⟩
  · unfold finishMessage
    split_ifs <;> exact ⟨rfl, rfl⟩

/-- An event starts at most one write and ends at most one, the oldest. -/
theorem step_writes (hs : c.step parse e = some eff) :
    eff.client.socket.writes = c.socket.writes ∨
      (∃ cb, e.callback = some cb ∧ eff.client.socket.writes = c.socket.writes ++ [cb]) ∨
      ∃ ok cb, e = .writeDone ok ∧ c.socket.writes = cb :: eff.client.socket.writes := by
  have hstarted : ∀ (cb : WriteCb) (ok : Bool), e.callback = some cb →
      eff.client.socket.writes = (c.socket.write cb ok).1.writes →
      eff.client.socket.writes = c.socket.writes ∨
        (∃ cb, e.callback = some cb ∧ eff.client.socket.writes = c.socket.writes ++ [cb]) ∨
        ∃ ok cb, e = .writeDone ok ∧ c.socket.writes = cb :: eff.client.socket.writes := by
    intro cb ok hcb heq
    rcases Socket.write_writes (s := c.socket) cb ok with hsame | hmore
    · exact .inl (heq.trans hsame)
    · exact .inr (.inl ⟨cb, hcb, heq.trans hmore⟩)
  cases e with
  | data rb handler => exact .inl (onData_socket hs).1
  | readFailed | idleTimeout =>
    cases hs
    exact .inl Socket.closeUnlessClosing_keeps.1
  | messageDone rc =>
    cases hs
    unfold finishMessage
    split_ifs <;> exact .inl rfl
  | handshake ws ok =>
    cases hs
    by_cases hclosing : c.closing = true
    · rw [completeProtocolUpgradeHandshake, if_pos hclosing]
      exact .inl rfl
    · apply hstarted _ ok rfl
      rw [completeProtocolUpgradeHandshake, if_neg hclosing]
  | send isStatic body ok =>
    cases hs
    apply hstarted _ ok rfl
    cases isStatic <;> rfl
  | notFound ok =>
    cases hs
    exact hstarted _ ok rfl rfl
  | sendFrame ok =>
    cases hs
    exact hstarted _ ok rfl rfl
  | abort ok =>
    obtain ⟨c', hc', rfl⟩ := Option.map_eq_some_iff.mp hs
    apply hstarted _ ok rfl
    obtain ⟨s, rfl, ⟨rfl, -⟩ | ⟨hclose, -⟩⟩ := startAbort_cases hc'
    · rfl
    · exact (Socket.close_keeps hclose).1
  | writeDone ok =>
    obtain ⟨c', hc', rfl⟩ := Option.map_eq_some_iff.mp hs
    obtain ⟨cb, rest, hwrites, hcases⟩ := writeDone_cases hc'
    refine .inr (.inr ⟨ok, cb, rfl, ?_⟩)
    rw [hwrites]
    rcases hcases with ⟨-, -, -, -, hsocket⟩ | ⟨-, rfl⟩ | ⟨-, rfl⟩
    · simp [hsocket]
    · simp
    · rfl
  | shutdownDone =>
    obtain ⟨-, s, hclose, rfl⟩ := shutdownDone_spec hs
    have hwrites := (Socket.close_keeps hclose).1
    exact .inl hwrites
  | closeStarted | closeFinished =>
    cases hs
    exact .inl rfl

/-! ## The flag and what it stands for -/

/-- The event aborts no response, and its write of a response is accepted. -/
def Event.accepted : Event → Bool
  | .abort _ => false
  | .send _ _ ok | .notFound ok => ok
  | _ => true

/-- No response of the connection is being aborted, and while the flag of an open HTTP
connection is set a right to answer is out or a response is being written. -/
structure Answered (c : ClientState) (u : ℕ) : Prop where
  noAbort : .onAbortWrite ∉ c.socket.writes
  outstanding : c.socket.phase = .active → c.connProtocol = .http1 → c.writeInFlight = true →
    c.socket.connected = true ∧ 1 ≤ u + pending c.socket

theorem pending_le_write (s : Socket) (cb : WriteCb) (ok : Bool) :
    pending s ≤ pending (s.write cb ok).1 := by
  unfold pending
  rcases s.write_writes cb ok with hsame | hmore
  · rw [hsame]
  · rw [hmore, List.countP_append]
    exact Nat.le_add_right _ _

theorem pending_write_response {s : Socket} {cb : WriteCb} (hconnected : s.connected = true)
    (hcb : isResponse cb = true) : 1 ≤ pending (s.write cb true).1 := by
  simp [Socket.write, pending, hconnected, List.countP_append, hcb]

namespace Answered

theorem noAbort_step (h : c.Answered u) (he : e.accepted = true)
    (hs : c.step parse e = some eff) : .onAbortWrite ∉ eff.client.socket.writes := by
  have hno := h.noAbort
  rcases step_writes hs with hsame | ⟨cb, hcb, hmore⟩ | ⟨ok, cb, -, hless⟩
  · rw [hsame]
    exact hno
  · rw [hmore]
    cases e with
    | abort ok => cases he
    | send isStatic body ok => cases isStatic <;> cases hcb <;> simpa using hno
    | handshake | sendFrame | notFound =>
      cases hcb
      simpa using hno
    | _ => cases hcb
  · intro hmem
    rw [hless] at hno
    exact hno (List.mem_cons_of_mem _ hmem)

theorem data (hok : c.Ok) {rb : ReadBuffer} {handler : Bool} (hreading : c.socket.reading = true)
    (h : c.Answered u) (hs : c.onData parse rb handler = some eff)
    (hopen : eff.client.socket.phase = .active) (hhttp : eff.client.connProtocol = .http1)
    (hflag : eff.client.writeInFlight = true) :
    eff.client.socket.connected = true ∧ 1 ≤ u + eff.next.gain + pending eff.client.socket := by
  rcases onData_cases hs with ⟨-, next, hproc, hnext⟩ | ⟨hws, rc, -, ⟨text, rfl⟩ | rfl⟩
  · rcases processHttp1Request_cases hproc with ⟨-, hc, -, rfl⟩ | ⟨-, hc, -, rfl⟩ |
      ⟨n, method, path, headers, -, -, ⟨-, hc, rfl⟩ | ⟨-, -, hc, hgain⟩⟩
    · rw [hc] at hopen hhttp hflag ⊢
      rw [hnext]
      exact h.outstanding hopen hhttp hflag
    · rw [hc] at hopen
      exact absurd hopen Socket.closeUnlessClosing_phase
    · rw [hc] at hopen hhttp hflag ⊢
      rw [hnext]
      exact h.outstanding hopen hhttp hflag
    · -- the right of the request that has been taken
      rw [hc]
      refine ⟨hok.socket.reading hreading, ?_⟩
      have hone : eff.next.gain = 1 := by
        rw [hnext, hgain]
        split_ifs <;> rfl
      omega
  · exact absurd (hws.symm.trans hhttp) nofun
  · have hproto : ((c.recvNewBuffer rb).finishMessage rc).1.connProtocol = c.connProtocol := by
      unfold finishMessage
      split_ifs <;> rfl
    exact absurd (hws.symm.trans (hproto.symm.trans hhttp)) nofun

/-- The write of a response takes the place of the response. -/
theorem started {c' : ClientState} {v w : ℕ} (h : c.Answered v) (cb : WriteCb)
    (hcb : isResponse cb = true) (hactive : c.socket.phase = .active)
    (hhttp : c.connProtocol = .http1) (hflag : c.writeInFlight = true)
    (hsocket : c'.socket = (c.socket.write cb true).1) :
    c'.socket.connected = true ∧ 1 ≤ w + pending c'.socket := by
  obtain ⟨hconnected, -⟩ := h.outstanding hactive hhttp hflag
  rw [hsocket]
  refine ⟨(Socket.write_connected ..).trans hconnected, ?_⟩
  exact (pending_write_response hconnected hcb).trans (Nat.le_add_left _ _)

theorem writeDone {ok : Bool} {c' : ClientState} (h : c.Answered u)
    (hs : c.writeDone ok = some c') (hactive : c.socket.phase = .active)
    (hhttp : c'.connProtocol = .http1) (hflag : c'.writeInFlight = true) :
    c'.socket.connected = true ∧ 1 ≤ u + pending c'.socket := by
  obtain ⟨cb, rest, hwrites, ⟨-, hclear, -⟩ | ⟨rfl, -⟩ | ⟨rfl, rfl⟩⟩ := writeDone_cases hs
  · rw [hclear] at hflag
    cases hflag
  · -- nothing is being aborted
    refine absurd ?_ h.noAbort
    rw [hwrites]
    exact List.mem_cons_self
  · have hsame := h.outstanding hactive hhttp hflag
    rw [pending, hwrites] at hsame
    exact hsame

theorem step (hok : c.Ok) (hready : e.Ready c) (he : e.accepted = true)
    (h : c.Answered (u + e.cost)) (hs : c.step parse e = some eff) :
    eff.client.Answered (u + eff.next.gain) := by
  refine ⟨h.noAbort_step he hs, fun hopen hhttp hflag => ?_⟩
  have hactive := step_active hs hopen
  cases e with
  | data rb handler =>
    exact h.data hok (hready.reading rb handler rfl) hs hopen hhttp hflag
  | abort ok => cases he
  | readFailed | idleTimeout =>
    cases hs
    exact absurd hopen Socket.closeUnlessClosing_phase
  | messageDone rc =>
    cases hs
    unfold finishMessage at hopen hhttp hflag ⊢
    split_ifs at hopen hhttp hflag ⊢ <;> exact h.outstanding hopen hhttp hflag
  | handshake ws ok =>
    cases hs
    unfold completeProtocolUpgradeHandshake at hhttp
    rw [hok.closing_of_active hactive] at hhttp
    cases hhttp
  | send isStatic body ok =>
    cases hs
    cases he
    cases isStatic
    · exact h.started .onWrite rfl hactive hhttp hflag rfl
    · exact h.started .onStaticWrite rfl hactive hhttp hflag rfl
  | notFound ok =>
    cases hs
    cases he
    exact h.started .onStaticWrite rfl hactive hhttp hflag rfl
  | sendFrame ok =>
    cases hs
    obtain ⟨hconnected, hone⟩ := h.outstanding hactive hhttp hflag
    refine ⟨(Socket.write_connected ..).trans hconnected, ?_⟩
    exact hone.trans (Nat.add_le_add_left (pending_le_write c.socket .freeRequest ok) _)
  | writeDone ok =>
    obtain ⟨c', hc', rfl⟩ := Option.map_eq_some_iff.mp hs
    exact h.writeDone hc' hactive hhttp hflag
  | shutdownDone =>
    obtain ⟨-, s, hclose, rfl⟩ := shutdownDone_spec hs
    exact absurd ((Socket.close_phase hclose).symm.trans hopen) nofun
  | closeStarted =>
    cases hs
    cases hopen
  | closeFinished =>
    cases hs
    exact h.outstanding hopen hhttp hflag

end Answered

/-! ## Reading -/

/-- Only data set the flag, and only the end of a write clears it. -/
theorem step_flag (hs : c.step parse e = some eff) (hdata : ∀ rb handler, e ≠ .data rb handler)
    (hdone : ∀ ok, e ≠ .writeDone ok) : eff.client.writeInFlight = c.writeInFlight := by
  cases e with
  | data rb handler => exact absurd rfl (hdata rb handler)
  | writeDone ok => exact absurd rfl (hdone ok)
  | messageDone rc =>
    cases hs
    unfold finishMessage
    split_ifs <;> rfl
  | handshake ws ok =>
    cases hs
    unfold completeProtocolUpgradeHandshake
    split_ifs <;> rfl
  | send isStatic body ok =>
    cases hs
    cases isStatic <;> rfl
  | abort ok =>
    obtain ⟨c', hc', rfl⟩ := Option.map_eq_some_iff.mp hs
    obtain ⟨s, rfl, -⟩ := startAbort_cases hc'
    rfl
  | shutdownDone =>
    obtain ⟨-, s, -, rfl⟩ := shutdownDone_spec hs
    rfl
  | readFailed | idleTimeout | notFound | sendFrame | closeStarted | closeFinished =>
    cases hs
    rfl

/-- Only data stop the reading of an open connection, and only the end of a write starts
it again. -/
theorem step_reading (hs : c.step parse e = some eff) (hopen : eff.client.socket.phase = .active)
    (hdata : ∀ rb handler, e ≠ .data rb handler) (hdone : ∀ ok, e ≠ .writeDone ok) :
    eff.client.socket.reading = c.socket.reading ∧
      eff.client.socket.connected = c.socket.connected := by
  cases e with
  | data rb handler => exact absurd rfl (hdata rb handler)
  | writeDone ok => exact absurd rfl (hdone ok)
  | readFailed | idleTimeout =>
    cases hs
    exact absurd hopen Socket.closeUnlessClosing_phase
  | messageDone rc =>
    cases hs
    unfold finishMessage
    split_ifs <;> exact ⟨rfl, rfl⟩
  | handshake ws ok =>
    cases hs
    unfold completeProtocolUpgradeHandshake
    split_ifs
    · exact ⟨rfl, rfl⟩
    · exact ⟨Socket.write_reading .., Socket.write_connected ..⟩
  | send isStatic body ok =>
    cases hs
    cases isStatic
    · exact ⟨Socket.write_reading .., Socket.write_connected ..⟩
    · exact ⟨Socket.write_reading .., Socket.write_connected ..⟩
  | notFound ok | sendFrame ok =>
    cases hs
    exact ⟨Socket.write_reading .., Socket.write_connected ..⟩
  | abort ok =>
    obtain ⟨c', hc', rfl⟩ := Option.map_eq_some_iff.mp hs
    have hreading := Socket.write_reading (s := c.socket) .onAbortWrite ok
    have hconnected := Socket.write_connected (s := c.socket) .onAbortWrite ok
    obtain ⟨s, rfl, ⟨rfl, -⟩ | ⟨hclose, -⟩⟩ := startAbort_cases hc'
    · exact ⟨hreading, hconnected⟩
    · exact absurd ((Socket.close_phase hclose).symm.trans hopen) nofun
  | shutdownDone =>
    obtain ⟨-, s, hclose, rfl⟩ := shutdownDone_spec hs
    exact absurd ((Socket.close_phase hclose).symm.trans hopen) nofun
  | closeStarted =>
    cases hs
    cases hopen
  | closeFinished =>
    cases hs
    exact ⟨rfl, rfl⟩

/-- While it is open, the connection is being read or has a response on its way. -/
def Reads (c : ClientState) : Prop :=
  c.socket.phase = .active →
    c.socket.connected = true ∧ (c.socket.reading = true ∨ c.writeInFlight = true)

namespace Reads

theorem data {rb : ReadBuffer} {handler : Bool} (hclosing : c.closing = false) (h : c.Reads)
    (hs : c.onData parse rb handler = some eff) : eff.client.Reads := by
  rcases onData_cases hs with ⟨-, next, hproc, -⟩ | ⟨-, rc, -, ⟨text, rfl⟩ | rfl⟩
  · rcases processHttp1Request_cases hproc with ⟨-, hc, -⟩ | ⟨-, hc, -⟩ |
      ⟨n, method, path, headers, -, -, ⟨hbusy, hc, -⟩ | ⟨-, -, hc, -⟩⟩
    · rw [hc]
      exact h
    · rw [hc]
      exact fun hopen => absurd hopen Socket.closeUnlessClosing_phase
    · -- a request is dropped because of the response on its way
      rw [hc]
      rw [hclosing, Bool.or_false] at hbusy
      exact fun hopen => ⟨(h hopen).1, .inr hbusy⟩
    · rw [hc]
      exact fun hopen => ⟨(h hopen).1, .inr rfl⟩
  · exact h
  · unfold finishMessage
    split_ifs <;> exact h

theorem writeDone {ok : Bool} {c' : ClientState} (h : c.Reads) (hs : c.writeDone ok = some c') :
    c'.Reads := by
  obtain ⟨cb, rest, -, ⟨-, -, -, -, hsocket⟩ | ⟨-, rfl⟩ | ⟨-, rfl⟩⟩ := writeDone_cases hs
  · intro hopen
    rw [hsocket, Socket.readStart_phase] at hopen
    have hconnected := (h hopen).1
    rw [hsocket, Socket.readStart_connected]
    exact ⟨hconnected, .inl (Socket.reading_readStart hopen hconnected)⟩
  · simpa only [Reads, Socket.startShutdown_phase, Socket.startShutdown_connected,
      Socket.startShutdown_reading] using h
  · exact h

theorem step (hready : e.Ready c) (h : c.Reads) (hs : c.step parse e = some eff) :
    eff.client.Reads := by
  by_cases hdata : ∀ rb handler, e ≠ .data rb handler
  · by_cases hdone : ∀ ok, e ≠ .writeDone ok
    · intro hopen
      obtain ⟨hreading, hconnected⟩ := step_reading hs hopen hdata hdone
      rw [hreading, hconnected, step_flag hs hdata hdone]
      exact h (step_active hs hopen)
    · simp only [not_forall, not_not] at hdone
      obtain ⟨ok, rfl⟩ := hdone
      obtain ⟨c', hc', rfl⟩ := Option.map_eq_some_iff.mp hs
      exact h.writeDone hc'
  · simp only [not_forall, not_not] at hdata
    obtain ⟨rb, handler, rfl⟩ := hdata
    exact h.data hready.enabled hs

end Reads
end ClientState

/-! ## Whole runs -/

/-- No response is aborted, and `uv_write` accepts what it is given; on a socket that is
not connected it fails all the same. -/
def Label.writesAccepted : Label → Bool
  | .abort _ _ => false
  | .read _ _ ok | .send _ _ _ ok | .wsSend _ ok | .jsReturn ok => ok
  | _ => true

theorem Label.accepted_of_causes {s : State} {a : Label} {i : ℕ} {c : ClientState} {e : Event}
    (ha : a.writesAccepted = true) (h : s.Causes a i c e) : e.accepted = true := by
  cases h with
  | send | notFound | abort => exact ha
  | _ => rfl

/-- The pending writes that use the connection's own `write_handle`. -/
def handleWrites (s : Socket) : ℕ := s.writes.countP (· ≠ .freeRequest)

/-- The live responses of the connection in slot `i`. That of an upgrade is deleted after
the handshake. -/
def State.liveResponses (s : State) (i : ℕ) (c : ClientState) : ℕ :=
  answers s.responses c.conn + if s.inSetup i then 1 else 0

/-- The step writes a response to connection `n`, and uses its `write_handle` for that. -/
def State.WritesResponse (s : State) (n : ℕ) (a : Label) (out : List Output) : Prop :=
  (∃ k isStatic body ok r, a = .send k isStatic body ok ∧ s.responses[k]? = some r ∧ r.conn = n) ∨
    ∃ req, .invoked n req none ∈ out

section
variable {parse : Text → PhrResult} {hist out : List Output} {s s' : State} {a : Label} {i : ℕ}
  {c : ClientState}

theorem Settled.rights_eq (hi : Settled hist s) (hlive : s.clients.live i = some c) :
    s.rights c.conn = s.liveResponses i c := by
  unfold State.rights State.liveResponses State.inSetup State.hands
  cases hf : s.frame with
  | none => rfl
  | some f =>
    cases f with
    | message j rc => rfl
    | onClose j => rfl
    | setup j ws =>
      by_cases hj : j = i
      · simp [hj, hlive]
      · have hother : ((s.clients.live j).map ClientState.conn).toList.count c.conn = 0 := by
          apply List.count_eq_zero_of_not_mem
          intro hmem
          obtain ⟨d, hd, hconn⟩ := Option.map_eq_some_iff.mp (Option.mem_toList.mp hmem)
          exact hj (hi.inv.clients.inj j i d c hd hlive hconn)
        simp [hj, hother]

theorem reaches_answered
    (run : ((machine parse).guarded fun _ a => a.writesAccepted = true).Reaches s hist)
    (hlive : s.clients.live i = some c) : c.Answered (s.rights c.conn) := by
  refine reaches_local (K := Answered) (fun g n accepted named => ?_) ?_ ?_ run i c hlive
  · exact ⟨List.not_mem_nil, fun _ _ hflag => absurd hflag nofun⟩
  · intro s a i c e eff u ha hcause hready hok hs h
    exact h.step hok hready (Label.accepted_of_causes ha hcause) hs
  · intro c u hclosed h
    exact ⟨h.noAbort, fun hopen => absurd hopen hclosed⟩

/-- A connection that has been read is read still or has a response on its way, and the
one whose WebSocket is being set up is being read. -/
structure Heard (hist : List Output) (s : State) : Prop where
  accepted : ∀ n bytes, .received n bytes ∈ hist → .accepted n ∈ hist
  reads : ∀ i c bytes, s.clients.live i = some c → .received c.conn bytes ∈ hist → c.Reads
  setup : ∀ i ws c, s.frame = some (.setup i ws) → s.clients.live i = some c →
    c.socket.phase = .active → c.socket.reading = true

namespace Heard

/-- Inside the handler of a WebSocket nothing is read and no write ends. -/
theorem reading_of_setup {ws : WebSocket} {e : Event} (hi : Settled hist s)
    (hf : s.frame = some (.setup i ws)) (hcause : s.Causes a i c e) :
    (∀ rb handler, e ≠ .data rb handler) ∧ ∀ ok, e ≠ .writeDone ok := by
  cases hcause with
  | data hh hlive =>
    have hnone := (hi.handed _ hh).1
    rw [hf] at hnone
    cases hnone
  | writeDone hidle hlive hphase =>
    have hnone := hidle.2
    rw [hf] at hnone
    cases hnone
  | _ => exact ⟨nofun, nofun⟩

theorem step (h : Heard hist s) (hi : Settled hist s) (hreads : s.HandedReads)
    (hs : s.step parse a = some (s', out)) : Heard (hist ++ out) s' := by
  have hwf := hi.inv.clients.wf
  refine ⟨fun n bytes hmem => ?_, fun i c' bytes hlive' hmem => ?_,
    fun i ws c' hf hlive' hopen => ?_⟩
  · apply List.mem_append_left
    rcases List.mem_append.mp hmem with hold | hnew
    · exact h.accepted n bytes hold
    · obtain ⟨hd, c, -, hlive, rfl⟩ := State.received_of_step hwf hs hnew
      exact (mem_openConns.mp (hi.inv.hist.opened.live _ c hlive)).1
  · rcases hi.origin hreads hs hlive' with ⟨-, -, g, accepted, named, rfl⟩ | ⟨c, hlive, hconn, hrun⟩
    · -- nothing has been received on a connection that is new
      rcases List.mem_append.mp hmem with hold | hnew
      · have hlt := hi.inv.hist.opened.accepted_lt _ (h.accepted _ bytes hold)
        exact absurd hlt (Nat.lt_irrefl _)
      · obtain ⟨hd, c, -, hlive, hconn⟩ := State.received_of_step hwf hs hnew
        have hlt := hi.inv.clients.conn_lt _ c hlive
        rw [hconn] at hlt
        exact absurd hlt (Nat.lt_irrefl _)
    · rw [hconn] at hmem
      have hbefore : c.Reads := by
        rcases List.mem_append.mp hmem with hold | hnew
        · exact h.reads i c bytes hlive hold
        · obtain ⟨hd, d, hh, hlived, hdconn⟩ := State.received_of_step hwf hs hnew
          obtain rfl := hi.inv.clients.inj hd.client i d c hlived hlive hdconn
          rw [hlive] at hlived
          cases hlived
          have hreading := hreads hd c hh hlive
          exact fun _ => ⟨(hi.inv.clients.ok _ c hlive).socket.reading hreading, .inl hreading⟩
      refine hrun.invariant (K := fun c _ => c.Reads) ?_ (fun _ _ _ h => h)
        (hi.inv.clients.ok i c hlive) hbefore
      intro c e eff u _ hready _ hstep hc
      exact hc.step hready hstep
  · rcases State.setup_origin hwf hs hf with hf' | ⟨hd, c, d, hh, rfl, hlive, hlived, hsocket⟩
    · rcases hi.origin hreads hs hlive' with ⟨hidle, -⟩ | ⟨c, hlive, hconn, hrun⟩
      · have hnone := hidle.2
        rw [hf'] at hnone
        cases hnone
      · refine hrun.invariant (K := fun c _ => c.socket.phase = .active → c.socket.reading = true)
          ?_ (fun _ _ _ h => h) (hi.inv.clients.ok i c hlive) (h.setup i ws c hf' hlive) hopen
        intro c e eff u hcause _ _ hstep hc hopen'
        obtain ⟨hdata, hdone⟩ := reading_of_setup hi hf' hcause
        rw [(step_reading hstep hopen' hdata hdone).1]
        exact hc (step_active hstep hopen')
    · rw [hlived] at hlive'
      cases hlive'
      rw [hsocket]
      exact hreads hd c hh hlive

end Heard

theorem reaches_heard (run : (machine parse).Reaches s hist) : Heard hist s := by
  have hall : (Settled hist s ∧ s.HandedReads) ∧ Heard hist s := by
    apply run.invariant (I := fun hist s => (Settled hist s ∧ s.HandedReads) ∧ Heard hist s)
    · intro s₀ h
      have hstart : (machine parse).Reaches s₀ [] := .start h
      refine ⟨reaches_handedReads hstart, fun n bytes hmem => absurd hmem List.not_mem_nil,
        fun i c bytes _ hmem => absurd hmem List.not_mem_nil, fun i ws c hf => ?_⟩
      rw [h.frame] at hf
      cases hf
    · intro hist s a s' out ⟨⟨hi, hreads⟩, h⟩ hstep
      exact ⟨⟨hi.step hstep, .step hi.inv.clients.wf hstep⟩, h.step hi hreads hstep⟩
  exact hall.2

theorem ClientState.Answered.handleWrites_eq {u : ℕ} (h : c.Answered u) :
    handleWrites c.socket = pending c.socket := by
  apply List.countP_congr
  intro cb hcb
  cases cb with
  | onAbortWrite => exact absurd hcb h.noAbort
  | _ => rfl

theorem Settled.rights_add_pending (hi : Settled hist s) (hlive : s.clients.live i = some c)
    (h : c.Answered (s.rights c.conn)) (hhttp : c.connProtocol = .http1)
    (hopen : c.socket.phase = .active) :
    s.rights c.conn + pending c.socket = if c.writeInFlight then 1 else 0 := by
  have hbudget : c.Budget (s.rights c.conn) := hi.inv.clients.budget i c hlive
  unfold Budget at hbudget
  cases hflag : c.writeInFlight with
  | false =>
    rw [hflag] at hbudget
    simp only [Bool.false_eq_true, if_false] at hbudget ⊢
    omega
  | true =>
    have hone := (h.outstanding hopen hhttp hflag).2
    rw [hflag] at hbudget
    simp only [if_true] at hbudget ⊢
    omega

/-- The end of the write of a response starts the reading again. -/
theorem Settled.reading_restarted {ok : Bool} (hi : Settled hist s)
    (hlive : s.clients.live i = some c) (hopen : c.socket.phase = .active)
    (hconnected : c.socket.connected = true)
    (hs : s.step parse (.writeDone i ok) = some (s', out)) (hwritten : .written c.conn ∈ out) :
    ∃ c', s'.clients.live i = some c' ∧ c'.writeInFlight = false ∧ c'.socket.reading = true := by
  obtain ⟨-, d, hlived, -, hrun⟩ := State.onLoopEvent_spec hs
  rw [hlive] at hlived
  cases hlived
  obtain ⟨⟨s₁, next⟩, hclient, hpair⟩ := Option.map_eq_some_iff.mp hrun
  cases hpair
  obtain ⟨eff, p, heff, -, -, rfl⟩ := State.onClient_spec hclient
  obtain ⟨c', hc', rfl⟩ := Option.map_eq_some_iff.mp heff
  obtain ⟨hr, -⟩ := MemPool.modify_spec hi.inv.clients.wf hlive fun _ => c'
  refine ⟨c', (hr.live_eq i).trans (if_pos rfl), ?_⟩
  obtain ⟨cb, rest, hwrites, ⟨-, hflag, -, -, hsocket⟩ | ⟨rfl, -⟩ | ⟨rfl, -⟩⟩ := writeDone_cases hc'
  · rw [hsocket]
    exact ⟨hflag, Socket.reading_readStart hopen hconnected⟩
  · simp [ClientState.written, hwrites] at hwritten
  · simp [ClientState.written, hwrites] at hwritten

/-- On every open HTTP connection: the live responses and the pending writes on
`write_handle` are one if `write_in_flight` is set and none otherwise; a response is
written only when no write is pending, so `write_handle` and `pending_write_buffer` are
free for it; and if reading has been stopped, a response or its write is outstanding,
and the end of that write starts reading again. -/
theorem oneResponse_outstanding
    (run : ((machine parse).guarded fun _ a => a.writesAccepted = true).Reaches s hist)
    (hlive : s.clients.live i = some c) (hhttp : c.connProtocol = .http1)
    (hopen : c.socket.phase = .active) :
    (s.liveResponses i c + handleWrites c.socket = if c.writeInFlight then 1 else 0) ∧
      (∀ a s' out, s.step parse a = some (s', out) → s.WritesResponse c.conn a out →
        handleWrites c.socket = 0) ∧
      ∀ bytes, .received c.conn bytes ∈ hist → c.socket.reading = false →
        answers s.responses c.conn + handleWrites c.socket = 1 ∧
        ∀ ok s' out, s.step parse (.writeDone i ok) = some (s', out) → .written c.conn ∈ out →
          ∃ c', s'.clients.live i = some c' ∧ c'.writeInFlight = false ∧
            c'.socket.reading = true := by
  have hi := reaches_settled run.of_guarded
  have hheard := reaches_heard run.of_guarded
  have hanswered := reaches_answered run hlive
  have hcount := hi.rights_add_pending hlive hanswered hhttp hopen
  rw [hanswered.handleWrites_eq, ← hi.rights_eq hlive]
  refine ⟨hcount, fun a s' out hs hwrites => ?_, fun bytes hmem hstopped => ?_⟩
  · rcases hwrites with ⟨k, isStatic, body, ok, r, -, hr, hconn⟩ | ⟨req, hinvoked⟩
    · have hpos : 0 < answers s.responses c.conn :=
        List.countP_pos_iff.mpr ⟨r, List.mem_of_getElem? hr, by simp [hconn]⟩
      unfold State.rights at hcount
      split_ifs at hcount <;> omega
    · obtain ⟨h, d, -, hlived, hconn, hidle⟩ := State.invoked_of_step hi.inv.clients.wf hs hinvoked
      obtain rfl := hi.inv.clients.inj h.client i d c hlived hlive hconn
      rw [hlive] at hlived
      cases hlived
      rw [hidle] at hcount
      simp only [Bool.false_eq_true, if_false] at hcount
      omega
  · obtain ⟨hconnected, hreading | hflag⟩ := hheard.reads i c bytes hlive hmem hopen
    · rw [hstopped] at hreading
      cases hreading
    · -- the connection whose WebSocket is being set up is being read
      have hsetup : s.inSetup i = false := by
        by_contra hsetup
        obtain ⟨ws, hf⟩ := State.frame_of_inSetup (Bool.not_eq_false _ ▸ hsetup)
        rw [hheard.setup i ws c hf hlive hopen] at hstopped
        cases hstopped
      refine ⟨?_, fun ok s' out hs hwritten =>
        hi.reading_restarted hlive hopen hconnected hs hwritten⟩
      rw [hi.rights_eq hlive, State.liveResponses, hsetup, hflag] at hcount
      exact hcount

/-- The second of two requests came before the response to the first. -/
theorem oneResponse_outstanding_dropped : ∃ c, oneDropped.clients.live 0 = some c ∧
    c.socket.reading = false ∧ answers oneDropped.responses c.conn + handleWrites c.socket = 1 := by
  have run : ((machine parseGetRoot).guarded fun _ a => a.writesAccepted = true).Reaches oneDropped
      [.accepted 0, .received 0 getRoot, .invoked 0 ⟨[71, 69, 84], [47]⟩ (some 0),
        .received 0 getRoot] :=
    Machine.reaches_exec [.peerConnected true true, .allocBuffer 0, .read (.data getRoot) true true,
      .allocBuffer 0, .read (.data getRoot) true true] oneConnection_initial rfl
  have hmem : Output.received 0 getRoot ∈ [.accepted 0, .received 0 getRoot,
      .invoked 0 ⟨[71, 69, 84], [47]⟩ (some 0), .received 0 getRoot] := by decide
  exact ⟨_, rfl, rfl, ((oneResponse_outstanding (i := 0) run rfl rfl rfl).2.2 getRoot hmem rfl).1⟩

end
end CapyJs.Server
