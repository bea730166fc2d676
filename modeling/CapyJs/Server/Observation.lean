import CapyJs.Server.Invariant

/-!
# What one connection shows of the events on the server

Most events change nothing that the peer of an open connection could tell: events on
other connections, and of its own events all but reads with data, the ends of
writes and the returns of its JS functions.
-/
namespace CapyJs.Server

open CapyJs.Http CapyJs.Pool ClientState

/-! ## Events the observer does not see -/

namespace Socket
variable {s : Socket}

@[simp] theorem write_phase (cb : WriteCb) (ok : Bool) : (s.write cb ok).1.phase = s.phase := by
  unfold write
  split_ifs <;> rfl

@[simp] theorem readStart_phase : s.readStart.phase = s.phase := by
  unfold readStart
  split_ifs <;> rfl

@[simp] theorem startShutdown_phase (ok : Bool) : (s.startShutdown ok).phase = s.phase := by
  unfold startShutdown
  split_ifs <;> rfl

theorem close_phase {s' : Socket} (h : s.close = some s') : s'.phase = .closing := by
  unfold close at h
  split_ifs at h
  cases h
  rfl

theorem closeUnlessClosing_phase : s.closeUnlessClosing.phase ≠ .active := by
  unfold closeUnlessClosing
  cases hclose : s.close with
  | none =>
    intro hactive
    simp only [close, Option.getD_none] at hclose hactive
    rw [if_pos hactive] at hclose
    cases hclose
  | some s' =>
    rw [Option.getD_some, close_phase hclose]
    exact nofun

end Socket

namespace ClientState
variable {parse : Text → PhrResult} {c : ClientState} {e : Event} {eff : Effect}

/-- Events that leave alone what the observer of an open connection sees. -/
def Event.Plain : Event → Prop
  | .data _ _ | .messageDone _ | .handshake _ _ | .writeDone _ => False
  | _ => True

/-- A connection that is open was open before. -/
theorem step_active (hs : c.step parse e = some eff) (h : eff.client.socket.phase = .active) :
    c.socket.phase = .active := by
  cases e with
  | data rb handler =>
    rcases onData_cases hs with ⟨-, next, hproc, -⟩ | ⟨-, rc, -, ⟨text, rfl⟩ | rfl⟩
    · rcases processHttp1Request_cases hproc with ⟨-, hc, -⟩ | ⟨-, hc, -⟩ |
        ⟨n, method, path, headers, -, -, ⟨-, hc, -⟩ | ⟨-, -, hc, -⟩⟩
      · rw [hc] at h
        exact h
      · rw [hc] at h
        exact absurd h Socket.closeUnlessClosing_phase
      · rw [hc] at h
        exact h
      · rw [hc] at h
        exact h
    · exact h
    · unfold finishMessage at h
      split_ifs at h <;> exact h
  | readFailed =>
    cases hs
    exact absurd h Socket.closeUnlessClosing_phase
  | messageDone rc =>
    cases hs
    unfold finishMessage at h
    split_ifs at h <;> exact h
  | handshake ws ok =>
    cases hs
    unfold completeProtocolUpgradeHandshake at h
    split_ifs at h
    · exact h
    · simpa using h
  | send isStatic body ok =>
    cases hs
    unfold startSend at h
    split_ifs at h <;> simpa using h
  | notFound ok =>
    cases hs
    simpa [startNotFound] using h
  | abort ok =>
    obtain ⟨c', hc', rfl⟩ := Option.map_eq_some_iff.mp hs
    have hphase : (c.socket.write .onAbortWrite ok).1.phase = c.socket.phase := Socket.write_phase ..
    obtain ⟨s, rfl, ⟨rfl, -⟩ | ⟨hclose, -⟩⟩ := startAbort_cases hc'
    · exact hphase.symm.trans h
    · have hclosing := Socket.close_phase hclose
      exact absurd (hclosing.symm.trans h) nofun
  | sendFrame ok =>
    cases hs
    simpa [ClientState.sendFrame] using h
  | writeDone ok =>
    obtain ⟨c', hc', rfl⟩ := Option.map_eq_some_iff.mp hs
    obtain ⟨cb, rest, -, ⟨-, -, -, -, hsocket⟩ | ⟨-, rfl⟩ | ⟨-, rfl⟩⟩ := writeDone_cases hc'
    · rw [hsocket, Socket.readStart_phase] at h
      exact h
    · simpa using h
    · exact h
  | shutdownDone =>
    obtain ⟨-, s, hclose, rfl⟩ := shutdownDone_spec hs
    have hclosing := Socket.close_phase hclose
    exact absurd (hclosing.symm.trans h) nofun
  | idleTimeout =>
    cases hs
    exact absurd h Socket.closeUnlessClosing_phase
  | closeStarted =>
    cases hs
    cases h
  | closeFinished =>
    cases hs
    exact h

/-- What the observer sees of a connection. -/
def observed (c : ClientState) : ConnectionProtocol × List ReadBuffer × Bool :=
  (c.connProtocol, c.recv, c.writeInFlight)

theorem step_plain (he : e.Plain) (hs : c.step parse e = some eff)
    (h : eff.client.socket.phase = .active) : eff.client.observed = c.observed := by
  cases e with
  | data rb handler => cases he
  | messageDone rc => cases he
  | handshake ws ok => cases he
  | writeDone ok => cases he
  | readFailed =>
    cases hs
    rfl
  | send isStatic body ok =>
    cases hs
    unfold startSend
    split_ifs <;> rfl
  | notFound ok =>
    cases hs
    rfl
  | abort ok =>
    obtain ⟨c', hc', rfl⟩ := Option.map_eq_some_iff.mp hs
    obtain ⟨s, rfl, -⟩ := startAbort_cases hc'
    rfl
  | sendFrame ok =>
    cases hs
    rfl
  | shutdownDone =>
    obtain ⟨-, s, -, rfl⟩ := shutdownDone_spec hs
    rfl
  | idleTimeout =>
    cases hs
    rfl
  | closeStarted =>
    cases hs
    cases h
  | closeFinished =>
    cases hs
    rfl

end ClientState

/-! ## States the observer cannot tell apart -/

def JsFrame.slot : JsFrame → ℕ
  | .setup i _ | .message i _ | .onClose i => i

/-- The open connection with number `n`, if there is one, looks to its observer as it did
before, and no JS function has been called for it. -/
structure Calm (n : ℕ) (s s' : State) : Prop where
  client : ∀ i c', s'.clients.live i = some c' → c'.conn = n → c'.socket.phase = .active →
    ∃ c, s.clients.live i = some c ∧ c.conn = n ∧ c.socket.phase = .active ∧
      c'.observed = c.observed
  frame : ∀ f, s'.frame = some f → s.frame = some f ∨
    ∀ c', s'.clients.live f.slot = some c' → c'.conn = n → c'.socket.phase ≠ .active

namespace Calm
variable {parse : Text → PhrResult} {n : ℕ} {s s' s'' : State}

theorem of_clients (hclients : s'.clients = s.clients)
    (hframe : ∀ f, s'.frame = some f → s.frame = some f) : Calm n s s' where
  client i c' hlive hn hactive := by
    rw [hclients] at hlive
    exact ⟨c', hlive, hn, hactive, rfl⟩
  frame f hf := .inl (hframe f hf)

theorem trans (h : Calm n s s') (h' : Calm n s' s'') : Calm n s s'' where
  client i c'' hlive hn hactive := by
    obtain ⟨c', hlive', hn', hactive', hobs'⟩ := h'.client i c'' hlive hn hactive
    obtain ⟨c, hc, hnc, hactivec, hobs⟩ := h.client i c' hlive' hn' hactive'
    exact ⟨c, hc, hnc, hactivec, hobs'.trans hobs⟩
  frame f hf := by
    rcases h'.frame f hf with hf' | hother
    · rcases h.frame f hf' with hf'' | hother
      · exact .inl hf''
      · refine .inr fun c'' hlive hn hactive => ?_
        obtain ⟨c', hlive', hn', hactive', -⟩ := h'.client f.slot c'' hlive hn hactive
        exact hother c' hlive' hn' hactive'
    · exact .inr hother

/-- An event on a connection that is not the one observed, is not open, or does not see
the event. -/
theorem onClient {i : ℕ} {c : ClientState} {e : Event} {next : Next} (hwf : s.clients.WF)
    (hlive : s.clients.live i = some c)
    (h : c.conn ≠ n ∨ e.Plain ∨ c.socket.phase ≠ .active)
    (hs : s.onClient parse i c e = some (s', next)) : Calm n s s' := by
  obtain ⟨eff, p, heff, rfl, -, rfl⟩ := State.onClient_spec hs
  obtain ⟨hr, -⟩ := MemPool.modify_spec hwf hlive fun _ => eff.client
  refine ⟨fun j c' hlive' hn hactive => ?_, fun f hf => .inl hf⟩
  have hlive'' : (s.clients.modify i fun _ => eff.client).live j = some c' := hlive'
  rw [hr.live_eq] at hlive''
  split_ifs at hlive'' with hj
  · cases hlive''
    have hbefore := step_active heff hactive
    have hconn := (step_keeps heff).conn
    rw [hj]
    refine ⟨c, hlive, hconn.symm.trans hn, hbefore, ?_⟩
    rcases h with hother | hplain | hclosed
    · exact absurd (hconn.symm.trans hn) hother
    · exact step_plain hplain heff hactive
    · exact absurd hbefore hclosed
  · exact ⟨c', hlive'', hn, hactive, rfl⟩

end Calm

end CapyJs.Server
