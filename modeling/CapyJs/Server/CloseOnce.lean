import CapyJs.Server.OneResponse

/-!
# Closing a client's socket

Of the calls of `uv_close` on a client's socket, those behind `uv_is_closing` are made on
an open socket by themselves. The two of `abort`, when its write fails and when its
shutdown is done, are not behind it. The second finds the socket open since libuv runs the
shutdown right after the write before it, and the first does when no response of a closing
connection is aborted.
-/
namespace CapyJs.Server

open CapyJs.Http CapyJs.Pool CapyJs.Transition ClientState

namespace ClientState
variable {parse : Text → PhrResult} {c : ClientState} {e : Event} {eff : Effect} {u : ℕ}

/-- The event calls `uv_close` on the socket. -/
def callsClose (parse : Text → PhrResult) (c : ClientState) : Event → Bool
  | .data rb _ => c.connProtocol == .http1 && parse (c.flattenBuffer ++ rb.bytes) == .malformed &&
      c.socket.phase == .active
  | .readFailed | .idleTimeout => c.socket.phase == .active
  | .abort ok => !(c.socket.write .onAbortWrite ok).2
  | .shutdownDone => c.socket.shutdown
  | _ => false

theorem writeDone_phase {ok : Bool} {c' : ClientState} (hs : c.writeDone ok = some c') :
    c'.socket.phase = c.socket.phase := by
  obtain ⟨cb, rest, -, ⟨-, -, -, -, hsocket⟩ | ⟨-, rfl⟩ | ⟨-, rfl⟩⟩ := writeDone_cases hs
  · rw [hsocket, Socket.readStart_phase]
  · exact Socket.startShutdown_phase ok
  · rfl

/-- An open socket that is closing after an event has been closed by it. -/
theorem callsClose_of_step (hs : c.step parse e = some eff) (he : e ≠ .closeStarted)
    (hactive : c.socket.phase = .active) (hclosed : eff.client.socket.phase ≠ .active) :
    c.callsClose parse e = true := by
  cases e with
  | data rb handler =>
    rcases onData_cases hs with ⟨hhttp, next, hproc, -⟩ | ⟨-, rc, -, ⟨text, rfl⟩ | rfl⟩
    · rcases processHttp1Request_cases hproc with ⟨-, hc, -⟩ | ⟨hparse, -, -⟩ |
        ⟨n, method, path, headers, -, -, ⟨-, hc, -⟩ | ⟨-, -, hc, -⟩⟩
      · rw [hc] at hclosed
        exact absurd hactive hclosed
      · simp [callsClose, hhttp, hparse, hactive]
      · rw [hc] at hclosed
        exact absurd hactive hclosed
      · rw [hc] at hclosed
        exact absurd hactive hclosed
    · exact absurd hactive hclosed
    · unfold finishMessage at hclosed
      split_ifs at hclosed <;> exact absurd hactive hclosed
  | readFailed | idleTimeout => simp [callsClose, hactive]
  | abort ok =>
    obtain ⟨c', hc', rfl⟩ := Option.map_eq_some_iff.mp hs
    have hphase := Socket.write_phase (s := c.socket) .onAbortWrite ok
    obtain ⟨s, rfl, ⟨rfl, -⟩ | ⟨-, hfailed⟩⟩ := startAbort_cases hc'
    · exact absurd (hphase.trans hactive) hclosed
    · simp [callsClose, hfailed]
  | shutdownDone => exact (shutdownDone_spec hs).1
  | closeStarted => exact absurd rfl he
  | messageDone rc =>
    cases hs
    unfold finishMessage at hclosed
    split_ifs at hclosed <;> exact absurd hactive hclosed
  | handshake ws ok =>
    cases hs
    unfold completeProtocolUpgradeHandshake at hclosed
    split_ifs at hclosed
    · exact absurd hactive hclosed
    · exact absurd ((Socket.write_phase ..).trans hactive) hclosed
  | send isStatic body ok =>
    cases hs
    cases isStatic <;> exact absurd ((Socket.write_phase ..).trans hactive) hclosed
  | notFound ok | sendFrame ok =>
    cases hs
    exact absurd ((Socket.write_phase ..).trans hactive) hclosed
  | writeDone ok =>
    obtain ⟨c', hc', rfl⟩ := Option.map_eq_some_iff.mp hs
    exact absurd ((writeDone_phase hc').trans hactive) hclosed
  | closeFinished =>
    cases hs
    exact absurd hactive hclosed

/-- A shutdown is started by the end of the write of an abort, on an open socket. -/
theorem step_shutdown (hs : c.step parse e = some eff)
    (hshutdown : eff.client.socket.shutdown = true) :
    (c.socket.shutdown = true ∧ e ≠ .shutdownDone) ∨
      ∃ ok, e = .writeDone ok ∧ .onAbortWrite ∈ c.socket.writes ∧
        c.socket.connected = true := by
  cases e with
  | data rb handler =>
    rw [(onData_socket hs).2] at hshutdown
    exact .inl ⟨hshutdown, nofun⟩
  | readFailed | idleTimeout =>
    cases hs
    have hsame := Socket.closeUnlessClosing_keeps.2.symm.trans hshutdown
    exact .inl ⟨hsame, nofun⟩
  | messageDone rc =>
    cases hs
    unfold finishMessage at hshutdown
    split_ifs at hshutdown <;> exact .inl ⟨hshutdown, nofun⟩
  | handshake ws ok =>
    cases hs
    unfold completeProtocolUpgradeHandshake at hshutdown
    split_ifs at hshutdown
    · exact .inl ⟨hshutdown, nofun⟩
    · exact .inl ⟨(Socket.write_shutdown ..).symm.trans hshutdown, nofun⟩
  | send isStatic body ok =>
    cases hs
    cases isStatic <;> exact .inl ⟨(Socket.write_shutdown ..).symm.trans hshutdown, nofun⟩
  | notFound ok | sendFrame ok =>
    cases hs
    exact .inl ⟨(Socket.write_shutdown ..).symm.trans hshutdown, nofun⟩
  | abort ok =>
    obtain ⟨c', hc', rfl⟩ := Option.map_eq_some_iff.mp hs
    have hsame := Socket.write_shutdown (s := c.socket) .onAbortWrite ok
    obtain ⟨s, rfl, ⟨rfl, -⟩ | ⟨hclose, -⟩⟩ := startAbort_cases hc'
    · exact .inl ⟨hsame.symm.trans hshutdown, nofun⟩
    · exact .inl ⟨(hsame.symm.trans (Socket.close_keeps hclose).2.symm).trans hshutdown, nofun⟩
  | writeDone ok =>
    obtain ⟨c', hc', rfl⟩ := Option.map_eq_some_iff.mp hs
    obtain ⟨cb, rest, hwrites, ⟨-, -, -, -, hsocket⟩ | ⟨rfl, rfl⟩ | ⟨rfl, rfl⟩⟩ :=
      writeDone_cases hc'
    · rw [hsocket, Socket.readStart_shutdown] at hshutdown
      exact .inl ⟨hshutdown, nofun⟩
    · simp only [Socket.startShutdown] at hshutdown
      split_ifs at hshutdown with hstart
      · refine .inr ⟨ok, rfl, ?_, hstart.2.1⟩
        rw [hwrites]
        exact List.mem_cons_self
      · exact .inl ⟨hshutdown, nofun⟩
    · exact .inl ⟨hshutdown, nofun⟩
  | shutdownDone =>
    obtain ⟨-, s, hclose, rfl⟩ := shutdownDone_spec hs
    rw [(Socket.close_keeps hclose).2] at hshutdown
    cases hshutdown
  | closeStarted | closeFinished =>
    cases hs
    exact .inl ⟨hshutdown, nofun⟩

/-- While the flag is set no request is taken, and only the end of the write of a response
clears it. -/
theorem step_busy (hs : c.step parse e = some eff) (hflag : c.writeInFlight = true) :
    eff.next.gain = 0 ∧ (eff.client.writeInFlight = true ∨ 1 ≤ pending c.socket) := by
  by_cases hdata : ∀ rb handler, e ≠ .data rb handler
  · refine ⟨step_gain hs hdata, ?_⟩
    by_cases hdone : ∀ ok, e ≠ .writeDone ok
    · exact .inl ((step_flag hs hdata hdone).trans hflag)
    · simp only [not_forall, not_not] at hdone
      obtain ⟨ok, rfl⟩ := hdone
      obtain ⟨c', hc', rfl⟩ := Option.map_eq_some_iff.mp hs
      obtain ⟨cb, rest, hwrites, ⟨hcb, -⟩ | ⟨-, rfl⟩ | ⟨-, rfl⟩⟩ := writeDone_cases hc'
      · right
        rw [pending, hwrites, List.countP_cons_of_pos hcb]
        exact Nat.le_add_left _ _
      · exact .inl hflag
      · exact .inl hflag
  · simp only [not_forall, not_not] at hdata
    obtain ⟨rb, handler, rfl⟩ := hdata
    rcases onData_cases hs with ⟨-, next, hproc, hnext⟩ | ⟨-, rc, -, ⟨text, rfl⟩ | rfl⟩
    · rcases processHttp1Request_cases hproc with ⟨-, hc, -, rfl⟩ | ⟨-, hc, -, rfl⟩ |
        ⟨n, method, path, headers, -, -, ⟨-, hc, rfl⟩ | ⟨hidle, -⟩⟩
      · rw [hnext, hc]
        exact ⟨rfl, .inl hflag⟩
      · rw [hnext, hc]
        exact ⟨rfl, .inl hflag⟩
      · rw [hnext, hc]
        exact ⟨rfl, .inl hflag⟩
      · rw [hflag] at hidle
        cases hidle
    · exact ⟨rfl, .inl hflag⟩
    · unfold finishMessage
      split_ifs <;> exact ⟨rfl, .inl hflag⟩

theorem step_pending_le (hs : c.step parse e = some eff)
    (he : ∀ cb, e.callback = some cb → isResponse cb = false) :
    pending eff.client.socket ≤ pending c.socket := by
  unfold pending
  rcases step_writes hs with hsame | ⟨cb, hcb, hmore⟩ | ⟨ok, cb, -, hless⟩
  · rw [hsame]
  · rw [hmore, List.countP_append, List.countP_singleton, he cb hcb]
    exact Nat.le_refl _
  · rw [hless, List.countP_cons]
    exact Nat.le_add_right _ _

/-- What the event must not do: abort a response of a closing connection, or close a socket
that is being shut down. -/
def Event.Apart (parse : Text → PhrResult) (c : ClientState) : Event → Prop
  | .abort _ => c.socket.phase ≠ .closing
  | .shutdownDone => True
  | e => c.callsClose parse e = true → c.socket.shutdown = false

/-- A connection with an aborted response is never answered again, and a shutdown is only
pending on an open socket. -/
structure Shut (c : ClientState) (u : ℕ) : Prop where
  budget : c.Budget u
  aborted : .onAbortWrite ∈ c.socket.writes ∨ c.socket.shutdown = true →
    u = 0 ∧ pending c.socket = 0 ∧ c.writeInFlight = true
  closing : c.socket.phase ≠ .active → c.socket.shutdown = false

namespace Shut

/-- The response that is aborted was the only right to answer. -/
theorem of_abort {ok : Bool} (h : c.Shut (u + 1)) (hs : c.step parse (.abort ok) = some eff) :
    u + eff.next.gain = 0 ∧ pending eff.client.socket = 0 ∧ eff.client.writeInFlight = true := by
  have hbudget := h.budget
  have hle : pending eff.client.socket ≤ pending c.socket := by
    apply step_pending_le hs
    rintro cb ⟨⟩
    rfl
  unfold Budget at hbudget
  cases hflag : c.writeInFlight with
  | false =>
    rw [hflag] at hbudget
    simp only [Bool.false_eq_true, if_false] at hbudget
    omega
  | true =>
    rw [step_gain hs nofun, step_flag hs nofun nofun]
    rw [hflag] at hbudget ⊢
    simp only [if_true] at hbudget
    exact ⟨by omega, by omega, rfl⟩

theorem aborted_before (hs : c.step parse e = some eff) (he : ∀ ok, e ≠ .abort ok)
    (haborted : .onAbortWrite ∈ eff.client.socket.writes ∨ eff.client.socket.shutdown = true) :
    .onAbortWrite ∈ c.socket.writes ∨ c.socket.shutdown = true := by
  rcases haborted with hmem | hshutdown
  · rcases step_writes hs with hsame | ⟨cb, hcb, hmore⟩ | ⟨ok, cb, -, hless⟩
    · rw [hsame] at hmem
      exact .inl hmem
    · rw [hmore] at hmem
      rcases List.mem_append.mp hmem with hold | hnew
      · exact .inl hold
      · cases List.mem_singleton.mp hnew
        cases e with
        | abort ok => exact absurd rfl (he ok)
        | send isStatic body ok => cases isStatic <;> cases hcb
        | _ => cases hcb
    · rw [hless]
      exact .inl (List.mem_cons_of_mem _ hmem)
  · rcases step_shutdown hs hshutdown with ⟨hbefore, -⟩ | ⟨ok, -, hmem, -⟩
    · exact .inr hbefore
    · exact .inl hmem

theorem aborted_step (h : c.Shut (u + e.cost)) (hs : c.step parse e = some eff)
    (haborted : .onAbortWrite ∈ eff.client.socket.writes ∨ eff.client.socket.shutdown = true) :
    u + eff.next.gain = 0 ∧ pending eff.client.socket = 0 ∧ eff.client.writeInFlight = true := by
  by_cases he : ∀ ok, e ≠ .abort ok
  · obtain ⟨hzero, hpending, hflag⟩ := h.aborted (aborted_before hs he haborted)
    obtain ⟨hgain, hflag'⟩ := step_busy hs hflag
    have hle : pending eff.client.socket ≤ pending c.socket := by
      apply step_pending_le hs
      -- the events that write a response need a right
      cases e with
      | send isStatic body ok => cases hzero
      | notFound ok => cases hzero
      | _ => rintro cb ⟨⟩ <;> rfl
    refine ⟨by omega, by omega, ?_⟩
    rcases hflag' with hset | hpos
    · exact hset
    · omega
  · simp only [not_forall, not_not] at he
    obtain ⟨ok, rfl⟩ := he
    exact h.of_abort hs

theorem closing_step (hok : c.Ok) (hready : e.Ready c) (hapart : e.Apart parse c)
    (h : c.Shut (u + e.cost)) (hs : c.step parse e = some eff)
    (hclosed : eff.client.socket.phase ≠ .active) : eff.client.socket.shutdown = false := by
  by_contra hshutdown
  rw [Bool.not_eq_false] at hshutdown
  rcases step_shutdown hs hshutdown with ⟨hbefore, hne⟩ | ⟨ok, rfl, -, hconnected⟩
  · have hactive : c.socket.phase = .active := by
      by_contra hphase
      rw [h.closing hphase] at hbefore
      cases hbefore
    have hstart : e ≠ .closeStarted := by
      rintro rfl
      exact absurd (hactive.symm.trans hready.enabled) nofun
    have hclose := callsClose_of_step hs hstart hactive hclosed
    cases e with
    | abort ok =>
      obtain ⟨hzero, -⟩ := h.aborted (.inr hbefore)
      cases hzero
    | shutdownDone => exact hne rfl
    | _ =>
      rw [hapart hclose] at hbefore
      cases hbefore
  · obtain ⟨c', hc', rfl⟩ := Option.map_eq_some_iff.mp hs
    exact hclosed ((writeDone_phase hc').trans (hok.socket.connected hconnected))

theorem step (hok : c.Ok) (hready : e.Ready c) (hapart : e.Apart parse c)
    (h : c.Shut (u + e.cost)) (hs : c.step parse e = some eff) :
    eff.client.Shut (u + eff.next.gain) :=
  ⟨h.budget.step hs, h.aborted_step hs, h.closing_step hok hready hapart hs⟩

end Shut
end ClientState

/-! ## Whole runs -/

/-- The end of a write or of the shutdown of the socket in slot `i`. -/
def Label.endsWrite (i : ℕ) : Label → Bool
  | .writeDone j _ | .shutdownDone j => j == i
  | _ => false

/-- `uv__stream_io` calls the callbacks of the writes that are done and then, by `uv__drain`, that
of the shutdown they asked for. No other event comes in between. -/
def State.drains (s : State) (a : Label) : Bool :=
  (List.range s.clients.slots.length).all fun i =>
    match s.clients.live i with
    | none => true
    | some c => !c.socket.shutdown || a.endsWrite i

/-- No response is aborted whose connection is closing. -/
def State.abortsOpen (s : State) : Label → Bool
  | .abort k _ =>
    match s.responses[k]?.bind fun r => (s.guards.live r.guard).bind fun gd =>
      if gd.alive then s.clients.live r.cli else none with
    | none => true
    | some c => c.socket.phase != .closing
  | _ => true

section
variable {parse : Text → PhrResult} {hist : List Output} {s : State} {a : Label} {i : ℕ}
  {c : ClientState} {e : Event}

theorem State.not_shutdown_of_drains (hd : s.drains a = true) (hlive : s.clients.live i = some c)
    (ha : a.endsWrite i = false) : c.socket.shutdown = false := by
  obtain ⟨slot, hslot, -⟩ := Option.bind_eq_some_iff.mp hlive
  have hlt := (List.getElem?_eq_some_iff.mp hslot).1
  have hi := List.all_eq_true.mp hd i (List.mem_range.mpr hlt)
  simpa [hlive, ha] using hi

theorem State.apart_of_causes (hd : s.drains a = true) (ha : s.abortsOpen a = true)
    (h : s.Causes a i c e) : e.Apart parse c := by
  cases h with
  | data hh hlive => exact fun _ => not_shutdown_of_drains hd hlive rfl
  | readFailed hh hlive hnone => exact fun _ => not_shutdown_of_drains hd hlive rfl
  | idleTimeout hidle hlive htimer => exact fun _ => not_shutdown_of_drains hd hlive rfl
  | abort hr hgd halive hlive hopen =>
    simpa [abortsOpen, hr, hgd, halive, hlive, Event.Apart] using ha
  | shutdownDone => trivial
  | _ => exact fun hclose => absurd hclose nofun

theorem reaches_shut
    (run : ((machine parse).guarded fun s a => (s.drains a && s.abortsOpen a) = true).Reaches
      s hist) (hlive : s.clients.live i = some c) : c.Shut (s.rights c.conn) := by
  refine reaches_local (K := Shut) (fun g n accepted named => ?_) ?_ ?_ run i c hlive
  · exact ⟨Nat.le_refl 0, by simp [State.newClient, MemSet.zeroed], fun _ => rfl⟩
  · intro s a i c e eff u hcond hcause hready hok hs h
    obtain ⟨hd, ha⟩ := Bool.and_eq_true_iff.mp hcond
    exact h.step hok hready (State.apart_of_causes hd ha hcause) hs
  · intro c u hclosed h
    refine ⟨h.budget.mono (Nat.le_succ u), fun haborted => ?_, h.closing⟩
    obtain ⟨hzero, -⟩ := h.aborted haborted
    cases hzero

/-- In every run in which no response of a closing connection was aborted, a callback or a call
of `abort` that closes a client's socket finds it open unless it is such an abort. -/
theorem uvClose_finds_open_iff
    (run : ((machine parse).guarded fun s a => (s.drains a && s.abortsOpen a) = true).Reaches
      s hist) (hcause : s.Causes a i c e) (hclose : c.callsClose parse e = true) :
    c.socket.phase = .active ↔ s.abortsOpen a = true := by
  cases hcause with
  | data hh hlive =>
    simp only [callsClose, Bool.and_eq_true, beq_iff_eq] at hclose
    exact iff_of_true hclose.2 rfl
  | readFailed hh hlive hnone => exact iff_of_true (beq_iff_eq.mp hclose) rfl
  | idleTimeout hidle hlive htimer => exact iff_of_true (beq_iff_eq.mp hclose) rfl
  | @abort k ok r gd c hr hgd halive hlive hopen =>
    have hok := (reaches_settled run.of_guarded).inv.clients.ok _ c hlive
    have hcond : s.abortsOpen (.abort k ok) = (c.socket.phase != .closing) := by
      simp [State.abortsOpen, hr, hgd, halive, hlive]
    rw [hcond]
    cases hphase : c.socket.phase with
    | active | closing => decide
    | closed =>
      rw [hok.closing_iff.mpr hphase] at hopen
      cases hopen
  | shutdownDone hidle hlive hphase =>
    refine iff_of_true ?_ rfl
    by_contra hclosed
    have hshutdown : c.socket.shutdown = true := hclose
    rw [(reaches_shut run hlive).closing hclosed] at hshutdown
    cases hshutdown
  | _ => cases hclose

end

/-- The connection after its response was aborted and the write of that has ended. -/
def abortedClient : ClientState :=
  { State.newClient 0 0 true true with
    writeInFlight := true
    socket := ⟨.active, true, true, [], true⟩ }

def oneAborted : State :=
  { oneConnection with
    clients := ⟨[⟨abortedClient, sizeMax, true⟩], sizeMax, 1, 1⟩
    guards := ⟨[⟨⟨true, 1, 0⟩, sizeMax, true⟩], sizeMax, 1, 1⟩
    nextConn := 1 }

theorem uvClose_finds_open_iff_oneAborted :
    abortedClient.callsClose parseGetRoot .shutdownDone = true ∧
      (abortedClient.socket.phase = .active ↔ oneAborted.abortsOpen (.shutdownDone 0) = true) := by
  have run : ((machine parseGetRoot).guarded fun s a =>
      (s.drains a && s.abortsOpen a) = true).Reaches oneAborted
      [.accepted 0, .received 0 getRoot, .invoked 0 ⟨[71, 69, 84], [47]⟩ (some 0)] :=
    Machine.reaches_exec [.peerConnected true true, .allocBuffer 0, .read (.data getRoot) true true,
      .abort 0 true, .writeDone 0 true] oneConnection_initial rfl
  have hcause : oneAborted.Causes (.shutdownDone 0) 0 abortedClient .shutdownDone :=
    .shutdownDone ⟨rfl, rfl⟩ rfl nofun
  exact ⟨rfl, uvClose_finds_open_iff run hcause rfl⟩

/-- The peer has closed the connection while its handler holds the response. -/
def leftClient : ClientState :=
  { State.newClient 0 0 true true with
    writeInFlight := true
    socket := ⟨.closing, false, false, [], false⟩ }

def oneLeft : State :=
  { oneConnection with
    clients := ⟨[⟨leftClient, sizeMax, true⟩], sizeMax, 1, 1⟩
    guards := ⟨[⟨⟨true, 2, 0⟩, sizeMax, true⟩], sizeMax, 1, 1⟩
    responses := [⟨0, 0, ⟨[71, 69, 84], [47]⟩, 0⟩]
    nextConn := 1 }

/-- The read callback has closed the socket at the end of the stream. The response is aborted
before the close callback has run: `uv_write` fails, and `abort` closes the socket again. -/
theorem abort_closes_closing_socket : ∃ hist,
    ((machine parseGetRoot).guarded fun s a => (s.drains a && s.abortsOpen a) = true).Reaches
        oneLeft hist ∧
      oneLeft.drains (.abort 0 true) = true ∧
      oneLeft.Causes (.abort 0 true) 0 leftClient (.abort true) ∧
      leftClient.callsClose parseGetRoot (.abort true) = true ∧
      leftClient.socket.phase = .closing := by
  refine ⟨_, Machine.reaches_exec [.peerConnected true true, .allocBuffer 0,
    .read (.data getRoot) true true, .allocBuffer 0, .read .eof true true]
    oneConnection_initial rfl, rfl, ?_, rfl, rfl⟩
  exact .abort (r := ⟨0, 0, ⟨[71, 69, 84], [47]⟩, 0⟩) rfl rfl rfl rfl rfl

end CapyJs.Server
