import CapyJs.Server.Safety
import CapyJs.Transition.Insertion

/-!
# Reads of no bytes

libuv reports a read of no bytes when a read filled its buffer and the next one
would block. `on_read_cb` has no branch for it and treats it like an error, so
each such read closes its connection.
-/
namespace CapyJs.Server

open CapyJs.Http CapyJs.Pool CapyJs.Transition ClientState

/-- The two callbacks of a read of no bytes. The flags are for reads with data. -/
def zeroRead (i : ℕ) : List Label := [.allocBuffer i, .read .zero false false]

/-- A read of no bytes can be reported for the connection in slot `i`. Without a read
buffer libuv would report `UV_ENOBUFS` instead. -/
def State.Delivers (s : State) (i : ℕ) : Prop :=
  s.Idle ∧ (∃ c, s.clients.live i = some c ∧ c.socket.reading = true) ∧
    s.readBuffers.inUseCount ≠ s.readBuffers.capacity

def Output.isInvocation : Output → Bool
  | .invoked _ _ _ | .message _ _ => true
  | _ => false

/-- The connections with their receive chains, the counts of the pools and the handlers
invoked. -/
structure View where
  connections : ℕ → Option (HandlePhase × Bool × List ReadBuffer)
  clients : ℕ
  readBuffers : ℕ
  guards : ℕ
  invocations : List Output

def view (p : State × List Output) : View where
  connections i := (p.1.clients.live i).map fun c => (c.socket.phase, c.closing, c.recv)
  clients := p.1.clients.inUseCount
  readBuffers := p.1.readBuffers.inUseCount
  guards := p.1.guards.inUseCount
  invocations := p.2.filter Output.isInvocation

section
variable {parse : Text → PhrResult} {hist : List Output} {s : State} {i : ℕ}

/-- A read of no bytes, where it can happen, closes the connection and changes nothing
else that is seen. -/
theorem exec_zeroRead (parse : Text → PhrResult) (hi : Settled hist s) (hd : s.Delivers i) :
    ∃ s' c, (machine parse).exec s (zeroRead i) = some (s', []) ∧
      s.clients.live i = some c ∧ c.socket.phase = .active ∧
      s'.clients.live i = some c.readFailed ∧ c.readFailed.socket.phase = .closing ∧
      c.readFailed.recv = c.recv := by
  obtain ⟨hidle, ⟨c, hlive, hreading⟩, hroom⟩ := hd
  have hinv := hi.inv_of_idle hidle
  have hok := hinv.clients.ok i c hlive
  have hactive := hok.socket.connected (hok.socket.reading hreading)
  obtain ⟨r, p, hacq⟩ := MemPool.acquire_defined hinv.buffers.wf
  cases r with
  | none => exact absurd (MemPool.eq_of_acquire_none hacq).2 hroom
  | some b =>
    obtain ⟨p', hrel, -⟩ := (hinv.buffers.acquire hacq).release
    obtain ⟨hr, -⟩ := MemPool.modify_spec hinv.clients.wf hlive fun _ => c.readFailed
    refine ⟨{ s with clients := s.clients.modify i fun _ => c.readFailed, readBuffers := p' }, c,
      ?_, hlive, hactive, ?_, ?_, rfl⟩
    · have halloc : s.step parse (.allocBuffer i) =
          some ({ s with readBuffers := p, handed := some ⟨i, some b⟩ }, []) := by
        simp only [State.step, State.onLoopEvent, hidle, hlive, hreading, State.onAllocBuffer, hacq,
          if_true]
      have hread : State.step parse { s with readBuffers := p, handed := some ⟨i, some b⟩ }
          (.read .zero false false) = some ({ s with
            clients := s.clients.modify i fun _ => c.readFailed, readBuffers := p' }, []) := by
        simp only [State.step, State.onRead, hlive, hrel, State.onClient, ClientState.step,
          State.releaseReadBuffers, releaseAll, Option.map_some, hidle.1]
      simp only [zeroRead, Machine.exec, machine, halloc, hread, Option.map_some, List.nil_append]
    · exact (hr.live_eq i).trans (if_pos rfl)
    · simp [readFailed, Socket.closeUnlessClosing, Socket.close, hactive]

theorem delivers_of_exec (h : (machine parse).exec s (zeroRead i) ≠ none) : s.Delivers i := by
  obtain ⟨⟨s₂, out⟩, hexec⟩ := Option.ne_none_iff_exists'.mp h
  simp only [zeroRead, Machine.exec] at hexec
  split at hexec
  · cases hexec
  · next s₁ out₁ halloc =>
    obtain ⟨hidle, c, hlive, hreading, hrun⟩ := State.onLoopEvent_spec halloc
    refine ⟨hidle, ⟨c, hlive, hreading⟩, fun hfull => ?_⟩
    -- the pool is exhausted, and a read without a buffer is never reported as empty
    simp only [State.onAllocBuffer, MemPool.acquire, hfull, if_true] at hrun
    cases hrun
    simp [machine, State.step, State.onRead, hlive] at hexec

theorem exec_zeroRead_eq_none_iff (hi : Settled hist s) :
    (machine parse).exec s (zeroRead i) = none ↔ ¬s.Delivers i := by
  constructor
  · intro hnone hd
    obtain ⟨s', c, hexec, -⟩ := exec_zeroRead parse hi hd
    rw [hnone] at hexec
    cases hexec
  · intro hd
    by_contra hnone
    exact hd (delivers_of_exec hnone)

theorem view_zeroRead_ne {p : State × List Output} (hi : Settled hist p.1)
    (h : (machine parse).exec p.1 (zeroRead i) ≠ none) :
    view ((machine parse).attempt p (zeroRead i)) ≠ view p := by
  obtain ⟨s', c, hexec, hlive, hactive, hlive', hclosing, -⟩ :=
    exec_zeroRead parse hi (delivers_of_exec h)
  intro heq
  have hconn := congrFun (congrArg View.connections heq) i
  simp only [view, Machine.attempt, hexec, hlive, hlive', Option.map_some, hclosing,
    hactive] at hconn
  cases hconn

/-- Reads of no bytes inserted into the events of a server go unseen at every point of the
run exactly when none of them is delivered: each one that is closes its connection. -/
theorem zeroReads_unseen_iff (run : (machine parse).Reaches s hist)
    (es : List (Machine.Entry Label ℕ)) :
    (∀ n, view ((machine parse).withExtras zeroRead (s, []) (es.take n)) =
        view ((machine parse).withoutExtras (s, []) (es.take n))) ↔
      ∀ l i r, es = l ++ .extra i :: r →
        ¬((machine parse).withoutExtras (s, []) l).1.Delivers i := by
  have shows : ∀ (p : State × List Output) (i : ℕ),
      (∃ hist, (machine parse).Reaches p.1 hist) →
      (machine parse).exec p.1 (zeroRead i) ≠ none →
      view ((machine parse).attempt p (zeroRead i)) ≠ view p := by
    rintro p i ⟨hist', run'⟩
    exact view_zeroRead_ne (reaches_settled run')
  rw [Machine.withExtras_agree_iff shows _ ⟨hist, run⟩]
  have hdelivers : ∀ (l : List (Machine.Entry Label ℕ)) (i : ℕ),
      (machine parse).exec ((machine parse).withoutExtras (s, []) l).1 (zeroRead i) = none ↔
        ¬((machine parse).withoutExtras (s, []) l).1.Delivers i := by
    intro l i
    obtain ⟨hist', run'⟩ := Machine.reaches_withoutExtras (p := (s, [])) l ⟨hist, run⟩
    exact exec_zeroRead_eq_none_iff (reaches_settled run')
  simp only [hdelivers]

end

theorem zeroReads_unseen_after_idleTimeout :
    view ((machine parseGetRoot).withExtras zeroRead (oneRequest, [])
        [.event (.idleTimeout 0), .extra 0]) =
      view ((machine parseGetRoot).withoutExtras (oneRequest, [])
        [.event (.idleTimeout 0), .extra 0]) := by
  refine (zeroReads_unseen_iff oneRequest_reachable
    [.event (.idleTimeout 0), .extra 0]).mpr ?_ 2
  rintro l i r hes ⟨-, ⟨c, hc, hreading⟩, -⟩
  obtain ⟨rfl, rfl⟩ : l = [.event (.idleTimeout 0)] ∧ i = 0 := by
    cases l with
    | nil => cases hes
    | cons e l =>
      obtain ⟨rfl, htail⟩ := List.cons.inj hes
      cases l with
      | nil =>
        cases htail
        exact ⟨rfl, rfl⟩
      | cons e' l =>
        have hlen := congrArg List.length htail
        simp at hlen
  cases hc
  cases hreading

/-- A read that fills its buffer, and the read of no bytes that follows it. -/
def fullRead : List (Machine.Entry Label ℕ) :=
  [.event (.peerConnected true true), .event (.allocBuffer 0),
    .event (.read (.data (List.replicate readBufferSize 97)) true true), .extra 0]

theorem zeroRead_seen_after_fullRead :
    (machine fun _ => .incomplete).Reaches oneConnection [] ∧
      view ((machine fun _ => .incomplete).withExtras zeroRead (oneConnection, []) fullRead) ≠
        view ((machine fun _ => .incomplete).withoutExtras (oneConnection, []) fullRead) := by
  refine ⟨.start oneConnection_initial, fun heq => ?_⟩
  have hphase := congrArg (fun v => (v.connections 0).map Prod.fst) heq
  exact absurd hphase (by decide +kernel)

end CapyJs.Server
