import CapyJs.Libuv.TimerRuns

/-!
# The idle timers of the connections

Every connection has a timer in its slot of the client pool. `on_peer_connected` starts it, each
read that brings data starts it again, and `on_idle_timeout_cb` closes the socket. The slot goes
back to the pool when first the socket and then the timer are closed. The timers of other owners,
such as those of `setTimeout`, are on the same loop.
-/
namespace CapyJs.Server.Idle
open Transition Libuv Timer

/-- `IDLE_TIMEOUT_MS` -/
def idleTimeoutMs : UInt64 := 60000

/-- The callbacks of timers are numbered, and this is `on_idle_timeout_cb`. -/
def onIdleTimeoutCb : ℕ := 1

inductive Phase
  | connected
  | socketClosing
  | timerClosing
  deriving DecidableEq

/-- A slot in use, with the time of the loop when the peer connected or last sent data. -/
structure Conn where
  phase : Phase
  last : UInt64

/-- The timers of the loop are those in the slots and those of other owners. -/
structure State (σ ι : Type*) where
  loop : TimerLoop (σ ⊕ ι)
  conn : σ → Option Conn

inductive Label (σ ι : Type*)
  | peerConnected (x : σ)
  /-- `on_read_cb` with data -/
  | data (x : σ)
  /-- `uv_close` on the socket, for any other reason than its timer -/
  | closeSocket (x : σ)
  | clientClosed (x : σ)
  | idleTimerClosed (x : σ)
  /-- what another owner of timers does -/
  | others (l : TimerLabel (σ ⊕ ι))
  | updateTime (time : UInt64)
  | runTimers
  | round

/-- `on_idle_timeout_cb` closes the socket of a connection. -/
structure Event (σ : Type*) where
  slot : σ
  last : UInt64
  time : UInt64

section
variable {σ ι : Type*}

/-- The label is a call for a handle outside the pool. -/
def foreign : TimerLabel (σ ⊕ ι) → Bool
  | .timerInit (.inr _) | .timerStart (.inr _) _ _ _ | .timerStop (.inr _)
  | .timerAgain (.inr _) | .close (.inr _) => true
  | _ => false

/-- The calls of libuv's timers that a callback makes. -/
def Label.calls : Label σ ι → List (TimerLabel (σ ⊕ ι))
  | .peerConnected x =>
    [.timerInit (.inl x),
      .timerStart (.inl x) (some onIdleTimeoutCb) idleTimeoutMs idleTimeoutMs]
  | .data x => [.timerAgain (.inl x)]
  | .closeSocket _ | .idleTimerClosed _ => []
  | .clientClosed x => [.timerStop (.inl x), .close (.inl x)]
  | .others l => [l]
  | .updateTime time => [.updateTime time]
  | .runTimers => [.runTimers]
  | .round => [.round]

namespace State

def phase (s : State σ ι) (x : σ) : Option Phase := (s.conn x).map Conn.phase

/-- Sockets are accepted and read, and closed handles are done with, outside the pass over the
timers. -/
def allows (s : State σ ι) : Label σ ι → Bool
  | .peerConnected x => decide (s.phase x = none) && !s.loop.running
  | .data x => decide (s.phase x = some .connected) && !s.loop.running
  | .closeSocket x => decide (s.phase x = some .connected)
  | .clientClosed x => decide (s.phase x = some .socketClosing) && !s.loop.running
  | .idleTimerClosed x => decide (s.phase x = some .timerClosing) && !s.loop.running
  | .others l => foreign l
  | .updateTime _ | .runTimers | .round => true

variable [DecidableEq σ]

def setConn (s : State σ ι) (x : σ) (c : Option Conn) : State σ ι :=
  { s with conn := Function.update s.conn x c }

def setPhase (s : State σ ι) (x : σ) (phase : Phase) : State σ ι :=
  s.setConn x ((s.conn x).map fun c => ⟨phase, c.last⟩)

/-- `on_idle_timeout_cb`. A slot whose timer is closed may belong to no connection. -/
def onIdleTimeout (s : State σ ι) (x : σ) (time : UInt64) :
    Option (State σ ι × List (Event σ)) :=
  match s.conn x with
  | some ⟨.connected, last⟩ => some (s.setPhase x .socketClosing, [⟨x, last, time⟩])
  | some ⟨.socketClosing, _⟩ => some (s, [])
  | some ⟨.timerClosing, _⟩ | none => none

def afterRound (s : State σ ι) :
    List (TimerEvent (σ ⊕ ι)) → Option (State σ ι × List (Event σ))
  | [.fired (.inl x) _ _ _ time] => s.onIdleTimeout x time
  | _ => some (s, [])

/-- What becomes of the connections once the calls have returned. -/
def react (s : State σ ι) (out : List (TimerEvent (σ ⊕ ι))) :
    Label σ ι → Option (State σ ι × List (Event σ))
  | .peerConnected x | .data x => some (s.setConn x (some ⟨.connected, s.loop.time⟩), [])
  | .closeSocket x => some (s.setPhase x .socketClosing, [])
  | .clientClosed x => some (s.setPhase x .timerClosing, [])
  | .idleTimerClosed x => some (s.setConn x none, [])
  | .others _ | .updateTime _ | .runTimers => some (s, [])
  | .round => s.afterRound out

variable [DecidableEq ι]

def step (s : State σ ι) (l : Label σ ι) : Option (State σ ι × List (Event σ)) :=
  if s.allows l then
    ((countedTimers (σ ⊕ ι)).exec s.loop l.calls).bind fun r => { s with loop := r.1 }.react r.2 l
  else none

end State
end

/-- The runs in which the number of the starts of timers fits. -/
def idleTimers (σ ι : Type*) [DecidableEq σ] [DecidableEq ι] :
    Machine (State σ ι) (Label σ ι) (Event σ) where
  init s := (Libuv.timers (σ ⊕ ι)).init s.loop ∧ ∀ x, s.conn x = none
  step := State.step

end CapyJs.Server.Idle
