import CapyJs.Libuv.Timers

/-!
# `setTimeout` on the loop

Each call allocates a handle and starts it once. The callback runs the JS function and closes the
handle, and when libuv is done with the handle its memory is freed. The timers of other owners,
such as the idle timers of the connections, are on the same loop.
-/
namespace CapyJs.Timer
open Transition Libuv

/-- The callbacks of timers are numbered, and this is `timer_libuv_cb`. -/
def timerLibuvCb : ℕ := 0

/-- A call of `setTimeout`, with the time of the loop and the number of its start. -/
structure TimeoutCall where
  time : UInt64
  delay : Int32
  startId : UInt64

/-- When the function is to be called. -/
def TimeoutCall.due (c : TimeoutCall) : UInt64 :=
  (UvTimer.start c.time (LoopState.milliseconds c.delay) 0).timeout

/-- `owner` is the call whose handle is at an address, as long as its memory is not freed, and
`calling` the handle whose callback runs. The calls are a ghost. -/
structure Timeouts (ι : Type*) where
  loop : TimerLoop ι
  owner : ι → Option ℕ
  calling : Option ι
  calls : List TimeoutCall

inductive TimeoutLabel (ι : Type*)
  /-- with the address that `malloc` returns, and the 32 bits that `JS_ToInt32` gives -/
  | setTimeout (x : ι) (delay : Int32)
  /-- the JS function returns to `timer_libuv_cb` -/
  | callbackReturned
  | onClose (x : ι)
  /-- what another owner of timers does -/
  | others (l : TimerLabel ι)
  | updateTime (time : UInt64)
  | runTimers
  | round

/-- The function of a call is called. -/
structure TimeoutEvent where
  call : ℕ
  time : UInt64

namespace Timeouts
variable {ι : Type*} [DecidableEq ι]

/-- `SetTimeOutFunc`, from the allocation of the handle on. -/
def setTimeOutFunc (s : Timeouts ι) (x : ι) (delay : Int32) : Option (Timeouts ι) :=
  ((s.loop.setHandle x (s.loop.handle x).init).uvTimerStart x (some timerLibuvCb)
    (LoopState.milliseconds delay) 0).map fun r =>
      { s with
        loop := r.1
        owner := Function.update s.owner x (some s.calls.length)
        calls := s.calls ++ [⟨s.loop.time, delay, s.loop.timerCounter⟩] }

/-- The label is a call for a handle that belongs to another owner. -/
def foreign (s : Timeouts ι) : TimerLabel ι → Bool
  | .timerInit x | .timerStop x | .timerAgain x | .close x => (s.owner x).isNone
  | .timerStart x callback _ _ => (s.owner x).isNone && decide (callback ≠ some timerLibuvCb)
  | .updateTime _ | .runTimers | .round => false

/-- The callback that the loop calls; `timer_libuv_cb` reads what the handle refers to. -/
def onFired (s : Timeouts ι) (x : ι) (callback : ℕ) (time : UInt64) :
    Option (Timeouts ι × List TimeoutEvent) :=
  if callback = timerLibuvCb then
    (s.owner x).map fun k => ({ s with calling := some x }, [⟨k, time⟩])
  else some (s, [])

def afterRound (s : Timeouts ι) : List (TimerEvent ι) → Option (Timeouts ι × List TimeoutEvent)
  | [.fired x callback _ _ time] => s.onFired x callback time
  | _ => some (s, [])

def round (s : Timeouts ι) : Option (Timeouts ι × List TimeoutEvent) :=
  (s.loop.step .round).bind fun r => { s with loop := r.1 }.afterRound r.2

def step (s : Timeouts ι) : TimeoutLabel ι → Option (Timeouts ι × List TimeoutEvent)
  | .setTimeout x delay =>
    if s.owner x ≠ none ∨ (s.loop.handle x).active ∨ x ∈ s.loop.ready then none
    else (s.setTimeOutFunc x delay).map fun s => (s, [])
  | .callbackReturned =>
    match s.calling with
    | none => none
    | some x => (s.loop.uvClose x).map fun loop => ({ s with loop, calling := none }, [])
  | .onClose x =>
    if s.calling = none ∧ s.loop.running = false ∧ s.owner x ≠ none ∧
        (s.loop.handle x).closing then
      some ({ s with owner := Function.update s.owner x none }, [])
    else none
  | .others l =>
    if s.foreign l then (s.loop.step l).map fun r => ({ s with loop := r.1 }, []) else none
  | .updateTime time =>
    if s.calling = none then
      (s.loop.step (.updateTime time)).map fun r => ({ s with loop := r.1 }, [])
    else none
  | .runTimers =>
    if s.calling = none then
      (s.loop.step .runTimers).map fun r => ({ s with loop := r.1 }, [])
    else none
  | .round => if s.calling = none then s.round else none

end Timeouts

def timeouts (ι : Type*) [DecidableEq ι] :
    Machine (Timeouts ι) (TimeoutLabel ι) TimeoutEvent where
  init s := (Libuv.timers ι).init s.loop ∧ (∀ x, (s.loop.handle x).callback = none) ∧
    (∀ x, s.owner x = none) ∧ s.calling = none ∧ s.calls = []
  step := Timeouts.step

end CapyJs.Timer
