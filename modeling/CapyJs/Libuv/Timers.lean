import CapyJs.Libuv.Heap
import CapyJs.Timer.Delay

/-!
# Timers on a loop

The armed timers of a loop are in a heap, in the order of their timeouts and, among equal ones,
of their starts. A pass over the timers first takes all that are due out of the heap and then
calls them one by one. The callbacks may start, stop and close any timer, so a timer that waits
for its call can still be stopped, and one that is started during the pass waits for the next.
-/
namespace CapyJs.Libuv
open Transition Timer

/-- `uv_timer_t`. Callbacks are numbered. -/
structure TimerHandle extends UvTimer where
  startId : UInt64
  callback : Option ℕ
  closing : Bool
  deriving DecidableEq

/-- `timer_less_than` -/
def timerLessThan (a b : TimerHandle) : Bool :=
  if a.timeout < b.timeout then true
  else if b.timeout < a.timeout then false
  else decide (a.startId < b.startId)

namespace TimerHandle

def stop (h : TimerHandle) : TimerHandle := { h with active := false }

/-- What `uv_timer_start` writes into a handle that may be started. -/
def start (h : TimerHandle) (time timerCounter : UInt64) (callback : ℕ)
    (timeout repeatMs : UInt64) : TimerHandle :=
  { UvTimer.start time timeout repeatMs with
    startId := timerCounter, callback := some callback, closing := h.closing }

/-- `uv_timer_init`, which leaves `start_id` alone. -/
def init (h : TimerHandle) : TimerHandle := ⟨⟨0, 0, false⟩, h.startId, none, false⟩

def setClosing (h : TimerHandle) : TimerHandle := { h with closing := true }

end TimerHandle

/-- The part of `uv_loop_t` that the timers are in, and the queue of `uv__run_timers`; `running`
while that is on its second loop. -/
structure TimerLoop (ι : Type*) where
  time : UInt64
  timerCounter : UInt64
  heap : Heap ι
  handle : ι → TimerHandle
  ready : List ι
  running : Bool

def uvEinval : ℤ := -22

namespace TimerLoop
variable {ι : Type*} [DecidableEq ι]

def lessThan (s : TimerLoop ι) (x y : ι) : Bool := timerLessThan (s.handle x) (s.handle y)

def setHandle (s : TimerLoop ι) (x : ι) (h : TimerHandle) : TimerLoop ι :=
  { s with handle := Function.update s.handle x h }

/-- `uv_timer_stop`. An inactive handle is in the queue of a pass or in no queue. -/
def uvTimerStop (s : TimerLoop ι) (x : ι) : Option (TimerLoop ι) :=
  if (s.handle x).active then do
    let heap ← s.heap.remove s.lessThan x
    some ({ s with heap }.setHandle x (s.handle x).stop)
  else some { s with ready := s.ready.erase x }

/-- The end of `uv_timer_start`, on a handle that is stopped. -/
def arm (s : TimerLoop ι) (x : ι) (callback : ℕ) (timeout repeatMs : UInt64) :
    Option (TimerLoop ι) := do
  let s := s.setHandle x ((s.handle x).start s.time s.timerCounter callback timeout repeatMs)
  let heap ← s.heap.insert s.lessThan x
  some { s with heap, timerCounter := s.timerCounter + 1 }

/-- `uv_timer_start` -/
def uvTimerStart (s : TimerLoop ι) (x : ι) (callback : Option ℕ) (timeout repeatMs : UInt64) :
    Option (TimerLoop ι × ℤ) :=
  match callback with
  | none => some (s, uvEinval)
  | some callback =>
    if (s.handle x).closing then some (s, uvEinval)
    else do
      let s ← s.uvTimerStop x
      let s ← s.arm x callback timeout repeatMs
      some (s, 0)

/-- `uv_timer_again` -/
def uvTimerAgain (s : TimerLoop ι) (x : ι) : Option (TimerLoop ι × ℤ) :=
  if (s.handle x).callback = none then some (s, uvEinval)
  else if (s.handle x).repeatMs = 0 then some (s, 0)
  else do
    let s ← s.uvTimerStop x
    let (s, _) ← s.uvTimerStart x (s.handle x).callback (s.handle x).repeatMs (s.handle x).repeatMs
    some (s, 0)

/-- `uv_close`, with its assertion, and `uv__timer_close`. -/
def uvClose (s : TimerLoop ι) (x : ι) : Option (TimerLoop ι) :=
  if (s.handle x).closing then none
  else (s.setHandle x (s.handle x).setClosing).uvTimerStop x

/-- The first loop of `uv__run_timers`. -/
def collect : ℕ → TimerLoop ι → Option (TimerLoop ι)
  | 0, _ => none
  | fuel + 1, s =>
    match s.heap.min with
    | none => some s
    | some x =>
      if s.time < (s.handle x).timeout then some s
      else do
        let s ← s.uvTimerStop x
        collect fuel { s with ready := s.ready ++ [x] }

/-- `uv__next_timeout` -/
def uvNextTimeout (s : TimerLoop ι) : ℤ :=
  match s.heap.min with
  | none => -1
  | some x =>
    if (s.handle x).timeout ≤ s.time then 0
    else min ((s.handle x).timeout - s.time).toNat (2 ^ 31 - 1)

end TimerLoop

inductive TimerLabel (ι : Type*)
  | updateTime (time : UInt64)
  | timerInit (x : ι)
  | timerStart (x : ι) (callback : Option ℕ) (timeout repeatMs : UInt64)
  | timerStop (x : ι)
  | timerAgain (x : ι)
  | close (x : ι)
  | runTimers
  /-- the second loop of `uv__run_timers` goes round, or ends -/
  | round

/-- What an owner of timers sees; a call of a callback with the timeout and the start that its
timer was armed with, and the time of the loop. -/
inductive TimerEvent (ι : Type*)
  | returned (code : ℤ)
  | fired (x : ι) (callback : ℕ) (timeout startId time : UInt64)

namespace TimerLoop
variable {ι : Type*} [DecidableEq ι]

def round (s : TimerLoop ι) : Option (TimerLoop ι × List (TimerEvent ι)) :=
  match s.ready with
  | [] => some ({ s with running := false }, [])
  | x :: ready =>
    ({ s with ready }.uvTimerAgain x).bind fun r =>
      -- `none` is a call through a null pointer
      (r.1.handle x).callback.map fun callback =>
        (r.1, [.fired x callback (s.handle x).timeout (s.handle x).startId r.1.time])

/-- A handle may be initialised again once it is in no queue; the memory of one that is armed is
never given to another. -/
def step (s : TimerLoop ι) : TimerLabel ι → Option (TimerLoop ι × List (TimerEvent ι))
  | .updateTime time =>
    if s.running = false ∧ s.time ≤ time then some ({ s with time }, []) else none
  | .timerInit x =>
    if (s.handle x).active ∨ x ∈ s.ready then none
    else some (s.setHandle x (s.handle x).init, [])
  | .timerStart x callback timeout repeatMs =>
    (s.uvTimerStart x callback timeout repeatMs).map fun r => (r.1, [.returned r.2])
  | .timerStop x => (s.uvTimerStop x).map fun s => (s, [.returned 0])
  | .timerAgain x => (s.uvTimerAgain x).map fun r => (r.1, [.returned r.2])
  | .close x => (s.uvClose x).map fun s => (s, [])
  | .runTimers =>
    if s.running then none
    else (collect (s.heap.nelts + 1) s).map fun s => ({ s with running := true }, [])
  | .round => if s.running then s.round else none

end TimerLoop

def timers (ι : Type*) [DecidableEq ι] :
    Machine (TimerLoop ι) (TimerLabel ι) (TimerEvent ι) where
  init s := s.heap.min = none ∧ s.heap.nelts = 0 ∧ s.timerCounter = 0 ∧ s.ready = [] ∧
    s.running = false ∧ ∀ x, (s.handle x).active = false
  step := TimerLoop.step

end CapyJs.Libuv
