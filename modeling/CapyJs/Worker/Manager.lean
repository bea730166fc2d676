import CapyJs.Transition.Machine
import CapyJs.Worker.Kind
import Mathlib.Data.Nat.Notation
import Mathlib.Logic.Function.Basic

/-!
# A manager with its workers

The main thread dispatches jobs, delivers results and stops the workers; each
worker's thread takes jobs and pushes their results. The labels name who moves. A
step is one access to what the threads share: a ring, a semaphore, the stop flag or
the doorbell. What does not touch a ring is defined for any queues. The manager here has
bounded FIFO queues with one slot less than their depth, which is what `SPSCQueue` refines.
-/
namespace CapyJs.Worker
open Transition

/-- Where a thread is in `run()`. Between two jobs it is in `dequeue`, which waits for
the semaphore, loads the stop flag and pops. -/
inductive Thread (P : Type*)
  | starting
  | waiting
  | woken
  | popping
  | pushing (r : Result P) (rest : List (Result P))
  | ringing (rest : List (Result P))
  | exited

/-- A worker whose submission queue is an `S` and whose result queue is an `R`. -/
structure WorkerOver (S R P : Type*) where
  sub : S
  sem : ℕ
  stopped : Bool
  results : R
  /-- the doorbell has been rung and `on_result_ready` not yet been called for it -/
  bell : Bool
  inFlight : ℤ
  /-- the doorbell keeps the event loop alive -/
  refd : Bool
  thread : Thread P
  /-- `stop()` has returned -/
  closed : Bool
  /-- how many references have been made for the worker's jobs -/
  refs : ℕ

inductive JobStatus
  | pending
  | done
  | error
  deriving DecidableEq, Repr

/-- Where the main thread is in `on_result_ready`: about to pop, or in the JS callback
for a result. -/
inductive Ready (P : Type*)
  | popping
  | calling (r : Result P)

inductive Stop
  | store
  | post
  | join
  deriving DecidableEq, Repr

/-- The native function that the main thread is in, called from JS. It is inside the `push` of
`enqueue` only with queues whose `push` takes several accesses; `Q` is what they push. -/
inductive Call (Q : Type*)
  | idle
  | push (w : ℕ) (item : Q)
  | enqueue (w : ℕ) (jobId : UInt64)
  | stop (k : ℕ) (pc : Stop)
  deriving DecidableEq, Repr

structure StateOver (W Q P : Type*) where
  size : ℕ
  workers : ℕ → W
  /-- `workers_.clear()` has been called -/
  cleared : Bool
  nextJobId : UInt64
  nextWorkerIdx : UInt64
  jobStatus : UInt64 → Option JobStatus
  ready : Option (ℕ × Ready P)
  call : Call Q

abbrev WorkerState (J P : Type*) := WorkerOver (List (Item J)) (List (Result P)) P

/-- The queues push and pop at once. -/
abbrev State (J P : Type*) := StateOver (WorkerState J P) Empty P

inductive Label (I : Type*)
  | dispatch (isFunction : Bool) (input : I)
  | enqueue
  | close
  | stop
  | ready (w : ℕ)
  | pop
  | callbackReturns
  /-- `loaded` is whether the thread gets to its first `dequeue` -/
  | thread (w : ℕ) (loaded : Bool)

/-- Where a reference to a callback is released. -/
inductive Release
  | onResult
  | submissionQueue
  | resultQueue
  deriving DecidableEq, Repr

/-- What happens to the references to callbacks of a worker's jobs. -/
inductive Event (J P : Type*)
  | duplicated (ref : Ref)
  | accepted (item : Item J)
  | called (r : Result P)
  | released (ref : Ref) (place : Release)

inductive Output (J P : Type*)
  | returned (jobId : UInt64)
  | threw (e : Exception)
  | worker (w : ℕ) (e : Event J P)

variable {I J P : Type*}

/-! ## With any queues -/

namespace StateOver
variable {W S R Q : Type*}

def setWorker (s : StateOver W Q P) (w : ℕ) (wk : W) : StateOver W Q P :=
  { s with workers := Function.update s.workers w wk }

@[simp] theorem workers_setWorker_self (s : StateOver W Q P) (w : ℕ) (wk : W) :
    (s.setWorker w wk).workers w = wk := Function.update_self ..

theorem workers_setWorker_of_ne {w w' : ℕ} (h : w' ≠ w) (s : StateOver W Q P) (wk : W) :
    (s.setWorker w wk).workers w' = s.workers w' := Function.update_of_ne h ..

/-- JS code runs, from the event loop or inside a callback. -/
def inJs (s : StateOver W Q P) : Bool :=
  match s.call, s.ready with
  | .idle, none | .idle, some (_, .calling _) => true
  | _, _ => false

/-- The loop of `js_close`, arrived at worker `k`. -/
def stopFrom (k : ℕ) (s : StateOver W Q P) : StateOver W Q P :=
  if k < s.size then { s with call := .stop k .store }
  else { s with call := .idle, cleared := true }

def jsClose (s : StateOver W Q P) : StateOver W Q P := if s.cleared then s else s.stopFrom 0

/-- The rest of `enqueue` and of `js_dispatch`, which returns `jobId`. -/
def enqueued (w : ℕ) (jobId : UInt64) (s : StateOver (WorkerOver S R P) Q P) :
    StateOver (WorkerOver S R P) Q P :=
  let wk := s.workers w
  { s.setWorker w { wk with
      sem := wk.sem + 1
      inFlight := wk.inFlight + 1
      refd := wk.refd || wk.inFlight == 0 } with
    jobStatus := Function.update s.jobStatus jobId (some .pending)
    call := .idle }

/-- `drain` is what `stop()` frees once the thread is gone, and `drained` is the worker then. -/
def stopStep (drain : WorkerOver S R P → List (Event J P))
    (drained : WorkerOver S R P → WorkerOver S R P) (k : ℕ) (s : StateOver (WorkerOver S R P) Q P) :
    Stop → Option (StateOver (WorkerOver S R P) Q P × List (Output J P))
  | .store =>
    some ({ s.setWorker k { s.workers k with stopped := true } with call := .stop k .post }, [])
  | .post =>
    some ({ s.setWorker k { s.workers k with sem := (s.workers k).sem + 1 } with
      call := .stop k .join }, [])
  | .join =>
    match (s.workers k).thread with
    | .exited =>
      some ((s.setWorker k (drained (s.workers k))).stopFrom (k + 1),
        (drain (s.workers k)).map (.worker k))
    | _ => none

/-- The end of `on_result` and of the loop body of `on_result_ready`. -/
def callbackReturned (w : ℕ) (r : Result P) (s : StateOver (WorkerOver S R P) Q P) :
    StateOver (WorkerOver S R P) Q P × List (Output J P) :=
  let wk := s.workers w
  if r.isDone then
    ({ s.setWorker w { wk with
          inFlight := wk.inFlight - 1
          refd := wk.refd && wk.inFlight != 1 } with ready := some (w, .popping) },
      [.worker w (.released r.ref .onResult)])
  else ({ s with ready := some (w, .popping) }, [])

end StateOver

/-! ## The worker thread -/

/-- The thread goes on with the results it still has to push, or to its next job. -/
def Thread.next : List (Result P) → Thread P
  | [] => .waiting
  | r :: rest => .pushing r rest

def WorkerState.threadStep (K : WorkerKind I J P) (loaded : Bool) (wk : WorkerState J P) :
    Option (WorkerState J P) :=
  match wk.thread with
  | .starting =>
    some { wk with thread := if K.mayNotStart && !loaded then .exited else .waiting }
  | .waiting =>
    if wk.sem = 0 then none else some { wk with sem := wk.sem - 1, thread := .woken }
  | .woken => some { wk with thread := if wk.stopped then .exited else .popping }
  | .popping =>
    match wk.sub with
    | [] => some { wk with thread := .exited }
    | item :: sub => some { wk with sub, thread := .next (K.results item) }
  | .pushing r rest =>
    -- a full ring makes the thread spin
    if wk.results.length < K.resultQueueDepth - 1 then
      some { wk with results := wk.results ++ [r], thread := .ringing rest }
    else none
  | .ringing rest => some { wk with bell := true, thread := .next rest }
  | .exited => none

/-! ## The main thread -/

/-- What `stop()` frees once the thread is gone. -/
def WorkerState.drain (K : WorkerKind I J P) (wk : WorkerState J P) : List (Event J P) :=
  wk.sub.map (fun item => .released item.ref .submissionQueue) ++
    (K.drain wk.results).map fun ref => .released ref .resultQueue

def WorkerState.drained (wk : WorkerState J P) : WorkerState J P :=
  { wk with sub := [], results := [], closed := true }

namespace State

/-- A job id and a worker have been taken. -/
def picked (s : State J P) : State J P :=
  { s with nextJobId := s.nextJobId + 1, nextWorkerIdx := s.nextWorkerIdx + 1 }

/-- `js_dispatch` up to the ring push of `enqueue`. -/
def jsDispatch (K : WorkerKind I J P) (isFunction : Bool) (input : I) (s : State J P) :
    State J P × List (Output J P) :=
  if !isFunction then (s, [.threw ⟨.typeError, "callback must be a function"⟩])
  else if s.cleared || s.size == 0 then (s, [.threw ⟨.internalError, K.noWorkers⟩])
  else
    match K.toJob input with
    | .error e => (s, [.threw e])
    | .ok job =>
      let w := s.nextWorkerIdx.toNat % s.size
      let wk := { s.workers w with refs := (s.workers w).refs + 1 }
      let item : Item J := ⟨s.nextJobId, ⟨w, (s.workers w).refs⟩, job⟩
      if wk.sub.length < K.queueDepth - 1 then
        ({ s.picked.setWorker w { wk with sub := wk.sub ++ [item] } with
            call := .enqueue w item.jobId },
          [.worker w (.duplicated item.ref), .worker w (.accepted item)])
      else
        (s.picked.setWorker w wk, [.worker w (.duplicated item.ref),
          .threw ⟨.internalError, s!"worker {w} queue full"⟩])

def stopStep (K : WorkerKind I J P) (k : ℕ) (s : State J P) (pc : Stop) :
    Option (State J P × List (Output J P)) :=
  StateOver.stopStep (WorkerState.drain K) WorkerState.drained k s pc

/-- The loop head of `on_result_ready`, with the start of `on_result`. -/
def popResult (K : WorkerKind I J P) (w : ℕ) (s : State J P) : State J P × List (Output J P) :=
  match (s.workers w).results with
  | [] => ({ s with ready := none }, [])
  | r :: results =>
    ({ s.setWorker w { s.workers w with results } with
        ready := some (w, .calling r)
        jobStatus := Function.update s.jobStatus r.jobId
          (some (if K.error r.payload then .error else .done)) },
      [.worker w (.called r)])

end State

/-! ## The machine -/

def step (K : WorkerKind I J P) (s : State J P) : Label I → Option (State J P × List (Output J P))
  | .dispatch isFunction input => if s.inJs then some (s.jsDispatch K isFunction input) else none
  | .enqueue =>
    match s.call with
    | .enqueue w jobId => some (s.enqueued w jobId, [.returned jobId])
    | _ => none
  | .close => if s.inJs then some (s.jsClose, []) else none
  | .stop =>
    match s.call with
    | .stop k pc => s.stopStep K k pc
    | _ => none
  | .ready w =>
    match s.call, s.ready with
    | .idle, none =>
      if w < s.size ∧ (s.workers w).bell = true ∧ (s.workers w).closed = false then
        some ({ s.setWorker w { s.workers w with bell := false } with
          ready := some (w, .popping) }, [])
      else none
    | _, _ => none
  | .pop =>
    match s.call, s.ready with
    | .idle, some (w, .popping) => some (s.popResult K w)
    | _, _ => none
  | .callbackReturns =>
    match s.call, s.ready with
    | .idle, some (w, .calling r) => some (s.callbackReturned w r)
    | _, _ => none
  | .thread w loaded =>
    if w < s.size then
      ((s.workers w).threadStep K loaded).map fun wk => (s.setWorker w wk, [])
    else none

def WorkerState.initial : WorkerState J P where
  sub := []
  sem := 0
  stopped := false
  results := []
  bell := false
  inFlight := 0
  refd := false
  thread := .starting
  closed := false
  refs := 0

def State.initial (size : ℕ) : State J P where
  size
  workers _ := .initial
  cleared := false
  nextJobId := 0
  nextWorkerIdx := 0
  jobStatus _ := none
  ready := none
  call := .idle

/-- A manager with `size` workers of one kind. -/
def manager (K : WorkerKind I J P) (size : ℕ) : Machine (State J P) (Label I) (Output J P) where
  init s := s = .initial size
  step := step K

end CapyJs.Worker
