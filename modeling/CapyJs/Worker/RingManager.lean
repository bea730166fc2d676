import CapyJs.Queue.SpscSides
import CapyJs.Worker.Manager

/-!
# A manager whose queues are rings

The manager with every access to a ring as a step of its own: while `enqueue` or
`on_result_ready` is inside `push` or `pop`, the worker's thread goes on, and the other way
round. Between two accesses the main thread is in native code, so no JS runs. What does not
touch a ring is the same as with queues.
-/
namespace CapyJs.Worker
open Queue Transition

variable {I J P : Type*} {N M : ℕ}

/-- `sub` is the ring of `sub_queue_` and `results` is `result_queue_`. -/
abbrev RingWorker (J P : Type*) (N M : ℕ) :=
  WorkerOver (SPSCQueue.State (Item J) N) (SPSCQueue.State (Result P) M) P

/-- A call that is inside `push` has made its first load. -/
abbrev RingState (J P : Type*) (N M : ℕ) := StateOver (RingWorker J P N M) (Item J) P

inductive RingLabel (I : Type*)
  | dispatch (isFunction : Bool) (input : I)
  | push
  | enqueue
  | close
  | stop
  | ready (w : ℕ)
  | pop
  | callbackReturns
  | thread (w : ℕ) (loaded : Bool)

/-! ## The worker thread -/

def RingWorker.threadStep (K : WorkerKind I J P) (loaded : Bool) (wk : RingWorker J P N M) :
    Option (RingWorker J P N M) :=
  match wk.thread with
  | .starting =>
    some { wk with thread := if K.mayNotStart && !loaded then .exited else .waiting }
  | .waiting =>
    if wk.sem = 0 then none else some { wk with sem := wk.sem - 1, thread := .woken }
  | .woken => some { wk with thread := if wk.stopped then .exited else .popping }
  | .popping =>
    match SPSCQueue.step wk.sub (SPSCQueue.nextPop wk.sub) with
    | some (sub, []) => some { wk with sub }
    | some (sub, [.pop none]) => some { wk with sub, thread := .exited }
    | some (sub, [.pop (some item)]) => some { wk with sub, thread := .next (K.results item) }
    | _ => none
  | .pushing r rest =>
    match SPSCQueue.step wk.results (SPSCQueue.nextPush wk.results r) with
    | some (results, []) | some (results, [.push _ false]) => some { wk with results }
    | some (results, [.push _ true]) => some { wk with results, thread := .ringing rest }
    | _ => none
  | .ringing rest => some { wk with bell := true, thread := .next rest }
  | .exited => none

/-! ## The main thread -/

/-- What `stop()` frees once the thread is gone: both rings belong to the main thread then. -/
def RingWorker.drain (K : WorkerKind I J P) (wk : RingWorker J P N M) : List (Event J P) :=
  (WorkQueue.drain N wk.sub.mem).map (fun item => .released item.ref .submissionQueue) ++
    (K.drain (WorkQueue.drain M wk.results.mem)).map fun ref => .released ref .resultQueue

def RingWorker.drained (wk : RingWorker J P N M) : RingWorker J P N M :=
  { wk with
    sub := { wk.sub with mem := SPSCQueue.popAll N wk.sub.mem }
    results := { wk.results with mem := SPSCQueue.popAll M wk.results.mem }
    closed := true }

namespace RingState

/-- `js_dispatch` up to the first access of `push`. -/
def jsDispatch (K : WorkerKind I J P) (isFunction : Bool) (input : I) (s : RingState J P N M) :
    Option (RingState J P N M × List (Output J P)) :=
  if !isFunction then some (s, [.threw ⟨.typeError, "callback must be a function"⟩])
  else if s.cleared || s.size == 0 then some (s, [.threw ⟨.internalError, K.noWorkers⟩])
  else
    match K.toJob input with
    | .error e => some (s, [.threw e])
    | .ok job =>
      let w := s.nextWorkerIdx.toNat % s.size
      let wk := s.workers w
      let item : Item J := ⟨s.nextJobId, ⟨w, wk.refs⟩, job⟩
      (SPSCQueue.step wk.sub (.push item)).map fun p =>
        ({ s.setWorker w { wk with sub := p.1, refs := wk.refs + 1 } with
            nextJobId := s.nextJobId + 1
            nextWorkerIdx := s.nextWorkerIdx + 1
            call := .push w item },
          [.worker w (.duplicated item.ref)])

/-- The further accesses of `push`, and what `enqueue` and `js_dispatch` make of its answer. -/
def pushStep (w : ℕ) (item : Item J) (s : RingState J P N M) :
    Option (RingState J P N M × List (Output J P)) :=
  match SPSCQueue.step (s.workers w).sub .producer with
  | some (sub, []) => some (s.setWorker w { s.workers w with sub }, [])
  | some (sub, [.push _ true]) =>
    some ({ s.setWorker w { s.workers w with sub } with call := .enqueue w item.jobId },
      [.worker w (.accepted item)])
  | some (sub, [.push _ false]) =>
    some ({ s.setWorker w { s.workers w with sub } with call := .idle },
      [.threw ⟨.internalError, s!"worker {w} queue full"⟩])
  | _ => none

def stopStep (K : WorkerKind I J P) (k : ℕ) (s : RingState J P N M) (pc : Stop) :
    Option (RingState J P N M × List (Output J P)) :=
  StateOver.stopStep (RingWorker.drain K) RingWorker.drained k s pc

/-- An access of the `pop` of `on_result_ready`, with the start of `on_result`. -/
def popStep (K : WorkerKind I J P) (w : ℕ) (s : RingState J P N M) :
    Option (RingState J P N M × List (Output J P)) :=
  match SPSCQueue.step (s.workers w).results (SPSCQueue.nextPop (s.workers w).results) with
  | some (results, []) => some (s.setWorker w { s.workers w with results }, [])
  | some (results, [.pop none]) =>
    some ({ s.setWorker w { s.workers w with results } with ready := none }, [])
  | some (results, [.pop (some r)]) =>
    some ({ s.setWorker w { s.workers w with results } with
        ready := some (w, .calling r)
        jobStatus := Function.update s.jobStatus r.jobId
          (some (if K.error r.payload then .error else .done)) },
      [.worker w (.called r)])
  | _ => none

end RingState

/-! ## The machine -/

def ringStep (K : WorkerKind I J P) (s : RingState J P N M) :
    RingLabel I → Option (RingState J P N M × List (Output J P))
  | .dispatch isFunction input => if s.inJs then s.jsDispatch K isFunction input else none
  | .push =>
    match s.call with
    | .push w item => s.pushStep w item
    | _ => none
  | .enqueue =>
    match s.call with
    | .enqueue w jobId => some (s.enqueued w jobId, [.returned jobId])
    | _ => none
  | .close => if s.inJs then some (s.jsClose, []) else none
  | .stop =>
    match s.call with
    | .stop k pc => s.stopStep K k pc
    | _ => none
  | .ready w =>
    match s.call, s.ready with
    | .idle, none =>
      if w < s.size ∧ (s.workers w).bell = true ∧ (s.workers w).closed = false then
        some ({ s.setWorker w { s.workers w with bell := false } with
          ready := some (w, .popping) }, [])
      else none
    | _, _ => none
  | .pop =>
    match s.call, s.ready with
    | .idle, some (w, .popping) => s.popStep K w
    | _, _ => none
  | .callbackReturns =>
    match s.call, s.ready with
    | .idle, some (w, .calling r) => some (s.callbackReturned w r)
    | _, _ => none
  | .thread w loaded =>
    if w < s.size then
      ((s.workers w).threadStep K loaded).map fun wk => (s.setWorker w wk, [])
    else none

/-- The rings of a new worker are empty; their cells hold whatever they hold. -/
structure RingWorker.Initial (wk : RingWorker J P N M) : Prop where
  sub : (SPSCQueue.machine (Item J) N).init wk.sub
  results : (SPSCQueue.machine (Result P) M).init wk.results
  sem : wk.sem = 0
  stopped : wk.stopped = false
  bell : wk.bell = false
  inFlight : wk.inFlight = 0
  refd : wk.refd = false
  thread : wk.thread = .starting
  closed : wk.closed = false
  refs : wk.refs = 0

structure RingState.Initial (size : ℕ) (s : RingState J P N M) : Prop where
  size_eq : s.size = size
  workers : ∀ w, (s.workers w).Initial
  cleared : s.cleared = false
  nextJobId : s.nextJobId = 0
  nextWorkerIdx : s.nextWorkerIdx = 0
  jobStatus : ∀ jobId, s.jobStatus jobId = none
  ready : s.ready = none
  call : s.call = .idle

def ringManager (K : WorkerKind I J P) (N M size : ℕ) :
    Machine (RingState J P N M) (RingLabel I) (Output J P) where
  init := RingState.Initial size
  step := ringStep K

end CapyJs.Worker
