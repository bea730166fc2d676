import CapyJs.Text
import CapyJs.Transition.Machine
import Mathlib.Data.Int.Notation
import Mathlib.Logic.Function.Basic

/-!
# `FileSystem`: open, read and close through libuv's thread pool

A JS call submits a request, a thread of the pool executes it and the event loop
delivers its callback; the last two happen in any order among the requests. States
and buffers are numbered as they are allocated and are never numbered again, so that
a pointer to freed memory can be told from one to what came after. The JS function
that a callback calls runs after the callback has done its work on the state; what it
does next is a label of its own.
-/
namespace CapyJs.Fs
open Transition

structure FileOpState where
  fd : ℤ
  /-- `buf`, null at first -/
  buf : Option ℕ
  bufLen : ℕ
  deriving DecidableEq, Repr

/-- A submitted request with the state that its packet points to, and with its result
once it is executed. Of a read that is the bytes it stored. -/
inductive Request
  | opening (state : ℕ) (result : Option ℤ)
  | reading (state : ℕ) (fd : ℤ) (buf len : ℕ) (result : Option (Except ℤ Text))
  | closing (state : ℕ) (fd : ℤ) (executed : Bool)

def Request.state : Request → ℕ
  | .opening state _ => state
  | .reading state _ _ _ _ => state
  | .closing state _ _ => state

/-- Who a number in the kernel's table of open files belongs to. -/
inductive Owner
  | other
  | file (state : ℕ)
  deriving DecidableEq, Repr

structure State where
  states : ℕ → Option FileOpState
  nextState : ℕ
  fdState : ℤ → Option ℕ
  buffers : ℕ → Option Text
  nextBuf : ℕ
  requests : ℕ → Option Request
  nextReq : ℕ
  files : ℤ → Option Owner

/-- `uninit` is what the memory of a new buffer holds, and `beyond` what lies behind a
buffer's end. -/
inductive Label
  | openFile
  | readFile (fd : ℤ) (len : ℕ) (uninit : ℕ → UInt8)
  | closeFile (fd : ℤ)
  | executeOpen (q : ℕ) (result : ℤ)
  | executeRead (q : ℕ) (result : Except ℤ Text)
  | executeClose (q : ℕ)
  | deliver (q : ℕ) (beyond : ℕ → UInt8)

inductive Output
  | opened (state : ℕ) (fd : ℤ)
  | openFailed (state : ℕ) (err : ℤ)
  | unknownFd (fd : ℤ)
  | submitted (q : ℕ)
  | executed (q : ℕ) (result : Except ℤ Text)
  | wildStore (q : ℕ)
  | wildRead (q : ℕ)
  | invoked (q : ℕ) (arg : Except ℤ Text)
  | closeCalled (fd : ℤ)
  | closed (owner : Owner)
  | deleted (state : ℕ)

namespace State

def submit (r : Request) (s : State) : State :=
  { s with requests := Function.update s.requests s.nextReq (some r), nextReq := s.nextReq + 1 }

def setRequest (q : ℕ) (r : Option Request) (s : State) : State :=
  { s with requests := Function.update s.requests q r }

/-- `delete[] buf` -/
def freeBuffer (buf : Option ℕ) (buffers : ℕ → Option Text) : ℕ → Option Text :=
  match buf with
  | none => buffers
  | some b => Function.update buffers b none

/-! ## The calls from JS -/

def openFileAsync (s : State) : State × List Output :=
  ({ s with
      states := Function.update s.states s.nextState (some ⟨-1, none, 0⟩)
      nextState := s.nextState + 1 }.submit (.opening s.nextState none), [])

theorem states_openFileAsync (s : State) :
    s.openFileAsync.1.states = Function.update s.states s.nextState (some ⟨-1, none, 0⟩) := rfl

/-- The buffer of the state is replaced when it has another length. -/
def ensureBuffer (id : ℕ) (st : FileOpState) (len : ℕ) (uninit : ℕ → UInt8) (s : State) :
    State × ℕ :=
  match st.buf with
  | some b => if st.bufLen = len then (s, b) else (renew, s.nextBuf)
  | none => (renew, s.nextBuf)
where
  renew : State :=
    { s with
      buffers := Function.update (freeBuffer st.buf s.buffers) s.nextBuf
        (some ((List.range len).map uninit))
      nextBuf := s.nextBuf + 1
      states := Function.update s.states id (some { st with buf := some s.nextBuf, bufLen := len }) }

def readFileAsync (fd : ℤ) (len : ℕ) (uninit : ℕ → UInt8) (s : State) :
    Option (State × List Output) :=
  match s.fdState fd with
  | none => some (s, [.unknownFd fd])
  | some id =>
    match s.states id with
    | none => none
    | some st =>
      let (s', b) := s.ensureBuffer id st len uninit
      some (s'.submit (.reading id fd b len none), [.submitted s.nextReq])

def closeFileAsync (fd : ℤ) (s : State) : State × List Output :=
  match s.fdState fd with
  | none => (s, [.closeCalled fd])
  | some id => (s.submit (.closing id fd false), [.closeCalled fd])

/-! ## The thread pool -/

/-- `open` fails or gets a number that is not in use. -/
def executeOpen (q : ℕ) (result : ℤ) (s : State) : Option (State × List Output) :=
  match s.requests q with
  | some (.opening id none) =>
    let s' := s.setRequest q (some (.opening id (some result)))
    if result < 0 then some (s', [])
    else if s.files result = none then
      some ({ s' with files := Function.update s.files result (some (.file id)) }, [])
    else none
  | _ => none

def executeRead (q : ℕ) (result : Except ℤ Text) (s : State) : Option (State × List Output) :=
  match s.requests q with
  | some (.reading id fd b len none) =>
    let s' := s.setRequest q (some (.reading id fd b len (some result)))
    match result with
    | .error e => if e < 0 then some (s', [.executed q result]) else none
    | .ok bytes =>
      if bytes.length ≤ len ∧ (s.files fd).isSome then
        match s.buffers b with
        | some contents =>
          some ({ s' with
            buffers := Function.update s.buffers b
              (some (bytes ++ contents.drop bytes.length)) }, [.executed q result])
        | none => some (s', [.executed q result, .wildStore q])
      else none
  | _ => none

/-- A close of a number that is not in use fails; nobody looks at the result. -/
def executeClose (q : ℕ) (s : State) : Option (State × List Output) :=
  match s.requests q with
  | some (.closing id fd false) =>
    let s' := s.setRequest q (some (.closing id fd true))
    match s.files fd with
    | none => some (s', [])
    | some owner =>
      some ({ s' with files := Function.update s.files fd none }, [.closed owner])
  | _ => none

/-! ## The callbacks -/

def openFileAsyncCb (q id : ℕ) (result : ℤ) (st : FileOpState) (s : State) : State × List Output :=
  let s := s.setRequest q none
  if result < 0 then (s, [.openFailed id result])
  else
    ({ s with
        states := Function.update s.states id (some { st with fd := result })
        fdState := Function.update s.fdState result (some id) }, [.opened id result])

/-- The data are read from the buffer that the state has now. -/
def readFileAsyncCb (q : ℕ) (result : Except ℤ Text) (beyond : ℕ → UInt8) (st : FileOpState)
    (s : State) : State × List Output :=
  match result with
  | .error e => (s.setRequest q none, [.invoked q (.error e)])
  | .ok bytes =>
    let contents := (st.buf.bind s.buffers).getD []
    let n := bytes.length
    if n ≤ contents.length then (s.setRequest q none, [.invoked q (.ok (contents.take n))])
    else
      (s.setRequest q none, [.wildRead q,
        .invoked q (.ok ((contents ++ (List.range n).map beyond).take n))])

def closeFileAsyncCb (q id : ℕ) (st : FileOpState) (s : State) : State × List Output :=
  ({ s.setRequest q none with
      buffers := freeBuffer st.buf s.buffers
      fdState := Function.update s.fdState st.fd none
      states := Function.update s.states id none }, [.deleted id])

/-- A callback that finds its state deleted has no defined behaviour. -/
def deliver (q : ℕ) (beyond : ℕ → UInt8) (s : State) : Option (State × List Output) :=
  match s.requests q with
  | some (.opening id (some result)) =>
    (s.states id).map fun st => s.openFileAsyncCb q id result st
  | some (.reading id _ _ _ (some result)) =>
    (s.states id).map fun st => s.readFileAsyncCb q result beyond st
  | some (.closing id _ true) => (s.states id).map fun st => s.closeFileAsyncCb q id st
  | _ => none

end State

def step (s : State) : Label → Option (State × List Output)
  | .openFile => some s.openFileAsync
  | .readFile fd len uninit => s.readFileAsync fd len uninit
  | .closeFile fd => some (s.closeFileAsync fd)
  | .executeOpen q result => s.executeOpen q result
  | .executeRead q result => s.executeRead q result
  | .executeClose q => s.executeClose q
  | .deliver q beyond => s.deliver q beyond

/-- A `FileSystem` with nothing open, in a process that uses some numbers already. -/
def State.initial (inUse : ℤ → Bool) : State where
  states _ := none
  nextState := 0
  fdState _ := none
  buffers _ := none
  nextBuf := 0
  requests _ := none
  nextReq := 0
  files fd := if inUse fd then some .other else none

def fileSystem : Machine State Label Output where
  init s := ∃ inUse, s = .initial inUse
  step := step

end CapyJs.Fs
