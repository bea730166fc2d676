import CapyJs.Fs.FileSystem

/-!
# What a step of the file system can do, and which state a request refers to
-/
namespace CapyJs.Fs
open Transition

/-- The buffer that a read gets: the one there is, or a new one. -/
inductive Buffered (s : State) (id : ℕ) (st : FileOpState) (len : ℕ) (uninit : ℕ → UInt8) :
    State → ℕ → Prop
  | same {b : ℕ} (hbuf : st.buf = some b) (hlen : st.bufLen = len) : Buffered s id st len uninit s b
  | renewed (hnew : st.buf = none ∨ st.bufLen ≠ len) :
      Buffered s id st len uninit
        { s with
          buffers := Function.update (State.freeBuffer st.buf s.buffers) s.nextBuf
            (some ((List.range len).map uninit))
          nextBuf := s.nextBuf + 1
          states := Function.update s.states id
            (some { st with buf := some s.nextBuf, bufLen := len }) } s.nextBuf

theorem State.buffered (s : State) (id : ℕ) (st : FileOpState) (len : ℕ) (uninit : ℕ → UInt8) :
    Buffered s id st len uninit (s.ensureBuffer id st len uninit).1
      (s.ensureBuffer id st len uninit).2 := by
  unfold ensureBuffer
  split
  · next b hbuf =>
    split_ifs with hlen
    · exact .same hbuf hlen
    · exact .renewed (.inr hlen)
  · next hbuf => exact .renewed (.inl hbuf)

namespace Buffered
variable {s s' : State} {id len b : ℕ} {st : FileOpState} {uninit : ℕ → UInt8}

theorem states_some (h : Buffered s id st len uninit s' b) (hst : s.states id = some st) {id' : ℕ}
    {st' : FileOpState} (hst' : s'.states id' = some st') :
    ∃ st₀, s.states id' = some st₀ ∧ st₀.fd = st'.fd := by
  cases h with
  | same => exact ⟨st', hst', rfl⟩
  | renewed =>
    by_cases hid : id' = id
    · subst hid
      simp only [Function.update_self, Option.some.injEq] at hst'
      exact ⟨st, hst, by rw [← hst']⟩
    · simp only [Function.update_of_ne hid] at hst'
      exact ⟨st', hst', rfl⟩

theorem states_none (h : Buffered s id st len uninit s' b) (hst : s.states id = some st) {id' : ℕ}
    (hnone : s.states id' = none) : s'.states id' = none := by
  cases h with
  | same => exact hnone
  | renewed =>
    have hid : id' ≠ id := by
      rintro rfl
      rw [hst] at hnone
      cases hnone
    simp only [Function.update_of_ne hid, hnone]

theorem requests_submit (h : Buffered s id st len uninit s' b) (r : Request) :
    (s'.submit r).requests = (s.submit r).requests := by
  cases h <;> rfl

end Buffered

/-- Everything that a step can do. -/
inductive Moved (s : State) : Label → State → List Output → Prop
  | openFile : Moved s .openFile s.openFileAsync.1 []
  | readUnknown {fd : ℤ} {len : ℕ} {uninit : ℕ → UInt8} (hfd : s.fdState fd = none) :
      Moved s (.readFile fd len uninit) s [.unknownFd fd]
  | read {fd : ℤ} {len id b : ℕ} {uninit : ℕ → UInt8} {st : FileOpState} {s' : State}
      (hfd : s.fdState fd = some id) (hst : s.states id = some st)
      (hbuf : Buffered s id st len uninit s' b) :
      Moved s (.readFile fd len uninit) (s'.submit (.reading id fd b len none))
        [.submitted s.nextReq]
  | closeUnknown {fd : ℤ} (hfd : s.fdState fd = none) :
      Moved s (.closeFile fd) s [.closeCalled fd]
  | close {fd : ℤ} {id : ℕ} (hfd : s.fdState fd = some id) :
      Moved s (.closeFile fd) (s.submit (.closing id fd false)) [.closeCalled fd]
  | executeOpenFailed {q id : ℕ} {result : ℤ} (hq : s.requests q = some (.opening id none))
      (hresult : result < 0) :
      Moved s (.executeOpen q result) (s.setRequest q (some (.opening id (some result)))) []
  | executeOpen {q id : ℕ} {result : ℤ} (hq : s.requests q = some (.opening id none))
      (hresult : 0 ≤ result) (hfree : s.files result = none) :
      Moved s (.executeOpen q result)
        { s.setRequest q (some (.opening id (some result))) with
          files := Function.update s.files result (some (.file id)) } []
  | executeReadFailed {q id b len : ℕ} {fd e : ℤ}
      (hq : s.requests q = some (.reading id fd b len none)) :
      Moved s (.executeRead q (.error e))
        (s.setRequest q (some (.reading id fd b len (some (.error e))))) [.executed q (.error e)]
  | executeRead {q id b len : ℕ} {fd : ℤ} {bytes contents : Text}
      (hq : s.requests q = some (.reading id fd b len none)) (hlen : bytes.length ≤ len)
      (hbuf : s.buffers b = some contents) :
      Moved s (.executeRead q (.ok bytes))
        { s.setRequest q (some (.reading id fd b len (some (.ok bytes)))) with
          buffers := Function.update s.buffers b (some (bytes ++ contents.drop bytes.length)) }
        [.executed q (.ok bytes)]
  | executeReadWild {q id b len : ℕ} {fd : ℤ} {bytes : Text}
      (hq : s.requests q = some (.reading id fd b len none)) (hlen : bytes.length ≤ len)
      (hbuf : s.buffers b = none) :
      Moved s (.executeRead q (.ok bytes))
        (s.setRequest q (some (.reading id fd b len (some (.ok bytes)))))
        [.executed q (.ok bytes), .wildStore q]
  | executeCloseUnused {q id : ℕ} {fd : ℤ} (hq : s.requests q = some (.closing id fd false))
      (hfile : s.files fd = none) :
      Moved s (.executeClose q) (s.setRequest q (some (.closing id fd true))) []
  | executeClose {q id : ℕ} {fd : ℤ} {owner : Owner}
      (hq : s.requests q = some (.closing id fd false)) (hfile : s.files fd = some owner) :
      Moved s (.executeClose q)
        { s.setRequest q (some (.closing id fd true)) with
          files := Function.update s.files fd none } [.closed owner]
  | openFailed {q id : ℕ} {result : ℤ} {beyond : ℕ → UInt8}
      (hq : s.requests q = some (.opening id (some result))) (hresult : result < 0) :
      Moved s (.deliver q beyond) (s.setRequest q none) [.openFailed id result]
  | opened {q id : ℕ} {result : ℤ} {beyond : ℕ → UInt8} {st : FileOpState}
      (hq : s.requests q = some (.opening id (some result))) (hresult : 0 ≤ result)
      (hst : s.states id = some st) :
      Moved s (.deliver q beyond)
        { s.setRequest q none with
          states := Function.update s.states id (some { st with fd := result })
          fdState := Function.update s.fdState result (some id) } [.opened id result]
  | readFailed {q id b len : ℕ} {fd e : ℤ} {beyond : ℕ → UInt8}
      (hq : s.requests q = some (.reading id fd b len (some (.error e)))) :
      Moved s (.deliver q beyond) (s.setRequest q none) [.invoked q (.error e)]
  | readDone {q id b len : ℕ} {fd : ℤ} {bytes : Text} {beyond : ℕ → UInt8} {st : FileOpState}
      (hq : s.requests q = some (.reading id fd b len (some (.ok bytes))))
      (hst : s.states id = some st)
      (hlen : bytes.length ≤ ((st.buf.bind s.buffers).getD []).length) :
      Moved s (.deliver q beyond) (s.setRequest q none)
        [.invoked q (.ok (((st.buf.bind s.buffers).getD []).take bytes.length))]
  | readWild {q id b len : ℕ} {fd : ℤ} {bytes data : Text} {beyond : ℕ → UInt8} {st : FileOpState}
      (hq : s.requests q = some (.reading id fd b len (some (.ok bytes))))
      (hst : s.states id = some st)
      (hlen : ((st.buf.bind s.buffers).getD []).length < bytes.length) :
      Moved s (.deliver q beyond) (s.setRequest q none) [.wildRead q, .invoked q (.ok data)]
  | closed {q id : ℕ} {fd : ℤ} {beyond : ℕ → UInt8} {st : FileOpState}
      (hq : s.requests q = some (.closing id fd true)) (hst : s.states id = some st) :
      Moved s (.deliver q beyond)
        { s.setRequest q none with
          buffers := State.freeBuffer st.buf s.buffers
          fdState := Function.update s.fdState st.fd none
          states := Function.update s.states id none } [.deleted id]

theorem moved_deliver {s s' : State} {q : ℕ} {beyond : ℕ → UInt8} {out : List Output}
    (h : s.deliver q beyond = some (s', out)) : Moved s (.deliver q beyond) s' out := by
  unfold State.deliver at h
  split at h
  · next id result hq =>
    obtain ⟨st, hst, heq⟩ := Option.map_eq_some_iff.mp h
    unfold State.openFileAsyncCb at heq
    split_ifs at heq with hresult
    · cases heq
      exact .openFailed hq hresult
    · cases heq
      exact .opened hq (Int.not_lt.mp hresult) hst
  · next id fd b len result hq =>
    obtain ⟨st, hst, heq⟩ := Option.map_eq_some_iff.mp h
    unfold State.readFileAsyncCb at heq
    split at heq
    · cases heq
      exact .readFailed hq
    · next bytes =>
      simp only at heq
      split_ifs at heq with hlen
      · cases heq
        exact .readDone hq hst hlen
      · cases heq
        exact .readWild hq hst (Nat.not_le.mp hlen)
  · next id fd hq =>
    obtain ⟨st, hst, heq⟩ := Option.map_eq_some_iff.mp h
    cases heq
    exact .closed hq hst
  · cases h

theorem moved_executeRead {s s' : State} {q : ℕ} {result : Except ℤ Text} {out : List Output}
    (h : s.executeRead q result = some (s', out)) : Moved s (.executeRead q result) s' out := by
  unfold State.executeRead at h
  split at h
  · next id fd b len hq =>
    simp only at h
    split at h
    · split_ifs at h
      cases h
      exact .executeReadFailed hq
    · split_ifs at h with hok
      split at h
      · next contents hbuf =>
        cases h
        exact .executeRead hq hok.1 hbuf
      · next hbuf =>
        cases h
        exact .executeReadWild hq hok.1 hbuf
  · cases h

theorem moved {s s' : State} {a : Label} {out : List Output} (h : step s a = some (s', out)) :
    Moved s a s' out := by
  cases a with
  | openFile =>
    cases h
    exact .openFile
  | readFile fd len uninit =>
    simp only [step, State.readFileAsync] at h
    split at h
    · next hfd =>
      cases h
      exact .readUnknown hfd
    · next id hfd =>
      split at h
      · cases h
      · next st hst =>
        cases h
        exact .read hfd hst (s.buffered id st len uninit)
  | closeFile fd =>
    simp only [step, Option.some.injEq, State.closeFileAsync] at h
    split at h
    · next hfd =>
      cases h
      exact .closeUnknown hfd
    · next id hfd =>
      cases h
      exact .close hfd
  | executeOpen q result =>
    simp only [step, State.executeOpen] at h
    split at h
    · next id hq =>
      split_ifs at h with hresult hfree
      · cases h
        exact .executeOpenFailed hq hresult
      · cases h
        exact .executeOpen hq (Int.not_lt.mp hresult) hfree
    · cases h
  | executeRead q result => exact moved_executeRead h
  | executeClose q =>
    simp only [step, State.executeClose] at h
    split at h
    · next id fd hq =>
      split at h
      · next hfile =>
        cases h
        exact .executeCloseUnused hq hfile
      · next owner hfile =>
        cases h
        exact .executeClose hq hfile
    · cases h
  | deliver q beyond => exact moved_deliver h

/-! ## The requests that refer to a state -/

def Request.isReading : Request → Bool
  | .reading _ _ _ _ _ => true
  | _ => false

/-- Some request in flight meets a test. -/
def State.anyRequest (p : Request → Bool) (s : State) : Bool :=
  (List.range s.nextReq).any fun q => (s.requests q).any p

/-- JS calls `read(fd)` only when no `close(fd)` is in flight, and `close(fd)` only when
neither a read nor another close is. -/
def exclusive (s : State) : Label → Bool
  | .readFile fd _ _ =>
    match s.fdState fd with
    | some id => !s.anyRequest fun r => r.state == id && !r.isReading
    | none => true
  | .closeFile fd =>
    match s.fdState fd with
    | some id => !s.anyRequest fun r => r.state == id
    | none => true
  | _ => true

/-- The request as it was submitted. -/
def Request.submitted : Request → Request
  | .opening id _ => .opening id none
  | .reading id fd b len _ => .reading id fd b len none
  | .closing id fd _ => .closing id fd false

@[simp] theorem Request.state_submitted (r : Request) : r.submitted.state = r.state := by
  cases r <;> rfl

@[simp] theorem Request.isReading_submitted (r : Request) :
    r.submitted.isReading = r.isReading := by
  cases r <;> rfl

def State.inFlight (s : State) (q : ℕ) : Option Request := (s.requests q).map Request.submitted

theorem inFlight_of_requests {s : State} {q : ℕ} {r : Request} (h : s.requests q = some r) :
    s.inFlight q = some r.submitted := by
  rw [State.inFlight, h, Option.map_some]

theorem Buffered.inFlight_submit {s s' : State} {id len b : ℕ} {st : FileOpState} {uninit : ℕ → UInt8}
    (h : Buffered s id st len uninit s' b) (r : Request) :
    (s'.submit r).inFlight = (s.submit r).inFlight := by
  funext q
  rw [State.inFlight, State.inFlight, h.requests_submit]

/-- Requests refer to live states, and only reads share one. -/
structure Refs (s : State) : Prop where
  state_lt : ∀ id st, s.states id = some st → id < s.nextState
  req_lt : ∀ q r, s.inFlight q = some r → q < s.nextReq
  live : ∀ q r, s.inFlight q = some r → ∃ st, s.states r.state = some st
  fd_eq : ∀ fd id, s.fdState fd = some id → 0 ≤ fd ∧ ∃ st, s.states id = some st ∧ st.fd = fd
  opening : ∀ q id, s.inFlight q = some (.opening id none) →
    s.states id = some ⟨-1, none, 0⟩ ∧ ∀ fd, s.fdState fd ≠ some id
  closing : ∀ q id fd, s.inFlight q = some (.closing id fd false) →
    0 ≤ fd ∧ ∃ st, s.states id = some st ∧ st.fd = fd
  alone : ∀ q q' r r', s.inFlight q = some r → s.inFlight q' = some r' → r'.state = r.state →
    q' = q ∨ r.isReading = true ∧ r'.isReading = true

namespace Refs
variable {s s' : State}

/-- The execution of a request concerns other parts of the state. -/
theorem of_eq (h : Refs s) (hstates : s'.states = s.states) (hnext : s'.nextState = s.nextState)
    (hfd : s'.fdState = s.fdState) (hflight : s'.inFlight = s.inFlight)
    (hreq : s'.nextReq = s.nextReq) : Refs s' := by
  constructor
  · rw [hstates, hnext]; exact h.state_lt
  · rw [hflight, hreq]; exact h.req_lt
  · rw [hflight, hstates]; exact h.live
  · rw [hfd, hstates]; exact h.fd_eq
  · rw [hflight, hstates, hfd]; exact h.opening
  · rw [hflight, hstates]; exact h.closing
  · rw [hflight]; exact h.alone

end Refs

theorem inFlight_setRequest {s : State} {q : ℕ} {r r' : Request} (hq : s.requests q = some r)
    (hr : r'.submitted = r.submitted) : (s.setRequest q (some r')).inFlight = s.inFlight := by
  funext q'
  by_cases h : q' = q
  · subst h
    simp [State.inFlight, State.setRequest, hq, hr]
  · simp [State.inFlight, State.setRequest, h]

theorem inFlight_finish {s : State} {q q' : ℕ} {r : Request}
    (h : (s.setRequest q none).inFlight q' = some r) : q' ≠ q ∧ s.inFlight q' = some r := by
  by_cases hq : q' = q
  · subst hq
    simp [State.inFlight, State.setRequest] at h
  · refine ⟨hq, ?_⟩
    simpa [State.inFlight, State.setRequest, hq] using h

theorem inFlight_submit {s : State} {q : ℕ} {r r' : Request}
    (h : (s.submit r).inFlight q = some r') :
    q = s.nextReq ∧ r' = r.submitted ∨ s.inFlight q = some r' := by
  by_cases hq : q = s.nextReq
  · subst hq
    left
    simpa [State.inFlight, State.submit, eq_comm] using h
  · right
    simpa [State.inFlight, State.submit, hq] using h

theorem requests_of_update {requests : ℕ → Option Request} {q q' : ℕ} {new : Option Request}
    {r : Request} (h : Function.update requests q new q' = some r) (hne : new ≠ some r) :
    requests q' = some r := by
  by_cases heq : q' = q
  · rw [heq, Function.update_self] at h
    exact absurd h hne
  · rwa [Function.update_of_ne heq] at h

/-- Requests other than the one that changes. -/
theorem requests_setRequest {s : State} {q q' : ℕ} {r r' : Request} {new : Option Request}
    (hq : s.requests q = some r) (hr : r' ≠ r) (hnew : new ≠ some r') :
    (s.setRequest q new).requests q' = some r' ↔ s.requests q' = some r' := by
  by_cases h : q' = q
  · subst h
    simp [State.setRequest, hq, hnew, hr.symm]
  · simp [State.setRequest, h]

theorem not_anyRequest {s : State} (h : Refs s) {p : Request → Bool}
    (hp : ∀ r, p r.submitted = p r) (hnot : s.anyRequest p = false) {q : ℕ} {r : Request}
    (hq : s.inFlight q = some r) : p r = false := by
  obtain ⟨r', hr', rfl⟩ := Option.map_eq_some_iff.mp hq
  simp only [State.anyRequest, List.any_eq_false, List.mem_range] at hnot
  have hq' := hnot q (h.req_lt q _ hq)
  rw [hp]
  simpa [hr'] using hq'

namespace Refs
variable {s s' : State}

theorem requests_submit (h : Refs s) {q : ℕ} {r r' : Request} (hr : r' ≠ r) :
    (s.submit r).requests q = some r' ↔ s.requests q = some r' := by
  by_cases hq : q = s.nextReq
  · subst hq
    have hnone : s.requests s.nextReq ≠ some r' := by
      intro hq
      exact Nat.lt_irrefl _ (h.req_lt s.nextReq r'.submitted (inFlight_of_requests hq))
    simp [State.submit, hr.symm, hnone]
  · simp [State.submit, hq]

theorem finish (h : Refs s) (q : ℕ) : Refs (s.setRequest q none) := by
  constructor
  · exact h.state_lt
  · exact fun q' r hq => h.req_lt q' r (inFlight_finish hq).2
  · exact fun q' r hq => h.live q' r (inFlight_finish hq).2
  · exact h.fd_eq
  · exact fun q' id hq => h.opening q' id (inFlight_finish hq).2
  · exact fun q' id fd hq => h.closing q' id fd (inFlight_finish hq).2
  · exact fun q₁ q₂ r₁ r₂ h₁ h₂ =>
      h.alone q₁ q₂ r₁ r₂ (inFlight_finish h₁).2 (inFlight_finish h₂).2

theorem submit (h : Refs s) {r : Request} (hlive : ∃ st, s.states r.state = some st)
    (hopening : ∀ id, r.submitted = .opening id none →
      s.states id = some ⟨-1, none, 0⟩ ∧ ∀ fd, s.fdState fd ≠ some id)
    (hclosing : ∀ id fd, r.submitted = .closing id fd false →
      0 ≤ fd ∧ ∃ st, s.states id = some st ∧ st.fd = fd)
    (halone : ∀ q r', s.inFlight q = some r' → r'.state = r.state →
      r.isReading = true ∧ r'.isReading = true) : Refs (s.submit r) := by
  constructor
  · exact h.state_lt
  · intro q r' hq
    rcases inFlight_submit hq with ⟨rfl, -⟩ | hq
    · exact Nat.lt_succ_self _
    · exact Nat.lt_succ_of_lt (h.req_lt q r' hq)
  · intro q r' hq
    rcases inFlight_submit hq with ⟨-, rfl⟩ | hq
    · rw [Request.state_submitted]
      exact hlive
    · exact h.live q r' hq
  · exact h.fd_eq
  · intro q id hq
    rcases inFlight_submit hq with ⟨-, heq⟩ | hq
    · exact hopening id heq.symm
    · exact h.opening q id hq
  · intro q id fd hq
    rcases inFlight_submit hq with ⟨-, heq⟩ | hq
    · exact hclosing id fd heq.symm
    · exact h.closing q id fd hq
  · intro q₁ q₂ r₁ r₂ h₁ h₂ hstate
    rcases inFlight_submit h₁ with ⟨rfl, rfl⟩ | h₁ <;> rcases inFlight_submit h₂ with ⟨rfl, rfl⟩ | h₂
    · exact .inl rfl
    · rw [Request.state_submitted] at hstate
      rw [Request.isReading_submitted]
      exact .inr (halone q₂ r₂ h₂ hstate)
    · rw [Request.state_submitted] at hstate
      rw [Request.isReading_submitted]
      exact .inr (halone q₁ r₁ h₁ hstate.symm).symm
    · exact h.alone q₁ q₂ r₁ r₂ h₁ h₂ hstate

theorem openFile (h : Refs s) : Refs s.openFileAsync.1 := by
  -- the number of the new state is not in use
  have hfresh {id : ℕ} {st : FileOpState} (hst : s.states id = some st) : id ≠ s.nextState :=
    Nat.ne_of_lt (h.state_lt id st hst)
  have hkept {id : ℕ} {st : FileOpState} (hst : s.states id = some st) :
      Function.update s.states s.nextState (some ⟨-1, none, 0⟩) id = some st := by
    rw [Function.update_of_ne (hfresh hst), hst]
  have hfd (fd : ℤ) : s.fdState fd ≠ some s.nextState := by
    intro hfd
    obtain ⟨-, st, hst, -⟩ := h.fd_eq fd _ hfd
    exact hfresh hst rfl
  have hgrown : Refs { s with
      states := Function.update s.states s.nextState (some ⟨-1, none, 0⟩)
      nextState := s.nextState + 1 } := by
    constructor
    · intro id st hst
      by_cases hid : id = s.nextState
      · exact hid ▸ Nat.lt_succ_self _
      · exact Nat.lt_succ_of_lt (h.state_lt id st (by simpa [hid] using hst))
    · exact h.req_lt
    · intro q r hq
      obtain ⟨st, hst⟩ := h.live q r hq
      exact ⟨st, hkept hst⟩
    · intro fd id hid
      obtain ⟨hle, st, hst, heq⟩ := h.fd_eq fd id hid
      exact ⟨hle, st, hkept hst, heq⟩
    · intro q id hq
      obtain ⟨hst, hfd⟩ := h.opening q id hq
      exact ⟨hkept hst, hfd⟩
    · intro q id fd hq
      obtain ⟨hle, st, hst, heq⟩ := h.closing q id fd hq
      exact ⟨hle, st, hkept hst, heq⟩
    · exact h.alone
  apply hgrown.submit
  · exact ⟨_, Function.update_self ..⟩
  · rintro id ⟨⟩
    exact ⟨Function.update_self .., hfd⟩
  · intro id fd heq
    cases heq
  · intro q r hq hstate
    obtain ⟨st, hst⟩ := h.live q r hq
    exact absurd hstate (hfresh hst)

/-- A state that is open gets another buffer. -/
theorem setBuffer (h : Refs s) {id : ℕ} {st st' : FileOpState} (hst : s.states id = some st)
    (hfd : st'.fd = st.fd) (hopen : ∀ q, s.inFlight q ≠ some (.opening id none))
    (hstates : s'.states = Function.update s.states id (some st'))
    (hnext : s'.nextState = s.nextState) (hmap : s'.fdState = s.fdState)
    (hflight : s'.inFlight = s.inFlight) (hreq : s'.nextReq = s.nextReq) : Refs s' := by
  have hkept {id' : ℕ} {fd : ℤ} (hold : ∃ st, s.states id' = some st ∧ st.fd = fd) :
      ∃ st, s'.states id' = some st ∧ st.fd = fd := by
    obtain ⟨st₀, hst₀, heq⟩ := hold
    rw [hstates]
    by_cases hid : id' = id
    · subst hid
      rw [hst] at hst₀
      cases hst₀
      exact ⟨st', Function.update_self .., hfd.trans heq⟩
    · exact ⟨st₀, by rw [Function.update_of_ne hid, hst₀], heq⟩
  constructor
  · intro id' st₀ hst₀
    rw [hnext]
    by_cases hid : id' = id
    · exact hid ▸ h.state_lt id st hst
    · rw [hstates, Function.update_of_ne hid] at hst₀
      exact h.state_lt id' st₀ hst₀
  · rw [hflight, hreq]; exact h.req_lt
  · rw [hflight]
    intro q r hq
    obtain ⟨st₀, hst₀⟩ := h.live q r hq
    obtain ⟨st₁, hst₁, -⟩ := hkept ⟨st₀, hst₀, rfl⟩
    exact ⟨st₁, hst₁⟩
  · rw [hmap]
    intro fd id' hid
    obtain ⟨hle, hold⟩ := h.fd_eq fd id' hid
    exact ⟨hle, hkept hold⟩
  · rw [hflight, hmap, hstates]
    intro q id' hq
    have hid : id' ≠ id := by
      rintro rfl
      exact hopen q hq
    rw [Function.update_of_ne hid]
    exact h.opening q id' hq
  · rw [hflight]
    intro q id' fd hq
    obtain ⟨hle, hold⟩ := h.closing q id' fd hq
    exact ⟨hle, hkept hold⟩
  · rw [hflight]; exact h.alone

theorem buffered (h : Refs s) {id len b : ℕ} {st : FileOpState} {uninit : ℕ → UInt8}
    (hst : s.states id = some st) (hopen : ∀ q, s.inFlight q ≠ some (.opening id none))
    (hbuf : Buffered s id st len uninit s' b) : Refs s' := by
  cases hbuf with
  | same => exact h
  | renewed =>
    have hfd : ({ st with buf := some s.nextBuf, bufLen := len } : FileOpState).fd = st.fd := rfl
    apply h.setBuffer hst hfd hopen
    all_goals rfl

/-- No other request refers to the state of an open or a close. -/
theorem state_ne (h : Refs s) {q : ℕ} {r : Request} (hq : s.inFlight q = some r)
    (hreading : r.isReading = false) {q' : ℕ} {r' : Request}
    (hq' : (s.setRequest q none).inFlight q' = some r') : r'.state ≠ r.state := by
  obtain ⟨hne, hq'⟩ := inFlight_finish hq'
  intro hstate
  rcases h.alone q q' r r' hq hq' hstate with heq | ⟨hread, -⟩
  · exact hne heq
  · rw [hreading] at hread
    cases hread

/-- A request that has its state to itself ends and changes that state and what is mapped
to it. -/
theorem finished (h : Refs s) {q : ℕ} {r : Request} (hq : s.inFlight q = some r)
    (hreading : r.isReading = false)
    (hkept : ∀ id, id ≠ r.state → s'.states id = s.states id)
    (hlt : ∀ st, s'.states r.state = some st → r.state < s.nextState)
    (hnext : s'.nextState = s.nextState)
    (hmapped : ∀ fd id, id ≠ r.state → s'.fdState fd = some id → s.fdState fd = some id)
    (hown : ∀ fd, s'.fdState fd = some r.state →
      0 ≤ fd ∧ ∃ st, s'.states r.state = some st ∧ st.fd = fd)
    (hflight : s'.inFlight = (s.setRequest q none).inFlight) (hreq : s'.nextReq = s.nextReq) :
    Refs s' := by
  have hfinish := h.finish q
  have hother {q' : ℕ} {r' : Request} (hq' : (s.setRequest q none).inFlight q' = some r') :
      r'.state ≠ r.state := h.state_ne hq hreading hq'
  constructor
  · intro id st hst
    rw [hnext]
    by_cases hid : id = r.state
    · subst hid
      exact hlt st hst
    · rw [hkept id hid] at hst
      exact h.state_lt id st hst
  · rw [hflight, hreq]
    exact hfinish.req_lt
  · rw [hflight]
    intro q' r' hq'
    rw [hkept _ (hother hq')]
    exact hfinish.live q' r' hq'
  · intro fd id hfd
    by_cases hid : id = r.state
    · subst hid
      exact hown fd hfd
    · rw [hkept id hid]
      exact h.fd_eq fd id (hmapped fd id hid hfd)
  · rw [hflight]
    intro q' id hq'
    have hne : id ≠ r.state := hother hq'
    obtain ⟨hst, hnone⟩ := hfinish.opening q' id hq'
    exact ⟨(hkept id hne).trans hst, fun fd hfd => hnone fd (hmapped fd id hne hfd)⟩
  · rw [hflight]
    intro q' id fd hq'
    have hne : id ≠ r.state := hother hq'
    rw [hkept id hne]
    exact hfinish.closing q' id fd hq'
  · rw [hflight]
    exact hfinish.alone

theorem opened (h : Refs s) {q id : ℕ} {st : FileOpState} {fd : ℤ}
    (hq : s.inFlight q = some (.opening id none)) (hfd : 0 ≤ fd) (hst : s.states id = some st)
    (hstates : s'.states = Function.update s.states id (some { st with fd }))
    (hnext : s'.nextState = s.nextState)
    (hmap : s'.fdState = Function.update s.fdState fd (some id))
    (hflight : s'.inFlight = (s.setRequest q none).inFlight) (hreq : s'.nextReq = s.nextReq) :
    Refs s' := by
  have hunmapped := (h.opening q id hq).2
  apply h.finished hq rfl _ (fun _ _ => h.state_lt id st hst) hnext _ _ hflight hreq
  · intro id' hid
    rw [hstates]
    exact Function.update_of_ne hid ..
  · intro fd' id' hid hfd'
    by_cases hnew : fd' = fd
    · rw [hmap, hnew, Function.update_self] at hfd'
      exact absurd (Option.some.inj hfd').symm hid
    · rw [hmap, Function.update_of_ne hnew] at hfd'
      exact hfd'
  · intro fd' hfd'
    by_cases hnew : fd' = fd
    · subst hnew
      exact ⟨hfd, _, by rw [hstates]; exact Function.update_self .., rfl⟩
    · rw [hmap, Function.update_of_ne hnew] at hfd'
      exact absurd hfd' (hunmapped fd')

theorem closed (h : Refs s) {q id : ℕ} {fd : ℤ} {st : FileOpState}
    (hq : s.inFlight q = some (.closing id fd false)) (hst : s.states id = some st)
    (hstates : s'.states = Function.update s.states id none)
    (hnext : s'.nextState = s.nextState)
    (hmap : s'.fdState = Function.update s.fdState st.fd none)
    (hflight : s'.inFlight = (s.setRequest q none).inFlight) (hreq : s'.nextReq = s.nextReq) :
    Refs s' := by
  have hbefore {fd' : ℤ} {id' : ℕ} (hfd' : s'.fdState fd' = some id') :
      fd' ≠ st.fd ∧ s.fdState fd' = some id' := by
    rw [hmap] at hfd'
    by_cases heq : fd' = st.fd
    · simp [heq] at hfd'
    · rw [Function.update_of_ne heq] at hfd'
      exact ⟨heq, hfd'⟩
  apply h.finished hq rfl _ (fun _ _ => h.state_lt id st hst) hnext _ _ hflight hreq
  · intro id' hid
    rw [hstates]
    exact Function.update_of_ne hid ..
  · exact fun fd' id' _ hfd' => (hbefore hfd').2
  · -- the state was mapped to by its own number only
    intro fd' hfd'
    obtain ⟨hne, hfd'⟩ := hbefore hfd'
    obtain ⟨-, st', hst', heq⟩ := h.fd_eq fd' _ hfd'
    have hsame : s.states id = some st' := hst'
    rw [hst] at hsame
    cases hsame
    exact absurd heq.symm hne

theorem step (h : Refs s) {a : Label} {out : List Output} (hex : exclusive s a = true)
    (hstep : Moved s a s' out) : Refs s' := by
  cases hstep with
  | openFile => exact h.openFile
  | readUnknown | closeUnknown => exact h
  | @read fd len id b uninit st s₁ hfd hst hbuf =>
    have hopen (q : ℕ) : s.inFlight q ≠ some (.opening id none) := fun hq =>
      (h.opening q id hq).2 fd hfd
    have hbuffered := h.buffered hst hopen hbuf
    have hflight : s₁.inFlight = s.inFlight := by cases hbuf <;> rfl
    simp only [exclusive, hfd, Bool.not_eq_true'] at hex
    apply hbuffered.submit
    · obtain ⟨st', hst', -⟩ : ∃ st', s₁.states id = some st' ∧ st'.fd = st.fd := by
        cases hbuf with
        | same => exact ⟨st, hst, rfl⟩
        | renewed => exact ⟨_, Function.update_self .., rfl⟩
      exact ⟨st', hst'⟩
    · intro id' heq
      cases heq
    · intro id' fd' heq
      cases heq
    · intro q r hq hstate
      rw [hflight] at hq
      have hnot := not_anyRequest h (fun r => by simp) hex hq
      rw [show r.state = id from hstate] at hnot
      exact ⟨rfl, by simpa using hnot⟩
  | @close fd id hfd =>
    obtain ⟨hle, st, hst, heq⟩ := h.fd_eq fd id hfd
    simp only [exclusive, hfd, Bool.not_eq_true'] at hex
    apply h.submit
    · exact ⟨st, hst⟩
    · intro id' heq'
      cases heq'
    · rintro id' fd' ⟨⟩
      exact ⟨hle, st, hst, heq⟩
    · intro q r hq hstate
      have hnot := not_anyRequest h (fun r => by simp) hex hq
      rw [show r.state = id from hstate] at hnot
      simp at hnot
  | executeOpenFailed hq | executeOpen hq | executeReadFailed hq | executeRead hq
  | executeReadWild hq | executeCloseUnused hq | executeClose hq =>
    exact h.of_eq rfl rfl rfl (inFlight_setRequest hq rfl) rfl
  | openFailed | readFailed | readDone | readWild => exact h.finish _
  | opened hq hresult hst =>
    apply h.opened (inFlight_of_requests hq) hresult hst
    all_goals rfl
  | closed hq hst =>
    apply h.closed (inFlight_of_requests hq) hst
    all_goals rfl

theorem initial (inUse : ℤ → Bool) : Refs (.initial inUse) := by
  constructor
  · intro id st hst; cases hst
  · intro q r hq; cases hq
  · intro q r hq; cases hq
  · intro fd id hfd; cases hfd
  · intro q id hq; cases hq
  · intro q id fd hq; cases hq
  · intro q q' r r' hq; cases hq

theorem reaches {hist : List Output}
    (run : (fileSystem.guarded fun s a => exclusive s a = true).Reaches s hist) : Refs s := by
  induction run with
  | start h =>
    obtain ⟨inUse, rfl⟩ := h
    exact initial inUse
  | next run hstep ih =>
    obtain ⟨hex, hstep⟩ := Machine.guarded_step.mp hstep
    exact ih.step hex (moved hstep)

end Refs
end CapyJs.Fs
