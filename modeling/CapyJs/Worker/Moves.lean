import CapyJs.Worker.Manager

/-!
# What a step of a manager can do

`Moves` says once who moves, from where, and what becomes of the manager. What is proved about
the runs of a manager splits these cases and does not go back to `step`.
-/
namespace CapyJs.Worker
open Transition

variable {I J P : Type*} {K : WorkerKind I J P}

namespace StateOver
variable {W Q : Type*}

theorem call_of_inJs {s : StateOver W Q P} (h : s.inJs = true) : s.call = .idle := by
  unfold inJs at h
  split at h <;> simp_all

/-! ## The loop of `js_close` -/

@[simp] theorem size_stopFrom (k : ℕ) (s : StateOver W Q P) : (s.stopFrom k).size = s.size := by
  unfold stopFrom
  split_ifs <;> rfl

@[simp] theorem workers_stopFrom (k : ℕ) (s : StateOver W Q P) :
    (s.stopFrom k).workers = s.workers := by
  unfold stopFrom
  split_ifs <;> rfl

@[simp] theorem jobStatus_stopFrom (k : ℕ) (s : StateOver W Q P) :
    (s.stopFrom k).jobStatus = s.jobStatus := by
  unfold stopFrom
  split_ifs <;> rfl

@[simp] theorem ready_stopFrom (k : ℕ) (s : StateOver W Q P) : (s.stopFrom k).ready = s.ready := by
  unfold stopFrom
  split_ifs <;> rfl

/-- The loop stops worker `k` next, or it has come to its end. -/
theorem call_stopFrom (k : ℕ) (s : StateOver W Q P) :
    (s.stopFrom k).call = .stop k .store ∨
      (s.stopFrom k).call = .idle ∧ (s.stopFrom k).cleared = true := by
  unfold stopFrom
  split_ifs
  · exact .inl rfl
  · exact .inr ⟨rfl, rfl⟩

end StateOver

/-! ## What a dispatch does -/

inductive Dispatched (K : WorkerKind I J P) (s : State J P) (input : I) :
    State J P → List (Output J P) → Prop
  | threw (e : Exception) : Dispatched K s input s [.threw e]
  | refused (w : ℕ) (e : Exception) :
      Dispatched K s input
        (s.picked.setWorker w { s.workers w with refs := (s.workers w).refs + 1 })
        [.worker w (.duplicated ⟨w, (s.workers w).refs⟩), .threw e]
  | accepted (w : ℕ) (job : J) (hjob : K.toJob input = .ok job) (hw : w < s.size)
      (hopen : s.cleared = false) (hroom : (s.workers w).sub.length < K.queueDepth - 1) :
      Dispatched K s input
        { s.picked.setWorker w { s.workers w with
            refs := (s.workers w).refs + 1
            sub := (s.workers w).sub ++ [⟨s.nextJobId, ⟨w, (s.workers w).refs⟩, job⟩] } with
          call := .enqueue w s.nextJobId }
        [.worker w (.duplicated ⟨w, (s.workers w).refs⟩),
          .worker w (.accepted ⟨s.nextJobId, ⟨w, (s.workers w).refs⟩, job⟩)]

theorem State.dispatched (K : WorkerKind I J P) (isFunction : Bool) (input : I) (s : State J P) :
    Dispatched K s input (s.jsDispatch K isFunction input).1
      (s.jsDispatch K isFunction input).2 := by
  unfold jsDispatch
  split_ifs with hfunction hworkers
  · exact .threw _
  · exact .threw _
  · simp only [Bool.or_eq_true, beq_iff_eq, not_or, Bool.not_eq_true] at hworkers
    split
    · exact .threw _
    · next job hjob =>
      by_cases hroom : (s.workers (s.nextWorkerIdx.toNat % s.size)).sub.length < K.queueDepth - 1
      · simp only [hroom, if_true]
        exact .accepted _ job hjob (Nat.mod_lt _ (Nat.pos_of_ne_zero hworkers.2)) hworkers.1 hroom
      · simp only [hroom, if_false]
        exact .refused _ _

/-! ## The cases of a step -/

inductive Moves (K : WorkerKind I J P) (s : State J P) :
    Label I → State J P → List (Output J P) → Prop
  | dispatch {isFunction : Bool} {input : I} {s' : State J P} {out : List (Output J P)}
      (hjs : s.inJs = true) (hd : Dispatched K s input s' out) :
      Moves K s (.dispatch isFunction input) s' out
  | enqueue {w : ℕ} {jobId : UInt64} (hcall : s.call = .enqueue w jobId) :
      Moves K s .enqueue (s.enqueued w jobId) [.returned jobId]
  | closeAgain (hjs : s.inJs = true) (hcleared : s.cleared = true) : Moves K s .close s []
  | close (hjs : s.inJs = true) (hopen : s.cleared = false) : Moves K s .close (s.stopFrom 0) []
  | store {k : ℕ} (hcall : s.call = .stop k .store) :
      Moves K s .stop
        { s.setWorker k { s.workers k with stopped := true } with call := .stop k .post } []
  | post {k : ℕ} (hcall : s.call = .stop k .post) :
      Moves K s .stop
        { s.setWorker k { s.workers k with sem := (s.workers k).sem + 1 } with
          call := .stop k .join } []
  | join {k : ℕ} (hcall : s.call = .stop k .join) (hexit : (s.workers k).thread = .exited) :
      Moves K s .stop
        ((s.setWorker k { s.workers k with sub := [], results := [], closed := true }).stopFrom
          (k + 1)) (((s.workers k).drain K).map (.worker k))
  | ready {w : ℕ} (hcall : s.call = .idle) (hready : s.ready = none) (hw : w < s.size)
      (hbell : (s.workers w).bell = true) (hopen : (s.workers w).closed = false) :
      Moves K s (.ready w)
        { s.setWorker w { s.workers w with bell := false } with ready := some (w, .popping) } []
  | popNone {w : ℕ} (hcall : s.call = .idle) (hready : s.ready = some (w, .popping))
      (hresults : (s.workers w).results = []) : Moves K s .pop { s with ready := none } []
  | pop {w : ℕ} {r : Result P} {results : List (Result P)} (hcall : s.call = .idle)
      (hready : s.ready = some (w, .popping)) (hresults : (s.workers w).results = r :: results) :
      Moves K s .pop
        { s.setWorker w { s.workers w with results } with
          ready := some (w, .calling r)
          jobStatus := Function.update s.jobStatus r.jobId
            (some (if K.error r.payload then .error else .done)) }
        [.worker w (.called r)]
  | release {w : ℕ} {r : Result P} (hcall : s.call = .idle)
      (hready : s.ready = some (w, .calling r)) (hdone : r.isDone = true) :
      Moves K s .callbackReturns
        { s.setWorker w { s.workers w with
            inFlight := (s.workers w).inFlight - 1
            refd := (s.workers w).refd && (s.workers w).inFlight != 1 } with
          ready := some (w, .popping) }
        [.worker w (.released r.ref .onResult)]
  | keep {w : ℕ} {r : Result P} (hcall : s.call = .idle)
      (hready : s.ready = some (w, .calling r)) (hdone : r.isDone = false) :
      Moves K s .callbackReturns { s with ready := some (w, .popping) } []
  | thread {w : ℕ} {loaded : Bool} {wk : WorkerState J P} (hw : w < s.size)
      (hthread : (s.workers w).threadStep K loaded = some wk) :
      Moves K s (.thread w loaded) (s.setWorker w wk) []

section
variable {s s' : State J P} {out : List (Output J P)}

theorem State.moves_of_stopStep {k : ℕ} {pc : Stop} (hcall : s.call = .stop k pc)
    (h : s.stopStep K k pc = some (s', out)) : Moves K s .stop s' out := by
  cases pc with
  | store =>
    cases h
    exact .store hcall
  | post =>
    cases h
    exact .post hcall
  | join =>
    simp only [stopStep, StateOver.stopStep] at h
    split at h
    · next hexit =>
      cases h
      exact .join hcall hexit
    · cases h

theorem State.moves_of_popResult {w : ℕ} (hcall : s.call = .idle)
    (hready : s.ready = some (w, .popping)) (h : s.popResult K w = (s', out)) :
    Moves K s .pop s' out := by
  unfold popResult at h
  split at h
  · next hresults =>
    cases h
    exact .popNone hcall hready hresults
  · next hresults =>
    cases h
    exact .pop hcall hready hresults

theorem State.moves_of_callbackReturned {w : ℕ} {r : Result P} (hcall : s.call = .idle)
    (hready : s.ready = some (w, .calling r)) (h : s.callbackReturned w r = (s', out)) :
    Moves K s .callbackReturns s' out := by
  unfold StateOver.callbackReturned at h
  split_ifs at h with hdone
  · cases h
    exact .release hcall hready hdone
  · cases h
    exact .keep hcall hready (Bool.not_eq_true _ ▸ hdone)

/-- Every step is one of the cases. -/
theorem moves_of_step {a : Label I} (h : step K s a = some (s', out)) : Moves K s a s' out := by
  cases a with
  | dispatch isFunction input =>
    obtain ⟨hjs, h⟩ := Option.ite_none_right_eq_some.mp h
    have hd := s.dispatched K isFunction input
    rw [Option.some.inj h] at hd
    exact .dispatch hjs hd
  | enqueue =>
    simp only [step] at h
    split at h
    · next hcall =>
      cases h
      exact .enqueue hcall
    · cases h
  | close =>
    obtain ⟨hjs, h⟩ := Option.ite_none_right_eq_some.mp h
    cases h
    unfold StateOver.jsClose
    split_ifs with hcleared
    · exact .closeAgain hjs hcleared
    · exact .close hjs (Bool.not_eq_true _ ▸ hcleared)
  | stop =>
    simp only [step] at h
    split at h
    · next hcall => exact State.moves_of_stopStep hcall h
    · cases h
  | ready w =>
    simp only [step] at h
    split at h
    · next hcall hready =>
      split_ifs at h with hrung
      cases h
      exact .ready hcall hready hrung.1 hrung.2.1 hrung.2.2
    · cases h
  | pop =>
    simp only [step] at h
    split at h
    · next hcall hready => exact State.moves_of_popResult hcall hready (Option.some.inj h)
    · cases h
  | callbackReturns =>
    simp only [step] at h
    split at h
    · next hcall hready => exact State.moves_of_callbackReturned hcall hready (Option.some.inj h)
    · cases h
  | thread w loaded =>
    obtain ⟨hw, h⟩ := Option.ite_none_right_eq_some.mp h
    obtain ⟨wk, hthread, heq⟩ := Option.map_eq_some_iff.mp h
    cases heq
    exact .thread hw hthread

/-! ## Before `js_close` -/

/-- `close()` has not been called. -/
def State.BeforeClose (s : State J P) : Prop := s.cleared = false ∧ ∀ k pc, s.call ≠ .stop k pc

theorem State.BeforeClose.of_call (h : s.BeforeClose) (hcleared : s'.cleared = s.cleared)
    (hcall : ∀ k pc, s'.call ≠ .stop k pc) : s'.BeforeClose := ⟨hcleared.trans h.1, hcall⟩

theorem State.not_beforeClose_stopFrom (k : ℕ) (s : State J P) :
    ¬State.BeforeClose (s.stopFrom k) := by
  rintro ⟨hopen, hcall⟩
  rcases s.call_stopFrom k with hstop | ⟨-, hcleared⟩
  · exact hcall k .store hstop
  · rw [hopen] at hcleared
    cases hcleared

theorem State.BeforeClose.step (hs : s.BeforeClose) {a : Label I} (hne : a ≠ .close)
    (h : step K s a = some (s', out)) : s'.BeforeClose := by
  cases moves_of_step h with
  | dispatch hjs hd =>
    cases hd with
    | threw => exact hs
    | refused => exact hs.of_call rfl hs.2
    | accepted => exact hs.of_call rfl (by simp)
  | enqueue => exact hs.of_call rfl (by simp [StateOver.enqueued])
  | closeAgain | close => exact absurd rfl hne
  | store hcall | post hcall | join hcall => exact absurd hcall (hs.2 _ _)
  | ready | popNone | pop | release | keep | thread => exact hs.of_call rfl hs.2

theorem State.BeforeClose.close (hs : s.BeforeClose) (h : Worker.step K s .close = some (s', out)) :
    s'.ready = s.ready ∧ ¬s'.BeforeClose := by
  cases moves_of_step h with
  | closeAgain _ hcleared => simp [hs.1] at hcleared
  | close => exact ⟨StateOver.ready_stopFrom _ _, State.not_beforeClose_stopFrom _ _⟩

theorem State.BeforeClose.not_stop (hs : s.BeforeClose) :
    Worker.step K s .stop ≠ some (s', out) := by
  intro h
  cases moves_of_step h with
  | store hcall | post hcall | join hcall => exact hs.2 _ _ hcall

/-- `close()` is never undone. -/
theorem State.beforeClose_of_step {a : Label I} (h : step K s a = some (s', out))
    (hs : s'.BeforeClose) : s.BeforeClose := by
  cases moves_of_step h with
  | dispatch hjs hd =>
    cases hd with
    | threw => exact hs
    | refused => exact State.BeforeClose.of_call hs rfl hs.2
    | accepted => exact State.BeforeClose.of_call hs rfl (by simp [StateOver.call_of_inJs hjs])
  | enqueue hcall => exact State.BeforeClose.of_call hs rfl (by simp [hcall])
  | closeAgain => exact hs
  | close | join => exact absurd hs (State.not_beforeClose_stopFrom _ _)
  | store | post => exact absurd rfl (hs.2 _ _)
  | ready | popNone | pop | release | keep | thread => exact State.BeforeClose.of_call hs rfl hs.2

end

end CapyJs.Worker
