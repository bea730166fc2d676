import CapyJs.Worker.Kinds
import CapyJs.Worker.OneWorker

/-!
# Rejected dispatches

`js_dispatch` duplicates the callback before it knows whether the worker's submission queue
has room. On a full queue it throws and keeps the duplicate; every other exception comes
before the duplication.
-/
namespace CapyJs.Worker
open Transition

variable {I J P : Type*} {K : WorkerKind I J P} {s s' s'' : State J P}

/-- The change of the callbacks' reference counts. -/
def refChange : List (Output J P) → ℤ
  | [] => 0
  | .worker _ (.duplicated _) :: out => refChange out + 1
  | .worker _ (.released _ _) :: out => refChange out - 1
  | _ :: out => refChange out

theorem refChange_append (out out' : List (Output J P)) :
    refChange (out ++ out') = refChange out + refChange out' := by
  induction out with
  | nil => simp [refChange]
  | cons o out ih =>
    rcases o with _ | _ | ⟨_, _ | _ | _ | _⟩ <;> simp only [List.cons_append, refChange, ih]
    all_goals omega

/-- What a call may have changed besides reference counts: the statuses, `in_flight_`, the
state of the doorbell and the queues. -/
structure SameJobs (s s' : State J P) : Prop where
  jobStatus : s'.jobStatus = s.jobStatus
  inFlight : ∀ w, (s'.workers w).inFlight = (s.workers w).inFlight
  refd : ∀ w, (s'.workers w).refd = (s.workers w).refd
  sub : ∀ w, (s'.workers w).sub = (s.workers w).sub
  results : ∀ w, (s'.workers w).results = (s.workers w).results

theorem SameJobs.refl (s : State J P) : SameJobs s s :=
  ⟨rfl, fun _ => rfl, fun _ => rfl, fun _ => rfl, fun _ => rfl⟩

theorem SameJobs.trans (h : SameJobs s s') (h' : SameJobs s' s'') : SameJobs s s'' where
  jobStatus := h'.jobStatus.trans h.jobStatus
  inFlight w := (h'.inFlight w).trans (h.inFlight w)
  refd w := (h'.refd w).trans (h.refd w)
  sub w := (h'.sub w).trans (h.sub w)
  results w := (h'.results w).trans (h.results w)

namespace State

/-- `js_dispatch` gets to `enqueue` and the picked worker's submission queue is full. -/
def meetsFullQueue (K : WorkerKind I J P) (s : State J P) (isFunction : Bool) (input : I) : Prop :=
  isFunction = true ∧ s.cleared = false ∧ s.size ≠ 0 ∧ (∃ job, K.toJob input = .ok job) ∧
    K.queueDepth - 1 ≤ (s.workers (s.nextWorkerIdx.toNat % s.size)).sub.length

def rejects (K : WorkerKind I J P) (s : State J P) (isFunction : Bool) (input : I) : Prop :=
  ∃ e, .threw e ∈ (s.jsDispatch K isFunction input).2

/-- Calls of `js_dispatch` one after the other. -/
def dispatchAll (K : WorkerKind I J P) (s : State J P) :
    List (Bool × I) → State J P × List (Output J P)
  | [] => (s, [])
  | (isFunction, input) :: calls =>
    let p := s.jsDispatch K isFunction input
    let q := p.1.dispatchAll K calls
    (q.1, p.2 ++ q.2)

def rejectsAll (K : WorkerKind I J P) (s : State J P) : List (Bool × I) → Prop
  | [] => True
  | (isFunction, input) :: calls =>
    s.rejects K isFunction input ∧ (s.jsDispatch K isFunction input).1.rejectsAll K calls

/-- No call meets a full queue. -/
def neverMeetsFullQueue (K : WorkerKind I J P) (s : State J P) : List (Bool × I) → Prop
  | [] => True
  | (isFunction, input) :: calls =>
    ¬ s.meetsFullQueue K isFunction input ∧
      (s.jsDispatch K isFunction input).1.neverMeetsFullQueue K calls

/-- A rejected call does nothing, or it met a full queue: then it has taken a job id, a turn
of the workers and a reference. -/
theorem rejects_cases {isFunction : Bool} {input : I} (h : s.rejects K isFunction input) :
    ¬ s.meetsFullQueue K isFunction input ∧
        (∃ e, s.jsDispatch K isFunction input = (s, [.threw e])) ∨
      s.meetsFullQueue K isFunction input ∧ ∃ w e, s.jsDispatch K isFunction input =
        (s.picked.setWorker w { s.workers w with refs := (s.workers w).refs + 1 },
          [.worker w (.duplicated ⟨w, (s.workers w).refs⟩), .threw e]) := by
  unfold rejects at h
  unfold meetsFullQueue
  unfold jsDispatch at h ⊢
  split_ifs at h ⊢ with hfunction hworkers
  · exact .inl ⟨by simp_all, _, rfl⟩
  · simp only [Bool.or_eq_true, beq_iff_eq] at hworkers
    exact .inl ⟨fun hfull => hworkers.elim (by simp [hfull.2.1]) hfull.2.2.1, _, rfl⟩
  · simp only [Bool.or_eq_true, beq_iff_eq, not_or, Bool.not_eq_true] at hworkers
    cases hjob : K.toJob input with
    | error e => exact .inl ⟨by simp, e, rfl⟩
    | ok job =>
      simp only [hjob] at h ⊢
      split_ifs at h ⊢ with hroom
      · obtain ⟨e, hmem⟩ := h
        simp at hmem
      · exact .inr ⟨⟨by simpa using hfunction, hworkers.1, hworkers.2, ⟨job, rfl⟩, by omega⟩, _, _,
          rfl⟩

theorem rejects_spec {isFunction : Bool} {input : I} (h : s.rejects K isFunction input) :
    SameJobs s (s.jsDispatch K isFunction input).1 ∧
      (¬ s.meetsFullQueue K isFunction input ∧
          refChange (s.jsDispatch K isFunction input).2 = 0 ∨
        s.meetsFullQueue K isFunction input ∧
          refChange (s.jsDispatch K isFunction input).2 = 1) := by
  rcases rejects_cases h with ⟨hnot, e, heq⟩ | ⟨hfull, w, e, heq⟩
  · rw [heq]
    exact ⟨.refl s, .inl ⟨hnot, rfl⟩⟩
  · rw [heq]
    refine ⟨?_, .inr ⟨hfull, rfl⟩⟩
    -- only the number of references made for worker `w` differs
    have hworker (w' : ℕ) : ∃ refs, (s.picked.setWorker w { s.workers w with
        refs := (s.workers w).refs + 1 }).workers w' = { s.workers w' with refs } := by
      by_cases hw : w' = w
      · subst hw
        exact ⟨_, StateOver.workers_setWorker_self ..⟩
      · exact ⟨(s.workers w').refs, StateOver.workers_setWorker_of_ne hw ..⟩
    constructor
    · rfl
    all_goals
      intro w'
      obtain ⟨refs, hw'⟩ := hworker w'
      rw [hw']

/-- However many calls are rejected, only references are left behind, one for each call that
met a full queue. -/
theorem rejectsAll_spec {calls : List (Bool × I)} (h : s.rejectsAll K calls) :
    SameJobs s (s.dispatchAll K calls).1 ∧ 0 ≤ refChange (s.dispatchAll K calls).2 ∧
      (refChange (s.dispatchAll K calls).2 = 0 ↔ s.neverMeetsFullQueue K calls) := by
  induction calls generalizing s with
  | nil => exact ⟨.refl s, Int.le_refl 0, iff_of_true rfl trivial⟩
  | cons call calls ih =>
    obtain ⟨hfirst, hrest⟩ := h
    obtain ⟨hsame, hchange⟩ := rejects_spec hfirst
    obtain ⟨hsame', hle, hiff⟩ := ih hrest
    have happend := refChange_append (s.jsDispatch K call.1 call.2).2
      ((s.jsDispatch K call.1 call.2).1.dispatchAll K calls).2
    refine ⟨hsame.trans hsame', ?_, ?_⟩
    · simp only [dispatchAll]
      omega
    · simp only [dispatchAll, neverMeetsFullQueue, ← hiff]
      rcases hchange with ⟨hnot, hzero⟩ | ⟨hfull, hone⟩
      · simp only [hnot, not_false_eq_true, true_and]
        omega
      · simp only [hfull, not_true_eq_false, false_and, iff_false]
        omega

end State

/-- Rejected calls leave everything as it was exactly when none of them met a full queue. -/
theorem rejected_without_trace_iff {calls : List (Bool × I)} (h : s.rejectsAll K calls) :
    (SameJobs s (s.dispatchAll K calls).1 ∧ refChange (s.dispatchAll K calls).2 = 0) ↔
      s.neverMeetsFullQueue K calls := by
  obtain ⟨hsame, -, hiff⟩ := State.rejectsAll_spec h
  rw [← hiff]
  exact and_iff_right hsame

/-! ## A full queue -/

/-- While its thread does not run, a worker's queue can be filled. -/
theorem exists_queued {input : I} {job : J} (hjob : K.toJob input = .ok job) {k : ℕ}
    (hk : k ≤ K.queueDepth - 1) :
    ∃ (s : State J P) (hist : List (Output J P)), (manager K 1).Reaches s hist ∧ s.size = 1 ∧
      s.cleared = false ∧ s.call = .idle ∧ s.ready = none ∧ (s.workers 0).sub.length = k := by
  induction k with
  | zero => exact ⟨.initial 1, [], .start rfl, rfl, rfl, rfl, rfl, rfl⟩
  | succ k ih =>
    obtain ⟨s, hist, run, hsize, hopen, hcall, hready, hlength⟩ := ih (by omega)
    have hjs : s.inJs = true := by simp [StateOver.inJs, hcall, hready]
    have hroom : (s.workers 0).sub.length < K.queueDepth - 1 := by omega
    have hpicked : s.nextWorkerIdx.toNat % s.size = 0 := by rw [hsize, Nat.mod_one]
    obtain ⟨s₁, s₂, wk, item, hdispatch, henqueue, hsize₂, hopen₂, hcall₂, hready₂, -, hworkers, hsub,
      -⟩ := exists_dispatch 1 hjs hopen (by omega) hjob hpicked hroom
    refine ⟨s₂, _, (run.next hdispatch).next henqueue, hsize₂.trans hsize, hopen₂, hcall₂,
      hready₂.trans hready, ?_⟩
    rw [hworkers, Function.update_self, hsub, List.length_append, hlength]
    rfl

/-- A Fibonacci worker with 63 jobs waiting: the next call duplicates its callback and throws. -/
theorem exists_full :
    ∃ (s : State UInt64 FibResult) (hist : List (Output UInt64 FibResult)),
      (manager fibonacciWorker 1).Reaches s hist ∧ ∃ s' w ref e,
        s.jsDispatch fibonacciWorker true none = (s', [.worker w (.duplicated ref), .threw e]) := by
  have hjob : fibonacciWorker.toJob none = .ok 0 := rfl
  have hdepth : 63 ≤ fibonacciWorker.queueDepth - 1 := le_refl 63
  obtain ⟨s, hist, run, hsize, hopen, hcall, hready, hlength⟩ := exists_queued hjob hdepth
  have hfull : ¬ (s.workers 0).sub.length < fibonacciWorker.queueDepth - 1 := by
    rw [hlength]
    exact Nat.lt_irrefl 63
  refine ⟨s, hist, run, ?_⟩
  simp only [State.jsDispatch, hopen, hsize, hjob, Nat.mod_one, hfull]
  exact ⟨_, _, _, _, rfl⟩

/-- A call without a function leaves nothing behind, a call on a full queue does. -/
theorem rejected_without_trace_full :
    ∃ (s : State UInt64 FibResult) (hist : List (Output UInt64 FibResult)),
      (manager fibonacciWorker 1).Reaches s hist ∧
      (SameJobs s (s.dispatchAll fibonacciWorker [(false, none)]).1 ∧
        refChange (s.dispatchAll fibonacciWorker [(false, none)]).2 = 0) ∧
      ¬ (SameJobs s (s.dispatchAll fibonacciWorker [(false, none), (true, none)]).1 ∧
        refChange (s.dispatchAll fibonacciWorker [(false, none), (true, none)]).2 = 0) := by
  obtain ⟨s, hist, run, s', w, ref, e, hdispatch⟩ := exists_full
  have hfunction : s.rejects fibonacciWorker false none :=
    ⟨⟨.typeError, "callback must be a function"⟩, List.mem_singleton.mpr rfl⟩
  have hroom : s.rejects fibonacciWorker true none := ⟨e, by simp [hdispatch]⟩
  have hall : s.rejectsAll fibonacciWorker [(false, none), (true, none)] :=
    ⟨hfunction, hroom, trivial⟩
  have hfull : s.meetsFullQueue fibonacciWorker true none := by
    rcases State.rejects_spec hroom with ⟨-, ⟨-, hzero⟩ | ⟨hfull, -⟩⟩
    · simp [hdispatch, refChange] at hzero
    · exact hfull
  refine ⟨s, hist, run, ?_, fun h => ?_⟩
  · have hfirst : s.rejectsAll fibonacciWorker [(false, none)] := ⟨hfunction, trivial⟩
    exact (rejected_without_trace_iff hfirst).mpr ⟨fun h => Bool.false_ne_true h.1, trivial⟩
  · exact ((rejected_without_trace_iff hall).mp h).2.1 hfull

/-- The refused call keeps its reference. -/
theorem rejected_dispatch_leaks :
    ∃ (s : State UInt64 FibResult) (hist : List (Output UInt64 FibResult)),
      (manager fibonacciWorker 1).Reaches s hist ∧ s.rejectsAll fibonacciWorker [(true, none)] ∧
      refChange (s.dispatchAll fibonacciWorker [(true, none)]).2 = 1 := by
  obtain ⟨s, hist, run, s', w, ref, e, hdispatch⟩ := exists_full
  refine ⟨s, hist, run, ⟨⟨e, by simp [hdispatch]⟩, trivial⟩, ?_⟩
  simp [State.dispatchAll, hdispatch, refChange]

end CapyJs.Worker
