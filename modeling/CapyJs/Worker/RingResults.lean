import CapyJs.Codec.Significand
import CapyJs.Worker.Ledger
import CapyJs.Worker.RingRefinement
import Mathlib.Data.Nat.Fib.Basic

/-!
# Results on the rings

Whatever the accesses to the rings are interleaved with, the callbacks of a worker are called with
the results of its jobs, job after job in the order in which `push` took them. A result that no
callback has been called with is in the result ring, in the hands of the thread or still to be
computed. The numbers that the Fibonacci manager computes are those of the sequence, as far as
64 bits go, and its callbacks get them as doubles.
-/
namespace CapyJs.Worker
open Transition Codec.Significand

section
variable {I J P : Type*} {K : WorkerKind I J P} {N M n i j w : ℕ}

/-- A `push` that is under way has had no answer. -/
theorem StateOver.own_ahead (s : RingState J P N M) (w : ℕ) :
    acceptedItems (own w s.ahead) = [] ∧ calledResults (own w s.ahead) = [] := by
  cases hcall : s.call with
  | push v item =>
    by_cases hv : v = w <;> simp [ahead, hcall, own, hv, acceptedItems, calledResults]
  | idle | enqueue | stop => simp [ahead, hcall, acceptedItems, calledResults]

/-- Inside a `push` only the number of references is undone. -/
theorem StateOver.exists_worker_atomic (s : RingState J P N M) (w : ℕ) :
    ∃ refs, s.atomic.workers w = { (s.workers w).atomic with refs } := by
  cases hcall : s.call with
  | push v item =>
    by_cases hw : w = v
    · exact ⟨item.ref.seq, by simp [atomic, hcall, Call.undo, hw]⟩
    · exact ⟨(s.workers w).refs, by simp [atomic, hcall, Call.undo, hw]; rfl⟩
  | idle | enqueue | stop =>
    exact ⟨(s.workers w).refs, by simp [atomic, hcall, Call.undo]; rfl⟩

section
variable {es : List (Event J P)} {v : View J P} {taken left : List (Item J)}
  {rest : List (Result P)}

theorem Ledger.called_isPrefix (h : Ledger K n w es v taken left rest) :
    calledResults es <+: (acceptedItems es).flatMap K.results := by
  rw [h.accepted, List.flatMap_append, h.streamed, List.append_assoc]
  exact List.prefix_append _ _

/-- Every result of an accepted job is in one place. -/
theorem Ledger.conserved (h : Ledger K n w es v taken left rest) (hopen : v.state.closed = false) :
    (acceptedItems es).flatMap K.results =
      calledResults es ++ v.state.results ++ v.state.thread.remaining ++
        v.state.sub.flatMap K.results := by
  obtain ⟨hleft, hrest, -, -⟩ := h.running hopen
  rw [h.accepted, List.flatMap_append, h.streamed, hleft, hrest,
    ← List.append_assoc (calledResults es)]

end

/-- As far as jobs and results go, a run with rings is one with queues. -/
theorem StateOver.exists_ledger (hsub : K.queueDepth = 2 ^ (i + 1))
    (hresults : K.resultQueueDepth = 2 ^ (j + 1))
    {s : RingState J P (2 ^ (i + 1)) (2 ^ (j + 1))} {hist : List (Output J P)}
    (run : (ringManager K (2 ^ (i + 1)) (2 ^ (j + 1)) n).Reaches s hist) (w : ℕ) :
    ∃ hist' taken left rest, Ledger K n w (own w hist') (s.atomic.view w) taken left rest ∧
      acceptedItems (own w hist) = acceptedItems (own w hist') ∧
      calledResults (own w hist) = calledResults (own w hist') := by
  obtain ⟨-, hist', hrun, rfl⟩ := reaches_atomic hsub hresults run
  obtain ⟨taken, left, rest, hledger⟩ := reaches_ledger hrun w
  obtain ⟨haccepted, hcalled⟩ := s.own_ahead w
  exact ⟨hist', taken, left, rest, hledger, by simp [haccepted], by simp [hcalled]⟩

end

/-! ## Fibonacci -/

/-- The naive recursion computes the sequence. -/
theorem computeFib_eq (k : ℕ) : computeFib k = UInt64.ofNat (Nat.fib k) := by
  induction k using Nat.twoStepInduction with
  | zero => rfl
  | one => rfl
  | more k ih ih' =>
    rw [computeFib, ih, ih', Nat.fib_add_two, UInt64.ofNat_add, UInt64.add_comm]

/-- What the callback of a job is to be called with. -/
def fibAnswer (item : Item UInt64) : Result FibResult :=
  ⟨item.jobId, item.ref, ⟨UInt64.ofNat (Nat.fib item.job.toNat), false⟩, true⟩

theorem flatMap_results_fib (items : List (Item UInt64)) :
    items.flatMap fibonacciWorker.results = items.map fibAnswer := by
  have hresults : fibonacciWorker.results = fun item => [fibAnswer item] := by
    funext item
    simp [WorkerKind.results, fibonacciWorker, fibAnswer, computeFib_eq]
  rw [hresults, List.map_eq_flatMap]

/-- `(double)` of an unsigned integer. Its 64 bits are far from the largest exponent. -/
def toDouble (n : UInt64) : ℕ := roundToEven 53 n.toNat

/-- The arguments `on_result` calls the callback with, where `none` is `null`. -/
def FibResult.args (r : FibResult) : Option String × Option ℕ :=
  if r.error then (some "fibonacci error", none) else (none, some (toDouble r.result))

/-- What the callback of a job gets. -/
structure FibArgs (item : Item UInt64) (args : Option String × Option ℕ) : Prop where
  noError : args.1 = none
  nearest : ∃ x, args.2 = some x ∧ IsNearest 53 (Nat.fib item.job.toNat % 2 ^ 64) x
  exact : item.job.toNat ≤ 78 → args.2 = some (Nat.fib item.job.toNat)

/-- The 78th number is the last that a double holds and so are all before it. -/
theorem fib_lt_of_le {k : ℕ} (hk : k ≤ 78) : Nat.fib k < 2 ^ 53 :=
  (Nat.fib_mono hk).trans_lt (by decide +kernel)

theorem fibArgs_fibAnswer (item : Item UInt64) : FibArgs item (fibAnswer item).payload.args where
  noError := rfl
  nearest := ⟨_, rfl, UInt64.toNat_ofNat' .. ▸ isNearest_roundToEven (by decide) _⟩
  exact hk := by
    have hlt := fib_lt_of_le hk
    have hmod : Nat.fib item.job.toNat % 2 ^ 64 = Nat.fib item.job.toNat :=
      Nat.mod_eq_of_lt (hlt.trans (by decide))
    have hvalue : toDouble (UInt64.ofNat (Nat.fib item.job.toNat)) = Nat.fib item.job.toNat := by
      rw [toDouble, UInt64.toNat_ofNat', hmod]
      exact roundToEven_of_lt (by decide) hlt
    simp [FibResult.args, fibAnswer, hvalue]

/-- The results that `on_result` is called with for each Fibonacci worker are the numbers of the
jobs that `push` took, in that order, and the callbacks get the nearest doubles. While the worker
is open every other answer is in the result ring, in the hands of the thread, or still to be
computed for a job in the submission ring. -/
theorem fib_answers_conserved {n : ℕ}
    {s : RingState UInt64 FibResult (2 ^ (5 + 1)) (2 ^ (5 + 1))}
    {hist : List (Output UInt64 FibResult)}
    (run : (ringManager fibonacciWorker (2 ^ (5 + 1)) (2 ^ (5 + 1)) n).Reaches s hist) (w : ℕ) :
    calledResults (own w hist) <+: (acceptedItems (own w hist)).map fibAnswer ∧
      (∀ (k : ℕ) r, (calledResults (own w hist))[k]? = some r →
        ∃ item, (acceptedItems (own w hist))[k]? = some item ∧ FibArgs item r.payload.args) ∧
      ((s.workers w).closed = false →
        (acceptedItems (own w hist)).map fibAnswer =
          calledResults (own w hist) ++ (s.workers w).results.mem.contents ++
            (s.workers w).thread.remaining ++ (s.workers w).sub.mem.contents.map fibAnswer) := by
  obtain ⟨hist', taken, left, rest, hledger, haccepted, hcalled⟩ :=
    StateOver.exists_ledger rfl rfl run w
  obtain ⟨refs, hworker⟩ := s.exists_worker_atomic w
  have horder : calledResults (own w hist) <+: (acceptedItems (own w hist)).map fibAnswer := by
    rw [haccepted, hcalled, ← flatMap_results_fib]
    exact hledger.called_isPrefix
  refine ⟨horder, fun k r hr => ?_, fun hopen => ?_⟩
  · obtain ⟨later, hlater⟩ := horder
    have hanswer : ((acceptedItems (own w hist)).map fibAnswer)[k]? = some r := by
      rw [← hlater, List.getElem?_append_left (List.getElem?_eq_some_iff.mp hr).1, hr]
    obtain ⟨item, hitem, rfl⟩ := Option.map_eq_some_iff.mp (List.getElem?_map ▸ hanswer)
    exact ⟨item, hitem, fibArgs_fibAnswer item⟩
  · have hconserved := hledger.conserved (by rw [State.view, hworker]; exact hopen)
    rw [State.view, hworker] at hconserved
    rw [haccepted, hcalled, ← flatMap_results_fib, ← flatMap_results_fib]
    exact hconserved

/-- The answer for 10 is delivered; the job that was pushed while the thread was at it is in the
submission ring. -/
theorem fib_answers_conserved_two_jobs :
    ∃ (s : RingState UInt64 FibResult (2 ^ (5 + 1)) (2 ^ (5 + 1)))
      (hist : List (Output UInt64 FibResult)),
      (ringManager fibonacciWorker (2 ^ (5 + 1)) (2 ^ (5 + 1)) 1).Reaches s hist ∧
        (acceptedItems (own 0 hist)).map Item.job = [10, 7] ∧
        (calledResults (own 0 hist)).map Result.payload = [⟨55, false⟩] ∧
        (calledResults (own 0 hist)).map (fun r => r.payload.args) = [(none, some 55)] ∧
        (acceptedItems (own 0 hist)).map fibAnswer =
          calledResults (own 0 hist) ++ (s.workers 0).results.mem.contents ++
            (s.workers 0).thread.remaining ++ (s.workers 0).sub.mem.contents.map fibAnswer := by
  have run := Machine.reaches_exec
    (M := ringManager fibonacciWorker (2 ^ (5 + 1)) (2 ^ (5 + 1)) 1)
    (s := ⟨1, fun _ => newWorker (Nat.two_pow_pos _) (Nat.two_pow_pos _) ⟨0, ⟨0, 0⟩, 0⟩
      ⟨0, ⟨0, 0⟩, ⟨0, false⟩, true⟩, false, 0, 0, fun _ => none, none, .idle⟩)
    [.dispatch true (some 10), .push, .push, .push, .enqueue, .thread 0 true, .thread 0 true,
      .thread 0 true, .thread 0 true, .thread 0 true, .dispatch true (some 7), .push,
      .thread 0 true, .thread 0 true, .thread 0 true, .thread 0 true, .push, .thread 0 true,
      .thread 0 true, .thread 0 true, .push, .enqueue, .ready 0, .pop, .pop, .pop, .pop]
    ⟨rfl, fun _ => ⟨⟨rfl, rfl, rfl, rfl⟩, ⟨rfl, rfl, rfl, rfl⟩, rfl, rfl, rfl, rfl, rfl, rfl, rfl,
      rfl⟩, rfl, rfl, rfl, fun _ => rfl, rfl, rfl⟩ rfl
  exact ⟨_, _, run, rfl, rfl, rfl, (fib_answers_conserved run 0).2.2 rfl⟩

end CapyJs.Worker
