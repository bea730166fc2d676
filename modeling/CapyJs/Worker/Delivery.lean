import CapyJs.Worker.Kinds
import CapyJs.Worker.Ledger

/-!
# No result is stranded, and results keep the order of dispatch

Rings of the doorbell coalesce: it is a flag that libuv clears before it calls
`on_result_ready`. A result pushed after the last pop of a call is found because the
thread rings after each push.
-/
namespace CapyJs.Worker
open Transition

variable {I J P : Type*} {K : WorkerKind I J P} {n w : ℕ}

/-- Someone will come for the results: the doorbell is pending, the thread is about
to ring it, or `on_result_ready` is running and has yet to find the ring empty. -/
def View.Attended (v : View J P) : Prop :=
  v.state.bell = true ∨ (∃ rest, v.state.thread = .ringing rest) ∨ v.ready.isSome = true

/-- The thread leaves nothing in the ring unannounced. -/
theorem WorkerState.attended_thread {wk wk' : WorkerState J P} {loaded : Bool}
    (h : wk.threadStep K loaded = some wk') (ready : Option (Ready P))
    (hold : wk.results ≠ [] → View.Attended ⟨wk, ready⟩) :
    wk'.results ≠ [] → View.Attended ⟨wk', ready⟩ := by
  -- only the pushing thread comes to `ringing`, and only the ringing one leaves it
  have hkeep {t : Thread P} (hat : ∀ rest, wk.thread ≠ .ringing rest) {wk' : WorkerState J P}
      (hwk : wk' = { wk with thread := t, sub := wk'.sub, sem := wk'.sem }) :
      wk'.results ≠ [] → View.Attended ⟨wk', ready⟩ := by
    intro hne
    rw [hwk] at hne ⊢
    rcases hold hne with hbell | ⟨rest, hring⟩ | hready
    · exact .inl hbell
    · exact absurd hring (hat rest)
    · exact .inr (.inr hready)
  unfold threadStep at h
  split at h
  · next hat => cases h; exact hkeep (by rw [hat]; nofun) rfl
  · next hat => split_ifs at h; cases h; exact hkeep (by rw [hat]; nofun) rfl
  · next hat => cases h; exact hkeep (by rw [hat]; nofun) rfl
  · next hat => split at h <;> cases h <;> exact hkeep (by rw [hat]; nofun) rfl
  · next r rest hat =>
    split_ifs at h
    cases h
    exact fun _ => .inr (.inl ⟨rest, rfl⟩)
  · cases h
    exact fun _ => .inl rfl
  · cases h

theorem WorkerStep.attended {v v' : View J P} {es : List (Event J P)} (h : WorkerStep K n w v es v')
    (hold : v.state.results ≠ [] → v.Attended) : v'.state.results ≠ [] → v'.Attended := by
  cases h with
  | unmoved | refuse | accept | enqueued | storeStopped | postStopped => exact hold
  | thread ready hthread => exact WorkerState.attended_thread hthread ready hold
  | answer | pop | release | keep => exact fun _ => .inr (.inr rfl)
  | popNone hnone => exact fun hne => absurd hnone hne
  | join => exact fun hne => absurd rfl hne

/-! ## Order -/

/-- The jobs of the final results. -/
def finalJobs (rs : List (Result P)) : List UInt64 := (rs.filter Result.isDone).map Result.jobId

theorem finalJobs_append (rs rs' : List (Result P)) :
    finalJobs (rs ++ rs') = finalJobs rs ++ finalJobs rs' := by
  simp [finalJobs]

theorem WorkerKind.finalJobs_results (K : WorkerKind I J P) (item : Item J) :
    finalJobs (K.results item) = [item.jobId] := by
  obtain ⟨p, hp⟩ := K.exists_filter_isDone_results item
  rw [finalJobs, hp]
  rfl

theorem WorkerKind.finalJobs_flatMap (K : WorkerKind I J P) (items : List (Item J)) :
    finalJobs (items.flatMap K.results) = items.map Item.jobId := by
  induction items with
  | nil => rfl
  | cons item items ih =>
    rw [List.flatMap_cons, finalJobs_append, ih, K.finalJobs_results]
    rfl

theorem Ledger.finalJobs_isPrefix {es : List (Event J P)} {v : View J P}
    {taken left : List (Item J)} {rest : List (Result P)} (h : Ledger K n w es v taken left rest) :
    finalJobs (calledResults es) <+: (acceptedItems es).map Item.jobId := by
  refine ⟨finalJobs rest ++ left.map Item.jobId, ?_⟩
  rw [← List.append_assoc, ← finalJobs_append, ← h.streamed, K.finalJobs_flatMap, h.accepted,
    List.map_append]

/-- In every run, until `stop()` has drained the worker's queues, a result in its ring
is attended to, and at all times the jobs whose final result was delivered are the
first ones that the worker accepted, in that order. -/
theorem results_delivered_in_order {s : State J P} {hist : List (Output J P)}
    (run : (manager K n).Reaches s hist) (w : ℕ) :
    ((s.workers w).results ≠ [] → (s.workers w).bell = true ∨
      (∃ rest, (s.workers w).thread = .ringing rest) ∨ ∃ f, s.ready = some (w, f)) ∧
    finalJobs (calledResults (own w hist)) <+: (acceptedItems (own w hist)).map Item.jobId := by
  constructor
  · have hattended : (s.view w).state.results ≠ [] → (s.view w).Attended := by
      induction run with
      | start h =>
        obtain rfl := h
        exact fun hne => absurd rfl hne
      | next run hstep ih => exact ((Shape.reaches run).view hstep w).attended ih
    intro hne
    rcases hattended hne with hbell | hring | hready
    · exact .inl hbell
    · exact .inr (.inl hring)
    · exact .inr (.inr (exists_of_readyOf hready))
  · obtain ⟨_, _, _, hledger⟩ := reaches_ledger run w
    exact hledger.finalJobs_isPrefix

/-- The first of two results was delivered; the second one is pushed and not yet
announced, while the main thread is back in its event loop. -/
def pushBehindDelivery : List (Label (Option UInt64)) :=
  [Label.dispatch true (some 7), Label.enqueue, Label.dispatch true (some 8), Label.enqueue] ++
    List.replicate 6 (Label.thread 0 true) ++
    [Label.ready 0, Label.pop, Label.callbackReturns, Label.pop] ++
    List.replicate 4 (Label.thread 0 true)

def pushedBehindDelivery : State UInt64 FibResult × List (Output UInt64 FibResult) :=
  ((manager fibonacciWorker 1).exec (.initial 1) pushBehindDelivery).get rfl

theorem results_delivered_in_order_pushedBehindDelivery :
    (pushedBehindDelivery.1.workers 0).results ≠ [] ∧
      ((pushedBehindDelivery.1.workers 0).bell = true ∨
        (∃ rest, (pushedBehindDelivery.1.workers 0).thread = .ringing rest) ∨
        ∃ f, pushedBehindDelivery.1.ready = some (0, f)) ∧
      finalJobs (calledResults (own 0 pushedBehindDelivery.2)) <+:
        (acceptedItems (own 0 pushedBehindDelivery.2)).map Item.jobId := by
  have run : (manager fibonacciWorker 1).Reaches pushedBehindDelivery.1 pushedBehindDelivery.2 :=
    Machine.reaches_exec pushBehindDelivery rfl rfl
  have hresults : (pushedBehindDelivery.1.workers 0).results ≠ [] := List.cons_ne_nil _ _
  obtain ⟨hattended, horder⟩ := results_delivered_in_order run 0
  exact ⟨hresults, hattended hresults, horder⟩

end CapyJs.Worker
