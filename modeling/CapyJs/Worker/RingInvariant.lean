import CapyJs.Worker.RingManager

/-!
# What a manager with rings stands for

A ring is read as the list of its occupied cells. Inside the `push` of a dispatch the manager
with queues is still before the dispatch, so what the dispatch has done is undone. The
invariant says which thread is inside which ring, and a step of a worker's thread is one of the
thread with queues or none.
-/
namespace CapyJs.Worker
open Queue Transition BoundedFifo

variable {I J P : Type*} {K : WorkerKind I J P} {N M n i j : ℕ}

/-! ## Rings as queues -/

def RingWorker.atomic (wk : RingWorker J P N M) : WorkerState J P where
  sub := wk.sub.mem.contents
  sem := wk.sem
  stopped := wk.stopped
  results := wk.results.mem.contents
  bell := wk.bell
  inFlight := wk.inFlight
  refd := wk.refd
  thread := wk.thread
  closed := wk.closed
  refs := wk.refs

/-- The call of a manager whose `push` has not begun before it is answered. -/
def Call.atomic : Call (Item J) → Call Empty
  | .idle | .push _ _ => .idle
  | .enqueue w jobId => .enqueue w jobId
  | .stop k pc => .stop k pc

/-- A `push` under way is for a reference that the manager with queues has not made yet. -/
def Call.undo : Call (Item J) → ℕ → WorkerState J P → WorkerState J P
  | .push w item, v, wk => if v = w then { wk with refs := item.ref.seq } else wk
  | _, _, wk => wk

def StateOver.atomic (s : RingState J P N M) : State J P where
  size := s.size
  workers v := s.call.undo v (s.workers v).atomic
  cleared := s.cleared
  nextJobId :=
    match s.call with
    | .push _ item => item.jobId
    | _ => s.nextJobId
  nextWorkerIdx :=
    match s.call with
    | .push _ _ => s.nextWorkerIdx - 1
    | _ => s.nextWorkerIdx
  jobStatus := s.jobStatus
  ready := s.ready
  call := s.call.atomic

/-- What the manager with rings has emitted and the manager with queues not yet. -/
def StateOver.ahead (s : RingState J P N M) : List (Output J P) :=
  match s.call with
  | .push w item => [.worker w (.duplicated item.ref)]
  | _ => []

theorem RingWorker.atomic_update (workers : ℕ → RingWorker J P N M) (w : ℕ)
    (wk : RingWorker J P N M) : (fun v => (Function.update workers w wk v).atomic) =
      Function.update (fun v => (workers v).atomic) w wk.atomic := by
  funext v
  exact Function.apply_update (fun _ => RingWorker.atomic) workers w wk v

theorem StateOver.atomic_setWorker (s : RingState J P N M) (w : ℕ) (wk : RingWorker J P N M) :
    (s.setWorker w wk).atomic = s.atomic.setWorker w (s.call.undo w wk.atomic) := by
  have hworkers : (fun v => s.call.undo v (Function.update s.workers w wk v).atomic) =
      Function.update (fun v => s.call.undo v (s.workers v).atomic) w
        (s.call.undo w wk.atomic) := by
    funext v
    exact Function.apply_update (fun v wk => s.call.undo v wk.atomic) s.workers w wk v
  simp only [setWorker, atomic, StateOver.setWorker, hworkers]

theorem StateOver.atomic_setWorker_self (s : RingState J P N M) {w : ℕ}
    {wk : RingWorker J P N M} (h : wk.atomic = (s.workers w).atomic) :
    (s.setWorker w wk).atomic = s.atomic := by
  rw [atomic_setWorker, h]
  simp [atomic, StateOver.setWorker]

theorem Call.undo_eq {call : Call (Item J)} (hcall : ∀ v item, call ≠ .push v item) (w : ℕ)
    (wk : WorkerState J P) : call.undo w wk = wk := by
  cases call with
  | push v item => exact absurd rfl (hcall v item)
  | idle | enqueue | stop => rfl

/-- Outside a `push` nothing is undone. -/
theorem StateOver.atomic_eq {s : RingState J P N M} (hcall : ∀ v item, s.call ≠ .push v item) :
    s.atomic =
      { size := s.size
        workers := fun v => (s.workers v).atomic
        cleared := s.cleared
        nextJobId := s.nextJobId
        nextWorkerIdx := s.nextWorkerIdx
        jobStatus := s.jobStatus
        ready := s.ready
        call := s.call.atomic } := by
  cases h : s.call with
  | push w item => exact absurd h (hcall w item)
  | idle | enqueue | stop => simp [atomic, h, Call.undo]

theorem StateOver.ahead_eq {s : RingState J P N M} (hcall : ∀ v item, s.call ≠ .push v item) :
    s.ahead = [] := by
  cases h : s.call with
  | push w item => exact absurd h (hcall w item)
  | idle | enqueue | stop => simp [ahead, h]

/-! ## Who is inside which ring -/

/-- The thread is inside the ring of jobs only while it pops, and inside the ring of results
only for the result it pushes. -/
structure RingWorker.Inv (wk : RingWorker J P N M) : Prop where
  sub : wk.sub.Inv
  results : wk.results.Inv
  popping : wk.sub.consumer = .idle ∨ wk.thread = .popping
  pushing : wk.results.producer = .idle ∨
    ∃ r rest, wk.thread = .pushing r rest ∧ wk.results.producer.item = some r

/-- What `js_dispatch` has done before the `push` of `item`. -/
structure StateOver.Dispatched (K : WorkerKind I J P) (s : RingState J P N M) (w : ℕ)
    (item : Item J) : Prop where
  cleared : s.cleared = false
  size : s.size ≠ 0
  worker : (s.nextWorkerIdx - 1).toNat % s.size = w
  job : ∃ input, K.toJob input = .ok item.job
  ref : item.ref.worker = w
  refs : (s.workers w).refs = item.ref.seq + 1
  jobId : s.nextJobId = item.jobId + 1

/-- The main thread is inside a ring of jobs only for the item it dispatches, and inside a ring
of results only in `on_result_ready`. -/
structure StateOver.Inv (K : WorkerKind I J P) (s : RingState J P N M) : Prop where
  workers : ∀ w, (s.workers w).Inv
  pushing : ∀ w, (s.workers w).sub.producer = .idle ∨
    ∃ item, s.call = .push w item ∧ (s.workers w).sub.producer.item = some item
  popping : ∀ w, (s.workers w).results.consumer = .idle ∨ s.ready = some (w, .popping)
  native : s.call = .idle ∨ ∀ w, s.ready ≠ some (w, .popping)
  dispatched : ∀ w item, s.call = .push w item → s.Dispatched K w item

/-- A thread that is inside no ring stays so when it moves on to something else. -/
theorem RingWorker.Inv.outside {wk wk' : RingWorker J P N M} (hi : wk.Inv)
    (hpop : wk.thread ≠ .popping) (hpush : ∀ r rest, wk.thread ≠ .pushing r rest)
    (hsub : wk'.sub = wk.sub) (hresults : wk'.results = wk.results) : wk'.Inv := by
  have hidle := hi.popping.resolve_right hpop
  have hidle' := hi.pushing.resolve_right fun ⟨r, rest, hthread, _⟩ => hpush r rest hthread
  exact ⟨hsub ▸ hi.sub, hresults ▸ hi.results, .inl (hsub ▸ hidle), .inl (hresults ▸ hidle')⟩

section Thread
variable {wk wk' : RingWorker J P (2 ^ (i + 1)) (2 ^ (j + 1))} {loaded : Bool}

/-- What a step of the thread is for the manager: a step of the thread with queues or none, in
which the main thread's ends of the rings stay where they are. -/
def ThreadSim (K : WorkerKind I J P) (loaded : Bool) (wk wk' : RingWorker J P N M) : Prop :=
  wk'.Inv ∧ wk'.sub.producer = wk.sub.producer ∧ wk'.results.consumer = wk.results.consumer ∧
    (wk'.atomic = wk.atomic ∨ wk.atomic.threadStep K loaded = some wk'.atomic)

theorem RingWorker.popping_sim (hi : wk.Inv) (hat : wk.thread = .popping)
    (h : wk.threadStep K loaded = some wk') : ThreadSim K loaded wk wk' := by
  have hidle := hi.pushing.resolve_right fun ⟨r, rest, hthread, _⟩ => by
    rw [hat] at hthread
    cases hthread
  simp only [threadStep, hat] at h
  split at h
  · next sub hstep =>
    cases h
    obtain ⟨hinv, hobs⟩ := SPSCQueue.step_spec (Nat.succ_pos i) hi.sub hstep
    obtain ⟨hprod, -⟩ := SPSCQueue.step_nextPop hstep
    refine ⟨⟨hinv, hi.results, .inr rfl, .inl hidle⟩, hprod, rfl, .inl ?_⟩
    simp only [atomic, hobs.eq_of_nil, hat]
  · next sub hstep =>
    cases h
    obtain ⟨hinv, hobs⟩ := SPSCQueue.step_spec (Nat.succ_pos i) hi.sub hstep
    obtain ⟨hprod, hans⟩ := SPSCQueue.step_nextPop hstep
    have hdone := (hans.resolve_left (by simp)).1
    refine ⟨⟨hinv, hi.results, .inl hdone, .inl hidle⟩, hprod, rfl, .inr ?_⟩
    have hnil := hobs.of_singleton.eq_nil_of_pop_none
    have hnil' := hobs.of_singleton.pop_none_eq_nil
    simp [atomic, WorkerState.threadStep, hat, hnil, hnil']
  · next sub item hstep =>
    cases h
    obtain ⟨hinv, hobs⟩ := SPSCQueue.step_spec (Nat.succ_pos i) hi.sub hstep
    obtain ⟨hprod, hans⟩ := SPSCQueue.step_nextPop hstep
    have hdone := (hans.resolve_left (by simp)).1
    refine ⟨⟨hinv, hi.results, .inl hdone, .inl hidle⟩, hprod, rfl, .inr ?_⟩
    simp [atomic, WorkerState.threadStep, hat, hobs.of_singleton.eq_of_pop_some]
  · cases h

theorem RingWorker.pushing_sim (hresults : K.resultQueueDepth = 2 ^ (j + 1)) (hi : wk.Inv)
    {r : Result P} {rest : List (Result P)} (hat : wk.thread = .pushing r rest)
    (h : wk.threadStep K loaded = some wk') : ThreadSim K loaded wk wk' := by
  have hidle := hi.popping.resolve_right (by rw [hat]; rintro ⟨⟩)
  have hitem : wk.results.producer = .idle ∨ wk.results.producer.item = some r := by
    refine hi.pushing.imp_right fun ⟨r', rest', hthread, hitem⟩ => ?_
    rw [hat] at hthread
    cases hthread
    exact hitem
  simp only [threadStep, hat] at h
  split at h
  · next results hstep =>
    cases h
    obtain ⟨hinv, hobs⟩ := SPSCQueue.step_spec (Nat.succ_pos j) hi.results hstep
    obtain ⟨hcons, ⟨-, hnew⟩ | ⟨ok, hout, -⟩⟩ := SPSCQueue.step_nextPush hitem hstep
    · refine ⟨⟨hi.sub, hinv, .inl hidle, .inr ⟨r, rest, rfl, hnew⟩⟩, rfl, hcons, .inl ?_⟩
      simp only [atomic, hobs.eq_of_nil, hat]
    · cases hout
  · next results item hstep =>
    cases h
    obtain ⟨hinv, hobs⟩ := SPSCQueue.step_spec (Nat.succ_pos j) hi.results hstep
    obtain ⟨hcons, ⟨hout, -⟩ | ⟨ok, -, hdone⟩⟩ := SPSCQueue.step_nextPush hitem hstep
    · cases hout
    · refine ⟨⟨hi.sub, hinv, .inl hidle, .inl hdone⟩, rfl, hcons, .inl ?_⟩
      have hsame : results.mem.contents = wk.results.mem.contents := hobs.of_singleton.eq_of_push
      simp only [atomic, hsame, hat]
  · next results item hstep =>
    cases h
    obtain ⟨hinv, hobs⟩ := SPSCQueue.step_spec (Nat.succ_pos j) hi.results hstep
    obtain ⟨hcons, ⟨hout, -⟩ | ⟨ok, hout, hdone⟩⟩ := SPSCQueue.step_nextPush hitem hstep
    · cases hout
    · cases hout
      refine ⟨⟨hi.sub, hinv, .inl hidle, .inl hdone⟩, rfl, hcons, .inr ?_⟩
      have hnew : results.mem.contents = wk.results.mem.contents ++ [r] :=
        hobs.of_singleton.eq_of_push
      have hroom := hobs.of_singleton.length_lt_of_push_true
      simp only [atomic, WorkerState.threadStep, hat, hresults, hnew]
      exact if_pos hroom
  · cases h

theorem RingWorker.threadStep_sim (hresults : K.resultQueueDepth = 2 ^ (j + 1)) (hi : wk.Inv)
    (h : wk.threadStep K loaded = some wk') : ThreadSim K loaded wk wk' := by
  cases hat : wk.thread with
  | starting =>
    simp only [threadStep, hat, Option.some.injEq] at h
    subst h
    refine ⟨hi.outside ?_ ?_ rfl rfl, rfl, rfl, .inr ?_⟩
    · rw [hat]; rintro ⟨⟩
    · rw [hat]; rintro _ _ ⟨⟩
    · simp [atomic, WorkerState.threadStep, hat]
  | waiting =>
    simp only [threadStep, hat] at h
    split_ifs at h with hsem
    cases h
    refine ⟨hi.outside ?_ ?_ rfl rfl, rfl, rfl, .inr ?_⟩
    · rw [hat]; rintro ⟨⟩
    · rw [hat]; rintro _ _ ⟨⟩
    · simp [atomic, WorkerState.threadStep, hat, hsem]
  | woken =>
    simp only [threadStep, hat, Option.some.injEq] at h
    subst h
    refine ⟨hi.outside ?_ ?_ rfl rfl, rfl, rfl, .inr ?_⟩
    · rw [hat]; rintro ⟨⟩
    · rw [hat]; rintro _ _ ⟨⟩
    · simp [atomic, WorkerState.threadStep, hat]
  | popping => exact popping_sim hi hat h
  | pushing r rest => exact pushing_sim hresults hi hat h
  | ringing rest =>
    simp only [threadStep, hat, Option.some.injEq] at h
    subst h
    refine ⟨hi.outside ?_ ?_ rfl rfl, rfl, rfl, .inr ?_⟩
    · rw [hat]; rintro ⟨⟩
    · rw [hat]; rintro _ _ ⟨⟩
    · simp [atomic, WorkerState.threadStep, hat]
  | exited => simp [threadStep, hat] at h

end Thread

/-! ## Keeping the invariant -/

section Inv
variable {s s' : RingState J P N M} {w : ℕ} {wk : RingWorker J P N M}

/-- A property of every worker, when one of them is replaced. -/
theorem StateOver.forall_setWorker {p : ℕ → RingWorker J P N M → Prop} (hwk : p w wk)
    (hold : ∀ v, v ≠ w → p v (s.workers v)) (v : ℕ) : p v ((s.setWorker w wk).workers v) := by
  by_cases hv : v = w
  · subst hv
    simpa using hwk
  · rw [workers_setWorker_of_ne hv]
    exact hold v hv

theorem StateOver.Inv.setWorker (hi : s.Inv K) (hwk : wk.Inv)
    (hpush : wk.sub.producer = .idle ∨
      ∃ item, s.call = .push w item ∧ wk.sub.producer.item = some item)
    (hpop : wk.results.consumer = .idle ∨ s.ready = some (w, .popping))
    (hrefs : wk.refs = (s.workers w).refs) : (s.setWorker w wk).Inv K where
  workers := forall_setWorker hwk fun v _ => hi.workers v
  pushing := forall_setWorker (p := fun v wk => wk.sub.producer = .idle ∨
    ∃ item, s.call = .push v item ∧ wk.sub.producer.item = some item) hpush fun v _ => hi.pushing v
  popping := forall_setWorker (p := fun v wk => wk.results.consumer = .idle ∨
    s.ready = some (v, .popping)) hpop fun v _ => hi.popping v
  native := hi.native
  dispatched v item hcall := by
    obtain ⟨hcleared, hsize, hworker, hjob, href, hvrefs, hjobId⟩ := hi.dispatched v item hcall
    refine ⟨hcleared, hsize, hworker, hjob, href, ?_, hjobId⟩
    by_cases hv : v = w
    · subst hv
      simpa [hrefs] using hvrefs
    · rwa [workers_setWorker_of_ne hv]

theorem StateOver.Inv.setWorker_rings (hi : s.Inv K) (hsub : wk.sub = (s.workers w).sub)
    (hresults : wk.results = (s.workers w).results) (hthread : wk.thread = (s.workers w).thread)
    (hrefs : wk.refs = (s.workers w).refs) : (s.setWorker w wk).Inv K := by
  obtain ⟨hsinv, hrinv, hpopping, hpushing⟩ := hi.workers w
  refine hi.setWorker ⟨hsub ▸ hsinv, hresults ▸ hrinv, ?_, ?_⟩ (hsub ▸ hi.pushing w)
    (hresults ▸ hi.popping w) hrefs
  · rwa [hsub, hthread]
  · rwa [hresults, hthread]

theorem StateOver.Inv.of_call (hi : s.Inv K) (hworkers : s'.workers = s.workers)
    (hready : s'.ready = s.ready) (hidle : ∀ v, (s.workers v).sub.producer = .idle)
    (hcall : ∀ v item, s'.call ≠ .push v item)
    (hnative : s'.call = .idle ∨ ∀ v, s.ready ≠ some (v, .popping)) : s'.Inv K where
  workers v := hworkers ▸ hi.workers v
  pushing v := .inl (hworkers ▸ hidle v)
  popping v := by
    rw [hworkers, hready]
    exact hi.popping v
  native := hready ▸ hnative
  dispatched v item h := absurd h (hcall v item)

theorem StateOver.Inv.of_ready (hi : s.Inv K) (hworkers : s'.workers = s.workers)
    (hcall : s.call = .idle) (hcall' : s'.call = .idle)
    (hidle : ∀ v, (s.workers v).results.consumer = .idle) : s'.Inv K where
  workers v := hworkers ▸ hi.workers v
  pushing v := by
    refine .inl ?_
    rw [hworkers]
    exact (hi.pushing v).resolve_right (by simp [hcall])
  popping v := .inl (hworkers ▸ hidle v)
  native := .inl hcall'
  dispatched v item h := by simp [hcall'] at h

theorem StateOver.Inv.producer_idle (hi : s.Inv K) (hcall : ∀ v item, s.call ≠ .push v item)
    (v : ℕ) : (s.workers v).sub.producer = .idle :=
  (hi.pushing v).resolve_right fun ⟨item, h, _⟩ => hcall v item h

theorem StateOver.Inv.producer_idle_of_ne (hi : s.Inv K) {item : Item J}
    (hcall : s.call = .push w item) {v : ℕ} (hv : v ≠ w) :
    (s.workers v).sub.producer = .idle := by
  refine (hi.pushing v).resolve_right ?_
  rintro ⟨item', hcall', -⟩
  rw [hcall] at hcall'
  cases hcall'
  exact hv rfl

theorem StateOver.Inv.item_eq (hi : s.Inv K) {item x : Item J} (hcall : s.call = .push w item)
    (hitem : (s.workers w).sub.producer.item = some x) : x = item := by
  obtain hidle | ⟨item', hcall', hitem'⟩ := hi.pushing w
  · rw [hidle] at hitem
    cases hitem
  · rw [hcall] at hcall'
    cases hcall'
    exact Option.some.inj (hitem.symm.trans hitem')

theorem StateOver.Inv.consumer_idle (hi : s.Inv K) (hready : ∀ v, s.ready ≠ some (v, .popping))
    (v : ℕ) : (s.workers v).results.consumer = .idle :=
  (hi.popping v).resolve_right (hready v)

end Inv

end CapyJs.Worker
