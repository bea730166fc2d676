import CapyJs.Transition.Simulation
import CapyJs.Worker.Kinds
import CapyJs.Worker.RingInvariant

/-!
# The manager with rings refines the manager with queues

The answer of a `push` or `pop` comes with the access that changes the list of occupied cells
or finds it full or empty, and there the manager with queues takes its step; at every other
access it stands still.
-/
namespace CapyJs.Worker
open Queue Transition BoundedFifo

variable {I J P : Type*} {K : WorkerKind I J P} {N M n i j : ℕ}

/-! ## The steps -/

section Sim
variable {s s' : RingState J P (2 ^ (i + 1)) (2 ^ (j + 1))} {w : ℕ} {out : List (Output J P)}

/-- A step of the manager with queues, or none; what it emits has been emitted. -/
def Simulates (K : WorkerKind I J P) (s s' : RingState J P N M) (out : List (Output J P)) : Prop :=
  s'.Inv K ∧ (s'.atomic = s.atomic ∧ s.ahead ++ out = s'.ahead ∨
    ∃ b out', step K s.atomic b = some (s'.atomic, out') ∧ s.ahead ++ out = out' ++ s'.ahead)

/-- The thread's steps do not read how many references there are. -/
theorem WorkerState.threadStep_undo {wk wk' : WorkerState J P} {loaded : Bool}
    (call : Call (Item J)) (w : ℕ) (h : wk.threadStep K loaded = some wk') :
    (call.undo w wk).threadStep K loaded = some (call.undo w wk') ∧ wk'.refs = wk.refs := by
  have hrefs : ∀ r, threadStep K loaded { wk with refs := r } = some { wk' with refs := r } ∧
      wk'.refs = wk.refs := by
    intro r
    unfold threadStep at h ⊢
    cases hat : wk.thread <;> simp only [hat] at h ⊢
    case waiting | pushing =>
      split_ifs at h ⊢
      cases h
      exact ⟨rfl, rfl⟩
    case popping =>
      split at h <;> cases h <;> simp_all
    case exited => cases h
    all_goals
      cases h
      exact ⟨rfl, rfl⟩
  unfold Call.undo
  split
  · split_ifs
    · exact hrefs _
    · exact ⟨h, (hrefs 0).2⟩
  · exact ⟨h, (hrefs 0).2⟩

theorem StateOver.thread_sim (hresults : K.resultQueueDepth = 2 ^ (j + 1)) (hi : s.Inv K)
    {wk' : RingWorker J P (2 ^ (i + 1)) (2 ^ (j + 1))} {loaded : Bool} (hw : w < s.size)
    (h : (s.workers w).threadStep K loaded = some wk') : Simulates K s (s.setWorker w wk') [] := by
  obtain ⟨hwk, hprod, hcons, hsame | hstep⟩ := RingWorker.threadStep_sim hresults (hi.workers w) h
  · have hrefs : wk'.atomic.refs = (s.workers w).atomic.refs := congrArg WorkerOver.refs hsame
    have hinv := hi.setWorker hwk (hprod ▸ hi.pushing w) (hcons ▸ hi.popping w) hrefs
    exact ⟨hinv, .inl ⟨s.atomic_setWorker_self hsame, List.append_nil _⟩⟩
  · obtain ⟨hundo, hrefs⟩ := WorkerState.threadStep_undo s.call w hstep
    have hinv := hi.setWorker hwk (hprod ▸ hi.pushing w) (hcons ▸ hi.popping w) hrefs
    refine ⟨hinv, .inr ⟨.thread w loaded, [], ?_, by simp [ahead, setWorker]⟩⟩
    rw [atomic_setWorker]
    simp [step, atomic, hw, hundo]

theorem StateOver.inJs_spec {s : RingState J P N M} (h : s.inJs = true) :
    s.call = .idle ∧ ∀ v, s.ready ≠ some (v, .popping) := by
  unfold inJs at h
  split at h
  · next hcall hready => exact ⟨hcall, by simp [hready]⟩
  · next hcall hready => exact ⟨hcall, by simp [hready]⟩
  · cases h

theorem StateOver.inJs_atomic {s : RingState J P N M} (hcall : s.call.atomic = .idle)
    (hready : ∀ v, s.ready ≠ some (v, .popping)) : s.atomic.inJs = true := by
  have hcall' : s.atomic.call = .idle := hcall
  have hready' : s.atomic.ready = s.ready := rfl
  unfold StateOver.inJs
  rw [hcall', hready']
  rcases h : s.ready with _ | ⟨v, _ | r⟩
  · rfl
  · exact absurd h (hready v)
  · rfl

/-- Inside the `push` of a dispatch the manager with queues is still before the dispatch. -/
theorem StateOver.dispatched_sim (hi : s.Inv K) (hcall : s.call = .idle)
    (hready : ∀ v, s.ready ≠ some (v, .popping)) {input : I} {job : J}
    {sub : SPSCQueue.State (Item J) (2 ^ (i + 1))} {o : List (Outcome (Item J))} {item : Item J}
    (hcleared : s.cleared = false) (hsize : s.size ≠ 0)
    (hw : s.nextWorkerIdx.toNat % s.size = w) (hjob : K.toJob input = .ok job)
    (hitem : item = ⟨s.nextJobId, ⟨w, (s.workers w).refs⟩, job⟩)
    (hstep : SPSCQueue.step (s.workers w).sub (.push item) = some (sub, o)) :
    Simulates K s
      { s.setWorker w { s.workers w with sub, refs := (s.workers w).refs + 1 } with
        nextJobId := s.nextJobId + 1
        nextWorkerIdx := s.nextWorkerIdx + 1
        call := .push w item }
      [.worker w (.duplicated item.ref)] := by
  have hidle : ∀ v item, s.call ≠ .push v item := by simp [hcall]
  obtain ⟨rfl, hpush, hcons⟩ := SPSCQueue.step_push hstep
  obtain ⟨hinv, hobs⟩ := SPSCQueue.step_spec (Nat.succ_pos i) (hi.workers w).sub hstep
  obtain ⟨-, hresults, hpopping, hpushing⟩ := hi.workers w
  refine ⟨⟨?_, ?_, ?_, .inr hready, ?_⟩, .inl ⟨?_, by simp [ahead, hcall]⟩⟩
  · exact forall_setWorker ⟨hinv, hresults, hcons ▸ hpopping, hpushing⟩ fun v _ => hi.workers v
  · exact forall_setWorker (p := fun v wk => wk.sub.producer = .idle ∨
      ∃ item', Call.push w item = .push v item' ∧ wk.sub.producer.item = some item')
      (.inr ⟨item, rfl, hpush⟩) fun v _ => .inl (hi.producer_idle hidle v)
  · exact forall_setWorker (p := fun v wk => wk.results.consumer = .idle ∨
      s.ready = some (v, .popping)) (hi.popping w) fun v _ => hi.popping v
  · rintro v item' ⟨⟩
    subst hitem
    exact ⟨hcleared, hsize, by simpa [setWorker] using hw, ⟨input, hjob⟩, rfl, by simp, rfl⟩
  · have hworkers : ∀ v, Call.undo (.push w item) v (Function.update s.workers w
        { s.workers w with sub, refs := (s.workers w).refs + 1 } v).atomic =
          (s.workers v).atomic := by
      intro v
      by_cases hv : v = w
      · subst hv
        simp [Call.undo, RingWorker.atomic, hitem, hobs.eq_of_nil]
      · simp [Call.undo, hv]
    have hidx : s.nextWorkerIdx + 1 - 1 = s.nextWorkerIdx := by simp
    have hid : item.jobId = s.nextJobId := by rw [hitem]
    rw [atomic_eq hidle, hcall]
    simp only [atomic, setWorker, hidx, hid, Call.atomic, StateOver.mk.injEq, true_and, and_true]
    exact funext hworkers

theorem StateOver.dispatch_sim (hi : s.Inv K) {isFunction : Bool} {input : I}
    (hjs : s.inJs = true) (h : s.jsDispatch K isFunction input = some (s', out)) :
    Simulates K s s' out := by
  obtain ⟨hcall, hready⟩ := inJs_spec hjs
  have hidle : ∀ v item, s.call ≠ .push v item := by simp [hcall]
  have hjs' : s.atomic.inJs = true := inJs_atomic (by rw [hcall]; rfl) hready
  -- a dispatch that throws before it takes a worker is one step on both sides
  have hthrow : ∀ e, s.atomic.jsDispatch K isFunction input = (s.atomic, [.threw e]) →
      Simulates K s s [.threw e] := by
    intro e hdispatch
    refine ⟨hi, .inr ⟨.dispatch isFunction input, [.threw e], ?_, by simp [ahead_eq hidle]⟩⟩
    simp only [step, hjs', if_true, hdispatch]
  unfold RingState.jsDispatch at h
  split_ifs at h with hfn hworkers
  · cases h
    exact hthrow _ (by simp [State.jsDispatch, hfn])
  · cases h
    exact hthrow _ (by simp_all [State.jsDispatch, atomic])
  · split at h
    · next e herror =>
      cases h
      exact hthrow _ (by simp_all [State.jsDispatch, atomic])
    · next job hjob =>
      simp only [Option.map_eq_some_iff, Prod.mk.injEq] at h
      obtain ⟨⟨sub, out'⟩, hstep, rfl, rfl⟩ := h
      simp only [Bool.or_eq_true, beq_iff_eq, not_or, Bool.not_eq_true] at hworkers
      exact dispatched_sim hi hcall hready hworkers.1 hworkers.2 rfl hjob rfl hstep

/-- Where the main thread is when `push` has answered. -/
def Call.answered (w : ℕ) (jobId : UInt64) : Bool → Call (Item J)
  | true => .enqueue w jobId
  | false => .idle

/-- What it emits then. -/
def Output.answered (w : ℕ) (item : Item J) : Bool → Output J P
  | true => .worker w (.accepted item)
  | false => .threw ⟨.internalError, s!"worker {w} queue full"⟩

theorem Call.answered_ne (w : ℕ) (jobId : UInt64) (ok : Bool) (v : ℕ) (item : Item J) :
    Call.answered w jobId ok ≠ .push v item := by
  cases ok <;> rintro ⟨⟩

/-- The answer of `push` is where the manager with queues dispatches. -/
theorem StateOver.answered_step (hsub : K.queueDepth = 2 ^ (i + 1)) {item : Item J}
    (hcall : s.call = .push w item) (hready : ∀ v, s.ready ≠ some (v, .popping))
    (hd : s.Dispatched K w item) {sub : SPSCQueue.State (Item J) (2 ^ (i + 1))} {ok : Bool}
    (hpush : Step (2 ^ (i + 1) - 1) (s.workers w).sub.mem.contents (.push item ok)
      sub.mem.contents) :
    ∃ input, step K s.atomic (.dispatch true input) =
      some ({ s.setWorker w { s.workers w with sub } with
          call := .answered w item.jobId ok }.atomic,
        [.worker w (.duplicated item.ref), .answered w item ok]) := by
  obtain ⟨hcleared, hsize, hw, ⟨input, hjob⟩, href, hrefs, hjobId⟩ := hd
  have hjs : s.atomic.inJs = true := inJs_atomic (by rw [hcall]; rfl) hready
  have hidx : s.atomic.nextWorkerIdx.toNat % s.atomic.size = w := by
    simpa [atomic, hcall] using hw
  have hwk : s.atomic.workers w = { (s.workers w).atomic with refs := item.ref.seq } := by
    simp [atomic, hcall, Call.undo]
  have hid : s.atomic.nextJobId = item.jobId := by simp [atomic, hcall]
  have href' : (⟨w, item.ref.seq⟩ : Ref) = item.ref := by rw [← href]
  have hopen : (s.atomic.cleared || s.atomic.size == 0) = false := by
    simp [atomic, hcleared, hsize]
  -- what the answer leaves behind is what the manager with queues does at once
  have hstate : ∀ (call : Call (Item J)), (∀ v item, call ≠ .push v item) →
      { s.setWorker w { s.workers w with sub } with call := call }.atomic =
        { s.atomic.picked.setWorker w { (s.workers w).atomic with
            sub := sub.mem.contents, refs := item.ref.seq + 1 } with call := call.atomic } := by
    intro call hnot
    have hworkers : ∀ v, (Function.update s.workers w { s.workers w with sub } v).atomic =
        Function.update s.atomic.workers w { (s.workers w).atomic with
          sub := sub.mem.contents, refs := item.ref.seq + 1 } v := by
      intro v
      by_cases hv : v = w
      · subst hv
        simp [RingWorker.atomic, hrefs]
      · simp [atomic, hcall, Call.undo, hv]
    have hpicked : s.atomic.nextJobId + 1 = s.nextJobId ∧
        s.atomic.nextWorkerIdx + 1 = s.nextWorkerIdx := by
      simp [atomic, hcall, hjobId]
    rw [atomic_eq hnot]
    simp only [setWorker, StateOver.setWorker, State.picked, hpicked, StateOver.mk.injEq, true_and]
    exact ⟨rfl, funext hworkers, rfl, rfl, rfl, trivial⟩
  refine ⟨input, ?_⟩
  have hnew := hpush.eq_of_push
  rw [hstate _ (Call.answered_ne w item.jobId ok)]
  simp only [step, hjs, State.jsDispatch, hidx, hwk, hjob, hid, href', hopen, Bool.not_true,
    Bool.false_eq_true, if_true, if_false, hsub]
  cases ok with
  | true =>
    have hroom : (s.workers w).atomic.sub.length < 2 ^ (i + 1) - 1 := hpush.length_lt_of_push_true
    rw [if_pos hroom, hnew]
    rfl
  | false =>
    have hfull : (s.workers w).atomic.sub.length = 2 ^ (i + 1) - 1 := hpush.length_of_push_false
    rw [if_neg hfull.not_lt, hnew]
    have hidle : s.atomic.call = .idle := by simp [atomic, hcall, Call.atomic]
    simp only [Call.answered, Call.atomic, ← hidle]
    rfl

theorem StateOver.answered_sim (hsub : K.queueDepth = 2 ^ (i + 1)) (hi : s.Inv K) {item x : Item J}
    (hcall : s.call = .push w item) {sub : SPSCQueue.State (Item J) (2 ^ (i + 1))} {ok : Bool}
    (hstep : SPSCQueue.step (s.workers w).sub .producer = some (sub, [.push x ok])) :
    Simulates K s
      { s.setWorker w { s.workers w with sub } with
        call := .answered w item.jobId ok }
      [.answered w item ok] := by
  have hready : ∀ v, s.ready ≠ some (v, .popping) := hi.native.resolve_left (by simp [hcall])
  have hnot := Call.answered_ne (J := J) w item.jobId ok
  obtain ⟨hinv, hobs⟩ := SPSCQueue.step_spec (Nat.succ_pos i) (hi.workers w).sub hstep
  obtain ⟨-, hresults, hpopping, hpushing⟩ := hi.workers w
  obtain ⟨hcons, ⟨hout, -⟩ | ⟨_, _, hout, hitem, hdone⟩⟩ := SPSCQueue.step_producer hstep
  · cases hout
  · cases hout
    obtain rfl : x = item := hi.item_eq hcall hitem
    obtain ⟨input, hdispatch⟩ := answered_step hsub hcall hready (hi.dispatched w x hcall)
      hobs.of_singleton
    have hset : (s.setWorker w { s.workers w with sub }).Inv K :=
      hi.setWorker ⟨hinv, hresults, hcons ▸ hpopping, hpushing⟩ (.inl hdone) (hi.popping w) rfl
    refine ⟨hset.of_call rfl rfl ?_ hnot (.inr hready), .inr ⟨_, _, hdispatch, ?_⟩⟩
    · exact forall_setWorker (p := fun _ wk => wk.sub.producer = .idle) hdone
        fun v hv => hi.producer_idle_of_ne hcall hv
    · cases ok <;> simp [ahead, hcall, Call.answered]

theorem StateOver.push_sim (hsub : K.queueDepth = 2 ^ (i + 1)) (hi : s.Inv K) {item : Item J}
    (hcall : s.call = .push w item) (h : s.pushStep w item = some (s', out)) :
    Simulates K s s' out := by
  unfold RingState.pushStep at h
  split at h
  · next sub hstep =>
    cases h
    obtain ⟨hinv, hobs⟩ := SPSCQueue.step_spec (Nat.succ_pos i) (hi.workers w).sub hstep
    obtain ⟨-, hresults, hpopping, hpushing⟩ := hi.workers w
    obtain ⟨hcons, ⟨-, hsame⟩ | ⟨_, _, hout, -⟩⟩ := SPSCQueue.step_producer hstep
    · have hunder : ∃ item', s.call = .push w item' ∧ sub.producer.item = some item' := by
        obtain hidle | h := hi.pushing w
        · simp [SPSCQueue.step, SPSCQueue.producerStep, hidle] at hstep
        · rwa [hsame]
      refine ⟨hi.setWorker ⟨hinv, hresults, hcons ▸ hpopping, hpushing⟩ (.inr hunder)
        (hi.popping w) rfl, .inl ⟨?_, List.append_nil _⟩⟩
      refine s.atomic_setWorker_self ?_
      simp only [RingWorker.atomic, hobs.eq_of_nil]
    · cases hout
  · next sub x hstep =>
    cases h
    exact answered_sim hsub hi hcall hstep
  · next sub x hstep =>
    cases h
    exact answered_sim hsub hi hcall hstep
  · cases h

/-- Outside a `push` both managers take the same step. -/
theorem Simulates.of_step {b : Label I} (hnot : ∀ v item, s.call ≠ .push v item)
    (hnot' : ∀ v item, s'.call ≠ .push v item) (hinv : s'.Inv K)
    (h : step K s.atomic b = some (s'.atomic, out)) : Simulates K s s' out :=
  ⟨hinv, .inr ⟨b, out, h, by simp [StateOver.ahead_eq hnot, StateOver.ahead_eq hnot']⟩⟩

theorem StateOver.enqueue_sim (hi : s.Inv K) {jobId : UInt64} (hcall : s.call = .enqueue w jobId) :
    Simulates K s (s.enqueued w jobId) [.returned jobId] := by
  have hnot : ∀ v item, s.call ≠ .push v item := by simp [hcall]
  have hnot' : ∀ v item, (s.enqueued w jobId).call ≠ .push v item := by rintro _ _ ⟨⟩
  have hset : (s.setWorker w { s.workers w with
      sem := (s.workers w).sem + 1
      inFlight := (s.workers w).inFlight + 1
      refd := (s.workers w).refd || (s.workers w).inFlight == 0 }).Inv K :=
    hi.setWorker_rings rfl rfl rfl rfl
  refine .of_step (b := .enqueue) hnot hnot'
    (hset.of_call rfl rfl (hset.producer_idle hnot) hnot' (.inl rfl)) ?_
  rw [atomic_eq hnot, atomic_eq hnot']
  simp only [step, hcall, Call.atomic, StateOver.enqueued, enqueued, StateOver.setWorker, setWorker,
    RingWorker.atomic_update]
  rfl

theorem StateOver.stopFrom_atomic {s : RingState J P N M} (hnot : ∀ v item, s.call ≠ .push v item)
    (k : ℕ) : (s.stopFrom k).atomic = s.atomic.stopFrom k := by
  rw [atomic_eq hnot]
  unfold stopFrom
  split_ifs
  · rw [atomic_eq (by rintro _ _ ⟨⟩)]
    rfl
  · rw [atomic_eq (by rintro _ _ ⟨⟩)]
    rfl

theorem StateOver.Inv.stopFrom {s : RingState J P N M} (hi : s.Inv K)
    (hnot : ∀ v item, s.call ≠ .push v item) (hready : ∀ v, s.ready ≠ some (v, .popping)) (k : ℕ) :
    (s.stopFrom k).Inv K := by
  unfold StateOver.stopFrom
  split_ifs
  · exact hi.of_call rfl rfl (hi.producer_idle hnot) (by rintro _ _ ⟨⟩) (.inr hready)
  · exact hi.of_call rfl rfl (hi.producer_idle hnot) (by rintro _ _ ⟨⟩) (.inl rfl)

theorem StateOver.stopFrom_ne_push (s : RingState J P N M) (k v : ℕ) (item : Item J) :
    (s.stopFrom k).call ≠ .push v item := by
  unfold stopFrom
  split_ifs <;> rintro ⟨⟩

theorem StateOver.close_sim (hi : s.Inv K) (hjs : s.inJs = true) : Simulates K s s.jsClose [] := by
  obtain ⟨hcall, hready⟩ := inJs_spec hjs
  have hnot : ∀ v item, s.call ≠ .push v item := by simp [hcall]
  have hjs' : s.atomic.inJs = true := inJs_atomic (by rw [hcall]; rfl) hready
  unfold jsClose
  split_ifs with hcleared
  · exact ⟨hi, .inl ⟨rfl, List.append_nil _⟩⟩
  · refine .of_step (b := .close) hnot (s.stopFrom_ne_push 0) (hi.stopFrom hnot hready 0) ?_
    have hcleared' : s.atomic.cleared = false := by simpa [atomic] using hcleared
    simp [step, hjs', StateOver.jsClose, hcleared', stopFrom_atomic hnot]

theorem RingWorker.drained_atomic (wk : RingWorker J P (2 ^ i) (2 ^ j)) :
    wk.drained.atomic = wk.atomic.drained := by
  simp [drained, WorkerState.drained, atomic,
    SPSCQueue.contents_popAll _ _ (SPSCQueue.occupancy_lt _).le]

theorem RingWorker.drain_atomic (wk : RingWorker J P (2 ^ i) (2 ^ j)) :
    wk.atomic.drain K = wk.drain K := by
  simp [drain, WorkerState.drain, atomic,
    WorkQueue.drain_eq_contents _ _ (SPSCQueue.occupancy_lt _).le]

/-- An access of `stop()` to the worker outside its rings. -/
theorem StateOver.stopping_sim (hi : s.Inv K) {k : ℕ} {pc pc' : Stop} (hcall : s.call = .stop k pc)
    {wk : RingWorker J P (2 ^ (i + 1)) (2 ^ (j + 1))} (hset : (s.setWorker k wk).Inv K)
    (h : s.atomic.stopStep K k pc =
      some ({ s.atomic.setWorker k wk.atomic with call := .stop k pc' }, [])) :
    Simulates K s { s.setWorker k wk with call := .stop k pc' } [] := by
  have hnot : ∀ v item, s.call ≠ .push v item := by simp [hcall]
  have hready : ∀ v, s.ready ≠ some (v, .popping) := hi.native.resolve_left (by simp [hcall])
  have hcall' : s.atomic.call = .stop k pc := by simp [atomic, hcall, Call.atomic]
  refine .of_step (b := .stop) hnot (by rintro _ _ ⟨⟩) (hset.of_call rfl rfl
    (hset.producer_idle hnot) (by rintro _ _ ⟨⟩) (.inr hready)) ?_
  simp only [step, hcall', h]
  rw [atomic_eq hnot, atomic_eq (by rintro _ _ ⟨⟩)]
  simp only [StateOver.setWorker, setWorker, RingWorker.atomic_update, Call.atomic]

theorem StateOver.stop_sim (hi : s.Inv K) {k : ℕ} {pc : Stop} (hcall : s.call = .stop k pc)
    (h : s.stopStep K k pc = some (s', out)) : Simulates K s s' out := by
  have hnot : ∀ v item, s.call ≠ .push v item := by simp [hcall]
  have hready : ∀ v, s.ready ≠ some (v, .popping) := hi.native.resolve_left (by simp [hcall])
  have hwk : s.atomic.workers k = (s.workers k).atomic := by rw [atomic_eq hnot]
  cases pc with
  | store =>
    cases h
    refine stopping_sim hi hcall (hi.setWorker_rings rfl rfl rfl rfl) ?_
    simp only [State.stopStep, stopStep, hwk]
    rfl
  | post =>
    cases h
    refine stopping_sim hi hcall (hi.setWorker_rings rfl rfl rfl rfl) ?_
    simp only [State.stopStep, stopStep, hwk]
    rfl
  | join =>
    simp only [RingState.stopStep, stopStep] at h
    split at h
    · next hexited =>
      cases h
      obtain ⟨-, -, hpopping, hpushing⟩ := hi.workers k
      have hsub := hpopping.resolve_right (by simp [hexited])
      have hresults := hpushing.resolve_right (by simp [hexited])
      have hprod := hi.producer_idle hnot k
      have hcons := hi.consumer_idle hready k
      -- nobody is inside a ring that is drained
      have hinv : (s.workers k).drained.Inv :=
        ⟨⟨by simp [RingWorker.drained, hprod, SPSCQueue.Producer.Ok],
          by simp [RingWorker.drained, hsub, SPSCQueue.Consumer.Ok]⟩,
          ⟨by simp [RingWorker.drained, hresults, SPSCQueue.Producer.Ok],
          by simp [RingWorker.drained, hcons, SPSCQueue.Consumer.Ok]⟩, .inl hsub, .inl hresults⟩
      have hset := hi.setWorker hinv (.inl hprod) (.inl hcons) rfl
      refine .of_step (b := .stop) hnot (stopFrom_ne_push _ _) (hset.stopFrom hnot hready _) ?_
      have hcall' : s.atomic.call = .stop k .join := by simp [atomic, hcall, Call.atomic]
      have hthread : (s.workers k).atomic.thread = .exited := hexited
      have hatomic : ((s.setWorker k (s.workers k).drained).stopFrom (k + 1)).atomic =
          (s.atomic.setWorker k (s.workers k).drained.atomic).stopFrom (k + 1) := by
        rw [stopFrom_atomic (s := s.setWorker k _) hnot, atomic_setWorker, Call.undo_eq hnot]
      rw [hatomic, RingWorker.drained_atomic]
      simp only [step, hcall', State.stopStep, stopStep, hwk, hthread, RingWorker.drain_atomic]
    · cases h

/-- `on_result_ready` does not touch what a dispatch has changed. -/
theorem StateOver.atomic_ready {s : RingState J P N M} (hcall : s.call = .idle)
    (ready : Option (ℕ × Ready P)) (w : ℕ) (wk : RingWorker J P N M) :
    { s.setWorker w wk with ready := ready }.atomic =
      { s.atomic.setWorker w wk.atomic with ready := ready } := by
  have hnot : ∀ v item, s.call ≠ .push v item := by simp [hcall]
  have hset := s.atomic_setWorker w wk
  rw [Call.undo_eq hnot] at hset
  exact congrArg (fun a : State J P => { a with ready := ready }) hset

theorem StateOver.workers_atomic {s : RingState J P N M} (hcall : s.call = .idle) (w : ℕ) :
    s.atomic.workers w = (s.workers w).atomic := by
  simp [atomic, hcall, Call.undo]

theorem StateOver.ready_sim (hi : s.Inv K) (hcall : s.call = .idle) (hready : s.ready = none)
    (hw : w < s.size ∧ (s.workers w).bell = true ∧ (s.workers w).closed = false) :
    Simulates K s { s.setWorker w { s.workers w with bell := false } with
      ready := some (w, .popping) } [] := by
  have hnot : ∀ v item, s.call ≠ .push v item := by simp [hcall]
  have hcall' : s.atomic.call = .idle := by simp [atomic, hcall, Call.atomic]
  have hready' : s.atomic.ready = none := hready
  have hset : (s.setWorker w { s.workers w with bell := false }).Inv K :=
    hi.setWorker_rings rfl rfl rfl rfl
  refine .of_step (b := .ready w) hnot hnot
    (hset.of_ready rfl hcall hcall (hset.consumer_idle (by simp [setWorker, hready]))) ?_
  rw [atomic_ready hcall]
  simp only [step, hcall', hready', workers_atomic hcall]
  exact if_pos hw

theorem StateOver.callbackReturned_sim (hi : s.Inv K) (hcall : s.call = .idle) {r : Result P}
    (hready : s.ready = some (w, .calling r)) :
    Simulates K s (s.callbackReturned (J := J) w r).1 (s.callbackReturned w r).2 := by
  have hnot : ∀ v item, s.call ≠ .push v item := by simp [hcall]
  have hcall' : s.atomic.call = .idle := by simp [atomic, hcall, Call.atomic]
  have hready' : s.atomic.ready = some (w, .calling r) := hready
  have hmove : step K s.atomic .callbackReturns = some (s.atomic.callbackReturned w r) := by
    simp only [step, hcall', hready']
  unfold callbackReturned
  split_ifs with hdone
  · have hset : (s.setWorker w { s.workers w with
        inFlight := (s.workers w).inFlight - 1
        refd := (s.workers w).refd && (s.workers w).inFlight != 1 }).Inv K :=
      hi.setWorker_rings rfl rfl rfl rfl
    refine .of_step (b := .callbackReturns) hnot hnot
      (hset.of_ready rfl hcall hcall (hset.consumer_idle (by simp [setWorker, hready]))) ?_
    rw [atomic_ready hcall]
    rw [hmove, StateOver.callbackReturned, if_pos hdone, workers_atomic hcall]
    rfl
  · refine .of_step (b := .callbackReturns) hnot hnot
      (hi.of_ready rfl hcall hcall (hi.consumer_idle (by simp [hready]))) ?_
    rw [hmove, StateOver.callbackReturned, if_neg hdone]
    rfl

/-- The answer of a `pop` of `on_result_ready` is where the manager with queues pops. -/
theorem StateOver.popped_sim (hi : s.Inv K) (hcall : s.call = .idle)
    (hready : s.ready = some (w, .popping))
    {results : SPSCQueue.State (Result P) (2 ^ (j + 1))} {o : Outcome (Result P)}
    {ready : Option (ℕ × Ready P)} {jobStatus : UInt64 → Option JobStatus}
    (hstep : SPSCQueue.step (s.workers w).results (SPSCQueue.nextPop (s.workers w).results) =
      some (results, [o]))
    (h : s.atomic.popResult K w =
      ({ s.atomic.setWorker w { (s.workers w).atomic with results := results.mem.contents } with
        ready := ready, jobStatus := jobStatus }, out)) :
    Simulates K s { s.setWorker w { s.workers w with results } with
      ready := ready, jobStatus := jobStatus } out := by
  have hnot : ∀ v item, s.call ≠ .push v item := by simp [hcall]
  have hcall' : s.atomic.call = .idle := by simp [atomic, hcall, Call.atomic]
  have hready' : s.atomic.ready = some (w, .popping) := hready
  have hmove : step K s.atomic .pop = some (s.atomic.popResult K w) := by
    simp only [step, hcall', hready']
  obtain ⟨hinv, -⟩ := SPSCQueue.step_spec (Nat.succ_pos j) (hi.workers w).results hstep
  obtain ⟨hprod, hans⟩ := SPSCQueue.step_nextPop hstep
  have hdone := (hans.resolve_left (by simp)).1
  obtain ⟨hsub, -, hpopping, hpushing⟩ := hi.workers w
  have hset : (s.setWorker w { s.workers w with results }).Inv K :=
    hi.setWorker ⟨hsub, hinv, hpopping, hprod ▸ hpushing⟩ (hi.pushing w) (.inl hdone) rfl
  have hidle : ∀ v, ((s.setWorker w { s.workers w with results }).workers v).results.consumer =
      .idle := by
    refine forall_setWorker (p := fun _ wk => wk.results.consumer = .idle) hdone fun v hv => ?_
    refine (hi.popping v).resolve_right fun hv' => hv ?_
    rw [hready] at hv'
    cases hv'
    rfl
  refine .of_step (b := .pop) hnot hnot (hset.of_ready rfl hcall hcall hidle) ?_
  rw [hmove, h]
  exact congrArg (fun a : State J P => some ({ a with jobStatus := jobStatus }, out))
    (atomic_ready hcall ready w { s.workers w with results }).symm

theorem StateOver.pop_sim (hi : s.Inv K) (hcall : s.call = .idle)
    (hready : s.ready = some (w, .popping)) (h : s.popStep K w = some (s', out)) :
    Simulates K s s' out := by
  have hwk := workers_atomic hcall w
  unfold RingState.popStep at h
  split at h
  · next results hstep =>
    cases h
    obtain ⟨hinv, hobs⟩ := SPSCQueue.step_spec (Nat.succ_pos j) (hi.workers w).results hstep
    obtain ⟨hprod, -⟩ := SPSCQueue.step_nextPop hstep
    obtain ⟨hsub, -, hpopping, hpushing⟩ := hi.workers w
    refine ⟨hi.setWorker ⟨hsub, hinv, hpopping, hprod ▸ hpushing⟩ (hi.pushing w) (.inr hready) rfl,
      .inl ⟨s.atomic_setWorker_self ?_, List.append_nil _⟩⟩
    simp only [RingWorker.atomic, hobs.eq_of_nil]
  · next results hstep =>
    cases h
    obtain ⟨-, hobs⟩ := SPSCQueue.step_spec (Nat.succ_pos j) (hi.workers w).results hstep
    have hnil : (s.workers w).atomic.results = [] := hobs.of_singleton.eq_nil_of_pop_none
    have hself : s.atomic.setWorker w { (s.workers w).atomic with
        results := results.mem.contents } = s.atomic := by
      rw [hobs.of_singleton.pop_none_eq_nil, ← hnil, ← hwk]
      simp [StateOver.setWorker]
    refine popped_sim hi hcall hready hstep ?_
    rw [hself]
    simp only [State.popResult, hwk, hnil]
    rfl
  · next results r hstep =>
    cases h
    obtain ⟨-, hobs⟩ := SPSCQueue.step_spec (Nat.succ_pos j) (hi.workers w).results hstep
    have hcons : (s.workers w).atomic.results = r :: results.mem.contents :=
      hobs.of_singleton.eq_of_pop_some
    refine popped_sim hi hcall hready hstep ?_
    simp only [State.popResult, hwk, hcons]
    rfl
  · cases h

theorem StateOver.ringStep_sim (hsub : K.queueDepth = 2 ^ (i + 1))
    (hresults : K.resultQueueDepth = 2 ^ (j + 1)) (hi : s.Inv K) {a : RingLabel I}
    (h : ringStep K s a = some (s', out)) : Simulates K s s' out := by
  cases a with
  | dispatch isFunction input =>
    simp only [ringStep] at h
    split_ifs at h with hjs
    exact dispatch_sim hi hjs h
  | push =>
    simp only [ringStep] at h
    split at h
    · next hcall => exact push_sim hsub hi hcall h
    · cases h
  | enqueue =>
    simp only [ringStep] at h
    split at h
    · next hcall =>
      cases h
      exact enqueue_sim hi hcall
    · cases h
  | close =>
    simp only [ringStep] at h
    split_ifs at h with hjs
    cases h
    exact close_sim hi hjs
  | stop =>
    simp only [ringStep] at h
    split at h
    · next hcall => exact stop_sim hi hcall h
    · cases h
  | ready w =>
    simp only [ringStep] at h
    split at h
    · next hcall hready =>
      split_ifs at h with hw
      cases h
      exact ready_sim hi hcall hready hw
    · cases h
  | pop =>
    simp only [ringStep] at h
    split at h
    · next hcall hready => exact pop_sim hi hcall hready h
    · cases h
  | callbackReturns =>
    simp only [ringStep] at h
    split at h
    · next hcall hready =>
      have hsim := callbackReturned_sim hi hcall hready
      rw [Option.some.inj h] at hsim
      exact hsim
    · cases h
  | thread w loaded =>
    simp only [ringStep] at h
    split_ifs at h with hw
    simp only [Option.map_eq_some_iff, Prod.mk.injEq] at h
    obtain ⟨wk', hstep, rfl, rfl⟩ := h
    exact thread_sim hresults hi hw hstep

/-! ## The runs -/

theorem RingWorker.Initial.inv {wk : RingWorker J P N M} (h : wk.Initial) : wk.Inv := by
  obtain ⟨⟨-, -, hprod, hcons⟩, ⟨-, -, hprod', hcons'⟩, -⟩ := h
  exact ⟨⟨by rw [hprod]; trivial, by rw [hcons]; trivial⟩,
    ⟨by rw [hprod']; trivial, by rw [hcons']; trivial⟩, .inl hcons, .inl hprod'⟩

theorem RingWorker.Initial.atomic {wk : RingWorker J P N M} (h : wk.Initial) :
    wk.atomic = .initial := by
  obtain ⟨⟨hw, hr, -⟩, ⟨hw', hr', -⟩, hsem, hstopped, hbell, hfly, hrefd, hthread, hclosed,
    hrefs⟩ := h
  have hsub := (SPSCQueue.contents_eq_nil wk.sub.mem).mpr (Fin.ext (by rw [hw, hr]))
  have hresults := (SPSCQueue.contents_eq_nil wk.results.mem).mpr (Fin.ext (by rw [hw', hr']))
  simp [RingWorker.atomic, WorkerState.initial, hsub, hresults, hsem, hstopped, hbell, hfly, hrefd,
    hthread, hclosed, hrefs]

theorem RingState.Initial.inv {s : RingState J P N M} (h : s.Initial n) : s.Inv K where
  workers w := (h.workers w).inv
  pushing w := .inl (h.workers w).sub.2.2.1
  popping w := .inl (h.workers w).results.2.2.2
  native := .inl h.call
  dispatched w item hcall := by simp [h.call] at hcall

theorem RingState.Initial.atomic {s : RingState J P N M} (h : s.Initial n) :
    s.atomic = .initial n := by
  obtain ⟨hsize, hworkers, hcleared, hjobId, hidx, hstatus, hready, hcall⟩ := h
  rw [StateOver.atomic_eq (by simp [hcall])]
  simp [State.initial, hsize, fun w => (hworkers w).atomic, hcleared, hjobId, hidx,
    funext hstatus, hready, hcall, Call.atomic]

/-- Along every run with rings there is one with queues. -/
theorem StateOver.reaches_atomic (hsub : K.queueDepth = 2 ^ (i + 1))
    (hresults : K.resultQueueDepth = 2 ^ (j + 1)) {hist : List (Output J P)}
    (run : (ringManager K (2 ^ (i + 1)) (2 ^ (j + 1)) n).Reaches s hist) :
    s.Inv K ∧ ∃ hist', (manager K n).Reaches s.atomic hist' ∧ hist = hist' ++ s.ahead := by
  have hsim := run.simulated (N := manager K n)
    (R := fun hist s hist' a => s.Inv K ∧ a = s.atomic ∧ hist = hist' ++ s.ahead) ?_ ?_
  · obtain ⟨_, hist', hrun, hinv, rfl, hhist⟩ := hsim
    exact ⟨hinv, hist', hrun, hhist⟩
  · intro s hinit
    refine ⟨s.atomic, RingState.Initial.atomic hinit, RingState.Initial.inv hinit, rfl, ?_⟩
    exact (StateOver.ahead_eq (by simp [RingState.Initial.call hinit])).symm
  · rintro hist s hist' _ ⟨hi, rfl, rfl⟩ a s' out h
    obtain ⟨hinv, ⟨hsame, hout⟩ | ⟨b, out', hstep, hout⟩⟩ :=
      StateOver.ringStep_sim hsub hresults hi h
    · exact .inl ⟨hinv, hsame.symm, by rw [List.append_assoc, hout]⟩
    · exact .inr ⟨b, s'.atomic, out', hstep, hinv, rfl, by rw [List.append_assoc, hout,
        List.append_assoc]⟩

/-- Whatever the accesses to the rings are interleaved with, the manager does what it does with
queues that push and pop at once: it has made the same calls and emitted the same outputs, up
to the reference of a `push` that is under way. -/
theorem ringManager_refines (hsub : K.queueDepth = 2 ^ (i + 1))
    (hresults : K.resultQueueDepth = 2 ^ (j + 1)) {hist : List (Output J P)}
    (run : (ringManager K (2 ^ (i + 1)) (2 ^ (j + 1)) n).Reaches s hist) :
    ∃ hist', (manager K n).Reaches s.atomic hist' ∧ hist = hist' ++ s.ahead :=
  (StateOver.reaches_atomic hsub hresults run).2

/-- The rings of a new worker, with some value in every cell. -/
def newRing {α : Type*} (hN : 0 < N) (cell : α) : SPSCQueue.State α N :=
  ⟨⟨fun _ => cell, ⟨0, hN⟩, ⟨0, hN⟩⟩, .idle, .idle⟩

def newWorker (hN : 0 < N) (hM : 0 < M) (item : Item J) (r : Result P) : RingWorker J P N M where
  sub := newRing hN item
  sem := 0
  stopped := false
  results := newRing hM r
  bell := false
  inFlight := 0
  refd := false
  thread := .starting
  closed := false
  refs := 0

/-- The thread is inside the `pop` of the first job while the main thread is inside the `push`
of the second. -/
theorem ringManager_refines_two_jobs :
    ∃ (s : RingState UInt64 FibResult (2 ^ (5 + 1)) (2 ^ (5 + 1)))
      (hist : List (Output UInt64 FibResult)),
      (ringManager fibonacciWorker (2 ^ (5 + 1)) (2 ^ (5 + 1)) 1).Reaches s hist ∧
        s.ahead = [.worker 0 (.duplicated ⟨0, 1⟩)] ∧
        ∃ hist', (manager fibonacciWorker 1).Reaches s.atomic hist' ∧ hist = hist' ++ s.ahead := by
  have run := Machine.reaches_exec
    (M := ringManager fibonacciWorker (2 ^ (5 + 1)) (2 ^ (5 + 1)) 1)
    (s := ⟨1, fun _ => newWorker (Nat.two_pow_pos _) (Nat.two_pow_pos _) ⟨0, ⟨0, 0⟩, 0⟩
      ⟨0, ⟨0, 0⟩, ⟨0, false⟩, true⟩, false, 0, 0, fun _ => none, none, .idle⟩)
    [.dispatch true (some 5), .push, .push, .push, .enqueue, .thread 0 true, .thread 0 true,
      .thread 0 true, .thread 0 true, .dispatch true (some 6), .thread 0 true, .push]
    ⟨rfl, fun _ => ⟨⟨rfl, rfl, rfl, rfl⟩, ⟨rfl, rfl, rfl, rfl⟩, rfl, rfl, rfl, rfl, rfl, rfl, rfl,
      rfl⟩, rfl, rfl, rfl, fun _ => rfl, rfl, rfl⟩ rfl
  exact ⟨_, _, run, rfl, ringManager_refines rfl rfl run⟩

end Sim
end CapyJs.Worker
