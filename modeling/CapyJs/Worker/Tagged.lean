import CapyJs.Worker.Callbacks

/-!
# Jobs with the argument they were made from

The same manager with jobs that remember what `js_dispatch` was called with. Nothing it does
depends on that, so its runs are those of the manager.
-/
namespace CapyJs.Worker
open Transition

variable {I J P : Type*} {K : WorkerKind I J P} {n w : ℕ}

def WorkerKind.tagged (K : WorkerKind I J P) : WorkerKind I (I × J) P where
  queueDepth := K.queueDepth
  resultQueueDepth := K.resultQueueDepth
  mayNotStart := K.mayNotStart
  noWorkers := K.noWorkers
  toJob input := (K.toJob input).map fun job => (input, job)
  compute job := K.compute job.2
  error := K.error
  drain := K.drain
  compute_final job := K.compute_final job.2
  drain_eq rs hcomplete hrs := K.drain_eq rs hcomplete fun r hr => by
    obtain ⟨job, hmem⟩ := hrs r hr
    exact ⟨job.2, hmem⟩

/-! ## Forgetting the arguments -/

def Item.untag (item : Item (I × J)) : Item J := ⟨item.jobId, item.ref, item.job.2⟩

def WorkerState.untag (wk : WorkerState (I × J) P) : WorkerState J P :=
  { wk with sub := wk.sub.map Item.untag }

def State.untag (s : State (I × J) P) : State J P :=
  { s with workers w := (s.workers w).untag }

def Event.untag : Event (I × J) P → Event J P
  | .duplicated ref => .duplicated ref
  | .accepted item => .accepted item.untag
  | .called r => .called r
  | .released ref place => .released ref place

def Output.untag : Output (I × J) P → Output J P
  | .returned jobId => .returned jobId
  | .threw e => .threw e
  | .worker w e => .worker w e.untag

theorem results_tagged (item : Item (I × J)) : K.tagged.results item = K.results item.untag := rfl

theorem untag_setWorker (s : State (I × J) P) (w : ℕ) (wk : WorkerState (I × J) P) :
    State.untag (s.setWorker w wk) = s.untag.setWorker w wk.untag := by
  simp only [State.untag, StateOver.setWorker, StateOver.mk.injEq, true_and, and_true]
  funext w'
  by_cases hw : w' = w
  · subst hw
    simp
  · simp [Function.update_of_ne hw]

theorem threadStep_untag (wk : WorkerState (I × J) P) (loaded : Bool) :
    (wk.threadStep K.tagged loaded).map WorkerState.untag = wk.untag.threadStep K loaded := by
  have hthread : wk.untag.thread = wk.thread := rfl
  cases hat : wk.thread with
  | popping =>
    simp only [WorkerState.threadStep, hthread, hat]
    cases hsub : wk.sub with
    | nil => simp [WorkerState.untag, hsub]
    | cons item sub => simp [WorkerState.untag, hsub, results_tagged]
  | waiting | pushing =>
    simp only [WorkerState.threadStep, hthread, hat, apply_ite (Option.map WorkerState.untag)]
    rfl
  | _ =>
    simp only [WorkerState.threadStep, hthread, hat]
    rfl

theorem jsDispatch_untag (s : State (I × J) P) (isFunction : Bool) (input : I) :
    Prod.map State.untag (List.map Output.untag) (s.jsDispatch K.tagged isFunction input) =
      s.untag.jsDispatch K isFunction input := by
  by_cases hfunction : isFunction = true
  · by_cases hnone : (s.cleared || s.size == 0) = true
    · have huntag : (s.untag.cleared || s.untag.size == 0) = true := hnone
      simp only [State.jsDispatch, hfunction, hnone, huntag, Bool.not_true, Bool.false_eq_true,
        if_false, if_true]
      rfl
    · have huntag : ¬(s.untag.cleared || s.untag.size == 0) = true := hnone
      simp only [State.jsDispatch, hfunction, hnone, huntag, Bool.not_true, Bool.false_eq_true,
        if_false]
      cases hjob : K.toJob input with
      | error e =>
        have htagged : K.tagged.toJob input = .error e := by
          simp [WorkerKind.tagged, hjob, Except.map]
        rw [htagged]
        rfl
      | ok job =>
        have htagged : K.tagged.toJob input = .ok (input, job) := by
          simp [WorkerKind.tagged, hjob, Except.map]
        rw [htagged]
        generalize hw : s.nextWorkerIdx.toNat % s.size = w
        have huntagged : s.untag.nextWorkerIdx.toNat % s.untag.size = w := hw
        have hlength : (s.untag.workers w).sub.length = (s.workers w).sub.length :=
          List.length_map ..
        have haccept : WorkerState.untag { s.workers w with
            refs := (s.workers w).refs + 1
            sub := (s.workers w).sub ++
              [⟨s.nextJobId, ⟨w, (s.workers w).refs⟩, (input, job)⟩] } =
            { s.untag.workers w with
              refs := (s.workers w).refs + 1
              sub := (s.untag.workers w).sub ++
                [⟨s.nextJobId, ⟨w, (s.workers w).refs⟩, job⟩] } := by
          simp [WorkerState.untag, State.untag, Item.untag]
        simp only [huntagged, hlength]
        by_cases hroom : (s.workers w).sub.length < K.queueDepth - 1
        · have hroom' : (s.workers w).sub.length < K.tagged.queueDepth - 1 := hroom
          rw [if_pos hroom, if_pos hroom']
          have hset := (untag_setWorker s.picked w _).trans
            (congrArg (s.picked.untag.setWorker w) haccept)
          refine Prod.ext ?_ rfl
          exact congrArg (fun t : State J P => { t with call := .enqueue w s.nextJobId }) hset
        · have hroom' : ¬(s.workers w).sub.length < K.tagged.queueDepth - 1 := hroom
          rw [if_neg hroom, if_neg hroom']
          exact Prod.ext (untag_setWorker ..) rfl
  · simp [State.jsDispatch, hfunction]
    rfl

theorem untag_stopFrom (s : State (I × J) P) (k : ℕ) :
    State.untag (s.stopFrom k) = s.untag.stopFrom k := by
  have hsize : s.untag.size = s.size := rfl
  rw [StateOver.stopFrom, StateOver.stopFrom, hsize]
  split_ifs <;> rfl

theorem stopStep_untag (s : State (I × J) P) (k : ℕ) (pc : Stop) :
    (s.stopStep K.tagged k pc).map (Prod.map State.untag (List.map Output.untag)) =
      s.untag.stopStep K k pc := by
  cases pc with
  | store =>
    simp only [State.stopStep, StateOver.stopStep, Option.map_some, Option.some.injEq]
    refine Prod.ext ?_ rfl
    exact congrArg (fun t : State J P => { t with call := .stop k .post }) (untag_setWorker s k _)
  | post =>
    simp only [State.stopStep, StateOver.stopStep, Option.map_some, Option.some.injEq]
    refine Prod.ext ?_ rfl
    exact congrArg (fun t : State J P => { t with call := .stop k .join }) (untag_setWorker s k _)
  | join =>
    have hthread : (s.untag.workers k).thread = (s.workers k).thread := rfl
    cases hat : (s.workers k).thread with
    | exited =>
      simp only [State.stopStep, StateOver.stopStep, hthread, hat, Option.map_some,
        Option.some.injEq]
      refine Prod.ext ?_ ?_
      · rw [Prod.map_fst, untag_stopFrom, untag_setWorker]
        rfl
      · simp only [Prod.map_snd, WorkerState.drain, State.untag, WorkerState.untag, List.map_append,
          List.map_map]
        rfl
    | _ =>
      simp only [State.stopStep, StateOver.stopStep, hthread, hat]
      rfl

theorem popResult_untag (s : State (I × J) P) (w : ℕ) :
    Prod.map State.untag (List.map Output.untag) (s.popResult K.tagged w) =
      s.untag.popResult K w := by
  have hresults : (s.untag.workers w).results = (s.workers w).results := rfl
  unfold State.popResult
  rw [hresults]
  cases (s.workers w).results with
  | nil => rfl
  | cons r results =>
    refine Prod.ext ?_ rfl
    exact congrArg (fun t : State J P =>
      { t with
        ready := some (w, .calling r)
        jobStatus := Function.update s.jobStatus r.jobId
          (some (if K.error r.payload then .error else .done)) })
      (untag_setWorker s w _)

theorem callbackReturned_untag (s : State (I × J) P) (w : ℕ) (r : Result P) :
    Prod.map State.untag (List.map Output.untag) (s.callbackReturned (J := I × J) w r) =
      s.untag.callbackReturned (J := J) w r := by
  unfold StateOver.callbackReturned
  split_ifs
  · refine Prod.ext ?_ rfl
    exact congrArg (fun t : State J P => { t with ready := some (w, .popping) })
      (untag_setWorker s w _)
  · rfl

theorem step_untag (s : State (I × J) P) (a : Label I) :
    ((manager K.tagged n).step s a).map (Prod.map State.untag (List.map Output.untag)) =
      (manager K n).step s.untag a := by
  have hcall : s.untag.call = s.call := rfl
  have hready : s.untag.ready = s.ready := rfl
  cases a with
  | dispatch isFunction input =>
    have hjs : s.untag.inJs = s.inJs := rfl
    simp only [manager, Worker.step, hjs, ← jsDispatch_untag]
    split_ifs <;> rfl
  | enqueue =>
    simp only [manager, Worker.step, hcall]
    cases s.call with
    | enqueue w jobId =>
      refine congrArg some (Prod.ext ?_ rfl)
      exact congrArg (fun t : State J P =>
        { t with jobStatus := Function.update s.jobStatus jobId (some .pending), call := .idle })
        (untag_setWorker s w _)
    | _ => rfl
  | close =>
    have hjs : s.untag.inJs = s.inJs := rfl
    simp only [manager, Worker.step, hjs]
    split_ifs
    · refine congrArg some (Prod.ext ?_ rfl)
      have hcleared : s.untag.cleared = s.cleared := rfl
      simp only [Prod.map_fst, StateOver.jsClose, hcleared, apply_ite State.untag, untag_stopFrom]
    · rfl
  | stop =>
    simp only [manager, Worker.step, hcall]
    cases s.call with
    | stop k pc => exact stopStep_untag s k pc
    | _ => rfl
  | ready w =>
    have hrung : (w < s.untag.size ∧ (s.untag.workers w).bell = true ∧
        (s.untag.workers w).closed = false) ↔
        (w < s.size ∧ (s.workers w).bell = true ∧ (s.workers w).closed = false) := Iff.rfl
    simp only [manager, Worker.step, hcall, hready, hrung]
    cases s.call with
    | idle =>
      cases s.ready with
      | none =>
        simp only
        split_ifs
        · refine congrArg some (Prod.ext ?_ rfl)
          exact congrArg (fun t : State J P => { t with ready := some (w, .popping) })
            (untag_setWorker s w _)
        · rfl
      | some frame => rfl
    | _ => rfl
  | pop =>
    simp only [manager, Worker.step, hcall, hready]
    cases s.call with
    | idle =>
      rcases s.ready with _ | ⟨w, _ | r⟩
      · rfl
      · exact congrArg some (popResult_untag s w)
      · rfl
    | _ => rfl
  | callbackReturns =>
    simp only [manager, Worker.step, hcall, hready]
    cases s.call with
    | idle =>
      rcases s.ready with _ | ⟨w, _ | r⟩
      · rfl
      · rfl
      · exact congrArg some (callbackReturned_untag s w r)
    | _ => rfl
  | thread w loaded =>
    have hsize : s.untag.size = s.size := rfl
    have hworker : s.untag.workers w = (s.workers w).untag := rfl
    simp only [manager, Worker.step, hsize, hworker, ← threadStep_untag]
    split_ifs
    · cases (s.workers w).threadStep K.tagged loaded with
      | none => rfl
      | some wk => exact congrArg some (Prod.ext (untag_setWorker s w wk) rfl)
    · rfl

/-- Every run of the manager is one of the manager with arguments, without them. -/
theorem exists_tagged {s : State J P} {hist : List (Output J P)}
    (run : (manager K n).Reaches s hist) : ∃ s' hist',
      (manager K.tagged n).Reaches s' hist' ∧ s'.untag = s ∧ hist'.map Output.untag = hist := by
  apply run.exists_project State.untag (List.map Output.untag)
  · simp
  · rfl
  · rintro s rfl
    exact ⟨.initial n, rfl, rfl⟩
  · exact step_untag

/-! ## What the arguments are -/

theorem mem_acceptedItems_own {item : Item J} {hist : List (Output J P)} :
    item ∈ acceptedItems (own w hist) ↔ .worker w (.accepted item) ∈ hist := by
  rw [← mem_own, acceptedItems, List.mem_filterMap]
  constructor
  · rintro ⟨e, he, heq⟩
    cases e with
    | accepted item' => exact Option.some.inj heq ▸ he
    | _ => cases heq
  · intro h
    exact ⟨_, h, rfl⟩

/-- An item is accepted by a dispatch only. -/
theorem toJob_of_accepted {s s' : State J P} {a : Label I} {out : List (Output J P)}
    (hstep : Worker.step K s a = some (s', out)) {item : Item J}
    (hitem : .worker w (.accepted item) ∈ out) : ∃ input, K.toJob input = .ok item.job := by
  cases moves_of_step hstep with
  | @dispatch _ input _ _ hjs hd =>
    cases hd with
    | threw | refused => simp at hitem
    | accepted w₀ job hjob =>
      simp only [List.mem_cons, Output.worker.injEq, reduceCtorEq, and_false,
        Event.accepted.injEq, List.not_mem_nil, or_false, false_or] at hitem
      rw [hitem.2]
      exact ⟨input, hjob⟩
  | join => simp [WorkerState.drain] at hitem
  | _ => simp at hitem

/-- Each job was made from its argument. -/
theorem toJob_of_reaches {s : State (I × J) P} {hist : List (Output (I × J) P)}
    (run : (manager K.tagged n).Reaches s hist) {item : Item (I × J)}
    (hitem : .worker w (.accepted item) ∈ hist) : K.toJob item.job.1 = .ok item.job.2 := by
  induction run with
  | start => cases hitem
  | next run hstep ih =>
    rcases List.mem_append.mp hitem with hold | hnew
    · exact ih hold
    · obtain ⟨input, hjob⟩ := toJob_of_accepted hstep hnew
      rw [WorkerKind.tagged] at hjob
      cases hplain : K.toJob input with
      | error e => simp [hplain, Except.map] at hjob
      | ok job =>
        simp only [hplain, Except.map, Except.ok.injEq] at hjob
        rw [← hjob, hplain]

end CapyJs.Worker
