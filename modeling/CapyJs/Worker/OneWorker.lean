import CapyJs.Worker.Moves

/-!
# The steps of a manager as one worker sees them

Every step of the manager moves at most one worker. `WorkerStep` says once what can
happen to that worker and which events it leaves behind; what is proved about it
holds for each worker of a manager.
-/
namespace CapyJs.Worker
open Transition

variable {I J P : Type*} {K : WorkerKind I J P} {n : ℕ}

/-- A worker, with the frame of `on_result_ready` when that is running for it. -/
structure View (J P : Type*) where
  state : WorkerState J P
  ready : Option (Ready P)

def readyOf (w : ℕ) : Option (ℕ × Ready P) → Option (Ready P)
  | some (w', f) => if w' = w then some f else none
  | none => none

def State.view (s : State J P) (w : ℕ) : View J P := ⟨s.workers w, readyOf w s.ready⟩

/-- The events of one worker in a history. -/
def own (w : ℕ) (hist : List (Output J P)) : List (Event J P) :=
  hist.filterMap fun
    | .worker w' e => if w' = w then some e else none
    | _ => none

@[simp] theorem own_nil (w : ℕ) : own w ([] : List (Output J P)) = [] := rfl

@[simp] theorem own_append (w : ℕ) (hist out : List (Output J P)) :
    own w (hist ++ out) = own w hist ++ own w out := List.filterMap_append

@[simp] theorem own_threw (w : ℕ) (e : Exception) (out : List (Output J P)) :
    own w (.threw e :: out) = own w out := rfl

@[simp] theorem own_returned (w : ℕ) (jobId : UInt64) (out : List (Output J P)) :
    own w (.returned jobId :: out) = own w out := rfl

@[simp] theorem own_map_self (w : ℕ) (es : List (Event J P)) : own w (es.map (.worker w)) = es := by
  simp [own, List.filterMap_map]

theorem own_map_of_ne {w w' : ℕ} (h : w' ≠ w) (es : List (Event J P)) :
    own w (es.map (.worker w')) = [] := by
  simp [own, List.filterMap_map, h]

/-- A step of worker `w` of `n`. -/
inductive WorkerStep (K : WorkerKind I J P) (n w : ℕ) :
    View J P → List (Event J P) → View J P → Prop
  | unmoved (v : View J P) : WorkerStep K n w v [] v
  | refuse (wk : WorkerState J P) (ready : Option (Ready P)) :
      WorkerStep K n w ⟨wk, ready⟩ [.duplicated ⟨w, wk.refs⟩] ⟨{ wk with refs := wk.refs + 1 }, ready⟩
  | accept {wk : WorkerState J P} (ready : Option (Ready P)) (item : Item J) (hw : w < n)
      (hopen : wk.closed = false) (hroom : wk.sub.length < K.queueDepth - 1)
      (href : item.ref = ⟨w, wk.refs⟩) :
      WorkerStep K n w ⟨wk, ready⟩ [.duplicated item.ref, .accepted item]
        ⟨{ wk with refs := wk.refs + 1, sub := wk.sub ++ [item] }, ready⟩
  | enqueued (wk : WorkerState J P) (ready : Option (Ready P)) :
      WorkerStep K n w ⟨wk, ready⟩ [] ⟨{ wk with
        sem := wk.sem + 1
        inFlight := wk.inFlight + 1
        refd := wk.refd || wk.inFlight == 0 }, ready⟩
  | thread {wk wk' : WorkerState J P} (ready : Option (Ready P)) {loaded : Bool}
      (h : wk.threadStep K loaded = some wk') : WorkerStep K n w ⟨wk, ready⟩ [] ⟨wk', ready⟩
  | answer {wk : WorkerState J P} (hbell : wk.bell = true) (hopen : wk.closed = false) :
      WorkerStep K n w ⟨wk, none⟩ [] ⟨{ wk with bell := false }, some .popping⟩
  | popNone {wk : WorkerState J P} (h : wk.results = []) :
      WorkerStep K n w ⟨wk, some .popping⟩ [] ⟨wk, none⟩
  | pop {wk : WorkerState J P} {r : Result P} {rs : List (Result P)} (h : wk.results = r :: rs) :
      WorkerStep K n w ⟨wk, some .popping⟩ [.called r]
        ⟨{ wk with results := rs }, some (.calling r)⟩
  | release {wk : WorkerState J P} {r : Result P} (h : r.isDone = true) :
      WorkerStep K n w ⟨wk, some (.calling r)⟩ [.released r.ref .onResult]
        ⟨{ wk with
          inFlight := wk.inFlight - 1
          refd := wk.refd && wk.inFlight != 1 }, some .popping⟩
  | keep {wk : WorkerState J P} {r : Result P} (h : r.isDone = false) :
      WorkerStep K n w ⟨wk, some (.calling r)⟩ [] ⟨wk, some .popping⟩
  | storeStopped (wk : WorkerState J P) (ready : Option (Ready P)) :
      WorkerStep K n w ⟨wk, ready⟩ [] ⟨{ wk with stopped := true }, ready⟩
  | postStopped (wk : WorkerState J P) (ready : Option (Ready P)) :
      WorkerStep K n w ⟨wk, ready⟩ [] ⟨{ wk with sem := wk.sem + 1 }, ready⟩
  | join {wk : WorkerState J P} (ready : Option (Ready P)) (hexit : wk.thread = .exited)
      (hopen : wk.closed = false) :
      WorkerStep K n w ⟨wk, ready⟩ (wk.drain K)
        ⟨{ wk with sub := [], results := [], closed := true }, ready⟩

/-! ## Steps that can be taken -/

/-- A dispatch from JS code to a worker with room, from the call to its return. -/
theorem exists_dispatch (n : ℕ) {s : State J P} {input : I} {job : J} (hjs : s.inJs = true)
    (hopen : s.cleared = false) (hsize : s.size ≠ 0) (hjob : K.toJob input = .ok job) {w : ℕ}
    (hw : s.nextWorkerIdx.toNat % s.size = w)
    (hroom : (s.workers w).sub.length < K.queueDepth - 1) :
    ∃ s₁ s₂ wk item,
      (manager K n).step s (.dispatch true input) =
        some (s₁, [.worker w (.duplicated item.ref), .worker w (.accepted item)]) ∧
      (manager K n).step s₁ .enqueue = some (s₂, [.returned item.jobId]) ∧ s₂.size = s.size ∧
      s₂.cleared = false ∧ s₂.call = .idle ∧ s₂.ready = s.ready ∧
      s₂.nextWorkerIdx = s.nextWorkerIdx + 1 ∧ s₂.workers = Function.update s.workers w wk ∧
      wk.sub = (s.workers w).sub ++ [item] ∧ wk.thread = (s.workers w).thread := by
  let item : Item J := ⟨s.nextJobId, ⟨w, (s.workers w).refs⟩, job⟩
  let wk : WorkerState J P := { s.workers w with
    refs := (s.workers w).refs + 1
    sub := (s.workers w).sub ++ [item] }
  let s₁ : State J P := { s.picked.setWorker w wk with call := .enqueue w item.jobId }
  have hwk : s₁.workers w = wk := StateOver.workers_setWorker_self ..
  refine ⟨s₁, s₁.enqueued w item.jobId, _, item, ?_, rfl, rfl, hopen, rfl, rfl, rfl,
    Function.update_idem .., ?_, ?_⟩
  · have hworkers : (s.cleared || s.size == 0) = false := by simp [hopen, hsize]
    simp only [manager, step, hjs, if_true, State.jsDispatch, Bool.not_true, Bool.false_eq_true, if_false,
      hworkers, hjob, hw, hroom]
    rfl
  · rw [hwk]
  · rw [hwk]

theorem step_thread {s : State J P} {w : ℕ} {loaded : Bool} {wk : WorkerState J P} (hw : w < s.size)
    (h : (s.workers w).threadStep K loaded = some wk) :
    (manager K n).step s (.thread w loaded) = some (s.setWorker w wk, []) := by
  simp [manager, step, hw, h]

/-! ## Which workers have been stopped -/

/-- The workers that `js_close` is done with are those below this number. -/
def State.stoppedCount (s : State J P) : ℕ :=
  match s.call with
  | .stop k _ => k
  | _ => if s.cleared then s.size else 0

structure Shape (n : ℕ) (s : State J P) : Prop where
  size : s.size = n
  closed_iff : ∀ w, (s.workers w).closed = true ↔ w < s.stoppedCount
  stopping : ∀ k pc, s.call = .stop k pc → k < s.size ∧ s.cleared = false
  flagged : ∀ k pc, s.call = .stop k pc → pc ≠ .store → (s.workers k).stopped = true

/-- A thread changes neither the stop flag nor what `stop()` has done. -/
theorem WorkerState.threadStep_flags {wk wk' : WorkerState J P} {loaded : Bool}
    (h : wk.threadStep K loaded = some wk') :
    wk'.closed = wk.closed ∧ wk'.stopped = wk.stopped ∧ wk'.refs = wk.refs := by
  unfold threadStep at h
  split at h <;> (try split at h) <;> first | cases h; done | (cases h; exact ⟨rfl, rfl, rfl⟩)

namespace Shape
variable {s : State J P}

theorem open_of_idle (h : Shape n s) (hcall : s.call = .idle) (hopen : s.cleared = false) (w : ℕ) :
    (s.workers w).closed = false := by
  have hclosed := h.closed_iff w
  simpa [State.stoppedCount, hcall, hopen] using hclosed

theorem closed_of_cleared (h : Shape n s) (hcleared : s.cleared = true) {w : ℕ} (hw : w < n) :
    (s.workers w).closed = true := by
  rw [h.closed_iff, State.stoppedCount]
  split
  · next k pc hcall =>
    rw [(h.stopping k pc hcall).2] at hcleared
    cases hcleared
  · rw [if_pos hcleared, h.size]
    exact hw

/-- Steps outside `js_close`, and those of threads during it. -/
theorem of_flags (h : Shape n s) {s' : State J P}
    (hflags : ∀ w, (s'.workers w).closed = (s.workers w).closed ∧
      (s'.workers w).stopped = (s.workers w).stopped)
    (hcount : s'.stoppedCount = s.stoppedCount) (hsize : s'.size = s.size)
    (hcleared : s'.cleared = s.cleared)
    (hcall : ∀ k pc, s'.call = .stop k pc → s.call = .stop k pc) : Shape n s' := by
  refine ⟨hsize.trans h.size, fun w => ?_, fun k pc hk => ?_, fun k pc hk hpc => ?_⟩
  · rw [(hflags w).1, hcount]
    exact h.closed_iff w
  · rw [hsize, hcleared]
    exact h.stopping k pc (hcall k pc hk)
  · rw [(hflags k).2]
    exact h.flagged k pc (hcall k pc hk) hpc

theorem inStop {k : ℕ} {pc : Stop} (hsize : s.size = n) (hcall : s.call = .stop k pc)
    (hclosed : ∀ w, (s.workers w).closed = true ↔ w < k) (hk : k < s.size)
    (hopen : s.cleared = false) (hflag : pc ≠ .store → (s.workers k).stopped = true) :
    Shape n s := by
  refine ⟨hsize, fun w => ?_, fun k' pc' hk' => ?_, fun k' pc' hk' hpc => ?_⟩
  · rw [hclosed w, State.stoppedCount, hcall]
  · rw [hcall] at hk'
    cases hk'
    exact ⟨hk, hopen⟩
  · rw [hcall] at hk'
    cases hk'
    exact hflag hpc

/-- `js_close` goes on with worker `k` when it is done with those below. -/
theorem stopFrom {k : ℕ} (hsize : s.size = n) (hclosed : ∀ w, (s.workers w).closed = true ↔ w < k)
    (hk : k ≤ s.size) (hopen : s.cleared = false) : Shape n (s.stopFrom k) := by
  unfold StateOver.stopFrom
  by_cases hlt : k < s.size
  · rw [if_pos hlt]
    exact inStop hsize rfl hclosed hlt hopen fun h => absurd rfl h
  · rw [if_neg hlt]
    obtain rfl : k = s.size := by omega
    refine ⟨hsize, hclosed, fun k pc hk => ?_, fun k pc hk => ?_⟩
    · cases hk
    · cases hk

theorem update_flags {w : ℕ} (wk : WorkerState J P) (hclosed : wk.closed = (s.workers w).closed)
    (hstopped : wk.stopped = (s.workers w).stopped) (w' : ℕ) :
    (Function.update s.workers w wk w').closed = (s.workers w').closed ∧
      (Function.update s.workers w wk w').stopped = (s.workers w').stopped := by
  by_cases hw : w' = w
  · subst hw
    simp [hclosed, hstopped]
  · simp [Function.update_of_ne hw]

theorem dispatched (h : Shape n s) (hcall : s.call = .idle) {input : I} {s' : State J P}
    {out : List (Output J P)} (hd : Dispatched K s input s' out) : Shape n s' := by
  cases hd with
  | threw => exact h
  | refused => exact h.of_flags (update_flags _ rfl rfl) rfl rfl rfl fun _ _ hk => hk
  | accepted w job =>
    refine h.of_flags (update_flags _ rfl rfl) ?_ rfl rfl fun k pc hk => ?_
    · simp only [State.stoppedCount, hcall]
      rfl
    · cases hk

/-- The workers below the one that `js_close` has come to are closed. -/
theorem closed_iff_lt (h : Shape n s) {k : ℕ} {pc : Stop} (hcall : s.call = .stop k pc) (w : ℕ) :
    (s.workers w).closed = true ↔ w < k := by
  have hclosed := h.closed_iff w
  rwa [State.stoppedCount, hcall] at hclosed

theorem store (h : Shape n s) {k : ℕ} (hcall : s.call = .stop k .store) :
    Shape n { s.setWorker k { s.workers k with stopped := true } with call := .stop k .post } := by
  obtain ⟨hk, hopen⟩ := h.stopping k .store hcall
  refine inStop h.size rfl (fun w => ?_) hk hopen fun _ => by simp [StateOver.setWorker]
  have hclosed := h.closed_iff_lt hcall w
  by_cases hw : w = k
  · subst hw
    simpa [StateOver.setWorker] using hclosed
  · simpa [StateOver.setWorker, hw] using hclosed

theorem post (h : Shape n s) {k : ℕ} (hcall : s.call = .stop k .post) :
    Shape n { s.setWorker k { s.workers k with sem := (s.workers k).sem + 1 } with
      call := .stop k .join } := by
  obtain ⟨hk, hopen⟩ := h.stopping k .post hcall
  have hflags := update_flags { s.workers k with sem := (s.workers k).sem + 1 } rfl rfl
  refine inStop h.size rfl (fun w => ?_) hk hopen fun _ => ?_
  · rw [← h.closed_iff_lt hcall w, ← (hflags w).1]
    rfl
  · rw [← h.flagged k .post hcall (by simp), ← (hflags k).2]
    rfl

theorem join (h : Shape n s) {k : ℕ} (hcall : s.call = .stop k .join) :
    Shape n ((s.setWorker k { s.workers k with
      sub := [], results := [], closed := true }).stopFrom (k + 1)) := by
  obtain ⟨hk, hopen⟩ := h.stopping k .join hcall
  refine stopFrom h.size (fun w => ?_) hk hopen
  by_cases hw : w = k
  · subst hw
    simp [StateOver.setWorker]
  · simp only [StateOver.setWorker, Function.update_of_ne hw, h.closed_iff_lt hcall w]
    omega

theorem step (h : Shape n s) {a : Label I} {s' : State J P} {out : List (Output J P)}
    (hstep : step K s a = some (s', out)) : Shape n s' := by
  cases moves_of_step hstep with
  | dispatch hjs hd => exact h.dispatched (StateOver.call_of_inJs hjs) hd
  | enqueue hcall =>
    refine h.of_flags (update_flags _ rfl rfl) ?_ rfl rfl fun k pc hk => ?_
    · simp only [State.stoppedCount, hcall]
      rfl
    · cases hk
  | closeAgain => exact h
  | close hjs hopen =>
    refine stopFrom h.size (fun w => ?_) (Nat.zero_le _) hopen
    simp [h.open_of_idle (StateOver.call_of_inJs hjs) hopen w]
  | store hcall => exact h.store hcall
  | post hcall => exact h.post hcall
  | join hcall => exact h.join hcall
  | ready | pop | release =>
    exact h.of_flags (update_flags _ rfl rfl) rfl rfl rfl fun _ _ hk => hk
  | popNone | keep => exact h.of_flags (fun _ => ⟨rfl, rfl⟩) rfl rfl rfl fun _ _ hk => hk
  | thread hw hthread =>
    obtain ⟨hclosed, hstopped, -⟩ := WorkerState.threadStep_flags hthread
    exact h.of_flags (update_flags _ hclosed hstopped) rfl rfl rfl fun _ _ hk => hk

theorem reaches {hist : List (Output J P)} (run : (manager K n).Reaches s hist) :
    Shape n s := by
  apply run.invariant (I := fun _ s => Shape n s)
  · rintro _ rfl
    refine ⟨rfl, fun w => ?_, fun k pc hk => ?_, fun k pc hk => ?_⟩
    · simp [State.initial, WorkerState.initial, State.stoppedCount]
    · cases hk
    · cases hk
  · intro hist s a s' out h hstep
    exact h.step hstep

end Shape

/-! ## Steps of the manager are steps of each worker -/

section
variable {s s' : State J P} {out : List (Output J P)}

theorem State.view_eq_of_ne {w w₀ : ℕ} {wk : WorkerState J P} (h : w ≠ w₀)
    (hworkers : s'.workers = Function.update s.workers w₀ wk)
    (hready : readyOf w s'.ready = readyOf w s.ready) : s'.view w = s.view w := by
  rw [State.view, hworkers, hready, Function.update_of_ne h]
  rfl

theorem readyOf_self (w : ℕ) (f : Ready P) : readyOf w (some (w, f)) = some f := if_pos rfl

theorem readyOf_of_ne {w w' : ℕ} (h : w' ≠ w) (f : Ready P) : readyOf w (some (w', f)) = none :=
  if_neg h

theorem exists_of_readyOf {w : ℕ} {ready : Option (ℕ × Ready P)}
    (h : (readyOf w ready).isSome = true) : ∃ f, ready = some (w, f) := by
  match ready with
  | none => cases h
  | some (w', f) =>
    by_cases hw : w' = w
    · exact ⟨f, by rw [hw]⟩
    · rw [readyOf_of_ne hw] at h
      cases h

/-- A step that moves one worker. -/
theorem WorkerStep.of_moved (w : ℕ) {w₀ : ℕ} {es : List (Event J P)} {wk : WorkerState J P}
    {ready ready' : Option (Ready P)}
    (hstep : WorkerStep K n w₀ ⟨s.workers w₀, ready⟩ es ⟨wk, ready'⟩)
    (hworkers : s'.workers = Function.update s.workers w₀ wk)
    (hready : readyOf w₀ s.ready = ready) (hready' : readyOf w₀ s'.ready = ready')
    (hothers : ∀ w, w ≠ w₀ → readyOf w s'.ready = readyOf w s.ready)
    (hout : ∀ w, own w out = own w (es.map (.worker w₀))) :
    WorkerStep K n w (s.view w) (own w out) (s'.view w) := by
  by_cases hw : w = w₀
  · subst hw
    rw [hout, own_map_self, State.view, State.view, hready, hready', hworkers,
      Function.update_self]
    exact hstep
  · rw [hout, own_map_of_ne (Ne.symm hw), State.view_eq_of_ne hw hworkers (hothers w hw)]
    exact .unmoved _

end

theorem Dispatched.view {s s' : State J P} {input : I} {out : List (Output J P)} (h : Shape n s)
    (hcall : s.call = .idle) (hd : Dispatched K s input s' out) (w : ℕ) :
    WorkerStep K n w (s.view w) (own w out) (s'.view w) := by
  cases hd with
  | threw => exact .unmoved _
  | refused w₀ e =>
    exact WorkerStep.of_moved w (.refuse _ _) rfl rfl rfl (fun _ _ => rfl) fun _ => rfl
  | accepted w₀ job hjob hw hopen hroom =>
    exact WorkerStep.of_moved w (.accept _ _ (h.size ▸ hw) (h.open_of_idle hcall hopen w₀) hroom rfl)
      rfl rfl rfl (fun _ _ => rfl) fun _ => rfl

/-- Inside `on_result_ready` of worker `w₀`, no other worker has a frame of it. -/
theorem readyOf_others {s : State J P} {w₀ : ℕ} {f : Ready P} (hready : s.ready = some (w₀, f))
    (f' : Ready P) (w : ℕ) (hw : w ≠ w₀) :
    readyOf w (some (w₀, f')) = readyOf w s.ready := by
  rw [hready, readyOf_of_ne (Ne.symm hw), readyOf_of_ne (Ne.symm hw)]

/-- Whoever moves, each worker sees one of its own steps. -/
theorem Shape.view {s s' : State J P} {a : Label I} {out : List (Output J P)} (h : Shape n s)
    (hstep : Worker.step K s a = some (s', out)) (w : ℕ) :
    WorkerStep K n w (s.view w) (own w out) (s'.view w) := by
  cases moves_of_step hstep with
  | dispatch hjs hd => exact hd.view h (StateOver.call_of_inJs hjs) w
  | enqueue =>
    exact WorkerStep.of_moved w (.enqueued _ _) rfl rfl rfl (fun _ _ => rfl) fun _ => rfl
  | closeAgain => exact .unmoved _
  | close =>
    have hview : State.view (s.stopFrom 0) w = s.view w := by simp [State.view]
    rw [hview]
    exact .unmoved _
  | store =>
    exact WorkerStep.of_moved w (.storeStopped _ _) rfl rfl rfl (fun _ _ => rfl) fun _ => rfl
  | post =>
    exact WorkerStep.of_moved w (.postStopped _ _) rfl rfl rfl (fun _ _ => rfl) fun _ => rfl
  | @join k hcall hexit =>
    have hopen : (s.workers k).closed = false := by
      have hclosed := h.closed_iff_lt hcall k
      simpa using hclosed
    refine WorkerStep.of_moved w (.join (readyOf k s.ready) hexit hopen)
      (StateOver.workers_stopFrom _ _) rfl ?_ ?_ fun _ => rfl
    · rw [StateOver.ready_stopFrom]
      rfl
    · intro w _
      rw [StateOver.ready_stopFrom]
      rfl
  | @ready w₀ hcall hready hw hbell hopen =>
    refine WorkerStep.of_moved w (.answer hbell hopen) rfl ?_ (readyOf_self w₀ _) ?_ fun _ => rfl
    · rw [hready]; rfl
    · intro w hw
      rw [hready]
      exact readyOf_of_ne (Ne.symm hw) _
  | @popNone w₀ hcall hready hnone =>
    refine WorkerStep.of_moved w (.popNone hnone) (Function.update_eq_self w₀ s.workers).symm
      ?_ rfl ?_ fun _ => rfl
    · rw [hready, readyOf_self]
    · intro w hw
      rw [hready, readyOf_of_ne (Ne.symm hw)]
      rfl
  | @pop w₀ r rs hcall hready hsome =>
    refine WorkerStep.of_moved w (.pop hsome) rfl ?_ (readyOf_self w₀ _)
      (readyOf_others hready _) fun _ => rfl
    rw [hready, readyOf_self]
  | @release w₀ r hcall hready hdone =>
    refine WorkerStep.of_moved w (.release hdone) rfl ?_ (readyOf_self w₀ _)
      (readyOf_others hready _) fun _ => rfl
    rw [hready, readyOf_self]
  | @keep w₀ r hcall hready hdone =>
    refine WorkerStep.of_moved w (.keep hdone) (Function.update_eq_self w₀ s.workers).symm ?_
      (readyOf_self w₀ _) (readyOf_others hready _) fun _ => rfl
    rw [hready, readyOf_self]
  | thread hw hthread =>
    exact WorkerStep.of_moved w (.thread _ hthread) rfl rfl rfl (fun _ _ => rfl) fun _ => rfl

end CapyJs.Worker
