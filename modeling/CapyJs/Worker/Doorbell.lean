import CapyJs.Worker.Callbacks
import CapyJs.Worker.Shutdown

/-!
# What the doorbell keeps the event loop alive for

`in_flight_` counts the jobs of a worker whose final result has not been dealt with.
`enqueue` counts a job after it has pushed it, and a callback can do so while the result
that it was called with is still counted; a final result is counted off when its callback
has returned. The doorbell is referenced and unreferenced where the counter leaves and
meets zero.
-/
namespace CapyJs.Worker
open Transition

variable {I J P : Type*} {K : WorkerKind I J P} {n w : ℕ}

/-- The jobs of a worker that `enqueue` has pushed and not counted. -/
def Call.uncounted {Q : Type*} (w : ℕ) : Call Q → ℕ
  | .enqueue w' _ => if w' = w then 1 else 0
  | _ => 0

def WorkerState.doorbell (wk : WorkerState J P) : ℤ × Bool := (wk.inFlight, wk.refd)

structure Owed (w : ℕ) (hist : List (Output J P)) (s : State J P) : Prop where
  count : (s.workers w).inFlight + s.call.uncounted w +
    (releasedAt .onResult (own w hist)).length = (acceptedItems (own w hist)).length
  nonneg : 0 ≤ (s.workers w).inFlight
  refd_iff : (s.workers w).refd = true ↔ 0 < (s.workers w).inFlight

theorem doorbell_update (workers : ℕ → WorkerState J P) (w₀ : ℕ) (wk : WorkerState J P)
    (h : wk.doorbell = (workers w₀).doorbell) (w : ℕ) :
    (Function.update workers w₀ wk w).doorbell = (workers w).doorbell := by
  by_cases hw : w = w₀
  · subst hw
    rw [Function.update_self, h]
  · rw [Function.update_of_ne hw]

theorem WorkerState.doorbell_threadStep {wk wk' : WorkerState J P} {loaded : Bool}
    (h : wk.threadStep K loaded = some wk') : wk'.doorbell = wk.doorbell := by
  unfold threadStep at h
  split at h
  · cases h; rfl
  · split_ifs at h; cases h; rfl
  · cases h; rfl
  · split at h <;> cases h <;> rfl
  · split_ifs at h; cases h; rfl
  · cases h; rfl
  · cases h

namespace Owed
variable {hist out : List (Output J P)} {s s' : State J P}

theorem moved (h : Owed w hist s)
    (hcount : (s'.workers w).inFlight + s'.call.uncounted w +
        (releasedAt .onResult (own w out)).length =
      (s.workers w).inFlight + s.call.uncounted w + (acceptedItems (own w out)).length)
    (hnonneg : 0 ≤ (s'.workers w).inFlight)
    (hrefd : (s'.workers w).refd = true ↔ 0 < (s'.workers w).inFlight) :
    Owed w (hist ++ out) s' where
  count := by
    have hbefore := h.count
    simp only [own_append, acceptedItems_append, releasedAt_append, List.length_append]
    omega
  nonneg := hnonneg
  refd_iff := hrefd

/-- Steps that neither accept a job nor deal with a final result. -/
theorem still (h : Owed w hist s) (hbell : (s'.workers w).doorbell = (s.workers w).doorbell)
    (hcall : s'.call.uncounted w = s.call.uncounted w)
    (haccepted : acceptedItems (own w out) = [])
    (hreleased : releasedAt .onResult (own w out) = []) : Owed w (hist ++ out) s' := by
  obtain ⟨hinFlight, hrefd⟩ := Prod.mk.inj hbell
  apply h.moved
  · rw [haccepted, hreleased, hinFlight, hcall]
    rfl
  · rw [hinFlight]
    exact h.nonneg
  · rw [hinFlight, hrefd]
    exact h.refd_iff

theorem dispatched (h : Owed w hist s) (hcall : s.call = .idle) {input : I}
    (hd : Dispatched K s input s' out) : Owed w (hist ++ out) s' := by
  cases hd with
  | threw e => exact h.still rfl rfl rfl rfl
  | refused w₀ e =>
    refine h.still ?_ rfl ?_ ?_
    · apply doorbell_update
      rfl
    · by_cases hw : w₀ = w <;> simp [own, acceptedItems, hw]
    · by_cases hw : w₀ = w <;> simp [own, releasedAt, hw]
  | accepted w₀ job =>
    have hbell := doorbell_update s.workers w₀ { s.workers w₀ with
        refs := (s.workers w₀).refs + 1
        sub := (s.workers w₀).sub ++ [⟨s.nextJobId, ⟨w₀, (s.workers w₀).refs⟩, job⟩] } rfl w
    by_cases hw : w₀ = w
    · subst hw
      obtain ⟨hinFlight, hrefd⟩ := Prod.mk.inj hbell
      refine h.moved ?_ (hinFlight ▸ h.nonneg) (hinFlight ▸ hrefd ▸ h.refd_iff)
      simp [hcall, Call.uncounted, StateOver.setWorker, own, acceptedItems, releasedAt]
    · apply h.still hbell
      · simp [Call.uncounted, hcall, hw]
      · simp [own, acceptedItems, hw]
      · simp [own, releasedAt, hw]

theorem enqueued (h : Owed w hist s) {w₀ : ℕ} {jobId : UInt64}
    (hcall : s.call = .enqueue w₀ jobId) :
    Owed w (hist ++ [.returned jobId]) (s.enqueued w₀ jobId) := by
  by_cases hw : w₀ = w
  · subst hw
    have hnonneg := h.nonneg
    have hrefd := h.refd_iff
    apply h.moved
    · simp [hcall, Call.uncounted, StateOver.enqueued, acceptedItems, releasedAt]
    · simp only [StateOver.enqueued, StateOver.workers_setWorker_self]
      omega
    · simp only [StateOver.enqueued, StateOver.workers_setWorker_self, Bool.or_eq_true, beq_iff_eq,
        hrefd]
      omega
  · apply h.still
    · simp [StateOver.enqueued, StateOver.workers_setWorker_of_ne (Ne.symm hw)]
    · simp [StateOver.enqueued, Call.uncounted, hcall, hw]
    · rfl
    · rfl

/-- What `stop()` frees is neither accepted nor dealt with by `on_result`. -/
theorem own_drain (K : WorkerKind I J P) (k : ℕ) (wk : WorkerState J P) (w : ℕ) :
    acceptedItems (own w ((wk.drain K).map (.worker k))) = [] ∧
      releasedAt .onResult (own w ((wk.drain K).map (.worker k))) = [] := by
  by_cases hk : k = w
  · rw [hk, own_map_self]
    exact ⟨acceptedItems_drain _, (releasedAt_drain _).1⟩
  · rw [own_map_of_ne hk]
    exact ⟨rfl, rfl⟩

theorem uncounted_stopFrom (w k : ℕ) (s : State J P) : (s.stopFrom k).call.uncounted w = 0 := by
  rcases s.call_stopFrom k with hcall | ⟨hcall, -⟩ <;> rw [hcall] <;> rfl

/-- A result that is being dealt with belongs to an accepted job, so it is counted. -/
theorem released (h : Owed w hist s) {w₀ : ℕ} {r : Result P} (hcall : s.call = .idle)
    (hready : s.ready = some (w₀, .calling r)) (hdone : r.isDone = true)
    {taken left : List (Item J)} {rest : List (Result P)}
    (hledger : Ledger K n w (own w hist) (s.view w) taken left rest) :
    Owed w (hist ++ [.worker w₀ (.released r.ref .onResult)])
      { s.setWorker w₀ { s.workers w₀ with
          inFlight := (s.workers w₀).inFlight - 1
          refd := (s.workers w₀).refd && (s.workers w₀).inFlight != 1 } with
        ready := some (w₀, .popping) } := by
  by_cases hw : w₀ = w
  · subst hw
    have hdelivered := congrArg List.length hledger.delivered
    have hrefs := congrArg List.length hledger.refs_eq
    have hcount := h.count
    have hnonneg := h.nonneg
    have hrefd := h.refd_iff
    simp only [State.view, hready, readyOf_self, Ready.held, List.length_append, finals_cons, hdone,
      if_true, finals_nil, List.length_singleton] at hdelivered
    simp only [List.length_map, List.length_append] at hrefs
    simp only [hcall, Call.uncounted] at hcount
    have hpos : 1 ≤ (s.workers w₀).inFlight := by omega
    apply h.moved
    · simp [hcall, Call.uncounted, StateOver.setWorker, own, acceptedItems, releasedAt]
    · simp only [StateOver.workers_setWorker_self]
      omega
    · simp only [StateOver.workers_setWorker_self, Bool.and_eq_true, bne_iff_ne, hrefd]
      omega
  · apply h.still
    · simp [StateOver.workers_setWorker_of_ne (Ne.symm hw)]
    · rfl
    · simp [own, acceptedItems, hw]
    · simp [own, releasedAt, hw]

theorem step (h : Owed w hist s) {a : Label I} (hstep : Worker.step K s a = some (s', out))
    {taken left : List (Item J)} {rest : List (Result P)}
    (hledger : Ledger K n w (own w hist) (s.view w) taken left rest) :
    Owed w (hist ++ out) s' := by
  cases moves_of_step hstep with
  | dispatch hjs hd => exact h.dispatched (StateOver.call_of_inJs hjs) hd
  | enqueue hcall => exact h.enqueued hcall
  | closeAgain => exact h.still rfl rfl rfl rfl
  | close hjs =>
    refine h.still (by rw [StateOver.workers_stopFrom]) ?_ rfl rfl
    rw [uncounted_stopFrom, StateOver.call_of_inJs hjs]
    rfl
  | store hcall | post hcall =>
    refine h.still ?_ (by rw [hcall]; rfl) rfl rfl
    apply doorbell_update
    rfl
  | @join k hcall =>
    obtain ⟨haccepted, hreleased⟩ := own_drain K k (s.workers k) w
    refine h.still ?_ ?_ haccepted hreleased
    · rw [StateOver.workers_stopFrom]
      apply doorbell_update
      rfl
    · rw [uncounted_stopFrom, hcall]
      rfl
  | ready =>
    refine h.still ?_ rfl rfl rfl
    apply doorbell_update
    rfl
  | popNone | keep => exact h.still rfl rfl rfl rfl
  | @pop w₀ r results hcall hready =>
    refine h.still ?_ rfl ?_ ?_
    · apply doorbell_update
      rfl
    · by_cases hw : w₀ = w <;> simp [own, acceptedItems, hw]
    · by_cases hw : w₀ = w <;> simp [own, releasedAt, hw]
  | release hcall hready hdone => exact h.released hcall hready hdone hledger
  | thread hw hthread =>
    refine h.still ?_ rfl rfl rfl
    apply doorbell_update
    exact WorkerState.doorbell_threadStep hthread

end Owed

theorem reaches_owed {s : State J P} {hist : List (Output J P)}
    (run : (manager K n).Reaches s hist) (w : ℕ) : Owed w hist s := by
  induction run with
  | start h =>
    obtain rfl := h
    exact ⟨rfl, Int.le_refl 0, by simp [State.initial, WorkerState.initial]⟩
  | next run hstep ih =>
    obtain ⟨_, _, _, hledger⟩ := reaches_ledger run w
    exact ih.step hstep hledger

/-- Outside `enqueue` and `on_result_ready`, `in_flight_` is the number of jobs accepted less the
number of those whose final result was passed to `on_result`, and the doorbell is referenced
while it is positive. -/
theorem doorbell_refd_iff_owed {s : State J P} {hist : List (Output J P)}
    (run : (manager K n).Reaches s hist) (w : ℕ) (hcall : ∀ jobId, s.call ≠ .enqueue w jobId)
    (hready : ∀ f, s.ready ≠ some (w, f)) :
    (s.workers w).inFlight = (acceptedItems (own w hist)).length -
        (finals (calledResults (own w hist))).length ∧
      0 ≤ (s.workers w).inFlight ∧
      ((s.workers w).refd = true ↔ 0 < (s.workers w).inFlight) := by
  have howed := reaches_owed run w
  obtain ⟨_, _, _, hledger⟩ := reaches_ledger run w
  have huncounted : s.call.uncounted w = 0 := by
    cases hc : s.call with
    | enqueue w' jobId =>
      have hw : w' ≠ w := by
        rintro rfl
        exact hcall jobId hc
      exact if_neg hw
    | _ => rfl
  have hheld : Ready.held (readyOf w s.ready) = [] := by
    cases hr : readyOf w s.ready with
    | none => rfl
    | some f =>
      obtain ⟨f', hf⟩ := exists_of_readyOf (hr ▸ rfl : (readyOf w s.ready).isSome = true)
      exact absurd hf (hready f')
  have hdelivered := hledger.delivered
  have hcount := howed.count
  rw [State.view, hheld, List.append_nil] at hdelivered
  rw [huncounted, hdelivered] at hcount
  exact ⟨by omega, howed.nonneg, howed.refd_iff⟩

/-- The callback for the only job of a worker gives it another one. -/
def dispatchInCallback : List (Label (Option UInt64)) :=
  [Label.dispatch true (some 7), Label.enqueue] ++ List.replicate 6 (Label.thread 0 true) ++
    [Label.ready 0, Label.pop, Label.dispatch true (some 8), Label.enqueue, Label.callbackReturns,
      Label.pop]

def dispatchedInCallback : State UInt64 FibResult × List (Output UInt64 FibResult) :=
  ((manager fibonacciWorker 1).exec (.initial 1) dispatchInCallback).get rfl

theorem doorbell_refd_iff_owed_dispatchedInCallback :
    (acceptedItems (own 0 dispatchedInCallback.2)).length = 2 ∧
      (finals (calledResults (own 0 dispatchedInCallback.2))).length = 1 ∧
      (dispatchedInCallback.1.workers 0).inFlight = 2 - 1 ∧
      (dispatchedInCallback.1.workers 0).refd = true := by
  have run : (manager fibonacciWorker 1).Reaches dispatchedInCallback.1 dispatchedInCallback.2 :=
    Machine.reaches_exec dispatchInCallback rfl (Option.some_get rfl).symm
  obtain ⟨hcount, -, hrefd⟩ := doorbell_refd_iff_owed run 0 nofun nofun
  exact ⟨rfl, rfl, hcount, hrefd.mpr (hcount ▸ Int.one_pos)⟩

/-! ## The counter is far from the limits of an `int` -/

theorem WorkerStep.sub_le {v v' : View J P} {es : List (Event J P)} (h : WorkerStep K n w v es v')
    (hle : v.state.sub.length ≤ K.queueDepth - 1) : v'.state.sub.length ≤ K.queueDepth - 1 := by
  cases h with
  | accept ready item hw hopen hroom href =>
    rw [List.length_append]
    exact hroom
  | thread ready hthread =>
    cases WorkerState.threadStep_moves hthread with
    | within hsub _ => exact hsub ▸ hle
    | takes item hsub _ _ _ =>
      rw [hsub, List.length_cons] at hle
      exact (Nat.le_succ _).trans hle
  | join => exact Nat.zero_le _
  | _ => exact hle

/-- A thread works on one job at a time. -/
theorem WorkerState.finals_remaining_le {wk wk' : WorkerState J P} {loaded : Bool}
    (h : wk.threadStep K loaded = some wk') (hle : (finals wk.thread.remaining).length ≤ 1) :
    (finals wk'.thread.remaining).length ≤ 1 := by
  unfold threadStep at h
  split at h
  · cases h
    split_ifs <;> exact Nat.zero_le _
  · split_ifs at h
    cases h
    exact Nat.zero_le _
  · cases h
    split_ifs <;> exact Nat.zero_le _
  · split at h
    · cases h
      exact Nat.zero_le _
    · cases h
      rw [Thread.remaining_next, K.finals_results]
      rfl
  · next r rest hat =>
    split_ifs at h
    cases h
    rw [hat, Thread.remaining, finals_cons] at hle
    split_ifs at hle
    · exact (Nat.le_succ _).trans hle
    · exact hle
  · next rest hat =>
    cases h
    rw [hat] at hle
    rw [Thread.remaining_next]
    exact hle
  · cases h

theorem WorkerStep.finals_remaining_le {v v' : View J P} {es : List (Event J P)}
    (h : WorkerStep K n w v es v') (hle : (finals v.state.thread.remaining).length ≤ 1) :
    (finals v'.state.thread.remaining).length ≤ 1 := by
  cases h with
  | thread ready hthread => exact WorkerState.finals_remaining_le hthread hle
  | _ => exact hle

theorem reaches_jobs_le {s : State J P} {hist : List (Output J P)}
    (run : (manager K n).Reaches s hist) (w : ℕ) : (s.workers w).sub.length ≤ K.queueDepth - 1 ∧
      (finals (s.workers w).thread.remaining).length ≤ 1 := by
  induction run with
  | start h =>
    obtain rfl := h
    exact ⟨Nat.zero_le _, Nat.zero_le _⟩
  | next run hstep ih =>
    have hview := (Shape.reaches run).view hstep w
    exact ⟨hview.sub_le ih.1, hview.finals_remaining_le ih.2⟩

theorem Ready.length_held_le (ready : Option (Ready P)) : (Ready.held ready).length ≤ 1 := by
  match ready with
  | none | some .popping => exact Nat.zero_le 1
  | some (.calling r) => exact (List.length_map Result.ref).trans_le (List.length_filter_le _ [r])

/-- At most the jobs that fit into the two rings are in flight, and one each that the thread
and the main thread are at. -/
theorem inFlight_le {s : State J P} {hist : List (Output J P)} (run : (manager K n).Reaches s hist)
    (w : ℕ) (hopen : (s.workers w).closed = false) :
    (s.workers w).inFlight ≤ (K.queueDepth - 1 : ℕ) + (K.resultQueueDepth - 1 : ℕ) + 2 := by
  obtain ⟨hsub, hthread⟩ := reaches_jobs_le run w
  have hresults := reaches_results_le run w
  have hcount := (reaches_owed run w).count
  obtain ⟨_, left, rest, hledger⟩ := reaches_ledger run w
  obtain ⟨hleft, hrest, -⟩ := hledger.running hopen
  have hrefs := congrArg List.length hledger.refs_eq
  have hdelivered := congrArg List.length hledger.delivered
  have hheld := Ready.length_held_le (s.view w).ready
  have hring : (finals (s.workers w).results).length ≤ (s.workers w).results.length := by
    rw [finals, List.length_map]
    exact List.length_filter_le ..
  rw [hleft, hrest] at hrefs
  simp only [State.view, List.length_map, List.length_append, finals_append] at hrefs hdelivered
  simp only [State.view] at hheld
  omega

end CapyJs.Worker
