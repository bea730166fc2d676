import CapyJs.Worker.Engine

/-!
# The callbacks of the three kinds of managers

The callbacks of Fibonacci and JS workers may close their manager. An inference engine deletes
its manager in `close()`, so the release that `on_result` makes after a callback is one of the
manager only if that callback has not closed the engine.
-/
namespace CapyJs.Worker
open Transition

namespace Engine
variable {models : List Text} {n : ℕ} {e e' : Engine} {a : Label InfPacket}
  {out hist : List EngineOutput}

/-- No callback of the engine closes it. -/
def closesOutside (e : Engine) : Label InfPacket → Bool
  | .close => !e.attached || e.manager.ready.isNone
  | _ => true

/-- The manager is deleted outside `on_result_ready`, which is not entered again. -/
structure Kept (e : Engine) : Prop where
  whole : e.attached = true → e.deleted = false
  outside : e.attached = false → e.manager.ready = none ∧ ¬e.manager.BeforeClose

/-- A closed manager does not answer the doorbell. -/
theorem ready_of_closed {s s' : State InfJob InfResult} {o : List (Output InfJob InfResult)}
    (hshape : Shape n s) (hclosed : ¬s.BeforeClose) (hready : s.ready = none)
    (h : Worker.step (inferenceWorker models) s a = some (s', o)) : s'.ready = none := by
  cases moves_of_step h with
  | dispatch hjs hd => cases hd <;> exact hready
  | enqueue | closeAgain | store | post | thread => exact hready
  | close | join => rw [StateOver.ready_stopFrom]; exact hready
  | @ready w hcall _ hw _ hopen =>
    have hcleared : s.cleared = true := by
      by_contra hnot
      exact hclosed ⟨Bool.not_eq_true _ ▸ hnot, by simp [hcall]⟩
    rw [hshape.closed_of_cleared hcleared (hshape.size ▸ hw)] at hopen
    cases hopen
  | popNone | pop | release | keep => simp_all

/-- `on_result` runs inside `on_result_ready`. -/
theorem ready_of_reads {s s' : State InfJob InfResult} {o : List (Output InfJob InfResult)}
    (ha : a = .pop ∨ a = .callbackReturns)
    (h : Worker.step (inferenceWorker models) s a = some (s', o)) : s.ready ≠ none := by
  cases moves_of_step h with
  | popNone _ hready | pop _ hready | release _ hready | keep _ hready => simp [hready]
  | _ => simp at ha

theorem Kept.step (h : Kept e) (run : (engine models n).Reaches e hist)
    (hguard : e.closesOutside a = true) (hstep : e.step models a = some (e', out)) : Kept e' := by
  have hshape := Shape.reaches (reaches_manager run)
  cases moved_of_step hstep with
  | refused hsame =>
    rw [hsame]
    exact h
  | closes ha hattached hdetached hmanager =>
    subst ha
    have hready : e.manager.ready = none := by simpa [closesOutside, hattached] using hguard
    refine ⟨fun htrue => by simp [hdetached] at htrue, fun _ => ?_⟩
    obtain ⟨hsame, hclosed⟩ := (beforeClose_of_attached run hattached).close hmanager
    exact ⟨hsame.trans hready, hclosed⟩
  | handed ha hsame hdeleted hmanager =>
    refine ⟨fun htrue => ?_, fun hfalse => ?_⟩
    · rw [hsame] at htrue
      rcases hdeleted with hdeleted | rfl
      · rw [hdeleted]
        exact h.whole htrue
      · exact absurd hmanager (beforeClose_of_attached run htrue).not_stop
    · obtain ⟨hready, hclosed⟩ := h.outside (hsame ▸ hfalse)
      exact ⟨ready_of_closed hshape hclosed hready hmanager,
        fun hopen => hclosed (State.beforeClose_of_step hmanager hopen)⟩

theorem Kept.not_reads (h : Kept e) (hstep : e.step models a = some (e', out)) :
    .reads true ∉ out := by
  intro hmem
  cases moved_of_step hstep with
  | refused _ _ _ hreads => exact hreads true hmem
  | closes _ _ _ _ hreads => exact hreads true hmem
  | handed _ _ _ hmanager hreads =>
    obtain ⟨hdeleted, ha⟩ := hreads true hmem
    cases hattached : e.attached with
    | true => simp [h.whole hattached] at hdeleted
    | false => exact ready_of_reads ha hmanager (h.outside hattached).1

theorem kept_of_reaches
    (run : ((engine models n).guarded fun e a => e.closesOutside a = true).Reaches e hist) :
    Kept e ∧ .reads true ∉ hist := by
  induction run with
  | start h =>
    cases h
    exact ⟨⟨fun _ => rfl, by simp⟩, by simp⟩
  | next run hstep ih =>
    obtain ⟨hguard, hstep⟩ := Machine.guarded_step.mp hstep
    refine ⟨ih.1.step run.of_guarded hguard hstep, ?_⟩
    rw [List.mem_append]
    rintro (hold | hnew)
    · exact ih.2 hold
    · exact ih.1.not_reads hstep hnew

/-- A callback that closes its engine returns into the deleted manager. -/
theorem reads_deleted_of_closes (run : (engine models n).Reaches e hist)
    (hjs : e.manager.inJs = true) (hguard : e.closesOutside .close = false)
    (hcloses : e.Closes models n e' out) :
    ∃ e'' out', e'.step models .callbackReturns = some (e'', out') ∧ .reads true ∈ out' := by
  simp only [closesOutside, Bool.or_eq_false_iff, Bool.not_eq_false', Option.isNone_eq_false_iff,
    Option.isSome_iff_exists] at hguard
  obtain ⟨hattached, ⟨w, f⟩, hready⟩ := hguard
  cases f with
  | popping => simp [StateOver.inJs, StateOver.call_of_inJs hjs, hready] at hjs
  | calling r =>
    exact hcloses.reads_deleted hattached (beforeClose_of_attached run hattached).1 hready

end Engine

/-- With Fibonacci and JS workers the callbacks are kept in every run, and so are those of an
inference engine in every run in which no callback closes it; nothing of the deleted manager is
read then. Where one does close it and `close()` returns, `on_result` reads the deleted manager
before it could release the callback. -/
theorem callbacks_released_once (models : List Text) (n : ℕ) :
    (∀ s hist, (manager fibonacciWorker n).Reaches s hist →
      CallbacksKept fibonacciWorker s hist) ∧
    (∀ s hist, (manager jsWorker n).Reaches s hist → CallbacksKept jsWorker s hist) ∧
    (∀ e hist, ((engine models n).guarded fun e a => e.closesOutside a = true).Reaches e hist →
      CallbacksKept (inferenceWorker models) e.manager (managed hist) ∧ .reads true ∉ hist) ∧
    ∀ e hist e' out, (engine models n).Reaches e hist → e.manager.inJs = true →
      e.closesOutside .close = false → e.Closes models n e' out →
        ∃ e'' out', e'.step models .callbackReturns = some (e'', out') ∧ .reads true ∈ out' := by
  refine ⟨fun s hist => callbacksKept_of_reaches, fun s hist => callbacksKept_of_reaches,
    fun e hist run => ?_, fun e hist e' out => Engine.reads_deleted_of_closes⟩
  exact ⟨callbacksKept_of_reaches (Engine.reaches_manager run.of_guarded),
    (Engine.kept_of_reaches run).2⟩

/-- The callback of the first job dispatches a second one and closes the manager, which drains
the second from the submission queue. -/
def closeFibInCallback : List (Label (Option UInt64)) :=
  [Label.dispatch true (some 7), Label.enqueue] ++ List.replicate 6 (Label.thread 0 true) ++
    [Label.ready 0, Label.pop, Label.dispatch true (some 8), Label.enqueue, Label.close,
      Label.stop, Label.stop, Label.thread 0 true, Label.thread 0 true, Label.stop,
      Label.callbackReturns, Label.pop]

def fibClosedInCallback : State UInt64 FibResult × List (Output UInt64 FibResult) :=
  ((manager fibonacciWorker 1).exec (.initial 1) closeFibInCallback).get rfl

/-- The engine is closed when the first token has been delivered; the end of the stream is
drained from the result ring. -/
def closeOutside : List (Label InfPacket) :=
  closeInCallback.take 10 ++ [Label.callbackReturns, Label.pop, Label.close] ++ Engine.closeLabels

def engineClosedOutside : Engine × List EngineOutput :=
  (((engine [ascii "m"] 1).guarded fun e a => e.closesOutside a = true).exec
    ⟨.initial 1, true, false⟩ closeOutside).get rfl

theorem callbacks_released_once_closed :
    (fibClosedInCallback.1.cleared = true ∧
      (acceptedItems (events fibClosedInCallback.2)).length = 2 ∧
      ∀ item ∈ acceptedItems (events fibClosedInCallback.2),
        ReleasedOnce fibonacciWorker item (events fibClosedInCallback.2)) ∧
    engineClosedOutside.1.deleted = true ∧
      (acceptedItems (events (managed engineClosedOutside.2))).length = 1 ∧
      (∀ item ∈ acceptedItems (events (managed engineClosedOutside.2)),
        ReleasedOnce (inferenceWorker [ascii "m"]) item (events (managed engineClosedOutside.2))) ∧
      .reads true ∉ engineClosedOutside.2 := by
  have hfib := (callbacks_released_once [] 1).1 fibClosedInCallback.1 fibClosedInCallback.2
    (Machine.reaches_exec closeFibInCallback rfl (Option.some_get rfl).symm)
  obtain ⟨hengine, hreads⟩ := (callbacks_released_once [ascii "m"] 1).2.2.1
    engineClosedOutside.1 engineClosedOutside.2
    (Machine.reaches_exec closeOutside rfl (Option.some_get rfl).symm)
  exact ⟨⟨rfl, rfl, hfib.released rfl (by rintro _ _ ⟨⟩)⟩, rfl, rfl,
    hengine.released rfl (by rintro _ _ ⟨⟩), hreads⟩

/-- The callback runs for the last of two results. -/
def toLastCallback : List (Label InfPacket) :=
  closeInCallback.take 8 ++ List.replicate 2 (Label.thread 0 true) ++
    [Label.ready 0, Label.pop, Label.callbackReturns, Label.pop]

def inLastCallback : Engine × List EngineOutput :=
  ((engine [ascii "m"] 1).exec ⟨.initial 1, true, false⟩ toLastCallback).get rfl

def lastResult : Result InfResult := ⟨0, ⟨0, 0⟩, ⟨[], false⟩, true⟩

def closeAfterLast : List (Label InfPacket) :=
  [Label.stop, Label.stop, Label.thread 0 true, Label.thread 0 true, Label.stop]

def closedInLastCallback : Engine × List EngineOutput :=
  ((engine [ascii "m"] 1).exec inLastCallback.1 (.close :: closeAfterLast)).get rfl

/-- The callback closes the engine when it gets the final result, which leaves its release to
`on_result`. That is made with `js_ctx_` of the deleted manager. -/
theorem release_reads_deleted :
    ∃ e hist e' out e'', (engine [ascii "m"] 1).Reaches e hist ∧
      e.manager.ready = some (0, .calling lastResult) ∧ e.Closes [ascii "m"] 1 e' out ∧
      releases lastResult.ref (events (managed (hist ++ out))) = [] ∧
      e'.step [ascii "m"] .callbackReturns = some (e'',
        [.reads true, .manager (.worker 0 (.released lastResult.ref .onResult))]) := by
  have run : (engine [ascii "m"] 1).Reaches inLastCallback.1 inLastCallback.2 :=
    Machine.reaches_exec toLastCallback rfl (Option.some_get rfl).symm
  have hcloses : inLastCallback.1.Closes [ascii "m"] 1 closedInLastCallback.1
      closedInLastCallback.2 :=
    ⟨closeAfterLast, by decide, (Option.some_get rfl).symm, rfl⟩
  exact ⟨_, _, _, _, _, run, rfl, hcloses, rfl, rfl⟩

end CapyJs.Worker
