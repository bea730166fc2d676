import CapyJs.Worker.CloseRun

/-!
# An inference engine closed by its own callback

The JS object of an engine points to its manager until its `close()` is called, which
runs `js_close` and then deletes the manager. A callback that calls `close()` returns
into `on_result` of that manager.
-/
namespace CapyJs.Worker
open Transition

structure Engine where
  manager : State InfJob InfResult
  /-- the JS object points to the manager -/
  attached : Bool
  deleted : Bool

/-- `reads` is an access of `on_result` to the fields of the manager, with whether that
was deleted before. -/
inductive EngineOutput
  | manager (o : Output InfJob InfResult)
  | exception
  | reads (deleted : Bool)

namespace Engine
variable (models : List Text)

def after (e : Engine) (p : State InfJob InfResult × List (Output InfJob InfResult)) :
    Engine × List EngineOutput :=
  ({ e with manager := p.1 }, p.2.map .manager)

/-- `delete mgr`, once `js_close` has returned. -/
def afterClose (e : Engine) (p : State InfJob InfResult × List (Output InfJob InfResult)) :
    Engine × List EngineOutput :=
  ({ e with manager := p.1, deleted := e.deleted || decide (p.1.call = .idle) }, p.2.map .manager)

def step (e : Engine) : Label InfPacket → Option (Engine × List EngineOutput)
  | .dispatch isFunction packet =>
    if e.attached then
      (Worker.step (inferenceWorker models) e.manager (.dispatch isFunction packet)).map e.after
    else if e.manager.inJs then some (e, [.exception])
    else none
  | .close =>
    if e.attached then
      (Worker.step (inferenceWorker models) e.manager .close).map
        { e with attached := false }.afterClose
    else if e.manager.inJs then some (e, [])
    else none
  | .stop => (Worker.step (inferenceWorker models) e.manager .stop).map e.afterClose
  | .pop =>
    -- `on_result` is called when there is a result
    (Worker.step (inferenceWorker models) e.manager .pop).map fun p =>
      ({ e with manager := p.1 },
        if p.2.isEmpty then [] else .reads e.deleted :: p.2.map .manager)
  | .callbackReturns =>
    -- `js_ctx_` is read to free the result of the call and its argument
    (Worker.step (inferenceWorker models) e.manager .callbackReturns).map fun p =>
      ({ e with manager := p.1 }, .reads e.deleted :: p.2.map .manager)
  | .enqueue => (Worker.step (inferenceWorker models) e.manager .enqueue).map e.after
  | .ready w => (Worker.step (inferenceWorker models) e.manager (.ready w)).map e.after
  | .thread w loaded =>
    (Worker.step (inferenceWorker models) e.manager (.thread w loaded)).map e.after

end Engine

def engine (models : List Text) (n : ℕ) : Machine Engine (Label InfPacket) EngineOutput where
  init e := e = ⟨.initial n, true, false⟩
  step e a := e.step models a

/-- What the manager of an engine emits. -/
def managed (out : List EngineOutput) : List (Output InfJob InfResult) :=
  out.filterMap fun
    | .manager o => some o
    | _ => none

@[simp] theorem managed_append (out out' : List EngineOutput) :
    managed (out ++ out') = managed out ++ managed out' := List.filterMap_append

@[simp] theorem managed_map (out : List (Output InfJob InfResult)) :
    managed (out.map .manager) = out := by
  simp [managed, List.filterMap_map]

@[simp] theorem managed_reads (deleted : Bool) (out : List EngineOutput) :
    managed (.reads deleted :: out) = managed out := rfl

theorem mem_managed {o : Output InfJob InfResult} {out : List EngineOutput} :
    o ∈ managed out ↔ .manager o ∈ out := by
  simp only [managed, List.mem_filterMap]
  constructor
  · rintro ⟨o', ho, heq⟩
    cases o' with
    | manager => cases heq; exact ho
    | exception | reads => cases heq
  · intro h
    exact ⟨_, h, rfl⟩

namespace Engine
variable {models : List Text} {n : ℕ} {e e' : Engine} {a : Label InfPacket}
  {out : List EngineOutput}

/-! ## The manager of an engine is a manager -/

/-- What a step does to an engine: the JS object has no manager any more and refuses it, it is
the `close()` that takes the manager from the object, or the manager takes it. -/
inductive Moved (models : List Text) (e : Engine) (a : Label InfPacket) (e' : Engine)
    (out : List EngineOutput) : Prop
  | refused (hsame : e' = e) (hdetached : e.attached = false) (hnone : managed out = [])
      (hreads : ∀ b, .reads b ∉ out)
  | closes (ha : a = .close) (hattached : e.attached = true) (hdetached : e'.attached = false)
      (hstep : Worker.step (inferenceWorker models) e.manager a = some (e'.manager, managed out))
      (hreads : ∀ b, .reads b ∉ out)
  | handed (ha : a ≠ .close) (hattached : e'.attached = e.attached)
      (hdeleted : e'.deleted = e.deleted ∨ a = .stop)
      (hstep : Worker.step (inferenceWorker models) e.manager a = some (e'.manager, managed out))
      (hreads : ∀ b, .reads b ∈ out → b = e.deleted ∧ (a = .pop ∨ a = .callbackReturns))

theorem reads_notMem_map (b : Bool) (out : List (Output InfJob InfResult)) :
    .reads b ∉ out.map EngineOutput.manager := by simp

theorem moved_of_step (h : e.step models a = some (e', out)) : Moved models e a e' out := by
  cases a with
  | dispatch =>
    simp only [step] at h
    split_ifs at h with hattached
    · obtain ⟨p, hp, heq⟩ := Option.map_eq_some_iff.mp h
      cases heq
      exact .handed (by simp) rfl (.inl rfl) (by rw [hp, managed_map]) (by simp)
    · cases h
      exact .refused rfl (Bool.not_eq_true _ ▸ hattached) rfl (by simp)
  | close =>
    simp only [step] at h
    split_ifs at h with hattached
    · obtain ⟨p, hp, heq⟩ := Option.map_eq_some_iff.mp h
      cases heq
      exact .closes rfl hattached rfl (by rw [hp, managed_map]) fun b => reads_notMem_map b p.2
    · cases h
      exact .refused rfl (Bool.not_eq_true _ ▸ hattached) rfl (by simp)
  | pop =>
    obtain ⟨p, hp, heq⟩ := Option.map_eq_some_iff.mp h
    cases heq
    have hout : managed (if p.2.isEmpty then [] else .reads e.deleted :: p.2.map .manager) =
        p.2 := by
      cases p.2 with
      | nil => rfl
      | cons o os => exact managed_map (o :: os)
    refine .handed (by simp) rfl (.inl rfl) (by rw [hp, hout]) fun b hb => ?_
    · split_ifs at hb
      · cases hb
      · exact ⟨by simpa using hb, .inl rfl⟩
  | callbackReturns =>
    obtain ⟨p, hp, heq⟩ := Option.map_eq_some_iff.mp h
    cases heq
    refine .handed (by simp) rfl (.inl rfl) (by rw [hp, managed_reads, managed_map]) fun b hb => ?_
    exact ⟨by simpa using hb, .inr rfl⟩
  | stop =>
    obtain ⟨p, hp, heq⟩ := Option.map_eq_some_iff.mp h
    cases heq
    exact .handed (by simp) rfl (.inr rfl) (by rw [hp, managed_map])
      fun b hb => absurd hb (reads_notMem_map b p.2)
  | enqueue | ready | thread =>
    obtain ⟨p, hp, heq⟩ := Option.map_eq_some_iff.mp h
    cases heq
    exact .handed (by simp) rfl (.inl rfl) (by rw [hp, managed_map])
      fun b hb => absurd hb (reads_notMem_map b p.2)

theorem step_manager (h : e.step models a = some (e', out)) :
    Worker.step (inferenceWorker models) e.manager a = some (e'.manager, managed out) ∨
      e' = e ∧ managed out = [] := by
  cases moved_of_step h with
  | refused hsame _ hnone => exact .inr ⟨hsame, hnone⟩
  | closes _ _ _ hstep => exact .inl hstep
  | handed _ _ _ hstep => exact .inl hstep

theorem reaches_manager {hist : List EngineOutput} (run : (engine models n).Reaches e hist) :
    (Worker.manager (inferenceWorker models) n).Reaches e.manager (managed hist) := by
  induction run with
  | start h =>
    cases h
    exact .start rfl
  | next run hstep ih =>
    rw [managed_append]
    rcases step_manager hstep with hstep | ⟨rfl, hnone⟩
    · exact ih.next hstep
    · rw [hnone, List.append_nil]
      exact ih

/-! ## An attached engine is open -/

/-- Only `close()` detaches an engine, for good. -/
theorem attached_of_step (h : e.step models a = some (e', out)) (hattached : e'.attached = true) :
    e.attached = true ∧ a ≠ .close := by
  cases moved_of_step h with
  | refused hsame hdetached =>
    rw [hsame, hdetached] at hattached
    cases hattached
  | closes _ _ hdetached =>
    rw [hdetached] at hattached
    cases hattached
  | handed ha hsame => exact ⟨hsame ▸ hattached, ha⟩

theorem beforeClose_of_attached {hist : List EngineOutput}
    (run : (engine models n).Reaches e hist) (hattached : e.attached = true) :
    e.manager.BeforeClose := by
  induction run with
  | start h =>
    cases h
    exact ⟨rfl, by simp [State.initial]⟩
  | next run hstep ih =>
    obtain ⟨hold, hne⟩ := attached_of_step hstep hattached
    rcases step_manager hstep with hmanager | ⟨rfl, -⟩
    · exact (ih hold).step hne hmanager
    · exact ih hold

/-! ## Closing -/

/-- A run of the engine's `close()` with what the threads do meanwhile. -/
def Closes (models : List Text) (n : ℕ) (e e' : Engine) (out : List EngineOutput) : Prop :=
  ∃ labels, (∀ a ∈ labels, a.duringClose = true) ∧
    (engine models n).exec e (.close :: labels) = some (e', out) ∧ e'.manager.call = .idle

/-- While `close()` runs, engine and manager take the same steps. -/
theorem map_step (ha : a.duringClose = true ∨ a = .close ∧ e.attached = true) :
    (e.step models a).map (Prod.map Engine.manager managed) =
      Worker.step (inferenceWorker models) e.manager a := by
  have hid {f : State InfJob InfResult × List (Output InfJob InfResult) → Engine × List EngineOutput}
      (hf : ∀ p, (f p).1.manager = p.1 ∧ managed (f p).2 = p.2) :
      Prod.map Engine.manager managed ∘ f = id := by
    funext p
    exact Prod.ext (hf p).1 (hf p).2
  rcases ha with ha | ⟨rfl, hattached⟩
  · cases a with
    | stop | thread =>
      rw [step, Option.map_map, hid fun p => ⟨rfl, managed_map p.2⟩, Option.map_id, id]
    | _ => cases ha
  · rw [step, if_pos hattached, Option.map_map, hid fun p => ⟨rfl, managed_map p.2⟩, Option.map_id,
      id]

theorem map_exec_close (hattached : e.attached = true) {labels : List (Label InfPacket)}
    (hlabels : ∀ a ∈ labels, a.duringClose = true) :
    ((engine models n).exec e (.close :: labels)).map (Prod.map Engine.manager managed) =
      (Worker.manager (inferenceWorker models) n).exec e.manager (.close :: labels) := by
  apply Machine.exec_cons_project _ _ managed_append
  · exact map_step (.inr ⟨rfl, hattached⟩)
  · apply Machine.exec_project _ _ managed_append rfl
    intro t a ha
    exact map_step (.inl (hlabels a ha))

theorem Closes.manager (h : e.Closes models n e' out) (hattached : e.attached = true) :
    e.manager.Closes (inferenceWorker models) n e'.manager (managed out) := by
  obtain ⟨labels, hlabels, hexec, hidle⟩ := h
  refine ⟨labels, hlabels, ?_, hidle⟩
  rw [← map_exec_close hattached hlabels, hexec]
  rfl

theorem closes_of_manager (hattached : e.attached = true) {s : State InfJob InfResult}
    {o : List (Output InfJob InfResult)} (h : e.manager.Closes (inferenceWorker models) n s o) :
    ∃ e' out, e.Closes models n e' out := by
  obtain ⟨labels, hlabels, hexec, hidle⟩ := h
  rw [← map_exec_close hattached hlabels] at hexec
  obtain ⟨⟨e', out⟩, hengine, heq⟩ := Option.map_eq_some_iff.mp hexec
  cases heq
  exact ⟨e', out, labels, hlabels, hengine, hidle⟩

/-- When `close()` returns, the manager is gone. -/
theorem Closes.deleted (h : e.Closes models n e' out) (hattached : e.attached = true) :
    e'.deleted = true := by
  obtain ⟨labels, hlabels, hexec, hidle⟩ := h
  obtain ⟨e₁, out₁, out₂, hstep, hrest, rfl⟩ := Machine.of_exec_cons hexec
  have hgone : ∀ (t : Engine) p, p.1.call = .idle → (t.afterClose p).1.deleted = true := by
    intro t p hcall
    simp [afterClose, hcall]
  refine Machine.exec_invariant_of_mem (I := fun t => t.manager.call = .idle → t.deleted = true)
    ?_ hrest ?_ hidle
  · intro t a ha t' o ht hnext
    cases a with
    | stop =>
      obtain ⟨p, -, heq⟩ := Option.map_eq_some_iff.mp hnext
      cases heq
      exact hgone t p
    | thread =>
      obtain ⟨p, hp, heq⟩ := Option.map_eq_some_iff.mp hnext
      cases heq
      obtain ⟨-, hp⟩ := Option.ite_none_right_eq_some.mp hp
      obtain ⟨wk, -, heq⟩ := Option.map_eq_some_iff.mp hp
      cases heq
      exact ht
    | _ => cases hlabels _ ha
  · change e.step models .close = some (e₁, out₁) at hstep
    rw [step, if_pos hattached] at hstep
    obtain ⟨p, -, heq⟩ := Option.map_eq_some_iff.mp hstep
    cases heq
    exact hgone _ p

/-- The callback that called `close()` returns into `on_result`, which reads `js_ctx_`. -/
theorem Closes.reads_deleted (h : e.Closes models n e' out) (hattached : e.attached = true)
    (hopen : e.manager.cleared = false) {w : ℕ} {r : Result InfResult}
    (hready : e.manager.ready = some (w, .calling r)) :
    ∃ e'' out', e'.step models .callbackReturns = some (e'', out') ∧ .reads true ∈ out' := by
  have hdeleted := h.deleted hattached
  have hstill : e'.manager.ready = some (w, .calling r) :=
    ((h.manager hattached).frame hopen).1.trans hready
  obtain ⟨labels, -, -, hidle⟩ := h
  have hreturns : Worker.step (inferenceWorker models) e'.manager .callbackReturns =
      some (e'.manager.callbackReturned w r) := by
    simp only [Worker.step, hidle, hstill]
  exact ⟨_, _, by rw [step, hreturns, hdeleted, Option.map_some], List.mem_cons_self⟩

/-- `close()` called by the callback for a result `r` of worker `w`: after its return no
field of the deleted manager is read, and until then the callback is not released. -/
def CloseSafe (models : List Text) (n : ℕ) (e : Engine) (w : ℕ) (r : Result InfResult) : Prop :=
  ∀ e' out, e.Closes models n e' out →
    (∀ labels e'' out', (engine models n).exec e' labels = some (e'', out') →
      .reads true ∉ out') ∧
    ∀ place, .manager (.worker w (.released r.ref place)) ∉ out

/-- Whatever the job, the position in its stream and the queues are when the callback
closes its engine: once `close()` has returned, `on_result` reads the deleted manager,
and the callback was released under itself unless the result was the final one. Nothing
of this happens only when `close()` cannot return, since a thread owes more results than
fit its ring. -/
theorem closeSafe_iff_no_return {hist : List EngineOutput} {w : ℕ} {r : Result InfResult}
    (run : (engine models n).Reaches e hist) (hattached : e.attached = true)
    (hcall : e.manager.call = .idle) (hready : e.manager.ready = some (w, .calling r)) :
    (e.CloseSafe models n w r ↔
      ∃ k < n, (e.manager.workers k).hasRoom (inferenceWorker models) = false) ∧
    ∀ e' out, e.Closes models n e' out →
      (∃ e'' out', e'.step models .callbackReturns = some (e'', out') ∧ .reads true ∈ out') ∧
      ((∃ place, .manager (.worker w (.released r.ref place)) ∈ out) ↔ r.isDone = false) := by
  have hrun := reaches_manager run
  have hopen := (beforeClose_of_attached run hattached).1
  have hjs : e.manager.inJs = true := by simp [StateOver.inJs, hcall, hready]
  have hroom := closes_iff_room hrun hjs hopen
  refine ⟨⟨fun hsafe => ?_, ?_⟩, fun e' out hcloses =>
    ⟨hcloses.reads_deleted hattached hopen hready, ?_⟩⟩
  · by_contra hall
    have hfits : ∀ k < n, (e.manager.workers k).hasRoom (inferenceWorker models) = true := by
      simpa using hall
    obtain ⟨s, o, hmanager⟩ := hroom.mpr hfits
    obtain ⟨e', out, hcloses⟩ := closes_of_manager hattached hmanager
    obtain ⟨e'', out', hstep, hmem⟩ := hcloses.reads_deleted hattached hopen hready
    have hexec : (engine models n).exec e' [.callbackReturns] = some (e'', out' ++ []) :=
      Machine.exec_cons hstep rfl
    exact (hsafe e' out hcloses).1 _ _ _ hexec (List.mem_append_left [] hmem)
  · rintro ⟨k, hk, hnone⟩ e' out hcloses
    have hfits := hroom.mp ⟨_, _, hcloses.manager hattached⟩ k hk
    rw [hnone] at hfits
    cases hfits
  · rw [← released_under_callback hrun hcall hopen hready (hcloses.manager hattached)]
    simp only [mem_managed]

/-- The callback runs for the first of two results, of which the second is in the ring. -/
def inFirstCallback : Engine × List EngineOutput :=
  ((engine [ascii "m"] 1).exec ⟨.initial 1, true, false⟩ (closeInCallback.take 10)).get rfl

def firstResult : Result InfResult := ⟨0, ⟨0, 0⟩, ⟨ascii "capy", false⟩, false⟩

theorem reaches_inFirstCallback :
    (engine [ascii "m"] 1).Reaches inFirstCallback.1 inFirstCallback.2 :=
  Machine.reaches_exec (closeInCallback.take 10) rfl (Option.some_get rfl).symm

theorem closeSafe_iff_no_return_inFirstCallback :
    inFirstCallback.1.CloseSafe [ascii "m"] 1 0 firstResult ↔ ∃ k < 1,
      (inFirstCallback.1.manager.workers k).hasRoom (inferenceWorker [ascii "m"]) = false :=
  (closeSafe_iff_no_return reaches_inFirstCallback rfl rfl rfl).1

def closeLabels : List (Label InfPacket) :=
  [Label.stop, Label.stop] ++ List.replicate 4 (Label.thread 0 true) ++ [Label.stop]

def closedByCallback : Engine × List EngineOutput :=
  ((engine [ascii "m"] 1).exec inFirstCallback.1 (.close :: closeLabels)).get rfl

/-- The callback closes the engine on its first token. The thread pushes the end of the
stream and exits, `stop()` releases the callback with it, and `close()` deletes the
manager. Then the callback returns. -/
theorem close_in_callback_reads_deleted :
    ∃ e hist e' out e'' out', (engine [ascii "m"] 1).Reaches e hist ∧
      e.manager.ready = some (0, .calling firstResult) ∧ e.Closes [ascii "m"] 1 e' out ∧
      .manager (.worker 0 (.released firstResult.ref .resultQueue)) ∈ out ∧
      e'.step [ascii "m"] .callbackReturns = some (e'', out') ∧ .reads true ∈ out' ∧
      ¬e.CloseSafe [ascii "m"] 1 0 firstResult := by
  have hcloses : inFirstCallback.1.Closes [ascii "m"] 1 closedByCallback.1 closedByCallback.2 :=
    ⟨closeLabels, by decide, (Option.some_get rfl).symm, rfl⟩
  have hreleased : .manager (.worker 0 (.released firstResult.ref .resultQueue)) ∈
      closedByCallback.2 := List.mem_cons_self
  refine ⟨_, _, _, _, _, _, reaches_inFirstCallback, rfl, hcloses, hreleased, rfl,
    List.mem_cons_self, ?_⟩
  intro hsafe
  exact (hsafe _ _ hcloses).2 _ hreleased

end Engine
end CapyJs.Worker
