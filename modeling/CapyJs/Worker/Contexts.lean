import CapyJs.Worker.Tagged

/-!
# Which model an inference job runs on

`js_dispatch` looks the name of the model up as it is. The name then travels in a field of 32
bytes, and the worker looks up what arrives there, in the contexts that it has made and in the
models of the engine.
-/
namespace CapyJs.Worker
open Transition

variable {M : Type*}

/-- The models of an engine. Each was loaded on its own, and names come from C strings. -/
structure Models (M : Type*) where
  entries : List (Text × M)
  noNul : ∀ entry ∈ entries, 0 ∉ entry.1
  names_nodup : (entries.map Prod.fst).Nodup
  models_nodup : (entries.map Prod.snd).Nodup

def Models.names (models : Models M) : List Text := models.entries.map Prod.fst

/-- `model` is registered under exactly `name`. -/
def Models.Registered (models : Models M) (name : Text) (model : M) : Prop :=
  (name, model) ∈ models.entries

/-- `NativeInferenceManager::get_model` -/
def Models.getModel (models : Models M) (modelClass : Text) : Option M :=
  models.entries.lookup (cString modelClass)

/-- The two maps of a worker: the model that a context was created from, and whether there is a
sampler. -/
structure Contexts (M : Type*) where
  ctxs : Text → Option M
  samplers : Text → Bool

def Contexts.empty : Contexts M := ⟨fun _ => none, fun _ => false⟩

/-- The maps after `get_or_create_ctx`, the model of the context that it returns and whether
`sampler_out` is set. `created` is whether `llama_init_from_model` succeeds. -/
def Contexts.getOrCreateCtx (models : Models M) (created : Bool) (modelClass : Text)
    (c : Contexts M) : Contexts M × Option M × Bool :=
  match c.ctxs (cString modelClass) with
  | some ctx => (c, some ctx, c.samplers (cString modelClass))
  | none =>
    match models.getModel modelClass with
    | none => (c, none, false)
    | some model =>
      if created then
        (⟨Function.update c.ctxs (cString modelClass) (some model),
          Function.update c.samplers (cString modelClass) true⟩, some model, true)
      else (c, none, false)

/-- What `run_inference` has when it is past `get_or_create_ctx`. -/
inductive Evaluation (M : Type*)
  /-- `model not available`, with the model found for the job -/
  | unavailable (found : Option M)
  /-- a context made from a model, and the model whose vocabulary is used -/
  | evaluated (ctx : M) (vocab : Option M)
  deriving DecidableEq, Repr

def Contexts.evaluate (models : Models M) (created : Bool) (job : InfJob) (c : Contexts M) :
    Evaluation M :=
  match c.getOrCreateCtx models created job.modelClass with
  | (_, some ctx, true) => .evaluated ctx (models.getModel job.modelClass)
  | _ => .unavailable (models.getModel job.modelClass)

/-- The maps of a worker that has run some jobs. `created` is what `llama_init_from_model`
answers during a job. -/
def Contexts.after (models : Models M) (created : Ref → Bool)
    (items : List (Item (InfPacket × InfJob))) : Contexts M :=
  items.foldl (fun c item => (c.getOrCreateCtx models (created item.ref) item.job.2.modelClass).1)
    .empty

/-- The job runs on the model of that name, or no context can be made from this very model. -/
def Evaluation.RunsOn (models : Models M) (name : Text) : Evaluation M → Prop
  | .unavailable found => ∃ model, models.Registered name model ∧ found = some model
  | .evaluated ctx vocab => models.Registered name ctx ∧ vocab = some ctx

/-! ## Names -/

namespace Models
variable {models : Models M} {name : Text} {model : M}

theorem lookup_eq_some_iff :
    models.entries.lookup name = some model ↔ models.Registered name model := by
  rw [List.lookup_eq_some_iff, Registered]
  constructor
  · rintro ⟨front, back, heq, -⟩
    rw [heq]
    exact List.mem_append_right _ List.mem_cons_self
  · intro h
    obtain ⟨front, back, heq⟩ := List.append_of_mem h
    refine ⟨front, back, heq, fun entry hentry => ?_⟩
    have hnodup := models.names_nodup
    rw [heq, List.map_append, List.map_cons, List.nodup_append] at hnodup
    have hne := hnodup.2.2 entry.1 (List.mem_map_of_mem hentry) name List.mem_cons_self
    simpa using hne.symm

theorem getModel_of_noNul (h : 0 ∉ name) :
    models.getModel name = some model ↔ models.Registered name model := by
  rw [getModel, cString_eq_self h, lookup_eq_some_iff]

/-- A model has one name. -/
theorem Registered.name_unique {name' : Text} (h : models.Registered name model)
    (h' : models.Registered name' model) : name = name' := by
  have heq : (name, model) = (name', model) := List.inj_on_of_nodup_map models.models_nodup h h' rfl
  exact (Prod.mk.inj heq).1

end Models

/-! ## The maps along the jobs of a worker -/

/-- The contexts of a worker were made from the models of their names, and have samplers. -/
def Contexts.Sound (models : Models M) (c : Contexts M) : Prop :=
  ∀ name model, c.ctxs name = some model →
    models.entries.lookup name = some model ∧ c.samplers name = true

namespace Contexts
variable {models : Models M} {c : Contexts M}

theorem sound_empty : (Contexts.empty : Contexts M).Sound models := by
  intro name model h
  cases h

theorem Sound.getOrCreateCtx (h : c.Sound models) (created : Bool) (modelClass : Text) :
    (c.getOrCreateCtx models created modelClass).1.Sound models := by
  unfold Contexts.getOrCreateCtx
  split
  · exact h
  · split
    · exact h
    · next model hmodel =>
      split_ifs
      · intro name model' hname
        dsimp only at hname ⊢
        by_cases hsame : name = cString modelClass
        · subst hsame
          rw [Function.update_self] at hname
          rw [Function.update_self, ← hname]
          exact ⟨hmodel, rfl⟩
        · rw [Function.update_of_ne hsame] at hname ⊢
          exact h name model' hname
      · exact h

theorem sound_after (created : Ref → Bool) (items : List (Item (InfPacket × InfJob))) :
    (Contexts.after models created items).Sound models := by
  unfold Contexts.after
  induction items using List.reverseRecOn with
  | nil => exact sound_empty
  | append_singleton items item ih =>
    rw [List.foldl_append]
    exact ih.getOrCreateCtx (created item.ref) item.job.2.modelClass

/-- Whatever is in the maps, it is the model of the job's own field that counts. -/
theorem Sound.runsOn_iff (h : c.Sound models) (created : Bool) (job : InfJob) (name : Text) :
    (c.evaluate models created job).RunsOn models name ↔
      ∃ model, models.Registered name model ∧ models.getModel job.modelClass = some model := by
  unfold Contexts.evaluate Contexts.getOrCreateCtx
  cases hctx : c.ctxs (cString job.modelClass) with
  | some ctx =>
    obtain ⟨hlookup, hsampler⟩ := h _ _ hctx
    have hmodel : models.getModel job.modelClass = some ctx := hlookup
    simp [Evaluation.RunsOn, hsampler, hmodel]
  | none =>
    cases hmodel : models.getModel job.modelClass with
    | none => simp [Evaluation.RunsOn]
    | some model => cases created <;> simp [Evaluation.RunsOn]

end Contexts

/-! ## Jobs that were accepted -/

theorem modelClass_of_toJob {names : List Text} {packet : InfPacket} {job : InfJob}
    (h : (inferenceWorker names).toJob packet = .ok job) :
    ∃ name, packet.modelClass = some name ∧ cString name ∈ names ∧
      job.modelClass = (cString name).take 31 := by
  simp only [inferenceWorker] at h
  split at h
  · cases h
  · next name hname =>
    split_ifs at h with hmem
    cases h
    exact ⟨name, hname, hmem, rfl⟩

/-- In every run and whatever the worker has run before: a job runs on the model that its packet
names exactly when the name has no NUL and at most 31 bytes. -/
theorem runs_on_named_model_iff (models : Models M) {n w : ℕ}
    {s : State (InfPacket × InfJob) InfResult} {hist : List (Output (InfPacket × InfJob) InfResult)}
    (run : (manager (inferenceWorker models.names).tagged n).Reaches s hist) (created : Ref → Bool)
    {before after : List (Item (InfPacket × InfJob))} {item : Item (InfPacket × InfJob)}
    (hitem : acceptedItems (own w hist) = before ++ item :: after) :
    ∃ name, item.job.1.modelClass = some name ∧
      (((Contexts.after models created before).evaluate models (created item.ref)
          item.job.2).RunsOn models name ↔ 0 ∉ name ∧ name.length ≤ 31) := by
  have hmem : item ∈ acceptedItems (own w hist) := by simp [hitem]
  obtain ⟨name, hname, hknown, hclass⟩ :=
    modelClass_of_toJob (toJob_of_reaches run (mem_acceptedItems_own.mp hmem))
  refine ⟨name, hname, ?_⟩
  rw [(Contexts.sound_after created before).runsOn_iff, hclass]
  have hnoNul : 0 ∉ (cString name).take 31 := fun h =>
    zero_notMem_cString name (List.mem_of_mem_take h)
  simp only [Models.getModel_of_noNul hnoNul]
  constructor
  · rintro ⟨model, hnamed, hfound⟩
    have hsame := hfound.name_unique hnamed
    have hlength := congrArg List.length hsame
    rw [List.length_take] at hlength
    exact ⟨models.noNul _ hnamed, by omega⟩
  · rintro ⟨hzero, hshort⟩
    rw [cString_eq_self hzero] at hknown ⊢
    rw [List.take_of_length_le hshort]
    obtain ⟨⟨_, model⟩, hentry, rfl⟩ := List.mem_map.mp hknown
    exact ⟨model, hentry, hentry⟩

/-- A packet that names a model. -/
def naming (name : Text) : InfPacket := ⟨some name, none, none, none, oneToken⟩

theorem exists_accepted (models : Models M) (name : Text) (h : cString name ∈ models.names) :
    ∃ s hist item, (manager (inferenceWorker models.names).tagged 1).Reaches s hist ∧
      acceptedItems (own 0 hist) = [item] ∧ item.job.1 = naming name ∧
      item.job.2.modelClass = snprintf 32 name := by
  obtain ⟨job, hjob, hclass⟩ : ∃ job,
      (inferenceWorker models.names).tagged.toJob (naming name) = .ok (naming name, job) ∧
        job.modelClass = snprintf 32 name := by
    simp [WorkerKind.tagged, inferenceWorker, naming, h, Except.map]
  have hstep : ∃ s, (manager (inferenceWorker models.names).tagged 1).step (.initial 1)
      (.dispatch true (naming name)) = some (s, [.worker 0 (.duplicated ⟨0, 0⟩),
        .worker 0 (.accepted ⟨0, ⟨0, 0⟩, (naming name, job)⟩)]) := by
    simp only [manager, step, StateOver.inJs, State.initial, if_true, State.jsDispatch,
      Bool.not_true, Bool.false_eq_true, if_false, hjob]
    exact ⟨_, rfl⟩
  obtain ⟨s, hstep⟩ := hstep
  exact ⟨s, _, _, .next (.start rfl) hstep, rfl, rfl, hclass⟩

def longName : Text := List.replicate 32 97

/-- Two models whose names differ in the last byte of 32 only. -/
def twoModels : Models ℕ where
  entries := [(List.replicate 31 97, 0), (longName, 1)]
  noNul := by decide
  names_nodup := by decide
  models_nodup := by decide

theorem runs_on_named_model_iff_longName :
    ∃ (s : State (InfPacket × InfJob) InfResult)
      (hist : List (Output (InfPacket × InfJob) InfResult)) (item : Item (InfPacket × InfJob)),
      (manager (inferenceWorker twoModels.names).tagged 1).Reaches s hist ∧
      acceptedItems (own 0 hist) = [] ++ item :: [] ∧
      ∃ name, item.job.1.modelClass = some name ∧
        (((Contexts.after twoModels (fun _ => true) []).evaluate twoModels true
            item.job.2).RunsOn twoModels name ↔ 0 ∉ name ∧ name.length ≤ 31) := by
  obtain ⟨s, hist, item, run, hitem, -⟩ := exists_accepted twoModels longName (by decide)
  exact ⟨s, hist, item, run, hitem, runs_on_named_model_iff twoModels run (fun _ => true) hitem⟩

def oneModel : Models ℕ where
  entries := [(longName, 1)]
  noNul := by decide
  names_nodup := by decide
  models_nodup := by decide

/-- What comes of a first job that names a model. -/
def EvaluatesTo (models : Models ℕ) (name : Text) (evaluation : Evaluation ℕ) : Prop :=
  ∃ s hist item, (manager (inferenceWorker models.names).tagged 1).Reaches s hist ∧
    acceptedItems (own 0 hist) = [item] ∧ item.job.1 = naming name ∧
    (Contexts.after models (fun _ => true) []).evaluate models true item.job.2 = evaluation

/-- The job runs on the model of the shorter name, and where there is none it fails. -/
theorem longName_runs_elsewhere :
    (EvaluatesTo twoModels longName (.evaluated 0 (some 0)) ∧
      ¬(Evaluation.evaluated 0 (some 0)).RunsOn twoModels longName) ∧
    EvaluatesTo oneModel longName (.unavailable none) ∧
      ¬(Evaluation.unavailable none).RunsOn oneModel longName := by
  refine ⟨⟨?_, ?_⟩, ?_, ?_⟩
  · obtain ⟨s, hist, item, run, hitem, hpacket, hclass⟩ :=
      exists_accepted twoModels longName (by decide)
    refine ⟨s, hist, item, run, hitem, hpacket, ?_⟩
    rw [Contexts.evaluate, hclass]
    rfl
  · rintro ⟨hnamed, -⟩
    unfold Models.Registered at hnamed
    revert hnamed
    decide
  · obtain ⟨s, hist, item, run, hitem, hpacket, hclass⟩ :=
      exists_accepted oneModel longName (by decide)
    refine ⟨s, hist, item, run, hitem, hpacket, ?_⟩
    rw [Contexts.evaluate, hclass]
    rfl
  · rintro ⟨model, -, hnone⟩
    cases hnone

end CapyJs.Worker
