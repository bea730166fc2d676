import Mathlib.Data.List.Basic
import Mathlib.Data.List.Infix
import Mathlib.Tactic.Common

/-!
# Jobs, streams of results and what a kind of worker is

A worker takes jobs with the JS function to call and computes a stream of results
for each, all but the last marked as not final. The Fibonacci, JS and inference
workers share their queues, thread loop and shutdown; what tells them apart is a
`WorkerKind`.
-/
namespace CapyJs.Worker

/-- A reference to a JS function that `JS_DupValue` made for a job of worker `worker`. -/
structure Ref where
  worker : ℕ
  seq : ℕ
  deriving DecidableEq, Repr

structure Item (J : Type*) where
  jobId : UInt64
  ref : Ref
  job : J
  deriving DecidableEq, Repr

/-- The results of Fibonacci and JS workers have no flag: each is final. -/
structure Result (P : Type*) where
  jobId : UInt64
  ref : Ref
  payload : P
  isDone : Bool
  deriving DecidableEq, Repr

/-! ## Streams of results -/

section
variable {P : Type*}

/-- The references of the final results. -/
def finals (rs : List (Result P)) : List Ref := (rs.filter Result.isDone).map Result.ref

@[simp] theorem finals_nil : finals ([] : List (Result P)) = [] := rfl

@[simp] theorem finals_append (rs rs' : List (Result P)) :
    finals (rs ++ rs') = finals rs ++ finals rs' := by
  simp [finals]

theorem finals_cons (r : Result P) (rs : List (Result P)) :
    finals (r :: rs) = if r.isDone then r.ref :: finals rs else finals rs := by
  unfold finals
  split_ifs with h <;> simp [h]

/-- Every result that is not final is followed by one of the same job. -/
inductive Complete : List (Result P) → Prop
  | nil : Complete []
  | final {r : Result P} {rs : List (Result P)} (h : r.isDone = true) (rest : Complete rs) :
      Complete (r :: rs)
  | more {r r' : Result P} {rs : List (Result P)} (h : r.isDone = false)
      (hid : r'.jobId = r.jobId) (href : r'.ref = r.ref) (rest : Complete (r' :: rs)) :
      Complete (r :: r' :: rs)

namespace Complete
variable {r : Result P} {rs rs' : List (Result P)}

theorem append (h : Complete rs) (h' : Complete rs') : Complete (rs ++ rs') := by
  induction h with
  | nil => exact h'
  | final hdone _ ih => exact .final hdone ih
  | more hdone hid href _ ih => exact .more hdone hid href ih

theorem tail (h : Complete (r :: rs)) : Complete rs := by
  cases h with
  | final _ rest => exact rest
  | more _ _ _ rest => exact rest

/-- What is left of a stream after some results have been taken is complete. -/
theorem of_append (h : Complete (rs ++ rs')) : Complete rs' := by
  induction rs with
  | nil => exact h
  | cons r rs ih => exact ih h.tail

/-- The reference of the first result is released with a later one. -/
theorem ref_mem_finals (h : Complete (r :: rs)) : r.ref ∈ finals (r :: rs) := by
  induction rs generalizing r with
  | nil =>
    cases h with
    | final hdone _ => simp [finals, hdone]
  | cons r' rs ih =>
    cases h with
    | final hdone _ => simp [finals, hdone]
    | more hdone _ href rest =>
      rw [finals_cons, hdone, ← href]
      exact ih rest

end Complete
end

/-! ## Kinds -/

inductive ErrorType
  | typeError
  | internalError
  | rangeError
  deriving DecidableEq, Repr

/-- A JS exception that a native function throws. -/
structure Exception where
  type : ErrorType
  message : String
  deriving DecidableEq, Repr

/-- Only the last of some computed payloads is marked as final. -/
inductive OneFinal {P : Type*} : List (P × Bool) → Prop
  | last (p : P) : OneFinal [(p, true)]
  | more (p : P) {xs : List (P × Bool)} (rest : OneFinal xs) : OneFinal ((p, false) :: xs)

/-- What the dispatch arguments `I`, the jobs `J` and the payloads `P` of a manager's
results are, and how its workers treat them. -/
structure WorkerKind (I J P : Type*) where
  queueDepth : ℕ
  resultQueueDepth : ℕ
  /-- the thread can return before it takes its first job -/
  mayNotStart : Bool
  /-- the message of `js_dispatch` when there are no workers -/
  noWorkers : String
  /-- the job that `js_dispatch` makes of its argument -/
  toJob : I → Except Exception J
  /-- the payloads of a job's results, with whether they are final -/
  compute : J → List (P × Bool)
  /-- `result.error` -/
  error : P → Bool
  /-- the callbacks that `stop()` frees for the results left in the ring -/
  drain : List (Result P) → List Ref
  compute_final : ∀ j, OneFinal (compute j)
  drain_eq : ∀ rs, Complete rs → (∀ r ∈ rs, ∃ j, (r.payload, r.isDone) ∈ compute j) →
    drain rs = finals rs

namespace WorkerKind
variable {I J P : Type*} (K : WorkerKind I J P)

/-- The results of a job, which carry its id and its callback along. -/
def results (item : Item J) : List (Result P) :=
  (K.compute item.job).map fun x => ⟨item.jobId, item.ref, x.1, x.2⟩

/-- One of a job's results is final. -/
theorem exists_filter_isDone_results (item : Item J) :
    ∃ p, (K.results item).filter Result.isDone = [⟨item.jobId, item.ref, p, true⟩] := by
  have hfinal := K.compute_final item.job
  unfold results
  generalize K.compute item.job = xs at hfinal
  induction hfinal with
  | last p => exact ⟨p, rfl⟩
  | more p _ ih => exact ih

theorem finals_results (item : Item J) : finals (K.results item) = [item.ref] := by
  obtain ⟨p, hp⟩ := K.exists_filter_isDone_results item
  rw [finals, hp]
  rfl

theorem complete_results (item : Item J) : Complete (K.results item) := by
  have hfinal := K.compute_final item.job
  unfold results
  generalize K.compute item.job = xs at hfinal
  induction hfinal with
  | last p => exact .final rfl .nil
  | more p rest ih =>
    cases rest with
    | last => exact .more rfl rfl rfl ih
    | more => exact .more rfl rfl rfl ih

theorem complete_flatMap (items : List (Item J)) : Complete (items.flatMap K.results) := by
  induction items with
  | nil => exact .nil
  | cons item items ih => exact (K.complete_results item).append ih

theorem finals_flatMap (items : List (Item J)) :
    finals (items.flatMap K.results) = items.map Item.ref := by
  induction items with
  | nil => rfl
  | cons item items ih =>
    rw [List.flatMap_cons, finals_append, ih, K.finals_results]
    rfl

/-- The end of the stream of a worker's jobs is freed as it should be. -/
theorem drain_of_append {items : List (Item J)} {rs rs' : List (Result P)}
    (h : items.flatMap K.results = rs ++ rs') : K.drain rs' = finals rs' := by
  apply K.drain_eq
  · have hcomplete := K.complete_flatMap items
    rw [h] at hcomplete
    exact hcomplete.of_append
  · intro r hr
    have hmem : r ∈ items.flatMap K.results := h ▸ List.mem_append_right rs hr
    obtain ⟨item, -, hitem⟩ := List.mem_flatMap.mp hmem
    obtain ⟨x, hx, rfl⟩ := List.mem_map.mp hitem
    exact ⟨item.job, hx⟩

theorem ref_of_mem_results {item : Item J} {r : Result P} (h : r ∈ K.results item) :
    r.ref = item.ref := by
  obtain ⟨x, -, rfl⟩ := List.mem_map.mp h
  rfl

theorem jobId_of_mem_results {item : Item J} {r : Result P} (h : r ∈ K.results item) :
    r.jobId = item.jobId := by
  obtain ⟨x, -, rfl⟩ := List.mem_map.mp h
  rfl

end WorkerKind
end CapyJs.Worker
