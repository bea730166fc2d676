import CapyJs.Worker.Callbacks

/-!
# How an inference job ends

`run_inference` has several ways out, and each leaves exactly one final result, the last. When
`stop()` drains the ring it frees a callback for each of those, and a callback is left over in
its map only if the results of a job break off.
-/
namespace CapyJs.Worker
open Transition

/-! ## The map of `stop()` -/

section
variable {P : Type*}

def midStreamStep (midStream : List (UInt64 × Ref)) (r : Result P) : List (UInt64 × Ref) :=
  if r.isDone then midStream.filter (·.1 != r.jobId)
  else (r.jobId, r.ref) :: midStream.filter (·.1 != r.jobId)

/-- `mid_stream` when the ring is empty. -/
def midStream (rs : List (Result P)) : List (UInt64 × Ref) := rs.foldl midStreamStep []

/-- `stop()` frees a callback for each final result, and then what is in the map. -/
theorem drainMidStream_eq_append (m : List (UInt64 × Ref)) (rs : List (Result P)) :
    drainMidStream m rs = finals rs ++ (rs.foldl midStreamStep m).map Prod.snd := by
  induction rs generalizing m with
  | nil => rfl
  | cons r rs ih =>
    rw [drainMidStream, finals_cons, List.foldl_cons, midStreamStep]
    split_ifs
    · rw [ih, List.cons_append]
    · rw [ih]

theorem midStream_of_complete {rs : List (Result P)} (h : Complete rs) : midStream rs = [] := by
  have hsplit := drainMidStream_eq_append [] rs
  rw [(drainMidStream_eq h).1, List.self_eq_append_right, List.map_eq_nil_iff] at hsplit
  exact hsplit

end

/-! ## The results of a job -/

theorem OneFinal.eq_append {P : Type*} {xs : List (P × Bool)} (h : OneFinal xs) :
    ∃ front p, xs = front ++ [(p, true)] ∧ ∀ x ∈ front, x.2 = false := by
  induction h with
  | last p => exact ⟨[], p, rfl, nofun⟩
  | more p _ ih =>
    obtain ⟨front, q, rfl, hfront⟩ := ih
    exact ⟨(p, false) :: front, q, rfl, List.forall_mem_cons.mpr ⟨rfl, hfront⟩⟩

theorem length_generate_le (llama : Llama) {fuel i : ℕ} (hfuel : fuel + i = tokenGenMax)
    (hpos : 0 < fuel) : (generate llama fuel i).length ≤ fuel := by
  induction fuel generalizing i with
  | zero => exact absurd hpos (Nat.lt_irrefl 0)
  | succ fuel ih =>
    by_cases hlast : ((llama.step i).isEog || i == tokenGenMax - 1) = true
    · simp [generate, hlast]
    · -- a round that is not the last leaves room for one more result
      have hroom : 1 ≤ fuel := by
        simp only [Bool.or_eq_true, beq_iff_eq, not_or] at hlast
        omega
      simp only [generate, hlast, Bool.false_eq_true, if_false, List.length_cons]
      apply Nat.succ_le_succ
      split_ifs
      · exact hroom
      · exact ih (by omega) hroom

theorem error_generate (llama : Llama) (fuel i : ℕ) {x : InfResult × Bool}
    (h : x ∈ generate llama fuel i) : x.1.error = false := by
  induction fuel generalizing i with
  | zero =>
    obtain rfl := List.mem_singleton.mp h
    rfl
  | succ fuel ih =>
    rw [generate] at h
    rcases List.mem_cons.mp h with rfl | h
    · rfl
    · split_ifs at h
      · cases h
      · obtain rfl := List.mem_singleton.mp h
        rfl
      · exact ih (i + 1) h

theorem length_runInference_le (job : InfJob) : (runInference job).length ≤ tokenGenMax := by
  unfold runInference
  split_ifs
  · simp [sendError, tokenGenMax]
  · simp [sendError, tokenGenMax]
  · simp [sendError, tokenGenMax]
  · exact length_generate_le job.llama rfl (by decide)

theorem runInference_of_error (job : InfJob) {x : InfResult × Bool} (hx : x ∈ runInference job)
    (herror : x.1.error = true) : runInference job = [x] := by
  unfold runInference at hx ⊢
  split_ifs at hx ⊢
  · rw [List.mem_singleton.mp hx, sendError]
  · rw [List.mem_singleton.mp hx, sendError]
  · rw [List.mem_singleton.mp hx, sendError]
  · rw [error_generate job.llama tokenGenMax 0 hx] at herror
    cases herror

/-- Some results that belong to the job of an item and end as they should: there is a last one,
and it alone is final. -/
structure EndsOnce (item : Item InfJob) (rs : List (Result InfResult)) : Prop where
  atMost : rs.length ≤ tokenGenMax
  carried : ∀ r ∈ rs, r.jobId = item.jobId ∧ r.ref = item.ref
  lastDone : ∃ front last, rs = front ++ [last] ∧ last.isDone = true ∧
    ∀ r ∈ front, r.isDone = false
  errorAlone : ∀ r ∈ rs, r.payload.error = true → rs = [r]

theorem endsOnce_results (models : List Text) (item : Item InfJob) :
    EndsOnce item ((inferenceWorker models).results item) where
  atMost := by
    rw [WorkerKind.results, List.length_map]
    exact length_runInference_le item.job
  carried r hr := ⟨WorkerKind.jobId_of_mem_results _ hr, WorkerKind.ref_of_mem_results _ hr⟩
  lastDone := by
    obtain ⟨front, p, heq, hfront⟩ := (runInference_final item.job).eq_append
    have hcompute : (inferenceWorker models).compute item.job = front ++ [(p, true)] := heq
    rw [WorkerKind.results, hcompute, List.map_append]
    refine ⟨_, _, rfl, rfl, ?_⟩
    intro r hr
    obtain ⟨x, hx, rfl⟩ := List.mem_map.mp hr
    exact hfront x hx
  errorAlone r hr herror := by
    obtain ⟨x, hx, rfl⟩ := List.mem_map.mp hr
    have hcompute : (inferenceWorker models).compute item.job = [x] :=
      runInference_of_error item.job hx herror
    rw [WorkerKind.results, hcompute, List.map_singleton]

/-! ## The ring at the end of a thread -/

theorem Ledger.complete_results_of_exited {I J P : Type*} {K : WorkerKind I J P} {n w : ℕ}
    {es : List (Event J P)} {v : View J P} {taken left : List (Item J)} {rest : List (Result P)}
    (h : Ledger K n w es v taken left rest) (hexited : v.state.thread = .exited) :
    Complete v.state.results := by
  cases hclosed : v.state.closed with
  | true =>
    rw [(h.stopped hclosed).2.1]
    exact .nil
  | false =>
    have hrest := (h.running hclosed).2.1
    rw [hexited] at hrest
    have hresults : rest = v.state.results := hrest.trans (List.append_nil _)
    exact hresults ▸ h.complete_rest

/-- Whatever llama answers, the results of a job end with one final result. In every run, when
the thread of a worker has exited, as it has when `stop()` comes to drain the ring, the drain
leaves nothing in its map. -/
theorem inference_ends_once (models : List Text) (n : ℕ) :
    (∀ item, EndsOnce item ((inferenceWorker models).results item)) ∧
    ∀ s hist, (manager (inferenceWorker models) n).Reaches s hist → ∀ k,
      (s.workers k).thread = .exited → midStream (s.workers k).results = [] := by
  refine ⟨endsOnce_results models, ?_⟩
  intro s hist run k hexited
  obtain ⟨_, _, _, hledger⟩ := reaches_ledger run k
  exact midStream_of_complete (hledger.complete_results_of_exited hexited)

/-- The engine is closed when both results of a job are in the ring. -/
def closeBeforeDelivery : List (Label InfPacket) :=
  [Label.dispatch true ⟨some (ascii "m"), none, none, none, oneToken⟩, Label.enqueue] ++
    List.replicate 8 (Label.thread 0 true) ++ [Label.close, Label.stop, Label.stop] ++
    List.replicate 2 (Label.thread 0 true)

def joining : State InfJob InfResult × List (Output InfJob InfResult) :=
  ((manager (inferenceWorker [ascii "m"]) 1).exec (.initial 1) closeBeforeDelivery).get rfl

theorem inference_ends_once_joining :
    joining.1.call = .stop 0 .join ∧
      (joining.1.workers 0).results.map Result.isDone = [false, true] ∧
      midStream (joining.1.workers 0).results = [] := by
  have run : (manager (inferenceWorker [ascii "m"]) 1).Reaches joining.1 joining.2 :=
    Machine.reaches_exec closeBeforeDelivery rfl (Option.some_get rfl).symm
  exact ⟨rfl, rfl, (inference_ends_once [ascii "m"] 1).2 _ _ run 0 rfl⟩

end CapyJs.Worker
