import CapyJs.Text
import CapyJs.Worker.Kind

/-!
# Fibonacci, JS and inference workers

What a thread computes from besides the job (the script of a JS worker, the llama
library) is given by its answers, which the dispatch argument carries along.
-/
namespace CapyJs.Worker

/-! ## Draining the result ring -/

section
variable {P : Type*}

/-- The loop of `stop()` over the results of Fibonacci and JS workers. -/
def drainEach (rs : List (Result P)) : List Ref := rs.map Result.ref

theorem drainEach_eq {rs : List (Result P)} (h : ∀ r ∈ rs, r.isDone = true) :
    drainEach rs = finals rs := by
  rw [finals, List.filter_eq_self.mpr h, drainEach]

/-- The same for inference workers, with the map `mid_stream` from job ids to callbacks. -/
def drainMidStream : List (UInt64 × Ref) → List (Result P) → List Ref
  | midStream, [] => midStream.map Prod.snd
  | midStream, r :: rs =>
    if r.isDone then r.ref :: drainMidStream (midStream.filter (·.1 != r.jobId)) rs
    else drainMidStream ((r.jobId, r.ref) :: midStream.filter (·.1 != r.jobId)) rs

/-- Along complete streams the map holds at most the job whose results are being
read, so nothing is left in it at the end. -/
theorem drainMidStream_eq {rs : List (Result P)} (h : Complete rs) :
    drainMidStream [] rs = finals rs ∧
      ∀ r rest ref, rs = r :: rest → drainMidStream [(r.jobId, ref)] rs = finals rs := by
  induction h with
  | nil => exact ⟨rfl, nofun⟩
  | final hdone _ ih =>
    refine ⟨by simp [drainMidStream, finals_cons, hdone, ih.1], ?_⟩
    rintro r rest ref ⟨⟩
    simp [drainMidStream, finals_cons, hdone, ih.1]
  | @more r r' rs hdone hid _ _ ih =>
    have hnext := ih.2 r' rs r.ref rfl
    rw [hid] at hnext
    refine ⟨?_, ?_⟩
    · rw [finals_cons, hdone, if_neg Bool.false_ne_true, ← hnext]
      rw [drainMidStream, hdone, if_neg Bool.false_ne_true, List.filter_nil]
    · rintro r'' rest ref ⟨⟩
      rw [finals_cons, hdone, if_neg Bool.false_ne_true, ← hnext]
      rw [drainMidStream, hdone, if_neg Bool.false_ne_true]
      simp

end

/-! ## Fibonacci -/

/-- `compute_fib`, whose sum wraps around at 64 bits. -/
def computeFib : ℕ → UInt64
  | 0 => 0
  | 1 => 1
  | n + 2 => computeFib (n + 1) + computeFib n

structure FibResult where
  result : UInt64
  error : Bool
  deriving DecidableEq, Repr

/-- The dispatch argument is the answer of `JS_ToIndex`, which is not checked. -/
def fibonacciWorker : WorkerKind (Option UInt64) UInt64 FibResult where
  queueDepth := 64
  resultQueueDepth := 64
  mayNotStart := false
  noWorkers := "no workers"
  toJob value := .ok (value.getD 0)
  compute value := [(⟨computeFib value.toNat, false⟩, true)]
  error := FibResult.error
  drain := drainEach
  compute_final _ := .last _
  drain_eq rs _ hrs := drainEach_eq fun r hr => by
    obtain ⟨_, hmem⟩ := hrs r hr
    exact (Prod.mk.inj (List.mem_singleton.mp hmem)).2

/-! ## JS -/

/-- How the call of the script's `process` ends, with the text of what it threw or
returned as `JS_ToCString` gives it. -/
inductive ProcessCall
  | exception (msg : Option Text)
  | value (out : Option Text)
  deriving DecidableEq, Repr

structure JSInput where
  inputStr : Option Text
  process : ProcessCall
  deriving DecidableEq, Repr

structure JSJob where
  inputJson : Text
  process : ProcessCall
  deriving DecidableEq, Repr

structure JSResult where
  outputJson : Text
  error : Bool
  errorMsg : Text
  deriving DecidableEq, Repr

def ProcessCall.result : ProcessCall → JSResult
  | .exception msg => ⟨[], true, msg.getD (ascii "unknown error")⟩
  | .value out => ⟨out.getD [], false, []⟩

/-- The thread returns at once when its script does not load, throws or does not
define `process`. -/
def jsWorker : WorkerKind JSInput JSJob JSResult where
  queueDepth := 32
  resultQueueDepth := 32
  mayNotStart := true
  noWorkers := "no workers"
  toJob input :=
    match input.inputStr with
    | none => .error ⟨.typeError, "input must be a string (JSON)"⟩
    | some inputStr => .ok ⟨cString inputStr, input.process⟩
  compute job := [(job.process.result, true)]
  error := JSResult.error
  drain := drainEach
  compute_final _ := .last _
  drain_eq rs _ hrs := drainEach_eq fun r hr => by
    obtain ⟨_, hmem⟩ := hrs r hr
    exact (Prod.mk.inj (List.mem_singleton.mp hmem)).2

/-! ## Inference -/

/-- One round of the generation loop: the sampled token and the decoding that follows. -/
structure LlamaStep where
  isEog : Bool
  piece : Text
  decode : ℤ

/-- The answers of the llama library for one job. -/
structure Llama where
  /-- whether `get_or_create_ctx` gives a context and a sampler -/
  context : Bool
  tokenize : ℤ
  promptDecode : ℤ
  step : ℕ → LlamaStep

structure InfPacket where
  modelClass : Option Text
  sessionId : Option Text
  clientId : Option Text
  prompt : Option Text
  llama : Llama

structure InfJob where
  modelClass : Text
  sessionId : Text
  clientId : Text
  prompt : Text
  llama : Llama

structure InfResult where
  token : Text
  error : Bool
  deriving DecidableEq, Repr

/-- `snprintf(dst, sizeof(dst), "%s", s)` -/
def snprintf (size : ℕ) (s : Text) : Text := (cString s).take (size - 1)

def tokenGenMax : ℕ := 512

def sendError (msg : String) : List (InfResult × Bool) := [(⟨snprintf 64 (ascii msg), true⟩, true)]

/-- The generation loop from round `i` on, with the done record sent after it when no
token was the last. -/
def generate (llama : Llama) : ℕ → ℕ → List (InfResult × Bool)
  | 0, _ => [(⟨[], false⟩, true)]
  | fuel + 1, i =>
    let isEog := (llama.step i).isEog
    let isLast := isEog || i == tokenGenMax - 1
    let piece := if isEog then [] else (llama.step i).piece
    (⟨snprintf 64 piece, false⟩, isLast) ::
      if isLast then []
      else if (llama.step i).decode ≠ 0 then [(⟨[], false⟩, true)]
      else generate llama fuel (i + 1)

def runInference (job : InfJob) : List (InfResult × Bool) :=
  if !job.llama.context then sendError "model not available"
  else if job.llama.tokenize < 0 then sendError "tokenize failed"
  else if job.llama.promptDecode ≠ 0 then sendError "prompt eval failed"
  else generate job.llama tokenGenMax 0

theorem generate_final (llama : Llama) (fuel i : ℕ) : OneFinal (generate llama fuel i) := by
  induction fuel generalizing i with
  | zero => exact .last _
  | succ fuel ih =>
    by_cases hlast : ((llama.step i).isEog || i == tokenGenMax - 1) = true
    · simp only [generate, hlast, if_true]
      exact .last _
    · simp only [generate, hlast, Bool.false_eq_true, if_false]
      apply OneFinal.more
      split_ifs
      · exact .last _
      · exact ih (i + 1)

/-- Without an end-of-generation token and with every decoding successful, the loop
goes through all its rounds. -/
theorem length_generate {llama : Llama} (h : ∀ i, (llama.step i).isEog = false ∧
    (llama.step i).decode = 0) {fuel i : ℕ} (hfuel : fuel + i + 1 = tokenGenMax) :
    (generate llama (fuel + 1) i).length = fuel + 1 := by
  induction fuel generalizing i with
  | zero =>
    obtain rfl : i = tokenGenMax - 1 := by omega
    simp [generate]
  | succ fuel ih =>
    have hnot : (i == tokenGenMax - 1) = false := beq_eq_false_iff_ne.mpr (by omega)
    rw [generate]
    simp only [h i, hnot, Bool.or_self, Bool.false_eq_true, if_false, ne_eq, not_true_eq_false,
      List.length_cons, ih (i := i + 1) (by omega)]

theorem runInference_final (job : InfJob) : OneFinal (runInference job) := by
  unfold runInference
  split_ifs
  · exact .last _
  · exact .last _
  · exact .last _
  · exact generate_final job.llama tokenGenMax 0

/-- The workers of an engine with the given models. -/
def inferenceWorker (models : List Text) : WorkerKind InfPacket InfJob InfResult where
  queueDepth := 64
  resultQueueDepth := 256
  mayNotStart := false
  noWorkers := "no workers spawned"
  toJob packet :=
    match packet.modelClass with
    | none => .error ⟨.rangeError, "unknown model_class"⟩
    | some cls =>
      if cString cls ∈ models then
        .ok ⟨snprintf 32 cls, snprintf 128 (packet.sessionId.getD []),
          snprintf 64 (packet.clientId.getD []), snprintf 2048 (packet.prompt.getD []),
          packet.llama⟩
      else .error ⟨.rangeError, "unknown model_class"⟩
  compute := runInference
  error := InfResult.error
  drain := drainMidStream []
  compute_final := runInference_final
  drain_eq _ h _ := (drainMidStream_eq h).1

end CapyJs.Worker
