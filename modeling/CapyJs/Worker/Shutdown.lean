import CapyJs.Worker.Kinds
import CapyJs.Worker.OneWorker

/-!
# Stopping a worker

`stop()` sets the stop flag and joins the thread. The thread looks at the flag only
between two jobs, and nobody empties the result ring while the main thread waits.
-/
namespace CapyJs.Worker
open Transition

variable {I J P : Type*} {K : WorkerKind I J P} {n : ℕ}

/-- The main thread is in the join of worker `k`, whose thread spins on a full ring. -/
def Deadlocked (K : WorkerKind I J P) (k : ℕ) (s : State J P) : Prop :=
  s.call = .stop k .join ∧ (∃ r rest, (s.workers k).thread = .pushing r rest) ∧
    K.resultQueueDepth - 1 ≤ (s.workers k).results.length

/-- How many results the thread will push before it looks at the stop flag. -/
def WorkerState.owed (K : WorkerKind I J P) (wk : WorkerState J P) : ℕ :=
  match wk.thread, wk.sub with
  | .popping, item :: _ => (K.results item).length
  | .pushing _ rest, _ => rest.length + 1
  | .ringing rest, _ => rest.length
  | _, _ => 0

def WorkerState.hasRoom (K : WorkerKind I J P) (wk : WorkerState J P) : Bool :=
  decide (wk.results.length + wk.owed K ≤ K.resultQueueDepth - 1)

/-- When the stop flag of a worker is set, its result ring has room for what is owed. -/
def roomToStop (K : WorkerKind I J P) (s : State J P) : Label I → Bool
  | .stop =>
    match s.call with
    | .stop k .store => (s.workers k).hasRoom K
    | _ => true
  | _ => true

/-! ## With room -/

theorem WorkerState.owed_next (wk : WorkerState J P) (rs : List (Result P)) :
    owed K { wk with thread := .next rs } = rs.length := by
  cases rs <;> simp [owed, Thread.next]

/-- What a thread has pushed and what it owes do not become less, and once the flag is set
it only pushes what it owes. -/
theorem WorkerState.add_owed {wk wk' : WorkerState J P} {loaded : Bool}
    (h : wk.threadStep K loaded = some wk') :
    wk.results.length + wk.owed K ≤ wk'.results.length + wk'.owed K ∧
      (wk.stopped = true →
        wk'.results.length + wk'.owed K ≤ wk.results.length + wk.owed K) := by
  unfold threadStep at h
  split at h
  · next hat =>
    cases h
    split_ifs <;> simp [owed, hat]
  · next hat =>
    split_ifs at h
    cases h
    simp [owed, hat]
  · next hat =>
    cases h
    constructor
    · simp [owed, hat]
    · intro hstopped
      simp [owed, hat, hstopped]
  · next hat =>
    split at h
    · next hsub =>
      cases h
      simp [owed, hat, hsub]
    · next item sub hsub =>
      cases h
      rw [owed_next { wk with sub }]
      simp [owed, hat, hsub]
  · next r rest hat =>
    split_ifs at h
    cases h
    simp [owed, hat]
    omega
  · next rest hat =>
    cases h
    rw [owed_next { wk with bell := true }]
    simp [owed, hat]
  · cases h

theorem WorkerState.results_le {wk wk' : WorkerState J P} {loaded : Bool}
    (h : wk.threadStep K loaded = some wk') (hle : wk.results.length ≤ K.resultQueueDepth - 1) :
    wk'.results.length ≤ K.resultQueueDepth - 1 := by
  unfold threadStep at h
  split at h
  · cases h; exact hle
  · split_ifs at h; cases h; exact hle
  · cases h; exact hle
  · split at h <;> cases h <;> exact hle
  · next r rest _ =>
    split_ifs at h with hroom
    cases h
    rw [List.length_append]
    exact hroom
  · cases h; exact hle
  · cases h

/-- A worker whose flag is set has room for what its thread owes. -/
def RoomKept (K : WorkerKind I J P) (s : State J P) : Prop :=
  ∀ k pc, s.call = .stop k pc → pc ≠ .store →
    (s.workers k).results.length + (s.workers k).owed K ≤ K.resultQueueDepth - 1

namespace RoomKept
variable {s s' : State J P} {out : List (Output J P)}

/-- Outside `stop()` there is nothing to keep. -/
theorem of_call (h : s.call = .idle ∨ (∃ w jobId, s.call = .enqueue w jobId) ∨
    ∃ k, s.call = .stop k .store) : RoomKept K s := by
  intro k pc hcall hpc
  rcases h with h | ⟨w, jobId, h⟩ | ⟨k', h⟩
  · rw [h] at hcall
    cases hcall
  · rw [h] at hcall
    cases hcall
  · rw [h] at hcall
    cases hcall
    exact absurd rfl hpc

theorem stopFrom (k : ℕ) (s : State J P) : RoomKept K (s.stopFrom k) := by
  rcases s.call_stopFrom k with hcall | ⟨hcall, -⟩
  · exact of_call (.inr (.inr ⟨k, hcall⟩))
  · exact of_call (.inl hcall)

theorem thread (h : RoomKept K s) (hshape : Shape n s) {w : ℕ} {loaded : Bool}
    {wk : WorkerState J P} (hthread : (s.workers w).threadStep K loaded = some wk) :
    RoomKept K (s.setWorker w wk) := by
  intro k pc hcall hpc
  by_cases hk : k = w
  · subst hk
    have hstopped := hshape.flagged k pc hcall hpc
    have hkept := h k pc hcall hpc
    rw [StateOver.workers_setWorker_self]
    exact ((WorkerState.add_owed hthread).2 hstopped).trans hkept
  · rw [StateOver.workers_setWorker_of_ne hk]
    exact h k pc hcall hpc

theorem step (h : RoomKept K s) (hshape : Shape n s) {a : Label I}
    (hroom : roomToStop K s a = true) (hstep : step K s a = some (s', out)) : RoomKept K s' := by
  cases moves_of_step hstep with
  | dispatch hjs hd =>
    cases hd with
    | threw | refused => exact of_call (.inl (StateOver.call_of_inJs hjs))
    | accepted => exact of_call (.inr (.inl ⟨_, _, rfl⟩))
  | enqueue => exact of_call (.inl rfl)
  | closeAgain hjs => exact of_call (.inl (StateOver.call_of_inJs hjs))
  | close => exact stopFrom _ _
  | @store k hcall =>
    have hfits : (s.workers k).hasRoom K = true := by simpa [roomToStop, hcall] using hroom
    intro k' pc' hcall' _
    cases hcall'
    simpa [StateOver.setWorker, WorkerState.owed] using of_decide_eq_true hfits
  | @post k hcall =>
    intro k' pc' hcall' _
    cases hcall'
    simpa [StateOver.setWorker, WorkerState.owed] using h k .post hcall (by simp)
  | join => exact stopFrom _ _
  | ready hcall | popNone hcall | pop hcall | release hcall | keep hcall =>
    exact of_call (.inl hcall)
  | thread hw hthread => exact h.thread hshape hthread

theorem not_deadlocked (h : RoomKept K s) (k : ℕ) : ¬Deadlocked K k s := by
  rintro ⟨hcall, ⟨r, rest, hthread⟩, hfull⟩
  have hroom := h k .join hcall nofun
  simp only [WorkerState.owed, hthread] at hroom
  omega

end RoomKept

/-! ## Without room -/

theorem WorkerStep.results_le {w : ℕ} {v v' : View J P} {es : List (Event J P)}
    (h : WorkerStep K n w v es v')
    (hle : v.state.results.length ≤ K.resultQueueDepth - 1) :
    v'.state.results.length ≤ K.resultQueueDepth - 1 := by
  cases h with
  | thread ready hthread => exact WorkerState.results_le hthread hle
  | pop hpop =>
    rw [hpop, List.length_cons] at hle
    exact (Nat.le_succ _).trans hle
  | join => exact Nat.zero_le _
  | _ => exact hle

theorem reaches_results_le {s : State J P} {hist : List (Output J P)}
    (run : (manager K n).Reaches s hist) (w : ℕ) :
    (s.workers w).results.length ≤ K.resultQueueDepth - 1 := by
  induction run with
  | start h =>
    obtain rfl := h
    exact Nat.zero_le _
  | next run hstep ih => exact ((Shape.reaches run).view hstep w).results_le ih

/-- A thread with more to push than fits fills the ring and stays there. -/
theorem deadlocks_of_pushing {k : ℕ} {rest : List (Result P)} {s : State J P} {r : Result P}
    (hcall : s.call = .stop k .join) (hk : k < s.size)
    (hthread : (s.workers k).thread = .pushing r rest)
    (hmore : K.resultQueueDepth - 1 ≤ (s.workers k).results.length + rest.length) :
    ∃ labels s' out, (manager K n).exec s labels = some (s', out) ∧ Deadlocked K k s' := by
  induction rest generalizing s r with
  | nil => exact ⟨[], s, [], rfl, hcall, ⟨r, [], hthread⟩, hmore⟩
  | cons r' rest ih =>
    by_cases hfull : (s.workers k).results.length < K.resultQueueDepth - 1
    · -- one push and one ring later the thread is at the next result
      let pushed : WorkerState J P := { s.workers k with
        results := (s.workers k).results ++ [r], thread := .ringing (r' :: rest) }
      let rung : WorkerState J P := { pushed with bell := true, thread := .pushing r' rest }
      have hpush : (s.workers k).threadStep K true = some pushed := by
        simp [WorkerState.threadStep, hthread, hfull, pushed]
      have hring : ((s.setWorker k pushed).workers k).threadStep K true = some rung := by
        simp [WorkerState.threadStep, pushed, rung, Thread.next]
      have hnext : ((s.setWorker k pushed).setWorker k rung).workers k = rung := by simp
      have hlength : rung.results.length = (s.workers k).results.length + 1 := List.length_append
      obtain ⟨labels, s', out, hexec, hdead⟩ := ih (s := (s.setWorker k pushed).setWorker k rung)
        hcall hk (by rw [hnext]) (by rw [hnext, hlength]; rw [List.length_cons] at hmore; omega)
      exact ⟨_, s', _, Machine.exec_cons (step_thread hk hpush)
        (Machine.exec_cons (step_thread hk hring) hexec), hdead⟩
    · exact ⟨[], s, [], rfl, hcall, ⟨r, r' :: rest, hthread⟩, Nat.le_of_not_lt hfull⟩

/-- The same from wherever the thread is in the job. -/
theorem deadlocks_of_owed {k : ℕ} {s : State J P} (hcall : s.call = .stop k .join)
    (hk : k < s.size) (hle : (s.workers k).results.length ≤ K.resultQueueDepth - 1)
    (hmore : K.resultQueueDepth - 1 < (s.workers k).results.length + (s.workers k).owed K) :
    ∃ labels s' out, (manager K n).exec s labels = some (s', out) ∧ Deadlocked K k s' := by
  -- the step after which the thread pushes the first of `rs`
  have hnext {wk : WorkerState J P} {rs : List (Result P)}
      (hstep : (s.workers k).threadStep K true = some wk) (hthread : wk.thread = .next rs)
      (hresults : wk.results = (s.workers k).results)
      (howed : K.resultQueueDepth - 1 < (s.workers k).results.length + rs.length) :
      ∃ labels s' out, (manager K n).exec s labels = some (s', out) ∧ Deadlocked K k s' := by
    cases rs with
    | nil =>
      rw [List.length_nil, Nat.add_zero] at howed
      exact absurd howed (Nat.not_lt.mpr hle)
    | cons r rest =>
      have hwk : (s.setWorker k wk).workers k = wk := StateOver.workers_setWorker_self ..
      obtain ⟨labels, s', out, hexec, hdead⟩ :=
        deadlocks_of_pushing (K := K) (n := n) (s := s.setWorker k wk) hcall hk
          (by rw [hwk, hthread]; rfl) (by rw [hwk, hresults]; rw [List.length_cons] at howed; omega)
      exact ⟨_, s', _, Machine.exec_cons (step_thread hk hstep) hexec, hdead⟩
  unfold WorkerState.owed at hmore
  split at hmore
  · next item sub hthread hsub =>
    have hstep : (s.workers k).threadStep K true =
        some { s.workers k with sub, thread := .next (K.results item) } := by
      simp [WorkerState.threadStep, hthread, hsub]
    exact hnext hstep rfl rfl hmore
  · next r rest hthread =>
    exact deadlocks_of_pushing hcall hk hthread (by omega)
  · next rest hthread =>
    have hstep : (s.workers k).threadStep K true =
        some { s.workers k with bell := true, thread := .next rest } := by
      simp [WorkerState.threadStep, hthread]
    exact hnext hstep rfl rfl hmore
  · exact absurd hmore (Nat.not_lt.mpr hle)

/-- Nothing ever ends a deadlock: the main thread waits for the thread, which waits
for room in a ring that only the main thread empties. -/
theorem Deadlocked.step {k : ℕ} {s s' : State J P} {a : Label I} {out : List (Output J P)}
    (h : Deadlocked K k s) (hstep : step K s a = some (s', out)) : Deadlocked K k s' := by
  obtain ⟨hcall, ⟨r, rest, hthread⟩, hfull⟩ := h
  cases moves_of_step hstep with
  | @thread w loaded wk hw hwk =>
    by_cases hk : k = w
    · subst hk
      simp [WorkerState.threadStep, hthread, Nat.not_lt.mpr hfull] at hwk
    · unfold Deadlocked
      rw [StateOver.workers_setWorker_of_ne hk]
      exact ⟨hcall, ⟨r, rest, hthread⟩, hfull⟩
  | join hcall' hexit =>
    cases hcall.symm.trans hcall'
    rw [hthread] at hexit
    cases hexit
  | dispatch hjs | closeAgain hjs | close hjs => cases hcall.symm.trans (StateOver.call_of_inJs hjs)
  | enqueue hcall' | store hcall' | post hcall' | ready hcall' | popNone hcall' | pop hcall'
  | release hcall' | keep hcall' => cases hcall.symm.trans hcall'

/-- From the store of the stop flag without room, the deadlock is only steps away. -/
theorem deadlocks_of_store {k : ℕ} {s : State J P} (hshape : Shape n s)
    (hle : (s.workers k).results.length ≤ K.resultQueueDepth - 1)
    (hcall : s.call = .stop k .store) (hroom : (s.workers k).hasRoom K = false) :
    ∃ labels s' out, (manager K n).exec s labels = some (s', out) ∧ Deadlocked K k s' := by
  let stored : State J P :=
    { s.setWorker k { s.workers k with stopped := true } with call := .stop k .post }
  let posted : State J P :=
    { stored.setWorker k { stored.workers k with sem := (stored.workers k).sem + 1 } with
      call := .stop k .join }
  have hstore : (manager K n).step s .stop = some (stored, []) := by
    simp [manager, step, hcall, State.stopStep, StateOver.stopStep, stored]
  have hpost : (manager K n).step stored .stop = some (posted, []) := by
    simp [manager, step, State.stopStep, StateOver.stopStep, stored, posted]
  have hsame : posted.workers k = { s.workers k with
      stopped := true, sem := (s.workers k).sem + 1 } := by
    simp [posted, stored, StateOver.setWorker]
  have hmore := of_decide_eq_false hroom
  obtain ⟨labels, s', out, hexec, hdead⟩ := deadlocks_of_owed (K := K) (n := n) (s := posted) rfl
    (hshape.stopping k _ hcall).1 (by rw [hsame]; exact hle)
    (by rw [hsame]; exact Nat.lt_of_not_le hmore)
  exact ⟨_, s', _, Machine.exec_cons hstore (Machine.exec_cons hpost hexec), hdead⟩

/-- Shutdown is free of deadlocks in the runs that set a worker's stop flag only when
its result ring has room for what the thread still owes, and only in those: without
room some order of the next steps ends in one. -/
theorem shutdown_deadlock_free_iff_room (K : WorkerKind I J P) (n : ℕ) :
    (∀ s hist, ((manager K n).guarded fun s a => roomToStop K s a = true).Reaches s hist →
      ∀ k, ¬Deadlocked K k s) ∧
    (∀ s hist k, (manager K n).Reaches s hist → s.call = .stop k .store →
      (s.workers k).hasRoom K = false →
      ∃ labels s' out, (manager K n).exec s labels = some (s', out) ∧ Deadlocked K k s') := by
  constructor
  · intro s hist run k
    have hkept : RoomKept K s := by
      induction run with
      | start h =>
        obtain rfl := h
        exact .of_call (.inl rfl)
      | next run hstep ih =>
        obtain ⟨hroom, hstep⟩ := Machine.guarded_step.mp hstep
        exact ih.step (Shape.reaches run.of_guarded) hroom hstep
    exact hkept.not_deadlocked k
  · intro s hist k run hcall hroom
    exact deadlocks_of_store (Shape.reaches run) (reaches_results_le run k) hcall hroom

/-- A Fibonacci job is in the thread's hands when the manager is closed. -/
def closeDuringFib : List (Label (Option UInt64)) :=
  [Label.dispatch true (some 7), Label.enqueue] ++ List.replicate 4 (Label.thread 0 true) ++
    [Label.close, Label.stop, Label.stop]

def closedDuringFib : State UInt64 FibResult × List (Output UInt64 FibResult) :=
  ((manager fibonacciWorker 1).exec (.initial 1) closeDuringFib).get rfl

theorem shutdown_deadlock_free_closedDuringFib :
    closedDuringFib.1.call = .stop 0 .join ∧ ¬Deadlocked fibonacciWorker 0 closedDuringFib.1 := by
  refine ⟨rfl, (shutdown_deadlock_free_iff_room fibonacciWorker 1).1 _ closedDuringFib.2 ?_ 0⟩
  exact Machine.reaches_exec closeDuringFib rfl rfl

/-- A model that never ends its generation. -/
def endless : Llama where
  context := true
  tokenize := 3
  promptDecode := 0
  step _ := ⟨false, ascii "capy", 0⟩

/-- The engine is closed when the thread has just taken its first job. -/
def closeDuringInference : List (Label InfPacket) :=
  [Label.dispatch true ⟨some (ascii "m"), none, none, none, endless⟩, Label.enqueue] ++
    List.replicate 4 (Label.thread 0 true) ++ [Label.close]

def closingDuringInference : State InfJob InfResult × List (Output InfJob InfResult) :=
  ((manager (inferenceWorker [ascii "m"]) 1).exec (.initial 1) closeDuringInference).get rfl

/-- 512 results do not fit a ring of 255: `close()` does not return, whatever happens. -/
theorem close_deadlocks_during_inference :
    ∃ s hist, (manager (inferenceWorker [ascii "m"]) 1).Reaches s hist ∧
      Deadlocked (inferenceWorker [ascii "m"]) 0 s ∧
      ∀ labels s' out, (manager (inferenceWorker [ascii "m"]) 1).exec s labels = some (s', out) →
        Deadlocked (inferenceWorker [ascii "m"]) 0 s' := by
  have run : (manager (inferenceWorker [ascii "m"]) 1).Reaches closingDuringInference.1
      closingDuringInference.2 := Machine.reaches_exec closeDuringInference rfl rfl
  let item : Item InfJob := ⟨0, ⟨0, 0⟩, ⟨ascii "m", [], [], [], endless⟩⟩
  have howed : (closingDuringInference.1.workers 0).owed (inferenceWorker [ascii "m"]) =
      ((inferenceWorker [ascii "m"]).results item).length :=
    WorkerState.owed_next { closingDuringInference.1.workers 0 with thread := .waiting } _
  have hlength : (generate endless tokenGenMax 0).length = 512 :=
    length_generate (fun _ => ⟨rfl, rfl⟩) rfl
  have hroom : (closingDuringInference.1.workers 0).hasRoom (inferenceWorker [ascii "m"]) =
      false := by
    have hcompute : (inferenceWorker [ascii "m"]).compute item.job =
      generate endless tokenGenMax 0 := rfl
    have hempty : (closingDuringInference.1.workers 0).results = [] := rfl
    rw [WorkerState.hasRoom, howed, WorkerKind.results, List.length_map, hcompute, hlength, hempty]
    decide
  obtain ⟨labels, s, out, hexec, hdead⟩ :=
    deadlocks_of_store (Shape.reaches run) (reaches_results_le run 0) rfl hroom
  refine ⟨s, _, run.exec hexec, hdead, ?_⟩
  intro labels' s' out' hexec'
  exact Machine.exec_invariant (I := Deadlocked (inferenceWorker [ascii "m"]) 0)
    (fun _ _ _ _ h hstep => h.step hstep) hexec' hdead

end CapyJs.Worker
