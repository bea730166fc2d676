import CapyJs.Worker.Callbacks
import CapyJs.Worker.Shutdown
import Mathlib.Logic.Relation

/-!
# `js_close` from its call to its return

While the main thread is in `js_close` only its own steps and those of the threads are
possible. It returns in some run when the ring of every worker has room for what the
worker's thread owes, and otherwise in none.
-/
namespace CapyJs.Worker
open Transition

variable {I J P : Type*} {K : WorkerKind I J P} {n : ℕ}

def Label.duringClose : Label I → Bool
  | .stop | .thread _ _ => true
  | _ => false

/-- A run of `js_close` with what the threads do meanwhile. -/
def State.Closes (K : WorkerKind I J P) (n : ℕ) (s s' : State J P) (out : List (Output J P)) :
    Prop :=
  ∃ labels, (∀ a ∈ labels, a.duringClose = true) ∧
    (manager K n).exec s (.close :: labels) = some (s', out) ∧ s'.call = .idle

section
variable {s s' : State J P} {a : Label I} {out : List (Output J P)}

/-- What a step during `js_close` does: `stop()` sets the flag or posts, it joins a worker, or
a thread moves. -/
theorem step_duringClose (ha : a.duringClose = true) (h : step K s a = some (s', out)) :
    (∃ k pc wk next, s.call = .stop k pc ∧ wk.results = (s.workers k).results ∧
      wk.thread = (s.workers k).thread ∧ wk.sub = (s.workers k).sub ∧
      s' = { s.setWorker k wk with call := .stop k next }) ∨
    (∃ k wk, s.call = .stop k .join ∧ (s.workers k).thread = .exited ∧
      s' = (s.setWorker k wk).stopFrom (k + 1)) ∨
    ∃ w loaded wk, (s.workers w).threadStep K loaded = some wk ∧ s' = s.setWorker w wk := by
  cases moves_of_step h with
  | @store k hcall =>
    exact .inl ⟨k, _, { s.workers k with stopped := true }, _, hcall, rfl, rfl, rfl, rfl⟩
  | @post k hcall =>
    exact .inl ⟨k, _, { s.workers k with sem := (s.workers k).sem + 1 }, _, hcall, rfl, rfl, rfl,
      rfl⟩
  | join hcall hexit => exact .inr (.inl ⟨_, _, hcall, hexit, rfl⟩)
  | thread hw hthread => exact .inr (.inr ⟨_, _, _, hthread, rfl⟩)
  | _ => cases ha

theorem ready_duringClose (ha : a.duringClose = true) (h : step K s a = some (s', out)) :
    s'.ready = s.ready := by
  rcases step_duringClose ha h with ⟨k, pc, wk, next, -, -, -, -, rfl⟩ | ⟨k, wk, -, -, rfl⟩ |
    ⟨w, loaded, wk, -, rfl⟩
  · rfl
  · exact StateOver.ready_stopFrom (k + 1) _
  · rfl

end

/-! ## Without room -/

/-- `js_close` has still to join worker `k`, whose thread owes more than fits. -/
structure Stuck (K : WorkerKind I J P) (k : ℕ) (s : State J P) : Prop where
  ahead : ∃ j pc, s.call = .stop j pc ∧ j ≤ k
  inside : k < s.size
  bounded : (s.workers k).results.length ≤ K.resultQueueDepth - 1
  owes : K.resultQueueDepth - 1 < (s.workers k).results.length + (s.workers k).owed K

namespace Stuck
variable {k : ℕ} {s s' : State J P} {a : Label I} {out : List (Output J P)}

theorem not_exited (h : Stuck K k s) : (s.workers k).thread ≠ .exited := by
  intro hexit
  have hbounded := h.bounded
  have howes := h.owes
  simp only [WorkerState.owed, hexit] at howes
  omega

theorem step (h : Stuck K k s) (ha : a.duringClose = true)
    (hstep : step K s a = some (s', out)) : Stuck K k s' := by
  obtain ⟨⟨j, pc, hcall, hj⟩, hinside, hbounded, howes⟩ := h
  rcases step_duringClose ha hstep with ⟨j', pc', wk, next, hcall', hresults, hthread, hsub, rfl⟩ |
    ⟨j', wk, hcall', hexit, rfl⟩ | ⟨w, loaded, wk, hthread, rfl⟩
  · rw [hcall] at hcall'
    cases hcall'
    refine ⟨⟨j, next, rfl, hj⟩, hinside, ?_, ?_⟩
    all_goals by_cases hjk : k = j
    · subst hjk
      simpa [StateOver.setWorker, hresults] using hbounded
    · simpa [StateOver.setWorker, hjk] using hbounded
    · subst hjk
      simpa [StateOver.setWorker, WorkerState.owed, hresults, hthread, hsub] using howes
    · simpa [StateOver.setWorker, hjk] using howes
  · rw [hcall] at hcall'
    cases hcall'
    -- the worker that is joined is another one, so there is a next one to stop
    have hne : k ≠ j := by
      rintro rfl
      exact not_exited ⟨⟨k, _, hcall, hj⟩, hinside, hbounded, howes⟩ hexit
    have hlt : j + 1 < (s.setWorker j wk).size := Nat.lt_of_le_of_lt (by omega) hinside
    rw [StateOver.stopFrom, if_pos hlt]
    refine ⟨⟨j + 1, .store, rfl, by omega⟩, hinside, ?_, ?_⟩
    · simpa [StateOver.setWorker, hne] using hbounded
    · simpa [StateOver.setWorker, hne] using howes
  · refine ⟨⟨j, pc, hcall, hj⟩, hinside, ?_, ?_⟩
    all_goals by_cases hw : k = w
    · subst hw
      rw [StateOver.workers_setWorker_self]
      exact WorkerState.results_le hthread hbounded
    · rw [StateOver.workers_setWorker_of_ne hw]
      exact hbounded
    · subst hw
      rw [StateOver.workers_setWorker_self]
      exact howes.trans_le (WorkerState.add_owed hthread).1
    · rw [StateOver.workers_setWorker_of_ne hw]
      exact howes

end Stuck

/-! ## With room -/

/-- The worker's thread gets from one state to the other on its own. -/
def WorkerState.Runs (K : WorkerKind I J P) : WorkerState J P → WorkerState J P → Prop :=
  Relation.ReflTransGen fun wk wk' => wk.threadStep K true = some wk'

/-- The thread can come to its end. -/
def WorkerState.Exits (K : WorkerKind I J P) (wk : WorkerState J P) : Prop :=
  ∃ wk', wk.Runs K wk' ∧ wk'.thread = .exited

namespace WorkerState
variable {wk wk' : WorkerState J P}

theorem Exits.head (h : wk.threadStep K true = some wk') (hexits : wk'.Exits K) : wk.Exits K := by
  obtain ⟨last, hruns, hexit⟩ := hexits
  exact ⟨last, .head h hruns, hexit⟩

theorem exits_of_woken (hstopped : wk.stopped = true) (hat : wk.thread = .woken) : wk.Exits K := by
  have hstep : wk.threadStep K true = some { wk with thread := .exited } := by
    simp [threadStep, hat, hstopped]
  exact .head hstep ⟨_, .refl, rfl⟩

theorem exits_of_waiting (hstopped : wk.stopped = true) (hsem : 0 < wk.sem)
    (hat : wk.thread = .waiting) : wk.Exits K := by
  have hstep : wk.threadStep K true = some { wk with sem := wk.sem - 1, thread := .woken } := by
    simp [threadStep, hat, Nat.ne_of_gt hsem]
  exact .head hstep (exits_of_woken hstopped rfl)

/-- The induction is on what the thread has still to push for its job. -/
theorem exits_of_next {rs : List (Result P)} (hstopped : wk.stopped = true) (hsem : 0 < wk.sem)
    (hat : wk.thread = .next rs) (hroom : wk.results.length + rs.length ≤ K.resultQueueDepth - 1) :
    wk.Exits K := by
  induction rs generalizing wk with
  | nil => exact exits_of_waiting hstopped hsem hat
  | cons r rs ih =>
    rw [List.length_cons] at hroom
    let pushed : WorkerState J P :=
      { wk with results := wk.results ++ [r], thread := .ringing rs }
    let rung : WorkerState J P := { pushed with bell := true, thread := .next rs }
    have hpush : wk.threadStep K true = some pushed := by
      have hfits : wk.results.length < K.resultQueueDepth - 1 := by omega
      simp [threadStep, hat, Thread.next, hfits, pushed]
    have hring : pushed.threadStep K true = some rung := rfl
    have hlength : rung.results.length = wk.results.length + 1 := List.length_append
    have hlater : rung.Exits K := ih hstopped hsem rfl (by omega)
    exact .head hpush (.head hring hlater)

theorem exits_of_room (hstopped : wk.stopped = true) (hsem : 0 < wk.sem)
    (hroom : wk.results.length + wk.owed K ≤ K.resultQueueDepth - 1) : wk.Exits K := by
  cases hat : wk.thread with
  | starting =>
    have hstep : wk.threadStep K true = some { wk with thread := .waiting } := by
      simp [threadStep, hat]
    exact .head hstep (exits_of_waiting hstopped hsem rfl)
  | waiting => exact exits_of_waiting hstopped hsem hat
  | woken => exact exits_of_woken hstopped hat
  | popping =>
    cases hsub : wk.sub with
    | nil =>
      have hstep : wk.threadStep K true = some { wk with thread := .exited } := by
        simp [threadStep, hat, hsub]
      exact .head hstep ⟨_, .refl, rfl⟩
    | cons item sub =>
      have hstep : wk.threadStep K true =
          some { wk with sub, thread := .next (K.results item) } := by
        simp [threadStep, hat, hsub]
      simp only [owed, hat, hsub] at hroom
      exact .head hstep (exits_of_next hstopped hsem rfl hroom)
  | pushing r rest =>
    simp only [owed, hat] at hroom
    have hnext : wk.thread = .next (r :: rest) := hat
    exact exits_of_next hstopped hsem hnext hroom
  | ringing rest =>
    have hstep : wk.threadStep K true = some { wk with bell := true, thread := .next rest } := by
      simp [threadStep, hat]
    simp only [owed, hat] at hroom
    exact .head hstep (exits_of_next hstopped hsem rfl hroom)
  | exited => exact ⟨wk, .refl, hat⟩

end WorkerState

theorem exec_of_runs {k : ℕ} {wk wk' : WorkerState J P} (h : wk.Runs K wk') {s : State J P}
    (hk : k < s.size) (hwk : s.workers k = wk) :
    ∃ labels, (∀ a ∈ labels, a.duringClose = true) ∧
      (manager K n).exec s labels = some (s.setWorker k wk', []) := by
  induction h using Relation.ReflTransGen.head_induction_on generalizing s with
  | refl =>
    subst hwk
    refine ⟨[], by simp, ?_⟩
    rw [StateOver.setWorker, Function.update_eq_self]
    rfl
  | @head wk wk₁ hstep hruns ih =>
    subst hwk
    obtain ⟨labels, hlabels, hexec⟩ := ih (s := s.setWorker k wk₁) hk (by simp)
    refine ⟨.thread k true :: labels, ?_, ?_⟩
    · simpa [Label.duringClose] using hlabels
    · have hsame : (s.setWorker k wk₁).setWorker k wk' = s.setWorker k wk' := by
        simp [StateOver.setWorker]
      exact hsame ▸ Machine.exec_cons (step_thread hk hstep) hexec

/-- `stop()` of a worker whose ring has room returns. -/
theorem stop_returns {k : ℕ} {s : State J P} (hcall : s.call = .stop k .store) (hk : k < s.size)
    (hroom : (s.workers k).hasRoom K = true) :
    ∃ labels wk out, (∀ a ∈ labels, a.duringClose = true) ∧
      (manager K n).exec s labels = some ((s.setWorker k wk).stopFrom (k + 1), out) := by
  let flagged : WorkerState J P :=
    { s.workers k with stopped := true, sem := (s.workers k).sem + 1 }
  have hflagged : flagged.Exits K := by
    apply WorkerState.exits_of_room rfl (Nat.succ_pos _)
    exact of_decide_eq_true hroom
  obtain ⟨last, hruns, hexit⟩ := hflagged
  let joining : State J P := { s.setWorker k flagged with call := .stop k .join }
  have hflags : (manager K n).exec s [.stop, .stop] = some (joining, []) := by
    simp [manager, Machine.exec, step, hcall, State.stopStep, StateOver.stopStep,
      StateOver.setWorker, joining, flagged]
  obtain ⟨labels, hlabels, hexec⟩ := exec_of_runs (n := n) hruns (s := joining) hk
    (Function.update_self ..)
  have hjoin : (manager K n).step (joining.setWorker k last) .stop =
      some ((s.setWorker k { last with sub := [], results := [], closed := true }).stopFrom (k + 1),
        (last.drain K).map (.worker k)) := by
    simp [manager, step, joining, StateOver.setWorker, State.stopStep, StateOver.stopStep, hexit,
      StateOver.stopFrom, WorkerState.drained]
  refine ⟨[.stop, .stop] ++ (labels ++ [.stop]), _, _, ?_,
    Machine.exec_trans hflags (Machine.exec_trans hexec (Machine.exec_cons hjoin rfl))⟩
  intro a ha
  simp only [List.mem_append, List.mem_cons, List.not_mem_nil, or_false, or_self] at ha
  rcases ha with rfl | ha | rfl
  · rfl
  · exact hlabels a ha
  · rfl

/-- The workers are stopped one after the other, each with its own thread running. -/
theorem stopFrom_returns {d k : ℕ} {s : State J P} (hd : s.size - k = d)
    (hroom : ∀ j, k ≤ j → j < s.size → (s.workers j).hasRoom K = true) :
    ∃ labels s' out, (∀ a ∈ labels, a.duringClose = true) ∧
      (manager K n).exec (s.stopFrom k) labels = some (s', out) ∧ s'.call = .idle := by
  induction d generalizing k s with
  | zero =>
    refine ⟨[], _, _, by simp, rfl, ?_⟩
    rw [StateOver.stopFrom, if_neg (by omega)]
  | succ d ih =>
    have hk : k < s.size := by omega
    obtain ⟨labels, wk, out, hlabels, hexec⟩ := stop_returns (n := n)
      (s := { s with call := .stop k .store }) rfl hk (hroom k (Nat.le_refl k) hk)
    obtain ⟨labels', s', out', hlabels', hexec', hidle⟩ := ih (k := k + 1)
      (s := { s with call := .stop k .store }.setWorker k wk) (by simp [StateOver.setWorker]; omega)
      fun j hj hsize => by
        rw [StateOver.workers_setWorker_of_ne (by omega)]
        exact hroom j (by omega) hsize
    rw [StateOver.stopFrom, if_pos hk]
    refine ⟨labels ++ labels', s', _, ?_, Machine.exec_trans hexec hexec', hidle⟩
    intro a ha
    rcases List.mem_append.mp ha with ha | ha
    · exact hlabels a ha
    · exact hlabels' a ha

theorem State.jsClose_of_open {s : State J P} (h : s.cleared = false) :
    s.jsClose = s.stopFrom 0 := by
  rw [StateOver.jsClose, h, if_neg Bool.false_ne_true]

/-- `js_close` of a manager that was not closed before. -/
theorem State.Closes.exists_exec {s s' : State J P} {out : List (Output J P)}
    (h : s.Closes K n s' out) (hopen : s.cleared = false) :
    ∃ labels, (∀ a ∈ labels, a.duringClose = true) ∧
      (manager K n).exec (s.stopFrom 0) labels = some (s', out) ∧ s'.call = .idle := by
  obtain ⟨labels, hlabels, hexec, hidle⟩ := h
  obtain ⟨s₁, out₁, out₂, hstep, hrest, rfl⟩ := Machine.of_exec_cons hexec
  obtain ⟨-, hclose⟩ := Option.ite_none_right_eq_some.mp hstep
  cases hclose
  rw [jsClose_of_open hopen] at hrest
  exact ⟨labels, hlabels, hrest, hidle⟩

theorem closes_iff_room {s : State J P} {hist : List (Output J P)}
    (run : (manager K n).Reaches s hist) (hjs : s.inJs = true) (hopen : s.cleared = false) :
    (∃ s' out, s.Closes K n s' out) ↔ ∀ k < n, (s.workers k).hasRoom K = true := by
  have hsize := (Shape.reaches run).size
  constructor
  · rintro ⟨s', out, hcloses⟩ k hk
    obtain ⟨labels, hlabels, hexec, hidle⟩ := hcloses.exists_exec hopen
    by_contra hroom
    have hstart : s.stopFrom 0 = { s with call := .stop 0 .store } :=
      if_pos (Nat.lt_of_le_of_lt (Nat.zero_le k) (hsize ▸ hk))
    have hstuck : Stuck K k (s.stopFrom 0) := by
      rw [hstart]
      refine ⟨⟨0, .store, rfl, Nat.zero_le k⟩, hsize ▸ hk, reaches_results_le run k, ?_⟩
      simpa [WorkerState.hasRoom] using hroom
    have hlater : Stuck K k s' := Machine.exec_invariant_of_mem
      (fun s a ha s' out h hstep => h.step (hlabels a ha) hstep) hexec hstuck
    obtain ⟨j, pc, hcall, -⟩ := hlater.ahead
    rw [hidle] at hcall
    cases hcall
  · intro hroom
    obtain ⟨labels, s', out, hlabels, hexec, hidle⟩ := stopFrom_returns (n := n) (k := 0) (s := s) rfl
      fun j _ hj => hroom j (hsize ▸ hj)
    have hclose : (manager K n).step s .close = some (s.stopFrom 0, []) := by
      simp [manager, step, hjs, State.jsClose_of_open hopen]
    exact ⟨s', _, labels, hlabels, Machine.exec_cons hclose hexec, hidle⟩

/-! ## What `js_close` releases under a running callback -/

/-- The callback that is running was called last. -/
theorem WorkerStep.called_last {w : ℕ} {v v' : View J P} {es new : List (Event J P)}
    (h : WorkerStep K n w v new v')
    (hold : ∀ r, v.ready = some (.calling r) → ∃ rs, calledResults es = rs ++ [r]) :
    ∀ r, v'.ready = some (.calling r) → ∃ rs, calledResults (es ++ new) = rs ++ [r] := by
  rw [calledResults_append]
  cases h with
  | @pop _ r' =>
    rintro r ⟨⟩
    exact ⟨calledResults es, rfl⟩
  | answer | popNone | release | keep => exact nofun
  | join =>
    rw [calledResults_drain, List.append_nil]
    exact hold
  | unmoved | refuse | accept | enqueued | thread | storeStopped | postStopped =>
    intro r hready
    obtain ⟨rs, hrs⟩ := hold r hready
    exact ⟨rs, (List.append_nil _).trans hrs⟩

theorem reaches_called_last {s : State J P} {hist : List (Output J P)}
    (run : (manager K n).Reaches s hist) {w : ℕ} {r : Result P}
    (hready : s.ready = some (w, .calling r)) : ∃ rs, calledResults (own w hist) = rs ++ [r] := by
  have hlast : ∀ r, (s.view w).ready = some (.calling r) →
      ∃ rs, calledResults (own w hist) = rs ++ [r] := by
    clear hready
    induction run with
    | start h =>
      obtain rfl := h
      exact nofun
    | next run hstep ih =>
      rw [own_append]
      exact ((Shape.reaches run).view hstep w).called_last ih
  apply hlast
  rw [State.view, hready, readyOf_self]

namespace Ledger
variable {w : ℕ} {es : List (Event J P)} {v : View J P} {taken left : List (Item J)}
  {rest rs : List (Result P)} {r : Result P}

theorem count_of_called (h : Ledger K n w es v taken left rest)
    (hlast : calledResults es = rs ++ [r]) : ((acceptedItems es).map Item.ref).count r.ref = 1 := by
  have hmem : r.ref ∈ (acceptedItems es).map Item.ref := by
    obtain ⟨item, hitem, -, href⟩ := h.item_of_called (r := r) (by simp [hlast])
    exact List.mem_map.mpr ⟨item, hitem, href⟩
  exact Nat.le_antisymm (h.count_le_one r.ref) (List.count_pos_iff.mpr hmem)

/-- As long as more results of its job are to come, the callback is not released. -/
theorem releases_of_more (h : Ledger K n w es v taken left rest) (hopen : v.state.closed = false)
    (hlast : calledResults es = rs ++ [r]) (hmore : r.isDone = false) : releases r.ref es = [] := by
  have hcomplete : Complete (r :: rest) := by
    have hall := K.complete_flatMap taken
    rw [h.streamed, hlast, List.append_assoc] at hall
    exact hall.of_append
  have hmem : r.ref ∈ finals rest := by
    have hfinal := hcomplete.ref_mem_finals
    rwa [finals_cons, hmore, if_neg Bool.false_ne_true] at hfinal
  have hpos := List.count_pos_iff.mpr hmem
  have hcount := h.count_running hopen r.ref
  rw [h.count_of_called hlast] at hcount
  rw [← List.length_eq_zero_iff]
  omega

end Ledger

theorem State.cleared_of_stopFrom {k : ℕ} {s : State J P} (h : (s.stopFrom k).call = .idle) :
    (s.stopFrom k).cleared = true := by
  rcases s.call_stopFrom k with hstop | ⟨-, hcleared⟩
  · rw [h] at hstop
    cases hstop
  · exact hcleared

theorem State.Closes.frame {s s' : State J P} {out : List (Output J P)} (h : s.Closes K n s' out)
    (hopen : s.cleared = false) : s'.ready = s.ready ∧ s'.cleared = true := by
  obtain ⟨labels, hlabels, hexec, hidle⟩ := h.exists_exec hopen
  have hkeep : s'.ready = s.ready ∧ (s'.call = .idle → s'.cleared = true) := by
    apply Machine.exec_invariant_of_mem
      (I := fun t => t.ready = s.ready ∧ (t.call = .idle → t.cleared = true)) ?_ hexec
    · exact ⟨StateOver.ready_stopFrom 0 s, cleared_of_stopFrom⟩
    · intro t a ha t' o ht hstep
      refine ⟨(ready_duringClose (hlabels a ha) hstep).trans ht.1, ?_⟩
      rcases step_duringClose (hlabels a ha) hstep with ⟨k, pc, wk, next, -, -, -, -, rfl⟩ |
        ⟨k, wk, -, -, rfl⟩ | ⟨w, loaded, wk, -, rfl⟩
      · simp
      · exact cleared_of_stopFrom
      · exact ht.2
  exact ⟨hkeep.1, hkeep.2 hidle⟩

theorem State.Closes.reaches {s s' : State J P} {hist out : List (Output J P)}
    (h : s.Closes K n s' out) (run : (manager K n).Reaches s hist) :
    (manager K n).Reaches s' (hist ++ out) := by
  obtain ⟨labels, -, hexec, -⟩ := h
  exact run.exec hexec

/-- The reference of the running callback is released by `js_close` exactly when more
results of its job were to come: `stop()` finds the final one in the ring. -/
theorem released_under_callback {s s' : State J P} {hist out : List (Output J P)} {w : ℕ}
    {r : Result P} (run : (manager K n).Reaches s hist) (hcall : s.call = .idle)
    (hopen : s.cleared = false) (hready : s.ready = some (w, .calling r))
    (hcloses : s.Closes K n s' out) :
    (∃ place, .worker w (.released r.ref place) ∈ out) ↔ r.isDone = false := by
  have run' := hcloses.reaches run
  obtain ⟨hsame, hcleared⟩ := hcloses.frame hopen
  have hready' : s'.ready = some (w, .calling r) := hsame.trans hready
  obtain ⟨_, _, _, hledger⟩ := reaches_ledger run w
  obtain ⟨_, _, _, hledger'⟩ := reaches_ledger run' w
  obtain ⟨rs, hlast⟩ := reaches_called_last run hready
  obtain ⟨rs', hlast'⟩ := reaches_called_last run' hready'
  obtain ⟨item, hitem, -⟩ := hledger.item_of_called (r := r) (by simp [hlast])
  have hclosed : (s'.workers w).closed = true :=
    (Shape.reaches run').closed_of_cleared hcleared (hledger.home item hitem).2.1
  have hcount := hledger'.count_stopped hclosed r.ref
  have hheld : Ready.held (s'.view w).ready = finals [r] := by
    rw [State.view, hready', readyOf_self]
    rfl
  rw [hledger'.count_of_called hlast', hheld, own_append, releases_append, List.length_append]
    at hcount
  have hmem : (∃ place, .worker w (.released r.ref place) ∈ out) ↔
      0 < (releases r.ref (own w out)).length := by
    simp only [List.length_pos_iff_exists_mem, mem_releases, mem_own]
  rw [hmem]
  cases hdone : r.isDone with
  | true =>
    have hone : (finals [r]).count r.ref = 1 := by simp [finals, hdone]
    simp only [Bool.true_eq_false, iff_false]
    omega
  | false =>
    have hbefore := hledger.releases_of_more ((Shape.reaches run).open_of_idle hcall hopen w)
      hlast hdone
    have hnone : (finals [r]).count r.ref = 0 := by simp [finals, hdone]
    rw [hbefore, List.length_nil] at hcount
    simp only [iff_true]
    omega

end CapyJs.Worker
