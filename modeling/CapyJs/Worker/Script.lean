import CapyJs.Worker.Callbacks
import Mathlib.Algebra.Group.Nat.Defs

/-!
# The thread of a JS worker and its script

`JSWorker::run` returns before its first `dequeue` when the script cannot be read or is
empty, when its evaluation throws, or when it does not define a function `process`. Nothing
tells the manager, which goes on to give the worker jobs.
-/
namespace CapyJs.Worker
open Transition

/-- What a worker's thread finds its script to be. -/
structure Script where
  /-- what `load_file` returns, empty for a file that cannot be read -/
  source : Text
  evalThrows : Bool
  processIsFunction : Bool

/-- The thread gets past the three early returns of `run()`. -/
def Script.starts (script : Script) : Bool :=
  !script.source.isEmpty && !script.evalThrows && script.processIsFunction

section
variable {I J P : Type*} {K : WorkerKind I J P} {n : ℕ}

/-- The thread of worker `w` finds `scripts w`. -/
def follows (scripts : ℕ → Script) : Label I → Prop
  | .thread w loaded => loaded = (scripts w).starts
  | _ => True

instance (scripts : ℕ → Script) (a : Label I) : Decidable (follows scripts a) :=
  match a with
  | .thread _ _ => inferInstanceAs (Decidable (_ = _))
  | .dispatch .. | .enqueue | .close | .stop | .ready _ | .pop | .callbackReturns => .isTrue trivial

/-- Every job whose id was returned has had a result passed to `on_result`, or the thread of
its worker has not exited. -/
def Consumed (hist : List (Output J P)) (s : State J P) : Prop :=
  ∀ w item, .worker w (.accepted item) ∈ hist → .returned item.jobId ∈ hist →
    (∃ r, .worker w (.called r) ∈ hist ∧ r.ref = item.ref) ∨ (s.workers w).thread ≠ .exited

/-! ## Threads that start -/

/-- The thread has been woken for a job it has not popped yet. -/
def Thread.inHand : Thread P → ℕ
  | .woken | .popping => 1
  | _ => 0

/-- The thread runs, and each post of the semaphore that it took or can take stands for a job in
the queue. `posting` jobs are in the queue whose post is still to come. -/
structure Fed (posting : ℕ) (wk : WorkerState J P) : Prop where
  running : wk.thread ≠ .exited
  flag : wk.stopped = false
  posts : wk.sem + wk.thread.inHand + posting ≤ wk.sub.length

theorem Thread.inHand_next (rs : List (Result P)) :
    (Thread.next rs).inHand = 0 ∧ Thread.next rs ≠ .exited := by
  cases rs with
  | nil => exact ⟨rfl, nofun⟩
  | cons r rs => exact ⟨rfl, nofun⟩

theorem Fed.thread {posting : ℕ} {wk wk' : WorkerState J P} {loaded : Bool} (h : Fed posting wk)
    (hloaded : loaded = true) (hstep : wk.threadStep K loaded = some wk') : Fed posting wk' := by
  obtain ⟨hrunning, hflag, hposts⟩ := h
  subst hloaded
  unfold WorkerState.threadStep at hstep
  split at hstep
  · next hat =>
    cases hstep
    simp only [hat, Thread.inHand] at hposts
    exact ⟨by simp, hflag, by simpa [Thread.inHand] using hposts⟩
  · next hat =>
    split_ifs at hstep
    cases hstep
    simp only [hat, Thread.inHand] at hposts
    refine ⟨nofun, hflag, ?_⟩
    simp only [Thread.inHand]
    omega
  · next hat =>
    cases hstep
    simp only [hat, Thread.inHand] at hposts
    exact ⟨by simp [hflag], hflag, by simpa [hflag, Thread.inHand] using hposts⟩
  · next hat =>
    simp only [hat, Thread.inHand] at hposts
    split at hstep
    · next hsub =>
      -- a woken thread finds the job it was woken for
      rw [hsub, List.length_nil] at hposts
      omega
    · next item sub hsub =>
      cases hstep
      obtain ⟨hzero, hne⟩ := Thread.inHand_next (K.results item)
      rw [hsub, List.length_cons] at hposts
      refine ⟨hne, hflag, ?_⟩
      simp only [hzero]
      omega
  · next hat =>
    split_ifs at hstep
    cases hstep
    simp only [hat, Thread.inHand] at hposts
    exact ⟨nofun, hflag, hposts⟩
  · next rest hat =>
    cases hstep
    obtain ⟨hzero, hne⟩ := Thread.inHand_next rest
    simp only [hat, Thread.inHand] at hposts
    exact ⟨hne, hflag, by simpa only [hzero] using hposts⟩
  · cases hstep

/-- How many jobs of worker `w` the main thread has pushed and not posted yet. -/
def State.posting (s : State J P) (w : ℕ) : ℕ :=
  match s.call with
  | .enqueue w' _ => if w' = w then 1 else 0
  | _ => 0

theorem State.posting_of_idle {s : State J P} (h : s.call = .idle) (w : ℕ) : s.posting w = 0 := by
  rw [posting, h]

/-- Until `close()` is called every worker is fed. -/
def AllFed (s : State J P) : Prop := s.BeforeClose → ∀ w, Fed (s.posting w) (s.workers w)

namespace AllFed
variable {s s' : State J P}

/-- A step that changes one worker, in a call of its own or none. -/
theorem setWorker (h : AllFed s) {w : ℕ} {wk : WorkerState J P}
    (hbefore : s'.BeforeClose → s.BeforeClose) (hworkers : s'.workers = (s.setWorker w wk).workers)
    (hposting : ∀ w', w' ≠ w → s'.posting w' = s.posting w')
    (hwk : Fed (s.posting w) (s.workers w) → Fed (s'.posting w) wk) : AllFed s' := by
  intro hclose w'
  have hfed := h (hbefore hclose)
  rw [hworkers]
  by_cases hw : w' = w
  · subst hw
    rw [StateOver.workers_setWorker_self]
    exact hwk (hfed w')
  · rw [StateOver.workers_setWorker_of_ne hw, hposting w' hw]
    exact hfed w'

theorem of_eq (h : AllFed s) (hbefore : s'.BeforeClose → s.BeforeClose)
    (hworkers : s'.workers = s.workers) (hcall : s'.call = s.call) : AllFed s' := by
  intro hclose w
  have hposting : s'.posting w = s.posting w := by rw [State.posting, State.posting, hcall]
  rw [hworkers, hposting]
  exact h (hbefore hclose) w

/-- Changes of what the thread does not read. -/
theorem fed_of_eq {posting : ℕ} {wk wk' : WorkerState J P} (h : Fed posting wk)
    (hthread : wk'.thread = wk.thread) (hflag : wk'.stopped = wk.stopped) (hsem : wk'.sem = wk.sem)
    (hsub : wk'.sub = wk.sub) : Fed posting wk' := by
  obtain ⟨hrunning, hstopped, hposts⟩ := h
  exact ⟨hthread ▸ hrunning, hflag ▸ hstopped, by rw [hsem, hthread, hsub]; exact hposts⟩

theorem dispatch (h : AllFed s) (hidle : s.call = .idle) {input : I} {out : List (Output J P)}
    (hstep : Dispatched K s input s' out) : AllFed s' := by
  cases hstep with
  | threw e => exact h
  | refused w e =>
    refine h.setWorker id rfl (fun _ _ => rfl) fun hfed => ?_
    exact fed_of_eq hfed rfl rfl rfl rfl
  | accepted w =>
    refine h.setWorker (fun hclose => ⟨hclose.1, by simp [hidle]⟩) rfl ?_ fun hfed => ?_
    · intro w' hne
      rw [State.posting_of_idle hidle, State.posting]
      exact if_neg hne.symm
    · obtain ⟨hrunning, hflag, hposts⟩ := hfed
      rw [State.posting_of_idle hidle] at hposts
      refine ⟨hrunning, hflag, ?_⟩
      simp only [State.posting, if_true, List.length_append, List.length_singleton]
      omega

theorem enqueued (h : AllFed s) {w : ℕ} {j : UInt64} (hcall : s.call = .enqueue w j) :
    AllFed (s.enqueued w j) := by
  refine h.setWorker (fun hclose => ⟨hclose.1, by simp [hcall]⟩) rfl ?_ fun hfed => ?_
  · intro w' hne
    rw [State.posting_of_idle rfl, State.posting, hcall]
    exact (if_neg hne.symm).symm
  · obtain ⟨hrunning, hflag, hposts⟩ := hfed
    rw [State.posting, hcall] at hposts
    simp only [if_true] at hposts
    refine ⟨hrunning, hflag, ?_⟩
    rw [State.posting_of_idle rfl]
    dsimp only
    omega

theorem step (h : AllFed s) {a : Label I} {out : List (Output J P)}
    (hloaded : ∀ w loaded, a = .thread w loaded → w < s.size → loaded = true)
    (hstep : Worker.step K s a = some (s', out)) : AllFed s' := by
  cases moves_of_step hstep with
  | dispatch hjs hd => exact h.dispatch (StateOver.call_of_inJs hjs) hd
  | enqueue hcall => exact h.enqueued hcall
  | closeAgain => exact h
  | close | join => exact fun hclose => absurd hclose (State.not_beforeClose_stopFrom _ _)
  | store | post => exact fun hclose => absurd rfl (hclose.2 _ _)
  | ready | pop | release =>
    exact h.setWorker id rfl (fun _ _ => rfl) fun hfed => fed_of_eq hfed rfl rfl rfl rfl
  | popNone | keep => exact h.of_eq id rfl rfl
  | thread hw hthread =>
    exact h.setWorker id rfl (fun _ _ => rfl) fun hfed => hfed.thread (hloaded _ _ rfl hw) hthread

end AllFed

/-- Where every script starts its worker, no thread exits before `close()`. -/
theorem allFed_of_starts {scripts : ℕ → Script} (hstarts : ∀ w < n, (scripts w).starts = true)
    {s : State J P} {hist : List (Output J P)}
    (run : ((manager K n).guarded fun _ a => follows scripts a).Reaches s hist) : AllFed s := by
  induction run with
  | start h =>
    obtain rfl := h
    exact fun _ w => ⟨nofun, rfl, le_refl 0⟩
  | next run hstep ih =>
    obtain ⟨hfollows, hstep⟩ := Machine.guarded_step.mp hstep
    refine ih.step ?_ hstep
    rintro w loaded rfl hw
    rw [(Shape.reaches run.of_guarded).size] at hw
    exact hfollows.trans (hstarts w hw)

/-! ## A thread that does not start -/

/-- The thread of worker `w` has returned and the first `k` workers have got a job each. -/
structure Dealt (n w k : ℕ) (hist : List (Output J P)) (s : State J P) : Prop where
  size : s.size = n
  cleared : s.cleared = false
  call : s.call = .idle
  ready : s.ready = none
  turn : s.nextWorkerIdx.toNat = k
  empty : ∀ w', k ≤ w' → (s.workers w').sub = []
  exited : (s.workers w).thread = .exited
  uncalled : ∀ w' r, .worker w' (.called r) ∉ hist
  dealt : ∀ w' < k, ∃ item, .worker w' (.accepted item) ∈ hist ∧ .returned item.jobId ∈ hist

theorem Dealt.beforeClose {w k : ℕ} {hist : List (Output J P)} {s : State J P}
    (h : Dealt n w k hist s) : s.BeforeClose :=
  ⟨h.cleared, by simp [h.call]⟩

theorem Dealt.not_consumed {w k : ℕ} {hist : List (Output J P)} {s : State J P}
    (h : Dealt n w k hist s) (hw : w < k) : ¬ Consumed hist s := by
  intro hconsumed
  obtain ⟨item, haccepted, hreturned⟩ := h.dealt w hw
  rcases hconsumed w item haccepted hreturned with ⟨r, hcalled, -⟩ | hrunning
  · exact h.uncalled w r hcalled
  · exact hrunning h.exited

/-- When the script of a worker does not start it, jobs can be dealt to it all the same. -/
theorem exists_dealt {scripts : ℕ → Script} {w : ℕ} (hw : w < n) (hn : n < 2 ^ 64)
    (hscript : (scripts w).starts = false) (hmay : K.mayNotStart = true)
    (hdepth : 1 < K.queueDepth) {input : I} {job : J} (hjob : K.toJob input = .ok job) {k : ℕ}
    (hk : k ≤ n) :
    ∃ s hist, ((manager K n).guarded fun _ a => follows scripts a).Reaches s hist ∧
      Dealt n w k hist s := by
  induction k with
  | zero =>
    let gone : WorkerState J P := { WorkerState.initial with thread := .exited }
    let s : State J P := (State.initial n).setWorker w gone
    have hstep : (manager K n).step (.initial n) (.thread w false) = some (s, []) := by
      have hthread : (WorkerState.initial : WorkerState J P).threadStep K false = some gone := by
        simp [WorkerState.threadStep, WorkerState.initial, hmay, gone]
      exact step_thread hw hthread
    have hfollows : follows scripts (.thread w false : Label I) := hscript.symm
    have run : ((manager K n).guarded fun _ a => follows scripts a).Reaches s ([] ++ []) :=
      (Machine.Reaches.start rfl).next (Machine.guarded_step.mpr ⟨hfollows, hstep⟩)
    refine ⟨s, [], run, ⟨rfl, rfl, rfl, rfl, rfl, ?_, ?_, by simp, by simp⟩⟩
    · intro w' _
      by_cases hne : w' = w
      · subst hne
        rw [StateOver.workers_setWorker_self]
        rfl
      · rw [StateOver.workers_setWorker_of_ne hne]
        rfl
    · rw [StateOver.workers_setWorker_self]
  | succ k ih =>
    obtain ⟨s, hist, run, hdealt⟩ := ih (by omega)
    have hjs : s.inJs = true := by simp [StateOver.inJs, hdealt.call, hdealt.ready]
    have hturn : s.nextWorkerIdx.toNat % s.size = k := by
      rw [hdealt.turn, hdealt.size, Nat.mod_eq_of_lt (by omega)]
    have hroom : (s.workers k).sub.length < K.queueDepth - 1 := by
      rw [hdealt.empty k (le_refl k), List.length_nil]
      omega
    obtain ⟨s₁, s₂, wk, item, hdispatch, henqueue, hsize, hcleared, hcall, hready, hidx, hworkers,
      -, hthread⟩ := exists_dispatch n hjs hdealt.cleared (by rw [hdealt.size]; omega) hjob hturn hroom
    have hfollows : follows scripts (.dispatch true input) ∧ follows scripts (.enqueue : Label I) :=
      ⟨trivial, trivial⟩
    have run₁ := run.next (Machine.guarded_step.mpr ⟨hfollows.1, hdispatch⟩)
    have run₂ := run₁.next (Machine.guarded_step.mpr ⟨hfollows.2, henqueue⟩)
    refine ⟨s₂, _, run₂, hsize.trans hdealt.size, hcleared, hcall, hready.trans hdealt.ready, ?_, ?_,
      ?_, ?_, ?_⟩
    · rw [hidx, UInt64.toNat_add, hdealt.turn]
      exact Nat.mod_eq_of_lt (by simp; omega)
    · intro w' hle
      rw [hworkers, Function.update_of_ne (by omega)]
      exact hdealt.empty w' (by omega)
    · rw [hworkers]
      by_cases hne : w = k
      · subst hne
        rw [Function.update_self, hthread]
        exact hdealt.exited
      · rw [Function.update_of_ne hne]
        exact hdealt.exited
    · intro w' r hmem
      simp only [List.mem_append, List.mem_cons, List.not_mem_nil, or_false] at hmem
      rcases hmem with (hmem | hmem | hmem) | hmem
      · exact hdealt.uncalled w' r hmem
      all_goals cases hmem
    · intro w' hlt
      by_cases hlast : w' = k
      · subst hlast
        exact ⟨item, by simp, by simp⟩
      · obtain ⟨item', haccepted, hreturned⟩ := hdealt.dealt w' (by omega)
        exact ⟨item', by simp [haccepted], by simp [hreturned]⟩

end

/-- Every accepted job has a thread that will come for it exactly when the script starts the
thread of every worker. -/
theorem accepted_consumed_iff {n : ℕ} (hn : n < 2 ^ 31) (scripts : ℕ → Script) :
    (∀ s hist, ((manager jsWorker n).guarded fun _ a => follows scripts a).Reaches s hist →
      s.BeforeClose → Consumed hist s) ↔ ∀ w < n, (scripts w).starts = true := by
  constructor
  · intro hconsumed w hw
    by_contra hnot
    have hjob : jsWorker.toJob ⟨some [], .value none⟩ = .ok ⟨[], .value none⟩ := rfl
    obtain ⟨s, hist, run, hdealt⟩ := exists_dealt hw (by omega) (Bool.not_eq_true _ ▸ hnot) rfl
      (by decide) hjob hw
    exact hdealt.not_consumed (Nat.lt_succ_self w) (hconsumed s hist run hdealt.beforeClose)
  · intro hstarts s hist run hbefore w item _ _
    exact .inr (allFed_of_starts hstarts run hbefore w).running

/-- A script that defines `process`. -/
def goodScript : ℕ → Script := fun _ => ⟨ascii "function process(x) \x7b return x \x7d", false, true⟩

theorem accepted_consumed_first_job :
    ∃ (s : State JSJob JSResult) (hist : List (Output JSJob JSResult)),
      ((manager jsWorker 1).guarded fun _ a => follows goodScript a).Reaches s hist ∧
        s.BeforeClose ∧ (acceptedItems (events hist)).length = 1 ∧ Consumed hist s := by
  let labels : List (Label JSInput) :=
    [.thread 0 true, .dispatch true ⟨some [], .value none⟩, .enqueue]
  have hrun : ((manager jsWorker 1).guarded fun _ a => follows goodScript a).exec
      (.initial 1) labels = some (_, _) := rfl
  have run := Machine.reaches_exec labels rfl hrun
  refine ⟨_, _, run, ⟨rfl, nofun⟩, rfl, ?_⟩
  exact (accepted_consumed_iff (by decide) goodScript).mpr (fun _ _ => rfl) _ _ run ⟨rfl, nofun⟩

def emptyScript : ℕ → Script := fun _ => ⟨[], false, false⟩

/-- With an empty script the thread is gone before the first job comes. -/
theorem accepted_unconsumed_empty_script :
    ∃ (s : State JSJob JSResult) (hist : List (Output JSJob JSResult)),
      ((manager jsWorker 1).guarded fun _ a => follows emptyScript a).Reaches s hist ∧
        s.BeforeClose ∧ ¬ Consumed hist s := by
  have hscript : (emptyScript 0).starts = false := rfl
  have hjob : jsWorker.toJob ⟨some [], .value none⟩ = .ok ⟨[], .value none⟩ := rfl
  obtain ⟨s, hist, run, hdealt⟩ :=
    exists_dealt Nat.one_pos (by decide) hscript rfl (by decide) hjob (le_refl 1)
  exact ⟨s, hist, run, hdealt.beforeClose, hdealt.not_consumed Nat.one_pos⟩

end CapyJs.Worker
