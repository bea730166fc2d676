import CapyJs.Worker.OneWorker

/-!
# Where the references to a worker's callbacks are

The jobs a worker accepted split into those its thread took and those still in the
submission queue. The results of the former, in order, split into those the main
thread was called with, those in the result ring and those the thread has still to
push. A reference is released with the final result of its job, or by `stop()` where
it finds the job or that result.
-/
namespace CapyJs.Worker
open Transition

variable {I J P : Type*} {K : WorkerKind I J P} {n w : ℕ}

/-! ## What the events of a worker say -/

def acceptedItems (es : List (Event J P)) : List (Item J) :=
  es.filterMap fun
    | .accepted item => some item
    | _ => none

def calledResults (es : List (Event J P)) : List (Result P) :=
  es.filterMap fun
    | .called r => some r
    | _ => none

def releasedAt (place : Release) (es : List (Event J P)) : List Ref :=
  es.filterMap fun
    | .released ref place' => if place' = place then some ref else none
    | _ => none

section
variable (es es' : List (Event J P)) (place : Release)

@[simp] theorem acceptedItems_append :
    acceptedItems (es ++ es') = acceptedItems es ++ acceptedItems es' := List.filterMap_append

@[simp] theorem calledResults_append :
    calledResults (es ++ es') = calledResults es ++ calledResults es' := List.filterMap_append

@[simp] theorem releasedAt_append :
    releasedAt place (es ++ es') = releasedAt place es ++ releasedAt place es' :=
  List.filterMap_append

theorem acceptedItems_drain (wk : WorkerState J P) : acceptedItems (wk.drain K) = [] := by
  simp [acceptedItems, WorkerState.drain, List.filterMap_map]

theorem calledResults_drain (wk : WorkerState J P) : calledResults (wk.drain K) = [] := by
  simp [calledResults, WorkerState.drain, List.filterMap_map]

theorem releasedAt_drain (wk : WorkerState J P) :
    releasedAt .onResult (wk.drain K) = [] ∧
      releasedAt .submissionQueue (wk.drain K) = wk.sub.map Item.ref ∧
      releasedAt .resultQueue (wk.drain K) = K.drain wk.results := by
  simp [releasedAt, WorkerState.drain, List.filterMap_map]

end

/-- The results that the thread has still to push for the job it is at. -/
def Thread.remaining : Thread P → List (Result P)
  | .pushing r rest => r :: rest
  | .ringing rest => rest
  | _ => []

@[simp] theorem Thread.remaining_next (rs : List (Result P)) :
    (Thread.next rs).remaining = rs := by
  cases rs <;> rfl

/-- A step of the thread moves results towards the ring, or takes the next job. -/
inductive ThreadMoves (K : WorkerKind I J P) (wk wk' : WorkerState J P) : Prop
  | within (hsub : wk'.sub = wk.sub)
      (hmoved : wk'.results ++ wk'.thread.remaining = wk.results ++ wk.thread.remaining)
  | takes (item : Item J) (hsub : wk.sub = item :: wk'.sub) (hresults : wk'.results = wk.results)
      (hbefore : wk.thread.remaining = []) (hafter : wk'.thread.remaining = K.results item)

theorem WorkerState.threadStep_moves {wk wk' : WorkerState J P} {loaded : Bool}
    (h : wk.threadStep K loaded = some wk') : ThreadMoves K wk wk' := by
  unfold threadStep at h
  split at h
  · next hat =>
    cases h
    refine .within rfl ?_
    rw [hat]
    split_ifs <;> rfl
  · next hat =>
    split_ifs at h
    cases h
    exact .within rfl (by rw [hat]; rfl)
  · next hat =>
    cases h
    refine .within rfl ?_
    rw [hat]
    split_ifs <;> rfl
  · next hat =>
    split at h
    · cases h
      exact .within rfl (by rw [hat]; rfl)
    · next item sub hitem =>
      cases h
      exact .takes item hitem rfl (by rw [hat]; rfl) (Thread.remaining_next _)
  · next r rest hat =>
    split_ifs at h
    cases h
    exact .within rfl (by rw [hat]; simp [Thread.remaining])
  · next rest hat =>
    cases h
    exact .within rfl (by rw [hat, Thread.remaining_next]; rfl)
  · cases h

/-- The reference that `on_result` frees when the running callback returns. -/
def Ready.held : Option (Ready P) → List Ref
  | some (.calling r) => finals [r]
  | _ => []

theorem Ready.held_readyOf {ready : Option (ℕ × Ready P)}
    (h : ∀ w r, ready ≠ some (w, .calling r)) (w : ℕ) : Ready.held (readyOf w ready) = [] := by
  match ready with
  | none => rfl
  | some (w', .popping) => by_cases hw : w' = w <;> simp [readyOf, hw, held]
  | some (w', .calling r) => exact absurd rfl (h w' r)

/-! ## The ledger -/

/-- `taken` and `left` are the accepted jobs, and `rest` the results of those taken
that no callback was called with. -/
structure Ledger (K : WorkerKind I J P) (n w : ℕ) (es : List (Event J P)) (v : View J P)
    (taken left : List (Item J)) (rest : List (Result P)) : Prop where
  accepted : acceptedItems es = taken ++ left
  streamed : taken.flatMap K.results = calledResults es ++ rest
  home : ∀ item ∈ acceptedItems es, item.ref.worker = w ∧ w < n ∧ item.ref.seq < v.state.refs
  nodup : ((acceptedItems es).map Item.ref).Nodup
  delivered : releasedAt .onResult es ++ Ready.held v.ready = finals (calledResults es)
  running : v.state.closed = false → left = v.state.sub ∧
    rest = v.state.results ++ v.state.thread.remaining ∧
    releasedAt .submissionQueue es = [] ∧ releasedAt .resultQueue es = []
  stopped : v.state.closed = true → v.state.thread = .exited ∧ v.state.results = [] ∧
    releasedAt .submissionQueue es = left.map Item.ref ∧
    releasedAt .resultQueue es = finals rest

namespace Ledger
variable {es : List (Event J P)} {v : View J P} {taken left : List (Item J)}
  {rest : List (Result P)} {wk : WorkerState J P} {ready : Option (Ready P)}

/-- A result that was delivered belongs to a job that the worker accepted. -/
theorem item_of_called (h : Ledger K n w es v taken left rest) {r : Result P}
    (hr : r ∈ calledResults es) :
    ∃ item ∈ acceptedItems es, item.jobId = r.jobId ∧ item.ref = r.ref := by
  have hstream : r ∈ taken.flatMap K.results := by
    rw [h.streamed]
    exact List.mem_append_left _ hr
  obtain ⟨item, hitem, hresult⟩ := List.mem_flatMap.mp hstream
  refine ⟨item, ?_, (K.jobId_of_mem_results hresult).symm, (K.ref_of_mem_results hresult).symm⟩
  rw [h.accepted]
  exact List.mem_append_left left hitem

/-- A worker with a result in its ring has not been stopped, and the result is the next one
to be delivered. -/
theorem rest_of_results (h : Ledger K n w es v taken left rest) {r : Result P}
    {rs : List (Result P)} (hresults : v.state.results = r :: rs) :
    v.state.closed = false ∧ rest = r :: (rs ++ v.state.thread.remaining) := by
  have hopen : v.state.closed = false := by
    by_contra hstopped
    have hnone := (h.stopped (Bool.not_eq_false _ ▸ hstopped)).2.1
    rw [hresults] at hnone
    cases hnone
  refine ⟨hopen, ?_⟩
  rw [(h.running hopen).2.1, hresults]
  rfl

/-- A result in the ring comes from an item that the thread has taken. -/
theorem item_of_next (h : Ledger K n w es v taken left rest) {r : Result P}
    {rs : List (Result P)} (hresults : v.state.results = r :: rs) :
    ∃ item more, item ∈ taken ∧ r ∈ K.results item ∧
      taken.flatMap K.results = calledResults es ++ r :: more := by
  have hstream := h.streamed
  rw [(h.rest_of_results hresults).2] at hstream
  obtain ⟨item, htaken, hitem⟩ : ∃ item ∈ taken, r ∈ K.results item := by
    rw [← List.mem_flatMap, hstream]
    exact List.mem_append_right _ List.mem_cons_self
  exact ⟨item, _, htaken, hitem, hstream⟩

/-- Steps that leave the queues, the thread and the running callback alone. -/
theorem quiet (h : Ledger K n w es ⟨wk, ready⟩ taken left rest) {wk' : WorkerState J P}
    {ready' : Option (Ready P)} (hheld : Ready.held ready' = Ready.held ready)
    (hrefs : wk.refs ≤ wk'.refs) (hclosed : wk'.closed = wk.closed) (hsub : wk'.sub = wk.sub)
    (hresults : wk'.results = wk.results) (hthread : wk'.thread = wk.thread) :
    Ledger K n w es ⟨wk', ready'⟩ taken left rest := by
  obtain ⟨haccepted, hstreamed, hhome, hnodup, hdelivered, hrunning, hstopped⟩ := h
  refine ⟨haccepted, hstreamed, fun item hitem => ?_, hnodup, ?_, ?_, ?_⟩
  · obtain ⟨hworker, hw, hseq⟩ := hhome item hitem
    exact ⟨hworker, hw, hseq.trans_le hrefs⟩
  · simpa only [hheld] using hdelivered
  · simpa only [hclosed, hsub, hresults, hthread] using hrunning
  · simpa only [hclosed, hresults, hthread] using hstopped

/-- The ledger reads nothing else in the events. -/
theorem of_events (h : Ledger K n w es v taken left rest) {es' : List (Event J P)}
    (haccepted : acceptedItems es' = acceptedItems es)
    (hcalled : calledResults es' = calledResults es)
    (hreleased : ∀ place, releasedAt place es' = releasedAt place es) :
    Ledger K n w es' v taken left rest := by
  obtain ⟨_, _, _, _, _, _, _⟩ := h
  constructor <;> simpa only [haccepted, hcalled, hreleased]

theorem refuse (h : Ledger K n w es ⟨wk, ready⟩ taken left rest) (ref : Ref) :
    Ledger K n w (es ++ [Event.duplicated ref]) ⟨{ wk with refs := wk.refs + 1 }, ready⟩
      taken left rest := by
  have hquiet : Ledger K n w es ⟨{ wk with refs := wk.refs + 1 }, ready⟩ taken left rest :=
    h.quiet rfl (Nat.le_succ _) rfl rfl rfl rfl
  apply hquiet.of_events
  · simp [acceptedItems]
  · simp [calledResults]
  · simp [releasedAt]

theorem accept (h : Ledger K n w es ⟨wk, ready⟩ taken left rest) {item : Item J} (hw : w < n)
    (hopen : wk.closed = false) (href : item.ref = ⟨w, wk.refs⟩) :
    Ledger K n w (es ++ [Event.duplicated item.ref, .accepted item])
      ⟨{ wk with refs := wk.refs + 1, sub := wk.sub ++ [item] }, ready⟩
      taken (left ++ [item]) rest := by
  have haccepted : acceptedItems (es ++ [Event.duplicated item.ref, .accepted item]) =
    acceptedItems es ++ [item] := by simp [acceptedItems]
  have hcalled : calledResults (es ++ [Event.duplicated item.ref, .accepted item]) =
    calledResults es := by simp [calledResults]
  have hreleased (place) : releasedAt place (es ++ [Event.duplicated item.ref, .accepted item]) =
    releasedAt place es := by simp [releasedAt]
  refine ⟨?_, ?_, ?_, ?_, ?_, ?_, ?_⟩
  · rw [haccepted, h.accepted, List.append_assoc]
  · rw [hcalled]; exact h.streamed
  · rw [haccepted]
    intro item' hitem
    rcases List.mem_append.mp hitem with hold | hnew
    · obtain ⟨hworker, hw, hseq⟩ := h.home item' hold
      exact ⟨hworker, hw, Nat.lt_succ_of_lt hseq⟩
    · obtain rfl := List.mem_singleton.mp hnew
      simp [href, hw]
  · rw [haccepted, List.map_append, List.nodup_append]
    refine ⟨h.nodup, by simp, ?_⟩
    -- the number of the new reference is larger than those of all before
    intro ref hold ref' hnew heq
    obtain ⟨item', hitem, rfl⟩ := List.mem_map.mp hold
    have hseq := (h.home item' hitem).2.2
    rw [List.map_singleton, List.mem_singleton] at hnew
    rw [heq, hnew, href] at hseq
    exact Nat.lt_irrefl _ hseq
  · rw [hcalled, hreleased]; exact h.delivered
  · rw [hreleased, hreleased]
    intro _
    obtain ⟨hleft, hrest⟩ := h.running hopen
    exact ⟨by rw [hleft], hrest⟩
  · intro hclosed
    rw [hopen] at hclosed
    cases hclosed

theorem thread (h : Ledger K n w es ⟨wk, ready⟩ taken left rest) {wk' : WorkerState J P}
    {loaded : Bool} (hthread : wk.threadStep K loaded = some wk') :
    ∃ taken left rest, Ledger K n w es ⟨wk', ready⟩ taken left rest := by
  obtain ⟨hclosed, -, hrefs⟩ := WorkerState.threadStep_flags hthread
  have hopen : wk.closed = false := by
    by_contra hstopped
    have hexited : wk.thread = .exited := (h.stopped (Bool.not_eq_false _ ▸ hstopped)).1
    simp [WorkerState.threadStep, hexited] at hthread
  have hhome := hrefs ▸ h.home
  have hnot : wk'.closed ≠ true := by
    rw [hclosed, hopen]
    exact Bool.false_ne_true
  obtain ⟨hleft, hrest, hsubmission, hresult⟩ := h.running hopen
  cases WorkerState.threadStep_moves hthread with
  | within hsub hmoved =>
    refine ⟨taken, left, rest, h.accepted, h.streamed, hhome, h.nodup, h.delivered, ?_,
      fun hstop => absurd hstop hnot⟩
    intro _
    exact ⟨hleft.trans hsub.symm, hrest.trans hmoved.symm, hsubmission, hresult⟩
  | takes item hsub hresults hbefore hafter =>
    refine ⟨taken ++ [item], wk'.sub, rest ++ K.results item, ?_, ?_, hhome, h.nodup,
      h.delivered, ?_, fun hstop => absurd hstop hnot⟩
    · rw [h.accepted, hleft, hsub, List.append_assoc]
      rfl
    · rw [List.flatMap_append, h.streamed, List.append_assoc]
      simp
    · intro _
      refine ⟨rfl, ?_, hsubmission, hresult⟩
      rw [hrest, hbefore, hresults, hafter, List.append_nil]

theorem pop (h : Ledger K n w es ⟨wk, some .popping⟩ taken left rest) {r : Result P}
    {rs : List (Result P)} (hpop : wk.results = r :: rs) :
    ∃ rest, Ledger K n w (es ++ [Event.called r]) ⟨{ wk with results := rs }, some (.calling r)⟩
      taken left rest := by
  obtain ⟨hopen, hnext⟩ := h.rest_of_results hpop
  obtain ⟨hleft, -, hsubmission, hresult⟩ := h.running hopen
  have haccepted : acceptedItems (es ++ [Event.called r]) = acceptedItems es := by
    simp [acceptedItems]
  have hcalled : calledResults (es ++ [Event.called r]) = calledResults es ++ [r] := by
    simp [calledResults]
  have hreleased (place) : releasedAt place (es ++ [Event.called r]) = releasedAt place es := by
    simp [releasedAt]
  refine ⟨rs ++ wk.thread.remaining, ?_, ?_, ?_, ?_, ?_, ?_, ?_⟩
  · rw [haccepted]; exact h.accepted
  · rw [hcalled, h.streamed, hnext, List.append_assoc]
    rfl
  · rw [haccepted]; exact h.home
  · rw [haccepted]; exact h.nodup
  · rw [hcalled, finals_append, ← h.delivered, hreleased]
    simp [Ready.held]
  · intro _
    exact ⟨hleft, rfl, by rw [hreleased, hsubmission], by rw [hreleased, hresult]⟩
  · intro hstop
    rw [hopen] at hstop
    cases hstop

theorem release {r : Result P} (h : Ledger K n w es ⟨wk, some (.calling r)⟩ taken left rest)
    (hdone : r.isDone = true) {wk' : WorkerState J P} (hrefs : wk'.refs = wk.refs)
    (hclosed : wk'.closed = wk.closed) (hsub : wk'.sub = wk.sub)
    (hresults : wk'.results = wk.results) (hthread : wk'.thread = wk.thread) :
    Ledger K n w (es ++ [Event.released r.ref .onResult]) ⟨wk', some .popping⟩ taken left rest := by
  have haccepted : acceptedItems (es ++ [Event.released r.ref .onResult]) = acceptedItems es := by
    simp [acceptedItems]
  have hcalled : calledResults (es ++ [Event.released r.ref .onResult]) = calledResults es := by
    simp [calledResults]
  have hsubmission : releasedAt .submissionQueue (es ++ [Event.released r.ref .onResult]) =
    releasedAt .submissionQueue es := by simp [releasedAt]
  have hresult : releasedAt .resultQueue (es ++ [Event.released r.ref .onResult]) =
    releasedAt .resultQueue es := by simp [releasedAt]
  refine ⟨?_, ?_, ?_, ?_, ?_, ?_, ?_⟩
  · rw [haccepted]; exact h.accepted
  · rw [hcalled]; exact h.streamed
  · rw [haccepted, hrefs]; exact h.home
  · rw [haccepted]; exact h.nodup
  · rw [hcalled, ← h.delivered]
    simp [Ready.held, releasedAt, finals, hdone]
  · rw [hclosed, hsub, hresults, hthread, hsubmission, hresult]; exact h.running
  · rw [hclosed, hresults, hthread, hsubmission, hresult]; exact h.stopped

theorem join (h : Ledger K n w es ⟨wk, ready⟩ taken left rest) (hexit : wk.thread = .exited)
    (hopen : wk.closed = false) :
    Ledger K n w (es ++ wk.drain K)
      ⟨{ wk with sub := [], results := [], closed := true }, ready⟩ taken left rest := by
  obtain ⟨hleft, hrest, hsubmission, hresult⟩ := h.running hopen
  obtain ⟨hon, hsub, hres⟩ := releasedAt_drain (K := K) wk
  -- the thread has pushed all results of the jobs it took
  have hring : rest = wk.results := by
    rw [hrest, hexit]
    exact List.append_nil _
  refine ⟨?_, ?_, ?_, ?_, ?_, ?_, ?_⟩
  · rw [acceptedItems_append, acceptedItems_drain, List.append_nil]; exact h.accepted
  · rw [calledResults_append, calledResults_drain, List.append_nil]; exact h.streamed
  · rw [acceptedItems_append, acceptedItems_drain, List.append_nil]; exact h.home
  · rw [acceptedItems_append, acceptedItems_drain, List.append_nil]; exact h.nodup
  · rw [calledResults_append, calledResults_drain, releasedAt_append, hon, List.append_nil,
      List.append_nil]
    exact h.delivered
  · intro hclosed
    cases hclosed
  · intro _
    refine ⟨hexit, rfl, ?_, ?_⟩
    · rw [releasedAt_append, hsubmission, hsub, hleft]
      rfl
    · rw [releasedAt_append, hresult, hres, ← hring, K.drain_of_append h.streamed]
      rfl

/-- Each step of the worker is entered into the ledger. -/
theorem step (h : Ledger K n w es v taken left rest) {new : List (Event J P)} {v' : View J P}
    (hstep : WorkerStep K n w v new v') :
    ∃ taken left rest, Ledger K n w (es ++ new) v' taken left rest := by
  cases hstep with
  | unmoved => exact ⟨_, _, _, by rwa [List.append_nil]⟩
  | refuse => exact ⟨_, _, _, h.refuse _⟩
  | accept ready item hw hopen _ href => exact ⟨_, _, _, h.accept hw hopen href⟩
  | enqueued =>
    rw [List.append_nil]
    exact ⟨_, _, _, h.quiet rfl (Nat.le_refl _) rfl rfl rfl rfl⟩
  | thread ready hthread =>
    rw [List.append_nil]
    exact h.thread hthread
  | answer =>
    rw [List.append_nil]
    exact ⟨_, _, _, h.quiet rfl (Nat.le_refl _) rfl rfl rfl rfl⟩
  | popNone =>
    rw [List.append_nil]
    exact ⟨_, _, _, h.quiet rfl (Nat.le_refl _) rfl rfl rfl rfl⟩
  | pop hpop => exact ⟨_, _, h.pop hpop⟩
  | release hdone => exact ⟨_, _, _, h.release hdone rfl rfl rfl rfl rfl⟩
  | @keep _ r hdone =>
    rw [List.append_nil]
    have hheld : Ready.held (some (.popping : Ready P)) = Ready.held (some (.calling r)) := by
      simp [Ready.held, finals, hdone]
    exact ⟨_, _, _, h.quiet hheld (Nat.le_refl _) rfl rfl rfl rfl⟩
  | storeStopped =>
    rw [List.append_nil]
    exact ⟨_, _, _, h.quiet rfl (Nat.le_refl _) rfl rfl rfl rfl⟩
  | postStopped =>
    rw [List.append_nil]
    exact ⟨_, _, _, h.quiet rfl (Nat.le_refl _) rfl rfl rfl rfl⟩
  | join ready hexit hopen => exact ⟨_, _, _, h.join hexit hopen⟩

end Ledger

/-- In every run each worker has a ledger. -/
theorem reaches_ledger {s : State J P} {hist : List (Output J P)}
    (run : (manager K n).Reaches s hist) (w : ℕ) :
    ∃ taken left rest, Ledger K n w (own w hist) (s.view w) taken left rest := by
  induction run with
  | start h =>
    obtain rfl := h
    refine ⟨[], [], [], rfl, rfl, ?_, List.nodup_nil, rfl, fun _ => ⟨rfl, rfl, rfl, rfl⟩, ?_⟩
    · intro item hitem
      cases hitem
    · intro hclosed
      cases hclosed
  | next run hstep ih =>
    obtain ⟨_, _, _, hledger⟩ := ih
    rw [own_append]
    exact hledger.step ((Shape.reaches run).view hstep w)

end CapyJs.Worker
