import CapyJs.Worker.Kinds
import CapyJs.Worker.Ledger
import Mathlib.Data.List.Count
import Mathlib.Data.List.Nodup

/-!
# Every accepted callback is released exactly once
-/
namespace CapyJs.Worker
open Transition

variable {I J P : Type*} {K : WorkerKind I J P} {n w : ℕ}

/-- The events of all workers. -/
def events (hist : List (Output J P)) : List (Event J P) :=
  hist.filterMap fun
    | .worker _ e => some e
    | _ => none

def calls (ref : Ref) (es : List (Event J P)) : List (Result P) :=
  es.filterMap fun
    | .called r => if r.ref = ref then some r else none
    | _ => none

def releases (ref : Ref) (es : List (Event J P)) : List Release :=
  es.filterMap fun
    | .released ref' place => if ref' = ref then some place else none
    | _ => none

@[simp] theorem releases_append (ref : Ref) (es es' : List (Event J P)) :
    releases ref (es ++ es') = releases ref es ++ releases ref es' := List.filterMap_append

theorem mem_releases {ref : Ref} {place : Release} {es : List (Event J P)} :
    place ∈ releases ref es ↔ .released ref place ∈ es := by
  simp only [releases, List.mem_filterMap]
  constructor
  · rintro ⟨e, he, heq⟩
    cases e with
    | released ref' place' =>
      simp only [Option.ite_none_right_eq_some, Option.some.injEq] at heq
      obtain ⟨rfl, rfl⟩ := heq
      exact he
    | _ => cases heq
  · intro h
    exact ⟨_, h, if_pos rfl⟩

theorem mem_own {e : Event J P} {hist : List (Output J P)} :
    e ∈ own w hist ↔ .worker w e ∈ hist := by
  simp only [own, List.mem_filterMap]
  constructor
  · rintro ⟨o, ho, heq⟩
    cases o with
    | worker w' e' =>
      simp only [Option.ite_none_right_eq_some, Option.some.injEq] at heq
      obtain ⟨rfl, rfl⟩ := heq
      exact ho
    | returned | threw => cases heq
  · intro h
    exact ⟨_, h, if_pos rfl⟩

/-- What concerns a single worker can be read from that worker's events. -/
theorem filterMap_events {γ : Type*} (f : Event J P → Option γ) {hist : List (Output J P)}
    (h : ∀ w' e, e ∈ own w' hist → (f e).isSome → w' = w) :
    (events hist).filterMap f = (own w hist).filterMap f := by
  rw [events, own, List.filterMap_filterMap, List.filterMap_filterMap]
  apply List.filterMap_congr
  intro o ho
  cases o with
  | returned | threw => rfl
  | worker w' e =>
    by_cases hw : w' = w
    · simp [hw]
    · have hnone : f e = none := by
        rw [← Option.not_isSome_iff_eq_none]
        exact fun hsome => hw (h w' e (mem_own.mpr ho) hsome)
      simp [hw, hnone]

theorem calls_eq_filter (ref : Ref) (es : List (Event J P)) :
    calls ref es = (calledResults es).filter fun r => r.ref = ref := by
  rw [calls, calledResults, List.filter_filterMap]
  apply List.filterMap_congr
  intro e _
  cases e with
  | called r => by_cases h : r.ref = ref <;> simp [h, Option.filter]
  | _ => rfl

theorem count_releases (ref : Ref) (place : Release) (es : List (Event J P)) :
    (releases ref es).count place = (releasedAt place es).count ref := by
  induction es with
  | nil => rfl
  | cons e es ih =>
    cases e with
    | released ref' place' =>
      simp only [releases, releasedAt, List.filterMap_cons] at ih ⊢
      by_cases href : ref' = ref <;> by_cases hplace : place' = place
      · simp only [href, hplace, if_true, List.count_cons_self, ih]
      · simp only [href, hplace, if_true, if_false, List.count_cons_of_ne hplace, ih]
      · simp only [href, hplace, if_true, if_false, List.count_cons_of_ne href, ih]
      · simp only [href, hplace, if_false, ih]
    | _ => exact ih

theorem length_releases (ref : Ref) (es : List (Event J P)) :
    (releases ref es).length = (releasedAt .onResult es).count ref +
      (releasedAt .submissionQueue es).count ref + (releasedAt .resultQueue es).count ref := by
  rw [← count_releases, ← count_releases, ← count_releases]
  induction releases ref es with
  | nil => rfl
  | cons place places ih =>
    cases place <;> simp [ih] <;> omega

/-! ## Consequences of the ledger -/

namespace Ledger
variable {es : List (Event J P)} {v : View J P} {taken left : List (Item J)}
  {rest : List (Result P)}

theorem refs_eq (h : Ledger K n w es v taken left rest) :
    (acceptedItems es).map Item.ref =
      finals (calledResults es) ++ finals rest ++ left.map Item.ref := by
  rw [h.accepted, List.map_append, ← K.finals_flatMap, h.streamed, finals_append]

theorem complete_rest (h : Ledger K n w es v taken left rest) : Complete rest := by
  have hcomplete := K.complete_flatMap taken
  rw [h.streamed] at hcomplete
  exact hcomplete.of_append

/-- Until the worker is stopped, a reference is released, held for the running
callback, in the stream of results or in the submission queue. -/
theorem count_running (h : Ledger K n w es v taken left rest) (hopen : v.state.closed = false)
    (ref : Ref) : (releases ref es).length + (Ready.held v.ready).count ref +
      (finals rest).count ref + (left.map Item.ref).count ref =
        ((acceptedItems es).map Item.ref).count ref := by
  obtain ⟨-, -, hsubmission, hresult⟩ := h.running hopen
  have hdelivered := congrArg (List.count ref) h.delivered
  rw [List.count_append] at hdelivered
  rw [h.refs_eq, length_releases, hsubmission, hresult, List.count_append, List.count_append,
    ← hdelivered, List.count_nil]
  omega

theorem count_stopped (h : Ledger K n w es v taken left rest) (hclosed : v.state.closed = true)
    (ref : Ref) : (releases ref es).length + (Ready.held v.ready).count ref =
        ((acceptedItems es).map Item.ref).count ref := by
  obtain ⟨-, -, hsubmission, hresult⟩ := h.stopped hclosed
  have hdelivered := congrArg (List.count ref) h.delivered
  rw [List.count_append] at hdelivered
  rw [h.refs_eq, length_releases, hsubmission, hresult, List.count_append, List.count_append,
    ← hdelivered]
  omega

theorem length_releases_le (h : Ledger K n w es v taken left rest) (ref : Ref) :
    (releases ref es).length ≤ ((acceptedItems es).map Item.ref).count ref := by
  cases hclosed : v.state.closed with
  | false => have hcount := h.count_running hclosed ref; omega
  | true => have hcount := h.count_stopped hclosed ref; omega

theorem count_le_one (h : Ledger K n w es v taken left rest) (ref : Ref) :
    ((acceptedItems es).map Item.ref).count ref ≤ 1 := List.nodup_iff_count_le_one.mp h.nodup ref

theorem worker_of_released (h : Ledger K n w es v taken left rest) {ref : Ref} {place : Release}
    (hmem : .released ref place ∈ es) : ref.worker = w := by
  have hplace : place ∈ releases ref es := mem_releases.mpr hmem
  have haccepted : ref ∈ (acceptedItems es).map Item.ref := by
    rw [← List.count_pos_iff]
    exact (List.length_pos_of_mem hplace).trans_le (h.length_releases_le ref)
  obtain ⟨item, hitem, rfl⟩ := List.mem_map.mp haccepted
  exact (h.home item hitem).1

theorem worker_of_called (h : Ledger K n w es v taken left rest) {r : Result P}
    (hmem : .called r ∈ es) : r.ref.worker = w := by
  have hcalled : r ∈ calledResults es := List.mem_filterMap.mpr ⟨_, hmem, rfl⟩
  obtain ⟨item, hitem, -, href⟩ := h.item_of_called hcalled
  rw [← href]
  exact (h.home item hitem).1

/-- A result that is about to be delivered has a reference that was not released. -/
theorem not_released_of_pop {wk : WorkerState J P}
    (h : Ledger K n w es ⟨wk, some .popping⟩ taken left rest) {r : Result P}
    {rs : List (Result P)} (hpop : wk.results = r :: rs) : releases r.ref es = [] := by
  obtain ⟨hopen, hrest⟩ := h.rest_of_results hpop
  -- its release is still to come with a result of the stream
  have hmem : r.ref ∈ finals rest := by
    have hcomplete := h.complete_rest
    rw [hrest] at hcomplete ⊢
    exact hcomplete.ref_mem_finals
  have hpos := List.count_pos_iff.mpr hmem
  have hcount := h.count_running hopen r.ref
  have hone := h.count_le_one r.ref
  rw [← List.length_eq_zero_iff]
  omega

end Ledger

/-! ## No callback is called after its release -/

/-- The second event is not a call of the function that the first one released. -/
def NotLate (e e' : Event J P) : Prop := ∀ r place, e' = .called r → e ≠ .released r.ref place

theorem WorkerStep.called_or_pop {v v' : View J P} {new : List (Event J P)}
    (h : WorkerStep K n w v new v') : (∀ r, .called r ∉ new) ∨
      ∃ wk r rs, v = ⟨wk, some .popping⟩ ∧ wk.results = r :: rs ∧ new = [.called r] := by
  cases h with
  | pop h => exact .inr ⟨_, _, _, rfl, h, rfl⟩
  | join => left; simp [WorkerState.drain]
  | _ => left; simp

theorem reaches_notLate {s : State J P} {hist : List (Output J P)}
    (run : (manager K n).Reaches s hist) (w : ℕ) : (own w hist).Pairwise NotLate := by
  induction run with
  | start => exact .nil
  | @next s _ _ hist out run hstep ih =>
    rw [own_append, List.pairwise_append]
    rcases ((Shape.reaches run).view hstep w).called_or_pop with hnone | ⟨wk, r, rs, hv, hpop, hnew⟩
    · have hnot (e : Event J P) : ∀ e' ∈ own w out, NotLate e e' := by
        rintro e' hmem r place rfl
        exact absurd hmem (hnone r)
      exact ⟨ih, List.pairwise_of_forall_mem_list fun e _ => hnot e, fun e _ => hnot e⟩
    · obtain ⟨_, _, _, hledger⟩ := reaches_ledger run w
      rw [hv] at hledger
      rw [hnew]
      refine ⟨ih, List.pairwise_singleton _ _, ?_⟩
      rintro e hmem e' he' r' place rfl rfl
      obtain ⟨rfl⟩ := List.mem_singleton.mp he'
      have hreleased : place ∈ releases r.ref (own w hist) := mem_releases.mpr hmem
      rw [hledger.not_released_of_pop hpop] at hreleased
      cases hreleased

/-! ## Where a job and its callback end -/

/-- The callback of a job is released once: with the final result, of which it was
called after all others; with the job, which was not started; or with the results of
which it was not called. -/
def ReleasedOnce (K : WorkerKind I J P) (item : Item J) (es : List (Event J P)) : Prop :=
  releases item.ref es = [.onResult] ∧ calls item.ref es = K.results item ∨
  releases item.ref es = [.submissionQueue] ∧ calls item.ref es = [] ∨
  releases item.ref es = [.resultQueue] ∧
    ∃ drained, drained ≠ [] ∧ calls item.ref es ++ drained = K.results item

theorem filter_flatMap_results (items : List (Item J)) (ref : Ref) :
    (items.flatMap K.results).filter (fun r => r.ref = ref) =
      (items.filter fun item => item.ref = ref).flatMap K.results := by
  induction items with
  | nil => rfl
  | cons item items ih =>
    rw [List.flatMap_cons, List.filter_append, ih, List.filter_cons]
    by_cases href : item.ref = ref
    · have hall : (K.results item).filter (fun r => r.ref = ref) = K.results item := by
        rw [List.filter_eq_self]
        intro r hr
        rw [K.ref_of_mem_results hr, href, decide_eq_true rfl]
      rw [hall, href, decide_eq_true rfl, if_pos rfl, List.flatMap_cons]
    · have hnone : (K.results item).filter (fun r => r.ref = ref) = [] := by
        rw [List.filter_eq_nil_iff]
        intro r hr
        rw [K.ref_of_mem_results hr, decide_eq_true_eq]
        exact href
      rw [hnone, decide_eq_false href, if_neg Bool.false_ne_true, List.nil_append]

/-- References tell the jobs apart. -/
theorem filter_ref_of_mem {items : List (Item J)} (hnodup : (items.map Item.ref).Nodup)
    {item : Item J} (hmem : item ∈ items) :
    items.filter (fun item' => item'.ref = item.ref) = [item] := by
  obtain ⟨before, after, rfl⟩ := List.append_of_mem hmem
  rw [List.map_append, List.map_cons, List.nodup_append, List.nodup_cons] at hnodup
  obtain ⟨-, ⟨hafter, -⟩, hbefore⟩ := hnodup
  have hbefore' : before.filter (fun item' => item'.ref = item.ref) = [] := by
    rw [List.filter_eq_nil_iff]
    intro item' hitem
    rw [decide_eq_true_eq]
    exact hbefore _ (List.mem_map_of_mem hitem) _ List.mem_cons_self
  have hafter' : after.filter (fun item' => item'.ref = item.ref) = [] := by
    rw [List.filter_eq_nil_iff]
    intro item' hitem
    rw [decide_eq_true_eq]
    intro heq
    exact hafter (heq ▸ List.mem_map_of_mem hitem)
  rw [List.filter_append, List.filter_cons, hbefore', hafter', decide_eq_true rfl, if_pos rfl,
    List.nil_append]

namespace Ledger
variable {es : List (Event J P)} {v : View J P} {taken left : List (Item J)}
  {rest : List (Result P)}

/-- The callback of a job that the thread took is called in the order of its results. -/
theorem calls_of_taken (h : Ledger K n w es v taken left rest) {item : Item J}
    (hitem : item ∈ taken) :
    calls item.ref es ++ rest.filter (fun r => r.ref = item.ref) = K.results item := by
  have hnodup : (taken.map Item.ref).Nodup := by
    have hall := h.nodup
    rw [h.accepted, List.map_append, List.nodup_append] at hall
    exact hall.1
  rw [calls_eq_filter, ← List.filter_append, ← h.streamed, filter_flatMap_results,
    filter_ref_of_mem hnodup hitem, List.flatMap_singleton]

theorem calls_of_left (h : Ledger K n w es v taken left rest) {item : Item J}
    (hitem : item ∈ left) : calls item.ref es = [] := by
  have hall := h.nodup
  rw [h.accepted, List.map_append, List.nodup_append] at hall
  rw [calls_eq_filter, List.filter_eq_nil_iff]
  intro r hr
  have htaken : r ∈ taken.flatMap K.results := h.streamed ▸ List.mem_append_left _ hr
  obtain ⟨item', hitem', hr'⟩ := List.mem_flatMap.mp htaken
  rw [K.ref_of_mem_results hr', decide_eq_true_eq]
  exact hall.2.2 _ (List.mem_map_of_mem hitem') _ (List.mem_map_of_mem hitem)

theorem calls_isPrefix (h : Ledger K n w es v taken left rest) {item : Item J}
    (hitem : item ∈ acceptedItems es) : calls item.ref es <+: K.results item := by
  rw [h.accepted] at hitem
  rcases List.mem_append.mp hitem with htaken | hleft
  · exact ⟨_, h.calls_of_taken htaken⟩
  · rw [h.calls_of_left hleft]
    exact List.nil_prefix

theorem releases_eq (h : Ledger K n w es v taken left rest) {ref : Ref} {place : Release}
    (hmem : ref ∈ releasedAt place es) : releases ref es = [place] := by
  have hplace : place ∈ releases ref es := by
    rw [← List.count_pos_iff, count_releases]
    exact List.count_pos_iff.mpr hmem
  have hone := (h.length_releases_le ref).trans (h.count_le_one ref)
  obtain ⟨place', heq⟩ := List.length_eq_one_iff.mp
    (hone.antisymm (List.length_pos_of_mem hplace))
  rw [heq, List.mem_singleton] at hplace
  rw [heq, hplace]

theorem releasedOnce (h : Ledger K n w es v taken left rest) (hclosed : v.state.closed = true)
    (hheld : Ready.held v.ready = []) {item : Item J} (hitem : item ∈ acceptedItems es) :
    ReleasedOnce K item es := by
  obtain ⟨-, -, hsubmission, hresult⟩ := h.stopped hclosed
  have hdelivered := h.delivered
  rw [hheld, List.append_nil] at hdelivered
  rw [h.accepted] at hitem
  rcases List.mem_append.mp hitem with htaken | hleft
  · have hcalls := h.calls_of_taken htaken
    by_cases hdrained : rest.filter (fun r => r.ref = item.ref) = []
    · have hfinal : item.ref ∈ finals (calledResults es) ++ finals rest := by
        rw [← finals_append, ← h.streamed, K.finals_flatMap]
        exact List.mem_map_of_mem htaken
      have hnot : item.ref ∉ finals rest := by
        intro hmem
        obtain ⟨r, hr, heq⟩ := List.mem_map.mp hmem
        rw [List.filter_eq_nil_iff] at hdrained
        exact hdrained r (List.mem_filter.mp hr).1 (decide_eq_true heq)
      refine .inl ⟨h.releases_eq ?_, ?_⟩
      · rw [hdelivered]
        exact (List.mem_append.mp hfinal).resolve_right hnot
      · rw [← hcalls, hdrained, List.append_nil]
    · refine .inr (.inr ⟨h.releases_eq ?_, _, hdrained, hcalls⟩)
      -- the stream of the job ends in what was drained
      obtain ⟨r, rs, hcons⟩ := List.exists_cons_of_ne_nil hdrained
      have hcomplete := K.complete_results item
      rw [← hcalls] at hcomplete
      have hmem := (hcons ▸ hcomplete.of_append).ref_mem_finals
      rw [← hcons] at hmem
      have href : r.ref = item.ref := by
        have hr : r ∈ rest.filter (fun r => r.ref = item.ref) := hcons ▸ List.mem_cons_self
        exact of_decide_eq_true (List.mem_filter.mp hr).2
      rw [hresult, ← href]
      exact ((List.filter_sublist.filter _).map _).subset hmem
  · refine .inr (.inl ⟨h.releases_eq ?_, h.calls_of_left hleft⟩)
    rw [hsubmission]
    exact List.mem_map_of_mem hleft

end Ledger

section
variable {s : State J P} {hist : List (Output J P)}

theorem releases_events (run : (manager K n).Reaches s hist) (ref : Ref) :
    releases ref (events hist) = releases ref (own ref.worker hist) := by
  apply filterMap_events
  intro w e hmem hsome
  cases e with
  | released ref' place =>
    by_cases href : ref' = ref
    · obtain ⟨_, _, _, hledger⟩ := reaches_ledger run w
      rw [← href, hledger.worker_of_released hmem]
    · simp [href] at hsome
  | _ => cases hsome

theorem calls_events (run : (manager K n).Reaches s hist) (ref : Ref) :
    calls ref (events hist) = calls ref (own ref.worker hist) := by
  apply filterMap_events
  intro w e hmem hsome
  cases e with
  | called r =>
    by_cases href : r.ref = ref
    · obtain ⟨_, _, _, hledger⟩ := reaches_ledger run w
      rw [← href, hledger.worker_of_called hmem]
    · simp [href] at hsome
  | _ => cases hsome

theorem mem_events {e : Event J P} : e ∈ events hist ↔ ∃ w, e ∈ own w hist := by
  simp only [mem_own, events, List.mem_filterMap]
  constructor
  · rintro ⟨o, ho, heq⟩
    cases o with
    | worker w e' =>
      cases heq
      exact ⟨w, ho⟩
    | returned | threw => cases heq
  · rintro ⟨w, h⟩
    exact ⟨_, h, rfl⟩

theorem accepted_own (run : (manager K n).Reaches s hist) {item : Item J}
    (hitem : item ∈ acceptedItems (events hist)) :
    item ∈ acceptedItems (own item.ref.worker hist) := by
  obtain ⟨e, he, heq⟩ := List.mem_filterMap.mp hitem
  cases e with
  | accepted item' =>
    cases heq
    obtain ⟨w, hw⟩ := mem_events.mp he
    obtain ⟨_, _, _, hledger⟩ := reaches_ledger run w
    have hown : item ∈ acceptedItems (own w hist) := List.mem_filterMap.mpr ⟨_, hw, rfl⟩
    rwa [(hledger.home item hown).1]
  | _ => cases heq

theorem not_called_after_release (run : (manager K n).Reaches s hist) {r : Result P}
    {before after : List (Output J P)}
    (heq : hist = before ++ Output.worker w (.called r) :: after) :
    releases r.ref (events before) = [] := by
  rw [List.eq_nil_iff_forall_not_mem]
  intro place hplace
  obtain ⟨w', hreleased⟩ := mem_events.mp (mem_releases.mp hplace)
  have hown : own w hist = own w before ++ Event.called r :: own w after := by
    rw [heq, own_append]
    simp [own]
  -- both events are the worker's that the reference belongs to
  have hw : r.ref.worker = w := by
    obtain ⟨_, _, _, hledger⟩ := reaches_ledger run w
    exact hledger.worker_of_called (hown ▸ List.mem_append_right _ List.mem_cons_self)
  have hw' : r.ref.worker = w' := by
    obtain ⟨_, _, _, hledger⟩ := reaches_ledger run w'
    apply hledger.worker_of_released
    rw [heq, own_append]
    exact List.mem_append_left _ hreleased
  have horder := reaches_notLate run w
  rw [hown, List.pairwise_append] at horder
  rw [← hw', hw] at hreleased
  exact horder.2.2 _ hreleased _ List.mem_cons_self r place rfl rfl

/-- What holds of the callbacks of a manager: none is released twice or called after its
release, the calls of each follow the results of its job, and after `js_close` each one that was
accepted is released. -/
structure CallbacksKept (K : WorkerKind I J P) (s : State J P) (hist : List (Output J P)) :
    Prop where
  once : ∀ ref, (releases ref (events hist)).length ≤ 1
  notLate : ∀ before w r after, hist = before ++ .worker w (.called r) :: after →
    releases r.ref (events before) = []
  inOrder : ∀ item ∈ acceptedItems (events hist), calls item.ref (events hist) <+: K.results item
  released : s.cleared = true → (∀ w r, s.ready ≠ some (w, .calling r)) →
    ∀ item ∈ acceptedItems (events hist), ReleasedOnce K item (events hist)

/-- Whatever the interleaving of dispatches, thread steps, deliveries and `js_close`. -/
theorem callbacksKept_of_reaches (run : (manager K n).Reaches s hist) : CallbacksKept K s hist where
  once ref := by
    obtain ⟨_, _, _, hledger⟩ := reaches_ledger run ref.worker
    rw [releases_events run]
    exact (hledger.length_releases_le ref).trans (hledger.count_le_one ref)
  notLate before w r after := not_called_after_release run
  inOrder item hitem := by
    obtain ⟨_, _, _, hledger⟩ := reaches_ledger run item.ref.worker
    rw [calls_events run]
    exact hledger.calls_isPrefix (accepted_own run hitem)
  released hcleared hready item hitem := by
    obtain ⟨_, _, _, hledger⟩ := reaches_ledger run item.ref.worker
    have hown := accepted_own run hitem
    unfold ReleasedOnce
    rw [releases_events run, calls_events run]
    refine hledger.releasedOnce ?_ ?_ hown
    · exact (Shape.reaches run).closed_of_cleared hcleared (hledger.home item hown).2.1
    · exact Ready.held_readyOf hready _

end

/-- One round of generation and then the end of it. -/
def oneToken : Llama where
  context := true
  tokenize := 3
  promptDecode := 0
  step i := ⟨i == 1, ascii "capy", 0⟩

/-- The callback closes the engine when it gets the first token. -/
def closeInCallback : List (Label InfPacket) :=
  [Label.dispatch true ⟨some (ascii "m"), none, none, none, oneToken⟩, Label.enqueue] ++
    List.replicate 6 (Label.thread 0 true) ++
    [Label.ready 0, Label.pop, Label.close, Label.stop, Label.stop] ++
    List.replicate 4 (Label.thread 0 true) ++ [Label.stop, Label.callbackReturns, Label.pop]

end CapyJs.Worker
