import CapyJs.Worker.Callbacks
import CapyJs.Worker.Delivery

/-!
# What `get_progress` answers

A job is pending from the return of its dispatch until its final result is delivered, and
keeps the status of that result. `on_result` writes the status for every result, so the
answers are right in the runs that deliver final results only.
-/
namespace CapyJs.Worker
open Transition

variable {I J P : Type*} {K : WorkerKind I J P} {n : ℕ}

namespace State

/-- The answer for a job id. -/
def jsGetProgress (s : State J P) (jobId : UInt64) : String :=
  match s.jobStatus jobId with
  | none => "unknown"
  | some .pending => "pending"
  | some .done => "done"
  | some .error => "error"

@[simp] theorem jsGetProgress_eq_unknown {s : State J P} {j : UInt64} :
    s.jsGetProgress j = "unknown" ↔ s.jobStatus j = none := by
  unfold jsGetProgress
  split <;> simp_all

@[simp] theorem jsGetProgress_eq_pending {s : State J P} {j : UInt64} :
    s.jsGetProgress j = "pending" ↔ s.jobStatus j = some .pending := by
  unfold jsGetProgress
  split <;> simp_all

theorem jsGetProgress_congr {s s' : State J P} {j : UInt64}
    (h : s'.jobStatus j = s.jobStatus j) : s'.jsGetProgress j = s.jsGetProgress j := by
  rw [jsGetProgress, jsGetProgress, h]

/-- The result that a `pop` would take is final, if there is one. -/
def popsFinal (s : State J P) : Bool :=
  match s.ready with
  | some (w, .popping) => ((s.workers w).results.head?).all Result.isDone
  | _ => true

/-- A dispatch gives out an id that has no status yet. -/
def givesNewId (s : State J P) : Label I → Bool
  | .dispatch .. => s.jobStatus s.nextJobId == none
  | _ => true

/-- In addition, only final results are delivered. -/
def tellsProgress (s : State J P) : Label I → Bool
  | .pop => s.popsFinal
  | a => s.givesNewId a

end State

/-- `r` has been passed to `on_result`. -/
def Delivered (hist : List (Output J P)) (r : Result P) : Prop :=
  ∃ w, .worker w (.called r) ∈ hist

/-- The answers of `get_progress` agree with what has been dispatched and delivered. Since a
final result stays in the history, the status it gives its job stays too. -/
structure StatusLaw (K : WorkerKind I J P) (hist : List (Output J P)) (s : State J P) : Prop where
  unknown : ∀ j, s.jsGetProgress j = "unknown" ↔ .returned j ∉ hist
  pending : ∀ j, s.jsGetProgress j = "pending" ↔
    .returned j ∈ hist ∧ ∀ r, Delivered hist r → r.jobId = j → r.isDone = false
  settled : ∀ r, Delivered hist r → r.isDone = true →
    s.jsGetProgress r.jobId = if K.error r.payload then "error" else "done"

/-- The law only reads the statuses, the returns and the deliveries. -/
theorem StatusLaw.congr {hist hist' : List (Output J P)} {s s' : State J P} (h : StatusLaw K hist s)
    (hstatus : s'.jobStatus = s.jobStatus)
    (hreturned : ∀ j, .returned j ∈ hist' ↔ .returned j ∈ hist)
    (hdelivered : ∀ r, Delivered hist' r ↔ Delivered hist r) : StatusLaw K hist' s' := by
  have hprogress (j : UInt64) : s'.jsGetProgress j = s.jsGetProgress j :=
    State.jsGetProgress_congr (congrFun hstatus j)
  constructor
  · simpa only [hprogress, hreturned] using h.unknown
  · simpa only [hprogress, hreturned, hdelivered] using h.pending
  · simpa only [hprogress, hdelivered] using h.settled

/-! ## What a step does to statuses -/

/-- An output that is neither the start nor the end of a job. -/
def Output.quiet : Output J P → Bool
  | .returned _ | .worker _ (.accepted _) | .worker _ (.called _) => false
  | _ => true

inductive StatusStep (K : WorkerKind I J P) (s : State J P) :
    Label I → State J P → List (Output J P) → Prop
  | quiet {a : Label I} {s' : State J P} {out : List (Output J P)}
      (hstatus : s'.jobStatus = s.jobStatus)
      (hcall : ∀ w j, s'.call = .enqueue w j ↔ s.call = .enqueue w j)
      (hout : ∀ o ∈ out, o.quiet = true) : StatusStep K s a s' out
  | accept {isFunction : Bool} {input : I} {s' : State J P} (w : ℕ) (item : Item J)
      (hid : item.jobId = s.nextJobId) (hstatus : s'.jobStatus = s.jobStatus)
      (hidle : s.call = .idle) (hcall : s'.call = .enqueue w item.jobId) :
      StatusStep K s (.dispatch isFunction input) s'
        [.worker w (.duplicated item.ref), .worker w (.accepted item)]
  | return {s' : State J P} (w : ℕ) (j : UInt64) (hcall : s.call = .enqueue w j)
      (hidle : s'.call = .idle)
      (hstatus : s'.jobStatus = Function.update s.jobStatus j (some .pending)) :
      StatusStep K s .enqueue s' [.returned j]
  | deliver {s' : State J P} (w : ℕ) (r : Result P) (rest : List (Result P))
      (hready : s.ready = some (w, .popping)) (hresults : (s.workers w).results = r :: rest)
      (hidle : s.call = .idle) (hcall : s'.call = .idle)
      (hstatus : s'.jobStatus = Function.update s.jobStatus r.jobId
        (some (if K.error r.payload then .error else .done))) :
      StatusStep K s .pop s' [.worker w (.called r)]

theorem State.enqueue_stopFrom (k : ℕ) (s : State J P) (w : ℕ) (j : UInt64) :
    (s.stopFrom k).call ≠ .enqueue w j := by
  rcases s.call_stopFrom k with hcall | ⟨hcall, -⟩ <;> simp [hcall]

theorem statusStep_of_dispatch {s : State J P} {isFunction : Bool} {input : I} {s' : State J P}
    {out : List (Output J P)} (hidle : s.call = .idle) (h : Dispatched K s input s' out) :
    StatusStep K s (.dispatch isFunction input) s' out := by
  cases h with
  | threw e => exact .quiet rfl (fun _ _ => Iff.rfl) (by simp [Output.quiet])
  | refused w e => exact .quiet rfl (fun _ _ => Iff.rfl) (by simp [Output.quiet])
  | accepted w job =>
    exact .accept w ⟨s.nextJobId, ⟨w, (s.workers w).refs⟩, job⟩ rfl rfl hidle rfl

/-- Every step is one of the four. -/
theorem statusStep_of_step {s s' : State J P} {a : Label I} {out : List (Output J P)}
    (h : step K s a = some (s', out)) : StatusStep K s a s' out := by
  cases moves_of_step h with
  | dispatch hjs hd => exact statusStep_of_dispatch (StateOver.call_of_inJs hjs) hd
  | enqueue hcall => exact .return _ _ hcall rfl rfl
  | closeAgain => exact .quiet rfl (fun _ _ => Iff.rfl) (by simp)
  | close hjs =>
    refine .quiet (StateOver.jobStatus_stopFrom _ _) (fun w j => ?_) (by simp)
    simp [State.enqueue_stopFrom, StateOver.call_of_inJs hjs]
  | store hcall | post hcall => exact .quiet rfl (by simp [hcall]) (by simp)
  | join hcall =>
    refine .quiet (StateOver.jobStatus_stopFrom _ _) (fun w j => ?_) fun o ho => ?_
    · simp [State.enqueue_stopFrom, hcall]
    · obtain ⟨e, he, rfl⟩ := List.mem_map.mp ho
      rcases List.mem_append.mp he with he | he
      · obtain ⟨_, -, rfl⟩ := List.mem_map.mp he
        rfl
      · obtain ⟨_, -, rfl⟩ := List.mem_map.mp he
        rfl
  | ready | popNone | keep | thread => exact .quiet rfl (fun _ _ => Iff.rfl) (by simp)
  | pop hcall hready hresults => exact .deliver _ _ _ hready hresults hcall hcall rfl
  | release => exact .quiet rfl (fun _ _ => Iff.rfl) (by simp [Output.quiet])

/-! ## Each job has one final result -/

section
variable {s : State J P} {hist : List (Output J P)}

def acceptedIds (hist : List (Output J P)) : List UInt64 :=
  (acceptedItems (events hist)).map Item.jobId

theorem own_sublist_events (w : ℕ) (hist : List (Output J P)) :
    (own w hist).Sublist (events hist) := by
  induction hist with
  | nil => exact .refl _
  | cons o hist ih =>
    cases o with
    | worker w' e =>
      by_cases hw : w' = w
      · simpa [own, events, hw] using ih
      · have hcons : (own w hist).Sublist (e :: events hist) := ih.cons e
        simpa [own, events, hw] using hcons
    | returned | threw => exact ih

theorem delivered_iff {r : Result P} : Delivered hist r ↔ ∃ w, r ∈ calledResults (own w hist) := by
  unfold Delivered calledResults
  simp only [List.mem_filterMap, ← mem_own]
  constructor
  · rintro ⟨w, hmem⟩
    exact ⟨w, _, hmem, rfl⟩
  · rintro ⟨w, e, hmem, heq⟩
    cases e with
    | called r' =>
      cases heq
      exact ⟨w, hmem⟩
    | _ => cases heq

theorem acceptedItems_own_sublist (w : ℕ) (hist : List (Output J P)) :
    (acceptedItems (own w hist)).Sublist (acceptedItems (events hist)) :=
  (own_sublist_events w hist).filterMap _

theorem jobId_mem_acceptedIds (run : (manager K n).Reaches s hist) {r : Result P}
    (hr : Delivered hist r) : r.jobId ∈ acceptedIds hist := by
  obtain ⟨w, hmem⟩ := delivered_iff.mp hr
  obtain ⟨_, _, _, hledger⟩ := reaches_ledger run w
  obtain ⟨item, hitem, hid, -⟩ := hledger.item_of_called hmem
  exact List.mem_map.mpr ⟨item, (acceptedItems_own_sublist w hist).subset hitem, hid⟩

/-- Only one worker has accepted a job of some id. -/
theorem worker_unique (run : (manager K n).Reaches s hist) (hnodup : (acceptedIds hist).Nodup)
    {w w' : ℕ} {item item' : Item J} (h : item ∈ acceptedItems (own w hist))
    (h' : item' ∈ acceptedItems (own w' hist)) (hid : item'.jobId = item.jobId) : w' = w := by
  obtain ⟨_, _, _, hledger⟩ := reaches_ledger run w
  obtain ⟨_, _, _, hledger'⟩ := reaches_ledger run w'
  have hsame : item' = item := by
    apply List.inj_on_of_nodup_map hnodup
    · exact (acceptedItems_own_sublist w' hist).subset h'
    · exact (acceptedItems_own_sublist w hist).subset h
    · exact hid
  rw [← (hledger.home item h).1, ← (hledger'.home item' h').1, hsame]

theorem Complete.jobId_mem_finalJobs {r : Result P} {rs : List (Result P)}
    (h : Complete (r :: rs)) : r.jobId ∈ finalJobs (r :: rs) := by
  induction rs generalizing r with
  | nil =>
    cases h with
    | final hdone _ => simp [finalJobs, hdone]
  | cons r' rs ih =>
    cases h with
    | final hdone _ => simp [finalJobs, hdone]
    | more hdone hid _ rest =>
      have hlater := ih rest
      rw [hid] at hlater
      simpa [finalJobs, hdone] using hlater

/-- The final result of a job whose result is next has not been delivered. -/
theorem ne_of_delivered (run : (manager K n).Reaches s hist) (hnodup : (acceptedIds hist).Nodup)
    {w : ℕ} {r : Result P} {rs : List (Result P)} (hresults : (s.workers w).results = r :: rs) :
    r.jobId ∈ acceptedIds hist ∧
      ∀ r', Delivered hist r' → r'.isDone = true → r'.jobId ≠ r.jobId := by
  obtain ⟨taken, left, rest, hledger⟩ := reaches_ledger run w
  obtain ⟨item, more, htaken, hitem, hstream⟩ := hledger.item_of_next hresults
  have haccepted : item ∈ acceptedItems (own w hist) := by
    rw [hledger.accepted]
    exact List.mem_append_left _ htaken
  have hjob : item.jobId = r.jobId := (K.jobId_of_mem_results hitem).symm
  refine ⟨List.mem_map.mpr ⟨item, (acceptedItems_own_sublist w hist).subset haccepted, hjob⟩, ?_⟩
  intro r' hdelivered hdone hid
  obtain ⟨w', hr'⟩ := delivered_iff.mp hdelivered
  obtain ⟨_, _, _, hledger'⟩ := reaches_ledger run w'
  obtain ⟨item', haccepted', hjob', -⟩ := hledger'.item_of_called hr'
  obtain rfl := worker_unique run hnodup haccepted haccepted' (by rw [hjob', hid, hjob])
  -- the stream has one final result for each job, and that of `r` is still to come
  have hfinal : r.jobId ∈ finalJobs (r :: more) := by
    have hcomplete := K.complete_flatMap taken
    rw [hstream] at hcomplete
    exact hcomplete.of_append.jobId_mem_finalJobs
  have hcalled : r.jobId ∈ finalJobs (calledResults (own w' hist)) := by
    rw [← hid]
    exact List.mem_map.mpr ⟨r', List.mem_filter.mpr ⟨hr', hdone⟩, rfl⟩
  have hids : (finalJobs (calledResults (own w' hist)) ++ finalJobs (r :: more)).Nodup := by
    rw [← finalJobs_append, ← hstream, K.finalJobs_flatMap]
    have htaken : (taken.map Item.jobId).Sublist ((acceptedItems (own w' hist)).map Item.jobId) := by
      rw [hledger.accepted, List.map_append]
      exact List.sublist_append_left ..
    exact List.Nodup.sublist (htaken.trans ((acceptedItems_own_sublist w' hist).map _)) hnodup
  exact (List.nodup_append.mp hids).2.2 _ hcalled _ hfinal rfl

/-! ## The answers along a run -/

theorem delivered_append {out : List (Output J P)} {r : Result P} :
    Delivered (hist ++ out) r ↔ Delivered hist r ∨ Delivered out r := by
  simp only [Delivered, List.mem_append, exists_or]

theorem acceptedIds_append (hist out : List (Output J P)) :
    acceptedIds (hist ++ out) = acceptedIds hist ++ acceptedIds out := by
  simp [acceptedIds, events, acceptedItems]

theorem acceptedIds_of_quiet {out : List (Output J P)} (h : ∀ o ∈ out, o.quiet = true) :
    acceptedIds out = [] := by
  rw [acceptedIds, List.map_eq_nil_iff, acceptedItems, List.filterMap_eq_nil_iff]
  intro e he
  obtain ⟨w, hmem⟩ := mem_events.mp he
  cases e with
  | accepted item => exact absurd (h _ (mem_own.mp hmem)) Bool.false_ne_true
  | _ => rfl

/-- The law, with what ties it to the jobs accepted so far. -/
structure Tracked (K : WorkerKind I J P) (hist : List (Output J P)) (s : State J P) : Prop where
  law : StatusLaw K hist s
  nodup : (acceptedIds hist).Nodup
  accepted : ∀ j, j ∈ acceptedIds hist ↔ .returned j ∈ hist ∨ ∃ w, s.call = .enqueue w j
  calling : ∀ w j, s.call = .enqueue w j →
    .returned j ∉ hist ∧ ∀ r, Delivered hist r → r.jobId ≠ j

namespace Tracked

theorem quiet (h : Tracked K hist s) {s' : State J P} {out : List (Output J P)}
    (hstatus : s'.jobStatus = s.jobStatus)
    (hcall : ∀ w j, s'.call = .enqueue w j ↔ s.call = .enqueue w j)
    (hout : ∀ o ∈ out, o.quiet = true) : Tracked K (hist ++ out) s' := by
  have hreturned (j : UInt64) : .returned j ∈ hist ++ out ↔ .returned j ∈ hist := by
    rw [List.mem_append, or_iff_left]
    intro hmem
    exact Bool.false_ne_true (hout _ hmem)
  have hdelivered (r : Result P) : Delivered (hist ++ out) r ↔ Delivered hist r := by
    rw [delivered_append, or_iff_left]
    rintro ⟨w, hmem⟩
    exact Bool.false_ne_true (hout _ hmem)
  have hids : acceptedIds (hist ++ out) = acceptedIds hist := by
    rw [acceptedIds_append, acceptedIds_of_quiet hout, List.append_nil]
  constructor
  · exact h.law.congr hstatus hreturned hdelivered
  · simpa only [hids] using h.nodup
  · simpa only [hids, hreturned, hcall] using h.accepted
  · simpa only [hreturned, hdelivered, hcall] using h.calling

/-- An id without a status has not been given out before. -/
theorem accept (run : (manager K n).Reaches s hist) (h : Tracked K hist s) {s' : State J P}
    {w : ℕ} {item : Item J} (hfresh : s.jobStatus item.jobId = none)
    (hstatus : s'.jobStatus = s.jobStatus) (hidle : s.call = .idle)
    (hcall : s'.call = .enqueue w item.jobId) :
    Tracked K (hist ++ [Output.worker w (.duplicated item.ref), .worker w (.accepted item)]) s' := by
  have hnew : .returned item.jobId ∉ hist := by
    rw [← h.law.unknown, State.jsGetProgress_eq_unknown]
    exact hfresh
  have hids : item.jobId ∉ acceptedIds hist := by
    rw [h.accepted]
    rintro (hmem | ⟨w', hcalling⟩)
    · exact hnew hmem
    · rw [hidle] at hcalling
      cases hcalling
  have hreturned (j : UInt64) : .returned j ∈
      hist ++ [Output.worker w (.duplicated item.ref), .worker w (.accepted item)] ↔
      .returned j ∈ hist := by simp
  have hdelivered (r : Result P) : Delivered
      (hist ++ [Output.worker w (.duplicated item.ref), .worker w (.accepted item)]) r ↔
      Delivered hist r := by simp [Delivered]
  have happend : acceptedIds
      (hist ++ [Output.worker w (.duplicated item.ref), .worker w (.accepted item)]) =
      acceptedIds hist ++ [item.jobId] := by
    rw [acceptedIds_append]
    rfl
  constructor
  · exact h.law.congr hstatus hreturned hdelivered
  · rw [happend, List.nodup_append]
    refine ⟨h.nodup, List.nodup_singleton _, ?_⟩
    rintro j hj j' hj' rfl
    exact hids (List.mem_singleton.mp hj' ▸ hj)
  · intro j
    rw [happend, hreturned, List.mem_append, h.accepted, hidle, hcall]
    simp [eq_comm]
  · intro w' j hcalling
    rw [hcall] at hcalling
    cases hcalling
    refine ⟨fun hmem => hnew ((hreturned _).mp hmem), fun r hr heq => ?_⟩
    exact hids (heq ▸ jobId_mem_acceptedIds run ((hdelivered r).mp hr))

/-- The dispatch returns, before any result of its job can be delivered. -/
theorem returns (h : Tracked K hist s) {s' : State J P} {w : ℕ} {j : UInt64}
    (hcall : s.call = .enqueue w j) (hidle : s'.call = .idle)
    (hstatus : s'.jobStatus = Function.update s.jobStatus j (some .pending)) :
    Tracked K (hist ++ [Output.returned j]) s' := by
  obtain ⟨hnew, hnone⟩ := h.calling w j hcall
  have hreturned (j' : UInt64) :
      .returned j' ∈ hist ++ [Output.returned j] ↔ .returned j' ∈ hist ∨ j' = j := by simp
  have hdelivered (r : Result P) :
      Delivered (hist ++ [Output.returned j]) r ↔ Delivered hist r := by
    simp [Delivered]
  have hids : acceptedIds (hist ++ [Output.returned j]) = acceptedIds hist := by
    rw [acceptedIds_append]
    exact List.append_nil _
  have hsame : s'.jsGetProgress j = "pending" := by
    rw [State.jsGetProgress_eq_pending, hstatus, Function.update_self]
  have hother {j' : UInt64} (hj : j' ≠ j) : s'.jsGetProgress j' = s.jsGetProgress j' := by
    apply State.jsGetProgress_congr
    rw [hstatus, Function.update_of_ne hj]
  constructor
  · constructor
    · intro j'
      by_cases hj : j' = j
      · subst hj
        simp [hsame, hreturned]
      · rw [hother hj, hreturned, or_iff_left hj]
        exact h.law.unknown j'
    · intro j'
      simp only [hdelivered]
      by_cases hj : j' = j
      · subst hj
        exact iff_of_true hsame ⟨by simp, fun r hr heq => absurd heq (hnone r hr)⟩
      · rw [hother hj, hreturned, or_iff_left hj]
        exact h.law.pending j'
    · intro r hr hdone
      rw [hdelivered] at hr
      rw [hother (hnone r hr)]
      exact h.law.settled r hr hdone
  · rw [hids]
    exact h.nodup
  · intro j'
    rw [hids, h.accepted, hreturned, hidle, hcall]
    simp [eq_comm]
  · intro w' j' hcalling
    rw [hidle] at hcalling
    cases hcalling

/-- Outside a dispatch, the job of the next result has been returned. -/
theorem returned_of_next (run : (manager K n).Reaches s hist) (h : Tracked K hist s) {w : ℕ}
    {r : Result P} {rest : List (Result P)} (hresults : (s.workers w).results = r :: rest)
    (hidle : s.call = .idle) : .returned r.jobId ∈ hist := by
  obtain ⟨haccepted, -⟩ := ne_of_delivered run h.nodup hresults
  rcases (h.accepted r.jobId).mp haccepted with hmem | ⟨w', hcalling⟩
  · exact hmem
  · rw [hidle] at hcalling
    cases hcalling

theorem deliver (run : (manager K n).Reaches s hist) (h : Tracked K hist s) {s' : State J P}
    {w : ℕ} {r : Result P} {rest : List (Result P)}
    (hresults : (s.workers w).results = r :: rest) (hdone : r.isDone = true)
    (hidle : s.call = .idle) (hcall : s'.call = .idle)
    (hstatus : s'.jobStatus = Function.update s.jobStatus r.jobId
      (some (if K.error r.payload then .error else .done))) :
    Tracked K (hist ++ [Output.worker w (.called r)]) s' := by
  obtain ⟨-, hnone⟩ := ne_of_delivered run h.nodup hresults
  have hjob := h.returned_of_next run hresults hidle
  have hreturned (j : UInt64) :
      .returned j ∈ hist ++ [Output.worker w (.called r)] ↔ .returned j ∈ hist := by simp
  have hdelivered (r' : Result P) :
      Delivered (hist ++ [Output.worker w (.called r)]) r' ↔ Delivered hist r' ∨ r' = r := by
    rw [delivered_append]
    simp [Delivered]
  have hids : acceptedIds (hist ++ [Output.worker w (.called r)]) = acceptedIds hist := by
    rw [acceptedIds_append]
    exact List.append_nil _
  have hsame : s'.jsGetProgress r.jobId = if K.error r.payload then "error" else "done" := by
    rw [State.jsGetProgress, hstatus, Function.update_self]
    split_ifs <;> rfl
  have hother {j : UInt64} (hj : j ≠ r.jobId) : s'.jsGetProgress j = s.jsGetProgress j := by
    apply State.jsGetProgress_congr
    rw [hstatus, Function.update_of_ne hj]
  constructor
  · constructor
    · intro j
      rw [hreturned]
      by_cases hj : j = r.jobId
      · subst hj
        refine iff_of_false ?_ (not_not_intro hjob)
        rw [hsame]
        split_ifs <;> decide
      · rw [hother hj]
        exact h.law.unknown j
    · intro j
      rw [hreturned]
      by_cases hj : j = r.jobId
      · subst hj
        refine iff_of_false ?_ fun hpending => ?_
        · rw [hsame]
          split_ifs <;> decide
        · have hfalse := hpending.2 r ((hdelivered r).mpr (.inr rfl)) rfl
          exact Bool.false_ne_true (hfalse.symm.trans hdone)
      · rw [hother hj, h.law.pending j]
        refine and_congr_right fun _ => forall_congr' fun r' => ?_
        rw [hdelivered]
        constructor
        · rintro hpending (hr' | rfl) hid
          · exact hpending hr' hid
          · exact absurd hid.symm hj
        · exact fun hpending hr' => hpending (.inl hr')
    · intro r' hr' hdone'
      rcases (hdelivered r').mp hr' with hr' | rfl
      · rw [hother (hnone r' hr' hdone')]
        exact h.law.settled r' hr' hdone'
      · exact hsame
  · rw [hids]
    exact h.nodup
  · intro j
    rw [hids, h.accepted, hreturned, hidle, hcall]
  · intro w' j hcalling
    rw [hcall] at hcalling
    cases hcalling

theorem step (run : (manager K n).Reaches s hist) (h : Tracked K hist s) {a : Label I}
    {s' : State J P} {out : List (Output J P)} (hguard : s.tellsProgress a = true)
    (hstep : Worker.step K s a = some (s', out)) : Tracked K (hist ++ out) s' := by
  cases statusStep_of_step hstep with
  | quiet hstatus hcall hout => exact h.quiet hstatus hcall hout
  | accept w item hid hstatus hidle hcall =>
    have hfresh : s.jobStatus item.jobId = none := by
      rw [hid]
      simpa [State.tellsProgress, State.givesNewId] using hguard
    exact h.accept run hfresh hstatus hidle hcall
  | «return» w j hcall hidle hstatus => exact h.returns hcall hidle hstatus
  | deliver w r rest hready hresults hidle hcall hstatus =>
    have hdone : r.isDone = true := by
      simpa [State.tellsProgress, State.popsFinal, hready, hresults] using hguard
    exact h.deliver run hresults hdone hidle hcall hstatus

theorem initial (K : WorkerKind I J P) (n : ℕ) : Tracked K [] (.initial n) := by
  constructor
  · constructor
    · intro j
      exact iff_of_true rfl nofun
    · intro j
      refine iff_of_false ?_ nofun
      rw [State.jsGetProgress_eq_pending]
      nofun
    · rintro r ⟨w, hmem⟩
      cases hmem
  · exact List.nodup_nil
  · intro j
    refine iff_of_false nofun ?_
    rintro (hmem | ⟨w, hcall⟩)
    · cases hmem
    · cases hcall
  · intro w j hcall
    cases hcall

end Tracked

theorem reaches_tracked {C : State J P → Label I → Prop} [∀ s a, Decidable (C s a)]
    (hC : ∀ s hist a, (manager K n).Reaches s hist → C s a → s.tellsProgress a = true)
    (run : ((manager K n).guarded C).Reaches s hist) : Tracked K hist s := by
  induction run with
  | start h =>
    obtain rfl := h
    exact .initial K n
  | next run hstep ih =>
    obtain ⟨hcond, hstep⟩ := Machine.guarded_step.mp hstep
    exact ih.step run.of_guarded (hC _ _ _ run.of_guarded hcond) hstep

theorem State.of_popsFinal_eq_false (h : s.popsFinal = false) :
    ∃ w r rest, s.ready = some (w, .popping) ∧ (s.workers w).results = r :: rest ∧
      r.isDone = false := by
  unfold popsFinal at h
  split at h
  · next w hready =>
    cases hresults : (s.workers w).results with
    | nil => simp [hresults] at h
    | cons r rest => exact ⟨w, r, rest, hready, hresults, by simpa [hresults] using h⟩
  · cases h

/-- A delivery keeps the law exactly when the result is final: another one settles the
status of its job too early. -/
theorem statusLaw_pop_iff (run : (manager K n).Reaches s hist) (h : Tracked K hist s)
    {s' : State J P} {out : List (Output J P)} (hpop : Worker.step K s .pop = some (s', out)) :
    StatusLaw K (hist ++ out) s' ↔ s.popsFinal = true := by
  constructor
  · intro hlaw
    by_contra hnot
    obtain ⟨w, r, rest, hready, hresults, hdone⟩ :=
      State.of_popsFinal_eq_false (Bool.not_eq_true _ ▸ hnot)
    obtain ⟨hidle, hout, hstatus⟩ : s.call = .idle ∧ out = [.worker w (.called r)] ∧
        s'.jobStatus r.jobId = some (if K.error r.payload then .error else .done) := by
      cases hcall : s.call with
      | idle =>
        simp only [Worker.step, hcall, hready, State.popResult, hresults] at hpop
        cases hpop
        exact ⟨rfl, rfl, Function.update_self ..⟩
      | push | enqueue | stop => simp [Worker.step, hcall] at hpop
    obtain ⟨-, hnone⟩ := ne_of_delivered run h.nodup hresults
    have hpending : s'.jsGetProgress r.jobId = "pending" := by
      refine (hlaw.pending _).mpr ⟨?_, ?_⟩
      · exact List.mem_append_left _ (h.returned_of_next run hresults hidle)
      · intro r' hr' hid
        rw [hout, delivered_append] at hr'
        rcases hr' with hr' | ⟨w', hmem⟩
        · by_contra hfinal
          exact hnone r' hr' (Bool.not_eq_false _ ▸ hfinal) hid
        · cases List.mem_singleton.mp hmem
          exact hdone
    rw [State.jsGetProgress_eq_pending, hstatus] at hpending
    split_ifs at hpending <;> cases hpending
  · intro hfinal
    have hguard : s.tellsProgress (.pop : Label I) = true := hfinal
    exact (h.step run hguard hpop).law

/-- When each job has one result, every result is final. -/
theorem popsFinal_of_single (hsingle : ∀ job, (K.compute job).length = 1)
    (run : (manager K n).Reaches s hist) : s.popsFinal = true := by
  by_contra hnot
  obtain ⟨w, r, rest, -, hresults, hdone⟩ :=
    State.of_popsFinal_eq_false (Bool.not_eq_true _ ▸ hnot)
  obtain ⟨_, _, _, hledger⟩ := reaches_ledger run w
  obtain ⟨item, -, -, hitem, -⟩ := hledger.item_of_next hresults
  obtain ⟨x, hx, rfl⟩ := List.mem_map.mp hitem
  have hfinal := K.compute_final item.job
  have hlength := hsingle item.job
  generalize K.compute item.job = xs at hx hfinal hlength
  cases hfinal with
  | last p =>
    cases List.mem_singleton.mp hx
    cases hdone
  | more p rest =>
    cases rest <;> simp at hlength

end

/-- `get_progress` answers as it should in the runs that deliver only final results and do
not give an id out twice, and a delivery keeps it so only when the result is final. Where
each job has one result, as for Fibonacci and JS workers, the ids are the only condition. -/
theorem getProgress_correct_iff (K : WorkerKind I J P) (n : ℕ) :
    (∀ s hist, ((manager K n).guarded fun s a => s.tellsProgress a = true).Reaches s hist →
      StatusLaw K hist s ∧
      ∀ s' out, step K s .pop = some (s', out) →
        (StatusLaw K (hist ++ out) s' ↔ s.popsFinal = true)) ∧
    ((∀ job, (K.compute job).length = 1) → ∀ s hist,
      ((manager K n).guarded fun s a => s.givesNewId a = true).Reaches s hist →
        StatusLaw K hist s) := by
  constructor
  · intro s hist run
    have htracked := reaches_tracked (fun _ _ _ _ hguard => hguard) run
    exact ⟨htracked.law, fun s' out hpop => statusLaw_pop_iff run.of_guarded htracked hpop⟩
  · intro hsingle s hist run
    refine (reaches_tracked ?_ run).law
    intro s hist a run hnew
    cases a with
    | pop => exact popsFinal_of_single hsingle run
    | _ => exact hnew

/-- The first token of two is in the ring, and the main thread is about to take it. -/
def takeFirstToken : List (Label InfPacket) :=
  [Label.dispatch true ⟨some (ascii "m"), none, none, none, oneToken⟩, .enqueue] ++
    List.replicate 6 (Label.thread 0 true) ++ [Label.ready 0]

def takingFirstToken : State InfJob InfResult × List (Output InfJob InfResult) :=
  (((manager (inferenceWorker [ascii "m"]) 1).guarded fun s a => s.tellsProgress a = true).exec
    (.initial 1) takeFirstToken).get rfl

/-- The job is done for `get_progress` when its first token is delivered. -/
theorem getProgress_done_too_early :
    ∃ (s : State InfJob InfResult) (hist : List (Output InfJob InfResult)),
      (manager (inferenceWorker [ascii "m"]) 1).Reaches s hist ∧
        ¬ StatusLaw (inferenceWorker [ascii "m"]) hist s := by
  have run : ((manager (inferenceWorker [ascii "m"]) 1).guarded
      fun s a => s.tellsProgress a = true).Reaches takingFirstToken.1 takingFirstToken.2 :=
    Machine.reaches_exec takeFirstToken rfl (Option.some_get rfl).symm
  obtain ⟨⟨s', out⟩, hpop⟩ : ∃ p,
      (manager (inferenceWorker [ascii "m"]) 1).step takingFirstToken.1 .pop = some p := ⟨_, rfl⟩
  have hnot : takingFirstToken.1.popsFinal = false := rfl
  refine ⟨s', takingFirstToken.2 ++ out, run.of_guarded.next hpop, ?_⟩
  have htracked := reaches_tracked (fun _ _ _ _ hguard => hguard) run
  rw [statusLaw_pop_iff run.of_guarded htracked hpop, hnot]
  exact Bool.false_ne_true

end CapyJs.Worker
