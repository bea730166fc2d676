import CapyJs.Fs.Requests
import Mathlib.Data.List.Nodup

/-!
# The kernel's table of open files

A number belongs to a file from the execution of its open to the execution of its
close. The state of the file lives longer: the callback of the close deletes it.
-/
namespace CapyJs.Fs
open Transition

def deletedStates (hist : List Output) : List ℕ :=
  hist.filterMap fun
    | .deleted id => some id
    | _ => none

theorem deletedStates_append (hist out : List Output) :
    deletedStates (hist ++ out) = deletedStates hist ++ deletedStates out := List.filterMap_append

theorem mem_deletedStates {id : ℕ} {hist : List Output} :
    id ∈ deletedStates hist ↔ .deleted id ∈ hist := by
  simp only [deletedStates, List.mem_filterMap]
  constructor
  · rintro ⟨o, ho, heq⟩
    cases o with
    | deleted id' => cases heq; exact ho
    | _ => cases heq
  · intro h
    exact ⟨_, h, rfl⟩

/-- An executed request that has changed the kernel's table. -/
def Request.settled : Request → Bool
  | .opening _ (some result) => 0 ≤ result
  | .closing _ _ true => true
  | _ => false

def Output.isQuiet : Output → Bool
  | .closed _ | .deleted _ => false
  | _ => true

/-- The kernel's table belongs to the files that are open, and the history tells which
have been closed. -/
structure Files (hist : List Output) (s : State) : Prop where
  opening : ∀ q id result, s.requests q = some (.opening id (some result)) → 0 ≤ result →
    s.files result = some (.file id)
  isOpen : ∀ id st, s.states id = some st → 0 ≤ st.fd →
    (∀ q fd, s.requests q ≠ some (.closing id fd true)) → s.files st.fd = some (.file id)
  executed : ∀ q id fd, s.requests q = some (.closing id fd true) → .closed (.file id) ∈ hist
  closed : ∀ id, .closed (.file id) ∈ hist →
    .deleted id ∈ hist ∨ ∃ q fd, s.requests q = some (.closing id fd true)
  deleted : ∀ id, .deleted id ∈ hist →
    id < s.nextState ∧ s.states id = none ∧ .closed (.file id) ∈ hist
  once : (deletedStates hist).Nodup

namespace Files
variable {hist : List Output} {s s' : State}

/-- A step that closes and deletes nothing. -/
theorem quiet (h : Files hist s) {out : List Output} (hout : out.all Output.isQuiet = true)
    (hopening : ∀ q id result, s'.requests q = some (.opening id (some result)) → 0 ≤ result →
      s'.files result = some (.file id))
    (hisOpen : ∀ id st, s'.states id = some st → 0 ≤ st.fd →
      (∀ q fd, s'.requests q ≠ some (.closing id fd true)) → s'.files st.fd = some (.file id))
    (hclosing : ∀ q id fd, s'.requests q = some (.closing id fd true) ↔
      s.requests q = some (.closing id fd true))
    (hnext : s.nextState ≤ s'.nextState)
    (hnone : ∀ id, id < s.nextState → s.states id = none → s'.states id = none) :
    Files (hist ++ out) s' := by
  have hold {o : Output} (hq : o.isQuiet = false) : o ∈ hist ++ out ↔ o ∈ hist := by
    rw [List.mem_append, or_iff_left]
    intro hmem
    rw [List.all_eq_true.mp hout o hmem] at hq
    cases hq
  refine ⟨hopening, hisOpen, ?_, ?_, ?_, ?_⟩
  · intro q id fd hq
    exact List.mem_append_left _ (h.executed q id fd ((hclosing q id fd).mp hq))
  · intro id hid
    rw [hold rfl] at hid ⊢
    simp only [hclosing]
    exact h.closed id hid
  · intro id hid
    obtain ⟨hlt, hdeleted, hclosed⟩ := h.deleted id ((hold rfl).mp hid)
    exact ⟨hlt.trans_le hnext, hnone id hlt hdeleted, List.mem_append_left _ hclosed⟩
  · have hnil : deletedStates out = [] := by
      rw [List.eq_nil_iff_forall_not_mem]
      intro id hid
      cases List.all_eq_true.mp hout _ (mem_deletedStates.mp hid)
    rw [deletedStates_append, hnil, List.append_nil]
    exact h.once

/-- A step that leaves the kernel's table alone. -/
theorem sameFiles (h : Files hist s) {out : List Output} (hout : out.all Output.isQuiet = true)
    (hsettled : ∀ q r, r.settled = true → (s'.requests q = some r ↔ s.requests q = some r))
    (hfiles : s'.files = s.files) (hnext : s.nextState ≤ s'.nextState)
    (hsome : ∀ id st', s'.states id = some st' → 0 ≤ st'.fd →
      ∃ st, s.states id = some st ∧ st.fd = st'.fd)
    (hnone : ∀ id, id < s.nextState → s.states id = none → s'.states id = none) :
    Files (hist ++ out) s' := by
  apply h.quiet hout ?_ ?_ (fun q id fd => hsettled q _ rfl) hnext hnone
  · intro q id result hq hle
    rw [hfiles]
    exact h.opening q id result ((hsettled q (.opening id (some result)) (decide_eq_true hle)).mp hq) hle
  · intro id st' hst' hfd hclosing
    obtain ⟨st, hst, heq⟩ := hsome id st' hst' hfd
    rw [hfiles, ← heq]
    apply h.isOpen id st hst (heq ▸ hfd)
    intro q fd hq
    exact hclosing q fd ((hsettled q _ rfl).mpr hq)

theorem sameStates (h : Files hist s) {out : List Output} (hout : out.all Output.isQuiet = true)
    (hsettled : ∀ q r, r.settled = true → (s'.requests q = some r ↔ s.requests q = some r))
    (hfiles : s'.files = s.files) (hnext : s'.nextState = s.nextState)
    (hstates : s'.states = s.states) : Files (hist ++ out) s' := by
  apply h.sameFiles hout hsettled hfiles (Nat.le_of_eq hnext.symm)
  · intro id st hst _
    exact ⟨st, hstates ▸ hst, rfl⟩
  · intro id _ hnone
    rw [hstates, hnone]

theorem executeOpen (h : Files hist s) {q id : ℕ} {result : ℤ}
    (hq : s.requests q = some (.opening id none)) (hfree : s.files result = none) :
    Files (hist ++ []) { s.setRequest q (some (.opening id (some result))) with
      files := Function.update s.files result (some (.file id)) } := by
  -- the number that the kernel gives out belonged to nobody
  have hkept {fd : ℤ} {owner : Owner} (hfd : s.files fd = some owner) :
      Function.update s.files result (some (.file id)) fd = some owner := by
    rw [Function.update_of_ne, hfd]
    rintro rfl
    rw [hfree] at hfd
    cases hfd
  have hclosing (q' id' : ℕ) (fd' : ℤ) :
      (s.setRequest q (some (.opening id (some result)))).requests q' = some (.closing id' fd' true) ↔
        s.requests q' = some (.closing id' fd' true) :=
    requests_setRequest hq nofun nofun
  apply h.quiet rfl
  · intro q' id' result' hq'
    by_cases heq : q' = q
    · subst heq
      simp only [State.setRequest, Function.update_self, Option.some.injEq, Request.opening.injEq] at hq'
      obtain ⟨rfl, rfl⟩ := hq'
      exact fun _ => Function.update_self ..
    · simp only [State.setRequest, Function.update_of_ne heq] at hq'
      exact fun hle => hkept (h.opening q' id' result' hq' hle)
  · intro id' st hst hfd hnot
    apply hkept
    apply h.isOpen id' st hst hfd
    intro q' fd' hq'
    exact hnot q' fd' ((hclosing q' id' fd').mpr hq')
  · exact hclosing
  · exact Nat.le_refl _
  · exact fun _ _ hnone => hnone

theorem opened (h : Files hist s) {q id : ℕ} {result : ℤ} {st : FileOpState}
    (hq : s.requests q = some (.opening id (some result))) (hst : s.states id = some st) :
    Files (hist ++ [Output.opened id result]) { s.setRequest q none with
      states := Function.update s.states id (some { st with fd := result })
      fdState := Function.update s.fdState result (some id) } := by
  have hclosing (q' id' : ℕ) (fd' : ℤ) :
      (s.setRequest q none).requests q' = some (.closing id' fd' true) ↔
        s.requests q' = some (.closing id' fd' true) :=
    requests_setRequest hq nofun nofun
  apply h.quiet rfl
  · intro q' id' result' hq'
    by_cases heq : q' = q
    · simp [State.setRequest, heq] at hq'
    · simp only [State.setRequest, Function.update_of_ne heq] at hq'
      exact h.opening q' id' result' hq'
  · intro id' st' hst' hfd hnot
    by_cases hid : id' = id
    · subst hid
      simp only [Function.update_self, Option.some.injEq] at hst'
      subst hst'
      exact h.opening q _ result hq hfd
    · simp only [Function.update_of_ne hid] at hst'
      apply h.isOpen id' st' hst' hfd
      intro q' fd' hq'
      exact hnot q' fd' ((hclosing q' id' fd').mpr hq')
  · exact hclosing
  · exact Nat.le_refl _
  · intro id' _ hnone
    by_cases hid : id' = id
    · rw [hid, hst] at hnone
      cases hnone
    · simp only [Function.update_of_ne hid, hnone]

/-- What a close is going to close. -/
theorem files_closing (h : Files hist s) (hrefs : Refs s) {q id : ℕ} {fd : ℤ}
    (hq : s.requests q = some (.closing id fd false)) : s.files fd = some (.file id) := by
  obtain ⟨hle, st, hst, rfl⟩ := hrefs.closing q id fd (inFlight_of_requests hq)
  apply h.isOpen id st hst hle
  intro q' fd' hq'
  rcases hrefs.alone q q' _ _ (inFlight_of_requests hq) (inFlight_of_requests hq') rfl with
    rfl | ⟨hread, -⟩
  · rw [hq] at hq'
    cases hq'
  · cases hread

theorem executeClose (h : Files hist s) (hrefs : Refs s) {q id : ℕ} {fd : ℤ}
    (hq : s.requests q = some (.closing id fd false)) :
    Files (hist ++ [Output.closed (.file id)]) { s.setRequest q (some (.closing id fd true)) with
      files := Function.update s.files fd none } := by
  have hfile := h.files_closing hrefs hq
  have hrequests {q' : ℕ} {r : Request} (hne : q' ≠ q) :
      (s.setRequest q (some (.closing id fd true))).requests q' = some r ↔
        s.requests q' = some r := by
    simp [State.setRequest, hne]
  have hkept {id' : ℕ} {fd' : ℤ} (hne : id' ≠ id) (hfd : s.files fd' = some (.file id')) :
      Function.update s.files fd none fd' = some (.file id') := by
    rw [Function.update_of_ne, hfd]
    rintro rfl
    rw [hfile] at hfd
    cases hfd
    exact hne rfl
  -- the history grows by this one close
  have hold {o : Output} (hmem : o ∈ hist ++ [Output.closed (.file id)])
      (hne : o ≠ .closed (.file id)) :
      o ∈ hist := by
    simpa [hne] using hmem
  refine ⟨?_, ?_, ?_, ?_, ?_, ?_⟩
  · intro q' id' result hq' hle
    by_cases heq : q' = q
    · simp [State.setRequest, heq] at hq'
    · rw [hrequests heq] at hq'
      apply hkept _ (h.opening q' id' result hq' hle)
      rintro rfl
      rcases hrefs.alone q q' _ _ (inFlight_of_requests hq) (inFlight_of_requests hq') rfl with
        heq' | ⟨hread, -⟩
      · exact heq heq'
      · cases hread
  · intro id' st hst hfd hnot
    have hne : id' ≠ id := by
      rintro rfl
      exact hnot q fd (Function.update_self ..)
    apply hkept hne
    apply h.isOpen id' st hst hfd
    intro q' fd' hq'
    by_cases heq : q' = q
    · rw [heq, hq] at hq'
      cases hq'
    · exact hnot q' fd' ((hrequests heq).mpr hq')
  · intro q' id' fd' hq'
    by_cases heq : q' = q
    · simp only [heq, State.setRequest, Function.update_self, Option.some.injEq,
        Request.closing.injEq] at hq'
      simp [hq'.1]
    · exact List.mem_append_left _ (h.executed q' id' fd' ((hrequests heq).mp hq'))
  · intro id' hmem
    by_cases hid : id' = id
    · subst hid
      exact .inr ⟨q, fd, Function.update_self ..⟩
    · rcases h.closed id' (hold hmem (by simpa using hid)) with hdel | ⟨q', fd', hq'⟩
      · exact .inl (List.mem_append_left _ hdel)
      · refine .inr ⟨q', fd', (hrequests ?_).mpr hq'⟩
        rintro rfl
        rw [hq] at hq'
        cases hq'
  · intro id' hmem
    obtain ⟨hlt, hnone, hclosed⟩ := h.deleted id' (hold hmem (by simp))
    exact ⟨hlt, hnone, List.mem_append_left _ hclosed⟩
  · rw [deletedStates_append]
    simpa [deletedStates] using h.once

theorem closeDelivered (h : Files hist s) (hrefs : Refs s) {q id : ℕ} {fd : ℤ} {st : FileOpState}
    (hq : s.requests q = some (.closing id fd true)) (hst : s.states id = some st) :
    Files (hist ++ [Output.deleted id]) { s.setRequest q none with
      buffers := State.freeBuffer st.buf s.buffers
      fdState := Function.update s.fdState st.fd none
      states := Function.update s.states id none } := by
  have hrequests {q' : ℕ} {r : Request} (hne : q' ≠ q) :
      (s.setRequest q none).requests q' = some r ↔ s.requests q' = some r := by
    simp [State.setRequest, hne]
  have hfinished {q' : ℕ} {r : Request} (hq' : (s.setRequest q none).requests q' = some r) :
      s.requests q' = some r := by
    by_cases hne : q' = q
    · simp [State.setRequest, hne] at hq'
    · exact (hrequests hne).mp hq'
  have hold {o : Output} (hmem : o ∈ hist ++ [Output.deleted id]) (hne : o ≠ .deleted id) :
      o ∈ hist := by
    simpa [hne] using hmem
  refine ⟨?_, ?_, ?_, ?_, ?_, ?_⟩
  · exact fun q' id' result hq' => h.opening q' id' result (hfinished hq')
  · intro id' st' hst' hfd hnot
    have hne : id' ≠ id := by
      rintro rfl
      simp at hst'
    simp only [Function.update_of_ne hne] at hst'
    apply h.isOpen id' st' hst' hfd
    intro q' fd' hq'
    refine hnot q' fd' ((hrequests ?_).mpr hq')
    rintro rfl
    rw [hq] at hq'
    cases hq'
    exact hne rfl
  · exact fun q' id' fd' hq' => List.mem_append_left _ (h.executed q' id' fd' (hfinished hq'))
  · intro id' hmem
    by_cases hid : id' = id
    · simp [hid]
    · rcases h.closed id' (hold hmem (by simp)) with hdel | ⟨q', fd', hq'⟩
      · exact .inl (List.mem_append_left _ hdel)
      · refine .inr ⟨q', fd', (hrequests ?_).mpr hq'⟩
        rintro rfl
        rw [hq] at hq'
        cases hq'
        exact hid rfl
  · intro id' hmem
    by_cases hid : id' = id
    · subst hid
      exact ⟨hrefs.state_lt _ _ hst, Function.update_self ..,
        List.mem_append_left _ (h.executed q _ fd hq)⟩
    · obtain ⟨hlt, hnone, hclosed⟩ := h.deleted id' (hold hmem (by simpa using hid))
      exact ⟨hlt, (Function.update_of_ne hid ..).trans hnone, List.mem_append_left _ hclosed⟩
  · rw [deletedStates_append, List.nodup_append]
    refine ⟨h.once, List.nodup_singleton id, ?_⟩
    rintro id' hid' _ hmem rfl
    obtain rfl : id' = id := by simpa [deletedStates] using hmem
    rw [(h.deleted _ (mem_deletedStates.mp hid')).2.1] at hst
    cases hst

theorem step (h : Files hist s) (hrefs : Refs s) {a : Label} {out : List Output}
    (hstep : Moved s a s' out) : Files (hist ++ out) s' := by
  cases hstep with
  | openFile =>
    apply h.sameFiles rfl
    · intro q r hr
      apply hrefs.requests_submit
      rintro rfl
      cases hr
    · rfl
    · exact Nat.le_succ _
    · intro id st hst hfd
      by_cases hid : id = s.nextState
      · rw [State.states_openFileAsync, hid, Function.update_self] at hst
        cases hst
        exact absurd hfd (by decide)
      · rw [State.states_openFileAsync, Function.update_of_ne hid] at hst
        exact ⟨st, hst, rfl⟩
    · intro id hid hnone
      rw [State.states_openFileAsync, Function.update_of_ne (Nat.ne_of_lt hid), hnone]
  | readUnknown | closeUnknown =>
    exact h.sameStates rfl (fun q r hr => Iff.rfl) rfl rfl rfl
  | read hfd hst hbuf =>
    refine h.sameFiles rfl ?_ ?_ ?_ ?_ ?_
    · intro q r hr
      rw [hbuf.requests_submit]
      apply hrefs.requests_submit
      rintro rfl
      cases hr
    · cases hbuf <;> rfl
    · cases hbuf <;> exact Nat.le_refl _
    · exact fun id' st' hst' _ => hbuf.states_some hst hst'
    · exact fun id' _ hnone => hbuf.states_none hst hnone
  | close =>
    refine h.sameStates rfl ?_ rfl rfl rfl
    intro q r hr
    apply hrefs.requests_submit
    rintro rfl
    cases hr
  | executeOpenFailed hq hresult =>
    refine h.sameStates rfl ?_ rfl rfl rfl
    intro q r hr
    apply requests_setRequest hq
    · rintro rfl
      cases hr
    · rintro ⟨⟩
      exact absurd (of_decide_eq_true hr) (Int.not_le.mpr hresult)
  | executeOpen hq _ hfree => exact h.executeOpen hq hfree
  | executeReadFailed hq | executeRead hq | executeReadWild hq =>
    refine h.sameStates rfl ?_ rfl rfl rfl
    intro q r hr
    apply requests_setRequest hq
    all_goals
      rintro ⟨⟩
      cases hr
  | executeCloseUnused hq hfile =>
    rw [h.files_closing hrefs hq] at hfile
    cases hfile
  | executeClose hq hfile =>
    rw [h.files_closing hrefs hq] at hfile
    cases hfile
    exact h.executeClose hrefs hq
  | openFailed hq hresult =>
    refine h.sameStates rfl ?_ rfl rfl rfl
    intro q r hr
    apply requests_setRequest hq
    · rintro rfl
      exact absurd (of_decide_eq_true hr) (Int.not_le.mpr hresult)
    · intro hnone
      cases hnone
  | opened hq _ hst => exact h.opened hq hst
  | readFailed hq | readDone hq | readWild hq =>
    refine h.sameStates rfl ?_ rfl rfl rfl
    intro q r hr
    apply requests_setRequest hq
    · rintro rfl
      cases hr
    · intro hnone
      cases hnone
  | closed hq hst => exact h.closeDelivered hrefs hq hst

theorem initial (inUse : ℤ → Bool) : Files [] (.initial inUse) := by
  constructor
  · intro q id result hq; cases hq
  · intro id st hst; cases hst
  · intro q id fd hq; cases hq
  · intro id hid; cases hid
  · intro id hid; cases hid
  · exact List.nodup_nil

theorem reaches (run : (fileSystem.guarded fun s a => exclusive s a = true).Reaches s hist) :
    Files hist s := by
  induction run with
  | start h =>
    obtain ⟨inUse, rfl⟩ := h
    exact initial inUse
  | next run hstep ih => exact ih.step (.reaches run) (moved (Machine.guarded_step.mp hstep).2)

end Files

end CapyJs.Fs
