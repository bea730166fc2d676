import CapyJs.Fs.Files

/-!
# Which state `fd_state` names for a number

The kernel may give a number out again as soon as the close of it is executed, before
the callback of that close erases the number's entry.
-/
namespace CapyJs.Fs
open Transition

/-- JS has `fd` from the open of a state and has not called `close(fd)` since. -/
def Holds (hist : List Output) (fd : ℤ) (id : ℕ) : Prop :=
  ∃ before after, hist = before ++ .opened id fd :: after ∧ .closeCalled fd ∉ after

theorem Holds.of_append {hist out : List Output} {fd : ℤ} {id : ℕ} (h : Holds (hist ++ out) fd id)
    (hopened : .opened id fd ∉ out) : Holds hist fd id ∧ .closeCalled fd ∉ out := by
  obtain ⟨before, after, heq, hnot⟩ := h
  rcases List.append_eq_append_iff.mp heq with ⟨rest, -, hout⟩ | ⟨rest, hhist, hout⟩
  · rw [hout] at hopened
    simp at hopened
  · cases rest with
    | nil =>
      rw [List.nil_append] at hout
      rw [← hout] at hopened
      simp at hopened
    | cons o rest =>
      simp only [List.cons_append, List.cons.injEq] at hout
      obtain ⟨rfl, rfl⟩ := hout
      simp only [List.mem_append, not_or] at hnot
      exact ⟨⟨before, rest, hhist, hnot.1⟩, hnot.2⟩

def submittedReads (hist : List Output) : List ℕ :=
  hist.filterMap fun
    | .submitted q => some q
    | _ => none

def invokedReads (hist : List Output) : List ℕ :=
  hist.filterMap fun
    | .invoked q _ => some q
    | _ => none

theorem submittedReads_append (hist out : List Output) :
    submittedReads (hist ++ out) = submittedReads hist ++ submittedReads out :=
  List.filterMap_append

theorem invokedReads_append (hist out : List Output) :
    invokedReads (hist ++ out) = invokedReads hist ++ invokedReads out := List.filterMap_append

def State.readInFlight (s : State) (q : ℕ) : ℕ := ((s.inFlight q).any Request.isReading).toNat

/-- The table knows every number that JS holds, so that a read of it is submitted, and
the callback of a submitted read is called once. -/
structure Tracks (hist : List Output) (s : State) : Prop where
  mapped : ∀ fd id, Holds hist fd id → s.fdState fd = some id
  submits : ∀ fd id, Holds hist fd id → ∀ len uninit,
    ∃ s', step s (.readFile fd len uninit) = some (s', [.submitted s.nextReq])
  once : ∀ q ∈ submittedReads hist, (invokedReads hist).count q + s.readInFlight q = 1
  deliverable : ∀ q id fd b len result, s.requests q = some (.reading id fd b len (some result)) →
    ∀ beyond, (step s (.deliver q beyond)).isSome

def Request.closes (fd : ℤ) : Request → Bool
  | .closing _ fd' _ => fd' == fd
  | _ => false

/-- The callback of an open that got `fd` is delivered only when no close of `fd` is in
flight. -/
def closesFirst (s : State) : Label → Bool
  | .deliver q _ =>
    match s.requests q with
    | some (.opening _ (some fd)) => !s.anyRequest (Request.closes fd)
    | _ => true
  | _ => true

theorem step_readFile {s : State} {fd : ℤ} {id : ℕ} {st : FileOpState} (hmap : s.fdState fd = some id)
    (hst : s.states id = some st) (len : ℕ) (uninit : ℕ → UInt8) :
    step s (.readFile fd len uninit) =
      some ((s.ensureBuffer id st len uninit).1.submit
        (.reading id fd (s.ensureBuffer id st len uninit).2 len none), [.submitted s.nextReq]) := by
  simp only [step, State.readFileAsync, hmap, hst]

/-! ## Every submitted read is called back once -/

theorem readInFlight_submit {s : State} (h : Refs s) (r : Request) (q : ℕ) :
    (s.submit r).readInFlight q =
      s.readInFlight q + if q = s.nextReq then r.isReading.toNat else 0 := by
  by_cases hq : q = s.nextReq
  · have hnone : s.inFlight s.nextReq = none := by
      by_contra hsome
      obtain ⟨r', hr'⟩ := Option.ne_none_iff_exists'.mp hsome
      exact Nat.lt_irrefl _ (h.req_lt _ _ hr')
    have hnew : (s.submit r).inFlight s.nextReq = some r.submitted := by
      simp [State.inFlight, State.submit]
    simp [hq, State.readInFlight, hnone, hnew]
  · have hsame : (s.submit r).inFlight q = s.inFlight q := by
      simp [State.inFlight, State.submit, hq]
    simp [State.readInFlight, hsame, hq]

theorem readInFlight_finish {s : State} {q : ℕ} {r : Request} (hq : s.requests q = some r) (q' : ℕ) :
    s.readInFlight q' =
      (s.setRequest q none).readInFlight q' + if q' = q then r.isReading.toNat else 0 := by
  by_cases heq : q' = q
  · subst heq
    simp [State.readInFlight, State.inFlight, State.setRequest, hq]
  · have hsame : (s.setRequest q none).inFlight q' = s.inFlight q' := by
      simp [State.inFlight, State.setRequest, heq]
    simp [State.readInFlight, hsame, heq]

theorem readInFlight_congr {s s' : State} (h : s'.inFlight = s.inFlight) :
    s'.readInFlight = s.readInFlight := by
  funext q
  rw [State.readInFlight, State.readInFlight, h]

/-- The reads that were submitted are those called back and those in flight. -/
structure ReadAccount (hist : List Output) (s : State) : Prop where
  lt : ∀ q ∈ submittedReads hist, q < s.nextReq
  nodup : (submittedReads hist).Nodup
  balance : ∀ q, (submittedReads hist).count q = (invokedReads hist).count q + s.readInFlight q

namespace ReadAccount
variable {hist : List Output} {s s' : State}

theorem quiet (h : ReadAccount hist s) {out : List Output} (hsub : submittedReads out = [])
    (hinv : invokedReads out = []) (hnext : s.nextReq ≤ s'.nextReq)
    (hflight : s'.readInFlight = s.readInFlight) : ReadAccount (hist ++ out) s' := by
  constructor
  · rw [submittedReads_append, hsub, List.append_nil]
    exact fun q hq => (h.lt q hq).trans_le hnext
  · rw [submittedReads_append, hsub, List.append_nil]
    exact h.nodup
  · intro q
    rw [submittedReads_append, invokedReads_append, hsub, hinv, List.append_nil, List.append_nil,
      hflight, h.balance]

theorem submitted (h : ReadAccount hist s) (hnext : s'.nextReq = s.nextReq + 1)
    (hflight : ∀ q, s'.readInFlight q = s.readInFlight q + if q = s.nextReq then 1 else 0) :
    ReadAccount (hist ++ [Output.submitted s.nextReq]) s' := by
  have hsub :
      submittedReads (hist ++ [Output.submitted s.nextReq]) = submittedReads hist ++ [s.nextReq] :=
    submittedReads_append ..
  have hinv : invokedReads (hist ++ [Output.submitted s.nextReq]) = invokedReads hist := by
    rw [invokedReads_append]
    exact List.append_nil _
  constructor
  · intro q hq
    rw [hsub, List.mem_append, List.mem_singleton] at hq
    rcases hq with hq | rfl
    · exact hnext ▸ Nat.lt_succ_of_lt (h.lt q hq)
    · exact hnext ▸ Nat.lt_succ_self _
  · rw [hsub, List.nodup_append]
    refine ⟨h.nodup, List.nodup_singleton _, ?_⟩
    rintro q hq _ hmem rfl
    rw [List.mem_singleton] at hmem
    exact Nat.lt_irrefl _ (hmem ▸ h.lt q hq)
  · intro q
    rw [hsub, hinv, hflight, List.count_append, h.balance, Nat.add_assoc, List.count_singleton]
    simp only [beq_iff_eq, eq_comm (a := q)]

theorem invoked (h : ReadAccount hist s) {out : List Output} {q₀ : ℕ} (hsub : submittedReads out = [])
    (hinv : invokedReads out = [q₀]) (hnext : s'.nextReq = s.nextReq)
    (hflight : ∀ q, s.readInFlight q = s'.readInFlight q + if q = q₀ then 1 else 0) :
    ReadAccount (hist ++ out) s' := by
  constructor
  · rw [submittedReads_append, hsub, List.append_nil, hnext]
    exact h.lt
  · rw [submittedReads_append, hsub, List.append_nil]
    exact h.nodup
  · intro q
    rw [submittedReads_append, invokedReads_append, hsub, hinv, List.append_nil, h.balance, hflight,
      List.count_append, List.count_singleton]
    simp only [beq_iff_eq, eq_comm (a := q)]
    omega

theorem step (h : ReadAccount hist s) (hrefs : Refs s) {a : Label} {out : List Output}
    (hstep : Moved s a s' out) : ReadAccount (hist ++ out) s' := by
  cases hstep with
  | openFile =>
    refine h.quiet rfl rfl (Nat.le_succ _) ?_
    funext q
    exact (readInFlight_submit hrefs (.opening s.nextState none) q).trans (by simp [Request.isReading])
  | readUnknown | closeUnknown => exact h.quiet rfl rfl (Nat.le_refl _) rfl
  | read hfd hst hbuf =>
    apply h.submitted
    · cases hbuf <;> rfl
    · intro q
      rw [readInFlight_congr (hbuf.inFlight_submit _), readInFlight_submit hrefs]
      rfl
  | close =>
    refine h.quiet rfl rfl (Nat.le_succ _) ?_
    funext q
    simp [readInFlight_submit hrefs, Request.isReading]
  | executeOpenFailed hq | executeOpen hq | executeReadFailed hq | executeRead hq
  | executeReadWild hq | executeCloseUnused hq | executeClose hq =>
    refine h.quiet rfl rfl (Nat.le_refl _) (readInFlight_congr ?_)
    exact inFlight_setRequest hq rfl
  | openFailed hq | opened hq | closed hq =>
    refine h.quiet rfl rfl (Nat.le_refl _) ?_
    funext q
    have hflight := readInFlight_finish hq q
    simp only [Request.isReading, Bool.toNat_false, ite_self, Nat.add_zero] at hflight
    exact hflight.symm
  | readFailed hq | readDone hq | readWild hq =>
    exact h.invoked rfl rfl rfl (readInFlight_finish hq)

theorem reaches (run : (fileSystem.guarded fun s a => exclusive s a = true).Reaches s hist) :
    ReadAccount hist s := by
  induction run with
  | start h =>
    obtain ⟨inUse, rfl⟩ := h
    exact ⟨nofun, List.nodup_nil, fun q => rfl⟩
  | next run hstep ih => exact ih.step (.reaches run) (moved (Machine.guarded_step.mp hstep).2)

theorem once (h : ReadAccount hist s) {q : ℕ} (hq : q ∈ submittedReads hist) :
    (invokedReads hist).count q + s.readInFlight q = 1 := by
  rw [← h.balance, List.count_eq_one_of_mem h.nodup hq]

end ReadAccount

/-! ## The entry of a number that JS holds -/

structure Held (hist : List Output) (s : State) : Prop where
  mapped : ∀ fd id, Holds hist fd id → s.fdState fd = some id
  closing : ∀ q id fd, s.inFlight q = some (.closing id fd false) →
    s.fdState fd = some id ∧ ∀ id', ¬ Holds hist fd id'

namespace Held
variable {hist : List Output} {s s' : State}

theorem quiet (h : Held hist s) {out : List Output} (hout : ∀ id fd, .opened id fd ∉ out)
    (hfd : s'.fdState = s.fdState)
    (hclosing : ∀ q id fd, s'.inFlight q = some (.closing id fd false) →
      s.inFlight q = some (.closing id fd false)) : Held (hist ++ out) s' := by
  constructor
  · intro fd id hholds
    rw [hfd]
    exact h.mapped fd id (hholds.of_append (hout id fd)).1
  · intro q id fd hq
    obtain ⟨hmap, hnot⟩ := h.closing q id fd (hclosing q id fd hq)
    exact ⟨hfd ▸ hmap, fun id' hholds => hnot id' (hholds.of_append (hout id' fd)).1⟩

theorem execute (h : Held hist s) {out : List Output} (hout : ∀ id fd, .opened id fd ∉ out)
    (hfd : s'.fdState = s.fdState) (hflight : s'.inFlight = s.inFlight) : Held (hist ++ out) s' :=
  h.quiet hout hfd fun q _ _ hq => (congrFun hflight q).symm.trans hq

theorem close (h : Held hist s) {fd : ℤ} {id : ℕ} (hfd : s.fdState fd = some id) :
    Held (hist ++ [Output.closeCalled fd]) (s.submit (.closing id fd false)) := by
  have hold {fd' : ℤ} {id' : ℕ} (hholds : Holds (hist ++ [Output.closeCalled fd]) fd' id') :
      Holds hist fd' id' ∧ fd' ≠ fd := by
    have hboth := hholds.of_append (by simp)
    exact ⟨hboth.1, by simpa using hboth.2⟩
  constructor
  · exact fun fd' id' hholds => h.mapped fd' id' (hold hholds).1
  · intro q id' fd' hq
    rcases inFlight_submit hq with ⟨-, heq⟩ | hq
    · cases heq
      exact ⟨hfd, fun id' hholds => (hold hholds).2 rfl⟩
    · obtain ⟨hmap, hnot⟩ := h.closing q id' fd' hq
      exact ⟨hmap, fun id'' hholds => hnot id'' (hold hholds).1⟩

/-- When no close of the number is in flight, the kernel has given it out for the first
time since JS held it. -/
theorem not_holds (h : Held hist s) (hrefs : Refs s) (hfiles : Files hist s) {q id : ℕ} {fd : ℤ}
    (hq : s.requests q = some (.opening id (some fd))) (hle : 0 ≤ fd)
    (hfree : ∀ q id', s.inFlight q ≠ some (.closing id' fd false)) (id' : ℕ) :
    ¬ Holds hist fd id' := by
  intro hholds
  have hmap := h.mapped fd id' hholds
  obtain ⟨-, st, hst, heq⟩ := hrefs.fd_eq fd id' hmap
  have howner : s.files fd = some (.file id') := by
    rw [← heq]
    apply hfiles.isOpen id' st hst (heq ▸ hle)
    intro q' fd' hq'
    obtain ⟨-, st', hst', heq'⟩ := hrefs.closing q' id' fd' (inFlight_of_requests hq')
    rw [hst] at hst'
    cases hst'
    rw [heq] at heq'
    exact hfree q' id' (heq' ▸ inFlight_of_requests hq')
  rw [hfiles.opening q id fd hq hle] at howner
  cases howner
  exact (hrefs.opening q id (inFlight_of_requests hq)).2 fd hmap

theorem opened (h : Held hist s) {q id : ℕ} {fd : ℤ}
    (hflight : s'.inFlight = (s.setRequest q none).inFlight)
    (hmap : s'.fdState = Function.update s.fdState fd (some id))
    (hnot : ∀ id', ¬ Holds hist fd id')
    (hfree : ∀ q id', s.inFlight q ≠ some (.closing id' fd false)) :
    Held (hist ++ [Output.opened id fd]) s' := by
  have hold {fd' : ℤ} {id' : ℕ} (hne : fd' ≠ fd)
      (hholds : Holds (hist ++ [Output.opened id fd]) fd' id') :
      Holds hist fd' id' := by
    refine (hholds.of_append ?_).1
    simp [hne]
  constructor
  · intro fd' id' hholds
    by_cases hne : fd' = fd
    · subst hne
      have hid : id' = id := by
        by_contra hid
        exact hnot id' (hholds.of_append (by simpa using hid)).1
      rw [hmap, hid, Function.update_self]
    · rw [hmap, Function.update_of_ne hne]
      exact h.mapped fd' id' (hold hne hholds)
  · intro q' id' fd' hq'
    rw [hflight] at hq'
    have hq' := (inFlight_finish hq').2
    have hne : fd' ≠ fd := by
      rintro rfl
      exact hfree q' id' hq'
    obtain ⟨hmap', hnot'⟩ := h.closing q' id' fd' hq'
    refine ⟨?_, fun id'' hholds => hnot' id'' (hold hne hholds)⟩
    rw [hmap, Function.update_of_ne hne, hmap']

theorem closed (h : Held hist s) (hrefs : Refs s) {q id : ℕ} {fd : ℤ} {st : FileOpState}
    (hq : s.inFlight q = some (.closing id fd false)) (hst : s.states id = some st)
    (hflight : s'.inFlight = (s.setRequest q none).inFlight)
    (hmap : s'.fdState = Function.update s.fdState st.fd none) :
    Held (hist ++ [Output.deleted id]) s' := by
  obtain ⟨-, st', hst', heq⟩ := hrefs.closing q id fd hq
  rw [hst] at hst'
  cases hst'
  obtain ⟨hmapped, hnot⟩ := h.closing q id fd hq
  have hold {fd' : ℤ} {id' : ℕ} (hholds : Holds (hist ++ [Output.deleted id]) fd' id') :
      Holds hist fd' id' := (hholds.of_append (by simp)).1
  rw [heq] at hmap
  constructor
  · intro fd' id' hholds
    have hne : fd' ≠ fd := by
      rintro rfl
      exact hnot id' (hold hholds)
    rw [hmap, Function.update_of_ne hne]
    exact h.mapped fd' id' (hold hholds)
  · intro q' id' fd' hq'
    rw [hflight] at hq'
    obtain ⟨hmapped', hnot'⟩ := h.closing q' id' fd' (inFlight_finish hq').2
    refine ⟨?_, fun id'' hholds => hnot' id'' (hold hholds)⟩
    rw [hmap, Function.update_of_ne, hmapped']
    rintro rfl
    rw [hmapped] at hmapped'
    cases hmapped'
    exact hrefs.state_ne hq rfl hq' rfl

theorem step (h : Held hist s) (hrefs : Refs s) (hfiles : Files hist s) {a : Label}
    {out : List Output} (hfirst : closesFirst s a = true) (hstep : Moved s a s' out) :
    Held (hist ++ out) s' := by
  cases hstep with
  | openFile =>
    refine h.quiet (by simp) rfl ?_
    intro q id fd hq
    rcases inFlight_submit hq with ⟨-, heq⟩ | hq
    · cases heq
    · exact hq
  | readUnknown | closeUnknown => exact h.quiet (by simp) rfl fun _ _ _ hq => hq
  | read hfd hst hbuf =>
    refine h.quiet (by simp) (by cases hbuf <;> rfl) ?_
    intro q id fd hq
    rw [hbuf.inFlight_submit] at hq
    rcases inFlight_submit hq with ⟨-, heq⟩ | hq
    · cases heq
    · exact hq
  | close hfd => exact h.close hfd
  | executeOpenFailed hq | executeOpen hq | executeReadFailed hq | executeRead hq
  | executeReadWild hq | executeCloseUnused hq | executeClose hq =>
    refine h.execute (by simp) rfl ?_
    exact inFlight_setRequest hq rfl
  | openFailed hq | readFailed hq | readDone hq | readWild hq =>
    refine h.quiet (by simp) rfl ?_
    intro q id fd hclosing
    exact (inFlight_finish hclosing).2
  | @opened q id fd beyond st hq hle hst =>
    simp only [closesFirst, hq, Bool.not_eq_true'] at hfirst
    have hfree (q' id' : ℕ) : s.inFlight q' ≠ some (.closing id' fd false) := by
      intro hq'
      have hnot := not_anyRequest hrefs (by rintro (_ | _ | _) <;> rfl) hfirst hq'
      simp [Request.closes] at hnot
    exact h.opened rfl rfl (h.not_holds hrefs hfiles hq hle hfree) hfree
  | closed hq hst => exact h.closed hrefs (inFlight_of_requests hq) hst rfl rfl

end Held

/-- The table tracks the open files when JS leaves a file's requests apart and no open
is called back while a close of the same number is in flight. -/
theorem fdState_tracks {s : State} {hist : List Output}
    (run : (fileSystem.guarded fun s a =>
      exclusive s a = true ∧ closesFirst s a = true).Reaches s hist) : Tracks hist s := by
  have hexclusive : (fileSystem.guarded fun s a => exclusive s a = true).Reaches s hist :=
    run.guarded_mono fun _ _ h => h.1
  have hrefs := Refs.reaches hexclusive
  have hheld : Held hist s := by
    clear hexclusive hrefs
    induction run with
    | start h =>
      obtain ⟨inUse, rfl⟩ := h
      exact ⟨by rintro fd id ⟨_, _, heq, -⟩; simp at heq, nofun⟩
    | next run hstep ih =>
      obtain ⟨⟨-, hfirst⟩, hstep⟩ := Machine.guarded_step.mp hstep
      have hbefore := run.guarded_mono fun _ _ h => h.1
      exact ih.step (.reaches hbefore) (.reaches hbefore) hfirst (moved hstep)
  refine ⟨hheld.mapped, ?_, fun q hq => (ReadAccount.reaches hexclusive).once hq, ?_⟩
  · intro fd id hholds len uninit
    have hmap := hheld.mapped fd id hholds
    obtain ⟨-, st, hst, -⟩ := hrefs.fd_eq fd id hmap
    exact ⟨_, step_readFile hmap hst len uninit⟩
  · intro q id fd b len result hq beyond
    obtain ⟨st, hst⟩ := hrefs.live q _ (inFlight_of_requests hq)
    have hst : s.states id = some st := hst
    simp [step, State.deliver, hq, hst]

/-- A number that is given out again after the callback of its close. -/
theorem fdState_tracks_reopened : ∃ s hist, Holds hist 3 1 ∧ Tracks hist s := by
  let labels : List Label := [.openFile, .executeOpen 0 3, .deliver 0 fun _ => 0,
    .closeFile 3, .executeClose 1, .deliver 1 fun _ => 0,
    .openFile, .executeOpen 2 3, .deliver 2 fun _ => 0]
  refine ⟨_, _, ⟨[.opened 0 3, .closeCalled 3, .closed (.file 0), .deleted 0], [], rfl, nofun⟩,
    fdState_tracks (Machine.reaches_exec labels ⟨fun _ => false, rfl⟩ rfl)⟩

/-- The callback of the close comes after that of the second open and erases its entry. -/
theorem close_erases_reopened : ∃ s hist, fileSystem.Reaches s hist ∧ ¬ Tracks hist s := by
  let labels : List Label := [.openFile, .executeOpen 0 3, .deliver 0 fun _ => 0,
    .closeFile 3, .executeClose 1, .openFile, .executeOpen 2 3, .deliver 2 fun _ => 0,
    .deliver 1 fun _ => 0]
  refine ⟨_, _, Machine.reaches_exec labels ⟨fun _ => false, rfl⟩ rfl, fun h => ?_⟩
  have hholds : Holds [.opened 0 3, .closeCalled 3, .closed (.file 0), .opened 1 3, .deleted 0] 3 1 :=
    ⟨[.opened 0 3, .closeCalled 3, .closed (.file 0)], [.deleted 0], rfl, by simp⟩
  cases h.mapped 3 1 hholds

end CapyJs.Fs
