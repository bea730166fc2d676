import CapyJs.Fs.Files

/-!
# Who deletes a file's state, and when

The callback of a close deletes the state. Nothing keeps JS from closing a file that
is being read or closed already, and the callback of a failed open deletes nothing.
-/
namespace CapyJs.Fs
open Transition

/-- The file of a state was closed, or its open failed. -/
def Ended (hist : List Output) (id : ℕ) : Prop :=
  .closed (.file id) ∈ hist ∨ ∃ err, .openFailed id err ∈ hist

/-- A state is deleted once, when its file has ended and no request refers to it. -/
structure Owned (hist : List Output) (s : State) : Prop where
  once : (deletedStates hist).Nodup
  after : ∀ id ∈ deletedStates hist, Ended hist id
  atLast : ∀ id, Ended hist id →
    id ∈ deletedStates hist ∨ ∃ q r, s.requests q = some r ∧ r.state = id
  unreferred : ∀ q r, s.requests q = some r → r.state ∉ deletedStates hist

def opensSucceed : Label → Bool
  | .executeOpen _ result => 0 ≤ result
  | _ => true

theorem Files.owned {hist : List Output} {s : State} (h : Files hist s) (hrefs : Refs s)
    (hopens : ∀ id err, .openFailed id err ∉ hist) : Owned hist s := by
  refine ⟨h.once, ?_, ?_, ?_⟩
  · intro id hid
    exact .inl (h.deleted id (mem_deletedStates.mp hid)).2.2
  · rintro id (hclosed | ⟨err, hfailed⟩)
    · rcases h.closed id hclosed with hdeleted | ⟨q, fd, hq⟩
      · exact .inl (mem_deletedStates.mpr hdeleted)
      · exact .inr ⟨q, _, hq, rfl⟩
    · exact absurd hfailed (hopens id err)
  · intro q r hq hdeleted
    obtain ⟨st, hst⟩ := hrefs.live q r.submitted (inFlight_of_requests hq)
    rw [Request.state_submitted, (h.deleted _ (mem_deletedStates.mp hdeleted)).2.1] at hst
    cases hst

/-- Only the thread pool gives an open its result. -/
theorem Moved.opening {s s' : State} {a : Label} {out : List Output} (h : Moved s a s' out) {q id : ℕ}
    {result : ℤ} (hq : s'.requests q = some (.opening id (some result))) :
    a = .executeOpen q result ∨ s.requests q = some (.opening id (some result)) := by
  cases h with
  | readUnknown | closeUnknown => exact .inr hq
  | read hfd hst hbuf =>
    rw [hbuf.requests_submit] at hq
    exact .inr (requests_of_update hq (by simp))
  | @executeOpenFailed q' _ _ _ _ | @executeOpen q' _ _ _ _ =>
    by_cases heq : q = q'
    · subst heq
      obtain ⟨rfl, rfl⟩ : _ = id ∧ _ = result := by
        simpa [State.setRequest] using hq
      exact .inl rfl
    · right
      simpa [State.setRequest, heq] using hq
  | _ => exact .inr (requests_of_update hq (by simp))

/-- No open has failed, and none that is executed is going to. -/
def NoFailure (hist : List Output) (s : State) : Prop :=
  (∀ q id result, s.requests q = some (.opening id (some result)) → 0 ≤ result) ∧
    ∀ id err, .openFailed id err ∉ hist

theorem NoFailure.step {hist out : List Output} {s s' : State} {a : Label} (h : NoFailure hist s)
    (hok : opensSucceed a = true) (hstep : Moved s a s' out) : NoFailure (hist ++ out) s' := by
  constructor
  · intro q id result hq
    rcases hstep.opening hq with rfl | hq
    · exact of_decide_eq_true hok
    · exact h.1 q id result hq
  · intro id err hmem
    rcases List.mem_append.mp hmem with hmem | hmem
    · exact h.2 id err hmem
    · cases hstep with
      | openFailed hq hresult => exact absurd (h.1 _ _ _ hq) (Int.not_le.mpr hresult)
      | _ => simp at hmem

theorem NoFailure.reaches {hist : List Output} {s : State}
    (run : (fileSystem.guarded fun _ a => opensSucceed a = true).Reaches s hist) :
    NoFailure hist s := by
  induction run with
  | start h =>
    obtain ⟨inUse, rfl⟩ := h
    exact ⟨nofun, nofun⟩
  | next run hstep ih =>
    obtain ⟨hok, hstep⟩ := Machine.guarded_step.mp hstep
    exact ih.step hok (moved hstep)

/-- When every open succeeds and JS closes a file only when none of its requests is in
flight, each state has one deletion, after its file is closed. -/
theorem fileOpState_owned {s : State} {hist : List Output}
    (run : (fileSystem.guarded fun s a =>
      exclusive s a = true ∧ opensSucceed a = true).Reaches s hist) : Owned hist s := by
  have hexclusive : (fileSystem.guarded fun s a => exclusive s a = true).Reaches s hist :=
    run.guarded_mono fun _ _ h => h.1
  apply (Files.reaches hexclusive).owned (.reaches hexclusive)
  exact (NoFailure.reaches (run.guarded_mono fun _ _ h => h.2)).2

/-- A file is opened, read and closed, each request when the one before is done. -/
theorem fileOpState_owned_readThenClosed : ∃ s hist, deletedStates hist = [0] ∧ Owned hist s := by
  let labels : List Label := [.openFile, .executeOpen 0 3, .deliver 0 fun _ => 0,
    .readFile 3 2 fun _ => 0, .executeRead 1 (.ok [72]), .deliver 1 fun _ => 0,
    .closeFile 3, .executeClose 2, .deliver 2 fun _ => 0]
  exact ⟨_, _, rfl, fileOpState_owned (Machine.reaches_exec labels ⟨fun _ => false, rfl⟩ rfl)⟩

/-- The close of a file that is being read deletes the state which the read refers to. -/
theorem close_deletes_state_of_read :
    ∃ s hist, fileSystem.Reaches s hist ∧ ¬ Owned hist s := by
  let labels : List Label := [.openFile, .executeOpen 0 3, .deliver 0 fun _ => 0,
    .readFile 3 2 fun _ => 0, .closeFile 3, .executeClose 2, .deliver 2 fun _ => 0]
  refine ⟨_, _, Machine.reaches_exec labels ⟨fun _ => false, rfl⟩ rfl, fun h => ?_⟩
  exact h.unreferred 1 (.reading 0 3 0 2 none) rfl (by decide)

end CapyJs.Fs
