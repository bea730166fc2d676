import CapyJs.Transition.Machine

/-!
# Runs with extra schedules inserted

Two runs of one machine over the same events, one of them with extra schedules in
between. What is not enabled where it stands is passed over in either run. When an
extra schedule cannot be taken without being seen, the runs look alike at every
point exactly when none of the extra schedules is ever taken.
-/
namespace CapyJs.Transition.Machine
variable {σ α β ι γ : Type*}

/-- Take a schedule as a whole, or pass over it when one of its steps is not enabled. -/
def attempt (M : Machine σ α β) (p : σ × List β) (as : List α) : σ × List β :=
  match M.exec p.1 as with
  | none => p
  | some (s, out) => (s, p.2 ++ out)

inductive Entry (α ι : Type*)
  | event (a : α)
  | extra (x : ι)

/-- The run that takes the extra schedules too. -/
def withExtras (M : Machine σ α β) (sched : ι → List α) :
    σ × List β → List (Entry α ι) → σ × List β
  | p, [] => p
  | p, .event a :: es => withExtras M sched (M.attempt p [a]) es
  | p, .extra x :: es => withExtras M sched (M.attempt p (sched x)) es

/-- The run that leaves them out. -/
def withoutExtras (M : Machine σ α β) : σ × List β → List (Entry α ι) → σ × List β
  | p, [] => p
  | p, .event a :: es => withoutExtras M (M.attempt p [a]) es
  | p, .extra _ :: es => withoutExtras M p es

theorem attempt_of_none {M : Machine σ α β} {p : σ × List β} {as : List α}
    (h : M.exec p.1 as = none) : M.attempt p as = p := by
  simp [attempt, h]

theorem reaches_attempt {M : Machine σ α β} {p : σ × List β} {as : List α}
    (h : ∃ hist, M.Reaches p.1 hist) : ∃ hist, M.Reaches (M.attempt p as).1 hist := by
  obtain ⟨hist, run⟩ := h
  unfold attempt
  split
  · exact ⟨hist, run⟩
  · next s out hexec => exact ⟨hist ++ out, run.exec hexec⟩

theorem reaches_withoutExtras {M : Machine σ α β} {p : σ × List β} (es : List (Entry α ι))
    (h : ∃ hist, M.Reaches p.1 hist) : ∃ hist, M.Reaches (M.withoutExtras p es).1 hist := by
  induction es generalizing p with
  | nil => exact h
  | cons e es ih =>
    cases e with
    | event a => exact ih (reaches_attempt h)
    | extra x => exact ih h

/-- Extra schedules that show whenever they are taken go unseen only by not being taken. -/
theorem withExtras_agree_iff {M : Machine σ α β} {sched : ι → List α} {view : σ × List β → γ}
    (shows : ∀ p x, (∃ hist, M.Reaches p.1 hist) → M.exec p.1 (sched x) ≠ none →
      view (M.attempt p (sched x)) ≠ view p)
    (p : σ × List β) (hp : ∃ hist, M.Reaches p.1 hist) (es : List (Entry α ι)) :
    (∀ n, view (M.withExtras sched p (es.take n)) = view (M.withoutExtras p (es.take n))) ↔
      ∀ l x r, es = l ++ .extra x :: r → M.exec (M.withoutExtras p l).1 (sched x) = none := by
  induction es generalizing p with
  | nil => simp [withExtras, withoutExtras]
  | cons e es ih =>
    cases e with
    | event a =>
      -- both runs take the event, and no insertion stands before it
      rw [← Nat.and_forall_add_one]
      simp only [List.take_zero, List.take_succ_cons, withExtras, withoutExtras, true_and,
        ih _ (reaches_attempt hp)]
      constructor
      · intro h l x r hes
        cases l with
        | nil => cases hes
        | cons e' l =>
          obtain ⟨rfl, rfl⟩ := List.cons.inj hes
          exact h l x r rfl
      · intro h l x r hes
        exact h (.event a :: l) x r (by rw [hes]; rfl)
    | extra y =>
      constructor
      · intro h l x r hes
        have hnone : M.exec p.1 (sched y) = none := by
          by_contra htaken
          exact shows p y hp htaken (h 1)
        cases l with
        | nil =>
          cases hes
          exact hnone
        | cons e' l =>
          obtain ⟨rfl, rfl⟩ := List.cons.inj hes
          refine (ih p hp).mp (fun n => ?_) l x r rfl
          have hn := h (n + 1)
          rwa [List.take_succ_cons, withExtras, withoutExtras, attempt_of_none hnone] at hn
      · intro h n
        have hnone : M.exec p.1 (sched y) = none := h [] y es rfl
        cases n with
        | zero => rfl
        | succ n =>
          rw [List.take_succ_cons, withExtras, withoutExtras, attempt_of_none hnone]
          refine (ih p hp).mpr (fun l x r hes => ?_) n
          exact h (.extra y :: l) x r (by rw [hes]; rfl)

end CapyJs.Transition.Machine
