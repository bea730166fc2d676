import CapyJs.Transition.Machine

/-!
# Forward simulation between machines

Every step of the simulating machine is matched by one step of the other or by none. The
relation sees both histories, so a machine may be behind in what it has emitted.
-/
namespace CapyJs.Transition.Machine

variable {σ τ α α' β : Type*} {M : Machine σ α β} {N : Machine τ α' β}

theorem Reaches.simulated {R : List β → σ → List β → τ → Prop}
    (start : ∀ s, M.init s → ∃ t, N.init t ∧ R [] s [] t)
    (sim : ∀ hist s hist' t, R hist s hist' t → ∀ a s' out, M.step s a = some (s', out) →
      R (hist ++ out) s' hist' t ∨
        ∃ b t' out', N.step t b = some (t', out') ∧ R (hist ++ out) s' (hist' ++ out') t')
    {s : σ} {hist : List β} (run : M.Reaches s hist) :
    ∃ t hist', N.Reaches t hist' ∧ R hist s hist' t := by
  induction run with
  | start h =>
    obtain ⟨t, hinit, hrel⟩ := start _ h
    exact ⟨t, [], .start hinit, hrel⟩
  | next run h ih =>
    obtain ⟨t, hist', hrun, hrel⟩ := ih
    obtain hstutter | ⟨b, t', out', hstep, hrel'⟩ := sim _ _ _ _ hrel _ _ _ h
    · exact ⟨t, hist', hrun, hstutter⟩
    · exact ⟨t', hist' ++ out', hrun.next hstep, hrel'⟩

end CapyJs.Transition.Machine
