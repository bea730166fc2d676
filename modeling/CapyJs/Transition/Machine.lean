import Mathlib.Data.List.Basic

/-!
# Labelled machines, their histories and the invariant rule

A machine is a partial step function: the label names the party that moves,
`none` means that this party cannot move now, and a taken step emits the calls
and returns that an observer sees. Interleavings are lists of labels, so every
scheduling question is a question about which labels are enabled.
-/
namespace CapyJs.Transition

structure Machine (σ α β : Type*) where
  init : σ → Prop
  step : σ → α → Option (σ × List β)

namespace Machine
variable {σ α β γ τ : Type*}

/-- A state together with everything that was emitted on the way to it. -/
inductive Reaches (M : Machine σ α β) : σ → List β → Prop
  | start {s : σ} (h : M.init s) : Reaches M s []
  | next {s s' : σ} {a : α} {hist out : List β} (run : Reaches M s hist)
      (h : M.step s a = some (s', out)) : Reaches M s' (hist ++ out)

/-- The induction behind every safety result: what holds at the start and is
kept by each single step holds in every reachable state. -/
theorem Reaches.invariant {M : Machine σ α β} {I : List β → σ → Prop}
    (start : ∀ s, M.init s → I [] s)
    (keep : ∀ hist s a s' out, I hist s → M.step s a = some (s', out) → I (hist ++ out) s')
    {s : σ} {hist : List β} (run : M.Reaches s hist) : I hist s := by
  induction run with
  | start h => exact start _ h
  | next run h ih => exact keep _ _ _ _ _ ih h

/-- The same machine with only those steps that meet a condition on the state
before the step. Its runs are the runs all of whose steps meet the condition. -/
def guarded (M : Machine σ α β) (C : σ → α → Prop) [∀ s a, Decidable (C s a)] :
    Machine σ α β where
  init := M.init
  step s a := if C s a then M.step s a else none

theorem guarded_step {M : Machine σ α β} {C : σ → α → Prop} [∀ s a, Decidable (C s a)]
    {s s' : σ} {a : α} {out : List β} :
    (M.guarded C).step s a = some (s', out) ↔ C s a ∧ M.step s a = some (s', out) := by
  simp [guarded]

theorem Reaches.of_guarded {M : Machine σ α β} {C : σ → α → Prop} [∀ s a, Decidable (C s a)]
    {s : σ} {hist : List β} (run : (M.guarded C).Reaches s hist) : M.Reaches s hist := by
  induction run with
  | start h => exact .start h
  | next run h ih => exact .next ih (guarded_step.mp h).2

theorem Reaches.guarded_mono {M : Machine σ α β} {C D : σ → α → Prop} [∀ s a, Decidable (C s a)]
    [∀ s a, Decidable (D s a)] (h : ∀ s a, C s a → D s a) {s : σ} {hist : List β}
    (run : (M.guarded C).Reaches s hist) : (M.guarded D).Reaches s hist := by
  induction run with
  | start h => exact .start h
  | next run hstep ih =>
    obtain ⟨hcond, hstep⟩ := guarded_step.mp hstep
    exact ih.next (guarded_step.mpr ⟨h _ _ hcond, hstep⟩)

/-- Take the steps of a schedule in order; `none` when one of them is not enabled. -/
def exec (M : Machine σ α β) : σ → List α → Option (σ × List β)
  | s, [] => some (s, [])
  | s, a :: as =>
    match M.step s a with
    | none => none
    | some (s', out) => (exec M s' as).map fun p => (p.1, out ++ p.2)

theorem exec_cons {M : Machine σ α β} {s s₁ s₂ : σ} {a : α} {as : List α} {out₁ out₂ : List β}
    (h : M.step s a = some (s₁, out₁)) (hrest : M.exec s₁ as = some (s₂, out₂)) :
    M.exec s (a :: as) = some (s₂, out₁ ++ out₂) := by
  simp [exec, h, hrest]

theorem of_exec_cons {M : Machine σ α β} {s s' : σ} {a : α} {as : List α} {out : List β}
    (h : M.exec s (a :: as) = some (s', out)) : ∃ s₁ out₁ out₂,
      M.step s a = some (s₁, out₁) ∧ M.exec s₁ as = some (s', out₂) ∧ out = out₁ ++ out₂ := by
  simp only [exec] at h
  split at h
  · cases h
  · next s₁ out₁ hstep =>
    obtain ⟨⟨s₂, out₂⟩, hrest, heq⟩ := Option.map_eq_some_iff.mp h
    simp only [Prod.mk.injEq] at heq
    obtain ⟨rfl, rfl⟩ := heq
    exact ⟨s₁, out₁, out₂, hstep, hrest, rfl⟩

/-- What every step of a schedule keeps is kept by the schedule. -/
theorem exec_invariant_of_mem {M : Machine σ α β} {I : σ → Prop} {as : List α}
    (keep : ∀ s, ∀ a ∈ as, ∀ s' out, I s → M.step s a = some (s', out) → I s') {s s' : σ}
    {out : List β} (h : M.exec s as = some (s', out)) (hs : I s) : I s' := by
  induction as generalizing s out with
  | nil =>
    simp only [exec, Option.some.injEq, Prod.mk.injEq] at h
    exact h.1 ▸ hs
  | cons a as ih =>
    obtain ⟨s₁, out₁, out₂, hstep, hrest, -⟩ := of_exec_cons h
    have hlater := keep s a List.mem_cons_self s₁ out₁ hs hstep
    exact ih (fun s b hb => keep s b (List.mem_cons_of_mem a hb)) hrest hlater

theorem exec_invariant {M : Machine σ α β} {I : σ → Prop}
    (keep : ∀ s a s' out, I s → M.step s a = some (s', out) → I s') {s s' : σ} {as : List α}
    {out : List β} (h : M.exec s as = some (s', out)) (hs : I s) : I s' :=
  exec_invariant_of_mem (fun s a _ s' out => keep s a s' out) h hs

theorem exec_append (M : Machine σ α β) (s : σ) (as bs : List α) :
    M.exec s (as ++ bs) = (M.exec s as).bind fun p =>
      (M.exec p.1 bs).map fun q => (q.1, p.2 ++ q.2) := by
  induction as generalizing s with
  | nil => cases h : M.exec s bs <;> simp [exec, h]
  | cons a as ih =>
    simp only [List.cons_append, exec]
    cases M.step s a with
    | none => rfl
    | some p =>
      simp only [ih]
      cases M.exec p.1 as with
      | none => rfl
      | some q => cases h : M.exec q.1 bs <;> simp [h]

theorem of_exec_append {M : Machine σ α β} {s s' : σ} {as bs : List α} {out : List β}
    (h : M.exec s (as ++ bs) = some (s', out)) : ∃ s₁ out₁ out₂,
      M.exec s as = some (s₁, out₁) ∧ M.exec s₁ bs = some (s', out₂) ∧ out = out₁ ++ out₂ := by
  rw [exec_append] at h
  obtain ⟨⟨s₁, out₁⟩, hfirst, h⟩ := Option.bind_eq_some_iff.mp h
  obtain ⟨⟨s₂, out₂⟩, hrest, heq⟩ := Option.map_eq_some_iff.mp h
  cases heq
  exact ⟨s₁, out₁, out₂, hfirst, hrest, rfl⟩

theorem exec_trans {M : Machine σ α β} {s s₁ s₂ : σ} {as bs : List α} {out₁ out₂ : List β}
    (h : M.exec s as = some (s₁, out₁)) (hrest : M.exec s₁ bs = some (s₂, out₂)) :
    M.exec s (as ++ bs) = some (s₂, out₁ ++ out₂) := by
  simp [exec_append, h, hrest]

section Project
variable {M : Machine σ α β} {N : Machine τ α γ} (p : τ → σ) (q : List γ → List β)
  (happend : ∀ out out', q (out ++ out') = q out ++ q out')
include happend

theorem exec_cons_project {t : τ} {a : α} {as : List α}
    (hstep : (N.step t a).map (Prod.map p q) = M.step (p t) a)
    (hrest : ∀ t, (N.exec t as).map (Prod.map p q) = M.exec (p t) as) :
    (N.exec t (a :: as)).map (Prod.map p q) = M.exec (p t) (a :: as) := by
  rw [exec, exec, ← hstep]
  cases N.step t a with
  | none => rfl
  | some r =>
    obtain ⟨t', out⟩ := r
    simp only [Option.map_some, Prod.map_apply, ← hrest t']
    cases N.exec t' as <;> simp [happend]

/-- A machine whose steps are those of another one, seen through a projection of states
and outputs, has the schedules of that one. -/
theorem exec_project (hnil : q [] = []) {as : List α}
    (h : ∀ t, ∀ a ∈ as, (N.step t a).map (Prod.map p q) = M.step (p t) a) (t : τ) :
    (N.exec t as).map (Prod.map p q) = M.exec (p t) as := by
  induction as generalizing t with
  | nil => simp [exec, hnil]
  | cons a as ih =>
    exact exec_cons_project p q happend (h t a List.mem_cons_self)
      (ih fun t b hb => h t b (List.mem_cons_of_mem a hb))

/-- The runs of the machine that is seen are seen runs. -/
theorem Reaches.exists_project (hnil : q [] = [])
    (hinit : ∀ s, M.init s → ∃ t, N.init t ∧ p t = s)
    (hstep : ∀ t a, (N.step t a).map (Prod.map p q) = M.step (p t) a) {s : σ} {hist : List β}
    (run : M.Reaches s hist) : ∃ t hist', N.Reaches t hist' ∧ p t = s ∧ q hist' = hist := by
  induction run with
  | start h =>
    obtain ⟨t, ht, hp⟩ := hinit _ h
    exact ⟨t, [], .start ht, hp, hnil⟩
  | next run h ih =>
    obtain ⟨t, hist', hrun, rfl, rfl⟩ := ih
    rw [← hstep, Option.map_eq_some_iff] at h
    obtain ⟨⟨t', out⟩, hnext, heq⟩ := h
    obtain ⟨rfl, rfl⟩ := Prod.mk.inj heq
    exact ⟨t', hist' ++ out, hrun.next hnext, rfl, happend ..⟩

end Project

theorem Reaches.exec {M : Machine σ α β} {s s' : σ} {hist out : List β} {as : List α}
    (run : M.Reaches s hist) (h : M.exec s as = some (s', out)) :
    M.Reaches s' (hist ++ out) := by
  induction as generalizing s hist out with
  | nil =>
    simp only [Machine.exec, Option.some.injEq, Prod.mk.injEq] at h
    obtain ⟨rfl, rfl⟩ := h
    simpa using run
  | cons a as ih =>
    obtain ⟨s₁, out₁, out₂, hstep, hrest, rfl⟩ := of_exec_cons h
    rw [← List.append_assoc]
    exact ih (run.next hstep) hrest

/-- A concrete schedule from an initial state reaches the state it computes. -/
theorem reaches_exec {M : Machine σ α β} {s s' : σ} {out : List β} (as : List α)
    (h₀ : M.init s) (h : M.exec s as = some (s', out)) : M.Reaches s' out := by
  simpa using (Reaches.start h₀).exec h

/-- The observations of a specification, one relation step per emitted item. -/
inductive Observes (spec : τ → β → τ → Prop) : τ → List β → τ → Prop
  | nil (t : τ) : Observes spec t [] t
  | snoc {t t₁ t₂ : τ} {out : List β} {o : β} (run : Observes spec t out t₁)
      (h : spec t₁ o t₂) : Observes spec t (out ++ [o]) t₂

theorem Observes.trans {spec : τ → β → τ → Prop} {t t₁ t₂ : τ} {out out' : List β}
    (first : Observes spec t out t₁) (second : Observes spec t₁ out' t₂) :
    Observes spec t (out ++ out') t₂ := by
  induction second with
  | nil => simpa using first
  | snoc run h ih => rw [← List.append_assoc]; exact .snoc ih h

theorem Observes.eq_of_nil {spec : τ → β → τ → Prop} {t t' : τ} (run : Observes spec t [] t') :
    t' = t := by
  generalize hout : ([] : List β) = out at run
  cases run with
  | nil => rfl
  | snoc run h => simp at hout

theorem Observes.of_singleton {spec : τ → β → τ → Prop} {t t' : τ} {o : β}
    (run : Observes spec t [o] t') : spec t o t' := by
  generalize hout : [o] = out at run
  cases run with
  | nil => simp at hout
  | snoc run h =>
    obtain ⟨rfl, rfl⟩ : _ = [] ∧ _ = o := by simpa [eq_comm] using List.append_eq_singleton_iff.mp hout.symm
    obtain rfl := run.eq_of_nil
    exact h

/-- Forward simulation with stuttering: a step that emits nothing leaves the
abstract state alone, and each emitted item is one step of the specification. -/
theorem Reaches.observes {M : Machine σ α β} {spec : τ → β → τ → Prop}
    {I : List β → σ → Prop} {t₀ : τ} (abs : σ → τ)
    (start : ∀ s, M.init s → abs s = t₀)
    (inv : ∀ s hist, M.Reaches s hist → I hist s)
    (sim : ∀ hist s a s' out, I hist s → M.step s a = some (s', out) →
      Observes spec (abs s) out (abs s'))
    {s : σ} {hist : List β} (run : M.Reaches s hist) : Observes spec t₀ hist (abs s) := by
  induction run with
  | start h => rw [start _ h]; exact .nil _
  | next run h ih => exact ih.trans (sim _ _ _ _ _ (inv _ _ run) h)

end Machine
end CapyJs.Transition
