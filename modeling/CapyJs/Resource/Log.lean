import Mathlib.Data.List.Basic

/-!
# Logs of acquisitions and releases

A path through a program that acquires and releases resources by hand is a list of
operations. It handles its resources well when each of them is acquired once and
released once, in this order.
-/
namespace CapyJs.Resource

inductive Op (ρ : Type*)
  | acquire (r : ρ)
  | release (r : ρ)
  deriving DecidableEq, Repr

variable {ρ : Type*}

def Op.resource : Op ρ → ρ
  | .acquire r | .release r => r

variable [DecidableEq ρ]

/-- What a log does with one resource. -/
def uses (r : ρ) (log : List (Op ρ)) : List (Op ρ) := log.filter (·.resource = r)

def ReleasedOnce (log : List (Op ρ)) : Prop :=
  ∀ op ∈ log, uses op.resource log = [.acquire op.resource, .release op.resource]

instance (log : List (Op ρ)) : Decidable (ReleasedOnce log) := List.decidableBAll _ _

@[simp] theorem uses_nil (r : ρ) : uses r [] = [] := rfl

@[simp] theorem uses_append (r : ρ) (log log' : List (Op ρ)) :
    uses r (log ++ log') = uses r log ++ uses r log' :=
  List.filter_append ..

theorem uses_cons (r : ρ) (op : Op ρ) (log : List (Op ρ)) :
    uses r (op :: log) = if op.resource = r then op :: uses r log else uses r log := by
  simp [uses, List.filter_cons]

/-- What a loop does with one resource. -/
theorem uses_flatMap {ι : Type*} (r : ρ) (f : ι → List (Op ρ)) (l : List ι) :
    uses r (l.flatMap f) = l.flatMap fun i => uses r (f i) := by
  induction l with
  | nil => rfl
  | cons i l ih => rw [List.flatMap_cons, List.flatMap_cons, uses_append, ih]

/-- A counting loop that touches a resource in one of its rounds. -/
theorem uses_range {f : ℕ → List (Op ρ)} {r : ρ} {j : ℕ} {op : Op ρ}
    (h : ∀ i, uses r (f i) = if i = j then [op] else []) (n : ℕ) :
    uses r ((List.range n).flatMap f) = if j < n then [op] else [] := by
  induction n with
  | zero => rfl
  | succ n ih =>
    rw [List.range_succ, List.flatMap_append, uses_append, ih, List.flatMap_singleton, h]
    by_cases hj : n = j
    · rw [if_neg (by omega), if_pos hj, if_pos (by omega)]
      rfl
    · by_cases hlt : j < n
      · rw [if_pos hlt, if_neg hj, if_pos (by omega)]
        rfl
      · rw [if_neg hlt, if_neg hj, if_neg (by omega)]
        rfl

theorem uses_range_eq_nil {f : ℕ → List (Op ρ)} {r : ρ} (h : ∀ i, uses r (f i) = []) (n : ℕ) :
    uses r ((List.range n).flatMap f) = [] := by
  rw [uses_flatMap]
  exact List.flatMap_eq_nil_iff.mpr fun i _ => h i

theorem mem_uses {op : Op ρ} {log : List (Op ρ)} : op ∈ uses op.resource log ↔ op ∈ log := by
  simp [uses]

/-- The same resource by resource. -/
theorem releasedOnce_iff {log : List (Op ρ)} :
    ReleasedOnce log ↔ ∀ r, uses r log = [] ∨ uses r log = [.acquire r, .release r] := by
  constructor
  · intro h r
    cases hr : uses r log with
    | nil => exact .inl rfl
    | cons op rest =>
      have hop : op ∈ log ∧ op.resource = r := by
        have hmem : op ∈ uses r log := hr ▸ List.mem_cons_self
        simpa [uses] using hmem
      rw [← hr, ← hop.2]
      exact .inr (h op hop.1)
  · intro h op hop
    rcases h op.resource with hnil | huse
    · exact absurd (mem_uses.mpr hop) (hnil ▸ List.not_mem_nil)
    · exact huse

/-- A resource that is acquired and not released. -/
theorem not_releasedOnce_of_leak {log : List (Op ρ)} {r : ρ} (h : uses r log = [.acquire r]) :
    ¬ReleasedOnce log := by
  intro hlog
  rcases releasedOnce_iff.mp hlog r with hnil | huse
  · rw [h] at hnil
    cases hnil
  · rw [h] at huse
    cases huse

end CapyJs.Resource
