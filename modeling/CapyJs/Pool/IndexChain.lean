import Mathlib.Algebra.GroupWithZero.Nat
import Mathlib.Algebra.Order.BigOperators.Group.List
import Mathlib.Algebra.Order.Group.Nat
import Mathlib.Tactic.Common

/-!
# Chains threaded through an array by index

`Chain link stop a l` says that following `link` from the index `a` visits
exactly the indices of `l` in order and then arrives at `stop`. Only the links
of visited indices matter, so writes elsewhere leave a chain alone. `Linked` says
the same of pointers that can be null, for lists that null ends.
-/
namespace CapyJs.Pool

inductive Chain (link : ℕ → Option ℕ) (stop : ℕ) : ℕ → List ℕ → Prop
  | nil : Chain link stop stop []
  | cons {i j : ℕ} {l : List ℕ} (h : link i = some j) (rest : Chain link stop j l) :
      Chain link stop i (i :: l)

namespace Chain
variable {link link' : ℕ → Option ℕ} {stop a b : ℕ} {l : List ℕ}

theorem congr (hc : Chain link stop a l) (h : ∀ i ∈ l, link' i = link i) :
    Chain link' stop a l := by
  induction hc with
  | nil => exact .nil
  | cons hi rest ih =>
    refine .cons ((h _ List.mem_cons_self).trans hi) (ih fun j hj => ?_)
    exact h j (List.mem_cons_of_mem _ hj)

theorem eq_stop (hc : Chain link stop a []) : a = stop := by
  cases hc
  rfl

theorem head_eq (hc : Chain link stop a (b :: l)) : a = b := by
  cases hc
  rfl

theorem tail (hc : Chain link stop a (a :: l)) : ∃ j, link a = some j ∧ Chain link stop j l := by
  cases hc with
  | cons h rest => exact ⟨_, h, rest⟩

/-- Where a chain starts is either one of its members or the end. -/
theorem start_mem_or_stop (hc : Chain link stop a l) : a ∈ l ∨ a = stop := by
  cases hc with
  | nil => exact .inr rfl
  | cons h rest => exact .inl List.mem_cons_self

/-- Consecutive indices, the last one linked to the end. -/
theorem range' {s n : ℕ} (hlink : ∀ i, s ≤ i → i < s + n → link i = some (i + 1))
    (hlast : link (s + n) = some stop) : Chain link stop s (List.range' s (n + 1)) := by
  induction n generalizing s with
  | zero => exact .cons hlast .nil
  | succ n ih =>
    rw [List.range'_succ]
    apply Chain.cons (hlink s (Nat.le_refl s) (by omega))
    apply ih
    · intro i hi hlt
      exact hlink i (by omega) (by omega)
    · rwa [show s + 1 + n = s + (n + 1) by omega]

end Chain

/-! ## Null-terminated lists -/

/-- Following `next` from a pointer visits exactly the nodes of a list and then arrives at
null. -/
inductive Linked (next : ℕ → Option (Option ℕ)) : Option ℕ → List ℕ → Prop
  | nil : Linked next none []
  | cons {b : ℕ} {p : Option ℕ} {l : List ℕ} (h : next b = some p) (rest : Linked next p l) :
      Linked next (some b) (b :: l)

namespace Linked
variable {next next' : ℕ → Option (Option ℕ)} {p : Option ℕ} {b : ℕ} {l : List ℕ}

theorem congr (hl : Linked next p l) (h : ∀ i ∈ l, next' i = next i) : Linked next' p l := by
  induction hl with
  | nil => exact .nil
  | cons hb rest ih =>
    apply Linked.cons ((h _ List.mem_cons_self).trans hb)
    exact ih fun j hj => h j (List.mem_cons_of_mem _ hj)

theorem head_eq (hl : Linked next p l) : p = l.head? := by
  cases hl <;> rfl

theorem tail (hl : Linked next p (b :: l)) : ∃ q, next b = some q ∧ Linked next q l := by
  cases hl with
  | cons h rest => exact ⟨_, h, rest⟩

/-- A node is put behind the last one. -/
theorem snoc {t : ℕ} (hl : Linked next p (l ++ [t])) (h : ∀ i ∈ l, next' i = next i)
    (ht : next' t = some (some b)) (hb : next' b = some none) :
    Linked next' p (l ++ [t] ++ [b]) := by
  induction l generalizing p with
  | nil =>
    cases hl with
    | cons _ rest => exact .cons ht (.cons hb .nil)
  | cons c l ih =>
    cases hl with
    | cons hc rest =>
      apply Linked.cons ((h c List.mem_cons_self).trans hc)
      exact ih rest fun j hj => h j (List.mem_cons_of_mem c hj)

end Linked

/-- Changing one entry moves a sum over indices by the difference of the two entries. -/
theorem sum_map_range_of_eq_of_ne {f g : ℕ → ℕ} {i n : ℕ} (hi : i < n)
    (h : ∀ j, j ≠ i → g j = f j) :
    ((List.range n).map g).sum + f i = ((List.range n).map f).sum + g i := by
  induction n with
  | zero => omega
  | succ n ih =>
    simp only [List.range_succ, List.map_append, List.sum_append, List.map_cons, List.map_nil,
      List.sum_singleton]
    by_cases hin : i = n
    · subst hin
      have hsame : (List.range i).map g = (List.range i).map f := by
        apply List.map_congr_left
        intro j hj
        exact h j (Nat.ne_of_lt (List.mem_range.mp hj))
      rw [hsame]
      omega
    · have hlast := h n (Ne.symm hin)
      have hrest := ih (by omega)
      omega

end CapyJs.Pool
