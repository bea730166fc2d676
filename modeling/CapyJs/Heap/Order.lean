import Mathlib.Algebra.Order.Interval.Finset.SuccPred
import Mathlib.Data.Finset.Image
import Mathlib.Data.Nat.SuccPred
import Mathlib.Logic.Equiv.Basic
import Mathlib.Order.Interval.Finset.Nat

/-!
# Complete binary trees in heap order

The places of a complete tree are numbered row by row from the root, which is 1, so that the
parent of `p` is `p / 2`. A tree in order in which one node is replaced is in order around its
place. Exchanging that node with its smallest child keeps the tree in order around it, and so
does exchanging it with its parent when its children are not smaller.
-/
namespace CapyJs.Heap

variable {ι κ : Type*} [LinearOrder κ] {key : ι → κ} {nodeAt : ℕ → ι} {n p c : ℕ}

/-- The nodes at the places `p` and `q` change places. -/
def exchange (nodeAt : ℕ → ι) (p q : ℕ) : ℕ → ι := fun r => nodeAt (Equiv.swap p q r)

@[simp] theorem exchange_left (nodeAt : ℕ → ι) (p q : ℕ) : exchange nodeAt p q p = nodeAt q := by
  simp [exchange]

@[simp] theorem exchange_right (nodeAt : ℕ → ι) (p q : ℕ) : exchange nodeAt p q q = nodeAt p := by
  simp [exchange]

theorem exchange_of_ne {q r : ℕ} (hp : r ≠ p) (hq : r ≠ q) : exchange nodeAt p q r = nodeAt r := by
  rw [exchange, Equiv.swap_apply_of_ne_of_ne hp hq]

/-- The nodes of a tree with `n` places. -/
def nodes [DecidableEq ι] (nodeAt : ℕ → ι) (n : ℕ) : Finset ι := (Finset.Icc 1 n).image nodeAt

theorem mem_nodes [DecidableEq ι] {x : ι} :
    x ∈ nodes nodeAt n ↔ ∃ p, 1 ≤ p ∧ p ≤ n ∧ nodeAt p = x := by
  simp [nodes, and_assoc]

theorem nodes_exchange [DecidableEq ι] {q : ℕ} (hp : 1 ≤ p ∧ p ≤ n) (hq : 1 ≤ q ∧ q ≤ n) :
    nodes (exchange nodeAt p q) n = nodes nodeAt n := by
  have hsub : ∀ nodeAt : ℕ → ι, nodes (exchange nodeAt p q) n ⊆ nodes nodeAt n := by
    intro nodeAt x hx
    obtain ⟨r, hr, hn, rfl⟩ := mem_nodes.mp hx
    by_cases hrp : r = p
    · exact mem_nodes.mpr ⟨q, hq.1, hq.2, by rw [hrp, exchange_left]⟩
    · by_cases hrq : r = q
      · exact mem_nodes.mpr ⟨p, hp.1, hp.2, by rw [hrq, exchange_right]⟩
      · exact mem_nodes.mpr ⟨r, hr, hn, by rw [exchange_of_ne hrp hrq]⟩
  refine (hsub nodeAt).antisymm ?_
  have htwice : exchange (exchange nodeAt p q) p q = nodeAt := by
    funext r
    simp [exchange]
  have hback := hsub (exchange nodeAt p q)
  rwa [htwice] at hback

theorem nodes_succ [DecidableEq ι] (nodeAt : ℕ → ι) (n : ℕ) :
    nodes nodeAt (n + 1) = insert (nodeAt (n + 1)) (nodes nodeAt n) := by
  rw [nodes, ← Finset.insert_Icc_right_eq_Icc_add_one (show 1 ≤ n + 1 by omega),
    Finset.image_insert, nodes]

theorem nodes_update_of_lt [DecidableEq ι] (nodeAt : ℕ → ι) (x : ι) (hp : n < p) :
    nodes (Function.update nodeAt p x) n = nodes nodeAt n := by
  refine Finset.image_congr fun q hq => Function.update_of_ne ?_ ..
  have hmem := Finset.mem_Icc.mp hq
  omega

/-- The node `x` comes to the place `p`. -/
theorem nodes_update [DecidableEq ι] (x : ι) (hp : 1 ≤ p) (hn : p ≤ n)
    (hat : ∀ q, 1 ≤ q → q ≤ n → nodeAt q = nodeAt p → q = p) :
    nodes (Function.update nodeAt p x) n = insert x ((nodes nodeAt n).erase (nodeAt p)) := by
  ext y
  rw [Finset.mem_insert, Finset.mem_erase, mem_nodes, mem_nodes]
  constructor
  · rintro ⟨q, hq, hqn, rfl⟩
    by_cases hqp : q = p
    · rw [hqp, Function.update_self]
      exact .inl rfl
    · rw [Function.update_of_ne hqp]
      exact .inr ⟨fun heq => hqp (hat q hq hqn heq), q, hq, hqn, rfl⟩
  · rintro (rfl | ⟨hne, q, hq, hqn, rfl⟩)
    · exact ⟨p, hp, hn, Function.update_self ..⟩
    · exact ⟨q, hq, hqn, Function.update_of_ne (fun hqp => hne (by rw [hqp])) ..⟩

/-! ## Order -/

def Ordered (key : ι → κ) (nodeAt : ℕ → ι) (n : ℕ) : Prop :=
  ∀ q, 2 ≤ q → q ≤ n → key (nodeAt (q / 2)) ≤ key (nodeAt q)

/-- The tree without the node at `p` is in order. -/
structure Around (key : ι → κ) (nodeAt : ℕ → ι) (n p : ℕ) : Prop where
  off : ∀ q, 2 ≤ q → q ≤ n → q ≠ p → q / 2 ≠ p → key (nodeAt (q / 2)) ≤ key (nodeAt q)
  grand : 2 ≤ p → ∀ c, c ≤ n → c / 2 = p → key (nodeAt (p / 2)) ≤ key (nodeAt c)

/-- The node at `p` is not below its children. -/
def Below (key : ι → κ) (nodeAt : ℕ → ι) (n p : ℕ) : Prop :=
  ∀ c, c ≤ n → c / 2 = p → key (nodeAt p) ≤ key (nodeAt c)

theorem Ordered.root_le (h : Ordered key nodeAt n) (hp : 1 ≤ p) (hn : p ≤ n) :
    key (nodeAt 1) ≤ key (nodeAt p) := by
  induction p using Nat.strong_induction_on with
  | _ p ih =>
    by_cases hroot : p = 1
    · rw [hroot]
    · exact (ih (p / 2) (by omega) (by omega) (by omega)).trans (h p (by omega) hn)

theorem Ordered.around (h : Ordered key nodeAt n) (hn : p ≤ n) : Around key nodeAt n p where
  off q hq hqn _ _ := h q hq hqn
  grand hp c hc hcp := by
    have hchild := h c (by omega) hc
    rw [hcp] at hchild
    exact (h p hp hn).trans hchild

/-- What is at `p` does not matter. -/
theorem Around.congr {nodeAt' : ℕ → ι} (h : Around key nodeAt n p)
    (hsame : ∀ q, 1 ≤ q → q ≤ n → q ≠ p → nodeAt' q = nodeAt q) (hn : p ≤ n) :
    Around key nodeAt' n p where
  off q hq hqn hne hhalf := by
    rw [hsame q (by omega) hqn hne, hsame (q / 2) (by omega) (by omega) hhalf]
    exact h.off q hq hqn hne hhalf
  grand hp c hc hcp := by
    rw [hsame c (by omega) hc (by omega), hsame (p / 2) (by omega) (by omega) (by omega)]
    exact h.grand hp c hc hcp

/-- A node comes to the place behind the last. -/
theorem Ordered.around_succ (h : Ordered key nodeAt n) (x : ι) :
    Around key (Function.update nodeAt (n + 1) x) (n + 1) (n + 1) where
  off q hq hqn hne hhalf := by
    rw [Function.update_of_ne hne, Function.update_of_ne hhalf]
    exact h q hq (by omega)
  grand _ c hc hcp := by omega

theorem Around.ordered (h : Around key nodeAt n p) (hbelow : Below key nodeAt n p)
    (habove : 2 ≤ p → key (nodeAt (p / 2)) ≤ key (nodeAt p)) : Ordered key nodeAt n := by
  intro q hq hn
  by_cases hqp : q = p
  · subst hqp
    exact habove hq
  · by_cases hhalf : q / 2 = p
    · rw [hhalf]
      exact hbelow q hn hhalf
    · exact h.off q hq hn hqp hhalf

/-- The node at `p` moves down to its smallest child `c`. -/
theorem Around.down (h : Around key nodeAt n p) (hp : 1 ≤ p) (hc : c ≤ n) (hcp : c / 2 = p)
    (hsmallest : ∀ d, d ≤ n → d / 2 = p → key (nodeAt c) ≤ key (nodeAt d)) :
    Around key (exchange nodeAt p c) n c where
  off q hq hqn hqc hhalf := by
    by_cases hqp : q = p
    · subst hqp
      rw [exchange_left, exchange_of_ne (by omega) (by omega)]
      exact h.grand hq c hc hcp
    · rw [exchange_of_ne hqp hqc]
      by_cases hparent : q / 2 = p
      · rw [hparent, exchange_left]
        exact hsmallest q hqn hparent
      · rw [exchange_of_ne hparent hhalf]
        exact h.off q hq hqn hqp hparent
  grand _ d hd hdc := by
    rw [hcp, exchange_left, exchange_of_ne (by omega) (by omega)]
    have hpair := h.off d (by omega) hd (by omega) (by omega)
    rwa [hdc] at hpair

/-- The node at `p` moves up to its parent. -/
theorem Around.up (h : Around key nodeAt n p) (hp : 2 ≤ p) (hn : p ≤ n)
    (hlt : key (nodeAt p) < key (nodeAt (p / 2))) :
    Around key (exchange nodeAt (p / 2) p) n (p / 2) ∧
      Below key (exchange nodeAt (p / 2) p) n (p / 2) := by
  -- the other child of the parent was above the parent, so it is above what comes there
  have hsibling : ∀ d, d ≤ n → d / 2 = p / 2 → d ≠ p → key (nodeAt (p / 2)) ≤ key (nodeAt d) := by
    intro d hd hhalf hne
    have hpair := h.off d (by omega) hd hne (by omega)
    rwa [hhalf] at hpair
  refine ⟨⟨?_, ?_⟩, ?_⟩
  · intro q hq hqn hne hhalf
    rw [exchange_of_ne hne (fun hqp => hhalf (by rw [hqp]))]
    by_cases hqp : q / 2 = p
    · rw [hqp, exchange_right]
      exact h.grand hp q hqn hqp
    · rw [exchange_of_ne hhalf hqp]
      exact h.off q hq hqn (fun hqp => hhalf (by rw [hqp])) hqp
  · intro hp2 d hd hhalf
    rw [exchange_of_ne (by omega) (by omega)]
    have hgrand := h.off (p / 2) hp2 (by omega) (by omega) (by omega)
    by_cases hdp : d = p
    · rw [hdp, exchange_right]
      exact hgrand
    · rw [exchange_of_ne (by omega) hdp]
      exact hgrand.trans (hsibling d hd hhalf hdp)
  · intro d hd hhalf
    rw [exchange_left]
    by_cases hdp : d = p
    · rw [hdp, exchange_right]
      exact hlt.le
    · rw [exchange_of_ne (by omega) hdp]
      exact hlt.le.trans (hsibling d hd hhalf hdp)

end CapyJs.Heap
