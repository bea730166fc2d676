import CapyJs.Transition.Machine

/-!
# The bounded first-in first-out queue as a specification

The abstract state is the list of waiting items. A push succeeds exactly when
fewer than `cap` items wait, a pop takes the oldest one, and both report what
they did. The accounting theorem below is what every implementation inherits.
-/
namespace CapyJs.Queue.BoundedFifo
open Transition.Machine

variable {α : Type*}

/-- What a queue operation returned, with the item it moved. -/
inductive Outcome (α : Type*)
  | push (item : α) (ok : Bool)
  | pop (out : Option α)
  | empty (answer : Bool)
  deriving DecidableEq, Repr

inductive Step (cap : ℕ) : List α → Outcome α → List α → Prop
  | push {l : List α} {item : α} (h : l.length < cap) : Step cap l (.push item true) (l ++ [item])
  | full {l : List α} {item : α} (h : l.length = cap) : Step cap l (.push item false) l
  | pop {l : List α} {item : α} : Step cap (item :: l) (.pop (some item)) l
  | nothing : Step cap [] (.pop none) []
  | empty {l : List α} {answer : Bool} (h : answer = true ↔ l = []) : Step cap l (.empty answer) l

theorem Step.length_of_push_false {cap : ℕ} {l l' : List α} {item : α}
    (h : Step cap l (.push item false) l') : l.length = cap := by
  cases h with
  | full h => exact h

theorem Step.length_lt_of_push_true {cap : ℕ} {l l' : List α} {item : α}
    (h : Step cap l (.push item true) l') : l.length < cap := by
  cases h with
  | push h => exact h

theorem Step.eq_of_push {cap : ℕ} {l l' : List α} {item : α} {ok : Bool}
    (h : Step cap l (.push item ok) l') : l' = if ok then l ++ [item] else l := by
  cases h with
  | push => rfl
  | full => rfl

theorem Step.eq_of_pop_some {cap : ℕ} {l l' : List α} {item : α}
    (h : Step cap l (.pop (some item)) l') : l = item :: l' := by
  cases h with
  | pop => rfl

theorem Step.eq_nil_of_pop_none {cap : ℕ} {l l' : List α} (h : Step cap l (.pop none) l') :
    l = [] := by
  cases h with
  | nothing => rfl

theorem Step.pop_none_eq_nil {cap : ℕ} {l l' : List α} (h : Step cap l (.pop none) l') :
    l' = [] := by
  cases h with
  | nothing => rfl

/-- Items of the successful pushes, in order. -/
def pushed (out : List (Outcome α)) : List α :=
  out.filterMap fun
    | .push item true => some item
    | _ => none

/-- Items of the successful pops, in order. -/
def popped (out : List (Outcome α)) : List α :=
  out.filterMap fun
    | .pop (some item) => some item
    | _ => none

@[simp] theorem pushed_append (out out' : List (Outcome α)) :
    pushed (out ++ out') = pushed out ++ pushed out' := List.filterMap_append

@[simp] theorem popped_append (out out' : List (Outcome α)) :
    popped (out ++ out') = popped out ++ popped out' := List.filterMap_append

/-- Nothing is lost, duplicated or reordered, and the bound is kept. -/
theorem accounting {cap : ℕ} {out : List (Outcome α)} {l : List α}
    (run : Observes (Step cap) [] out l) : pushed out = popped out ++ l ∧ l.length ≤ cap := by
  induction run with
  | nil => simp [pushed, popped]
  | snoc run step ih =>
    obtain ⟨hitems, hlen⟩ := ih
    rw [pushed_append, popped_append, hitems]
    cases step with
    | push hlt => exact ⟨by simp [pushed, popped], by simp; omega⟩
    | full => exact ⟨by simp [pushed, popped], hlen⟩
    | pop => exact ⟨by simp [pushed, popped], by simp at hlen; omega⟩
    | nothing => exact ⟨by simp [pushed, popped], hlen⟩
    | empty => exact ⟨by simp [pushed, popped], hlen⟩

end CapyJs.Queue.BoundedFifo
