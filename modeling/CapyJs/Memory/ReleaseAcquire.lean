import Mathlib.Data.Fintype.Basic
import Mathlib.Order.Lattice
import Mathlib.Tactic.Common

/-!
# Memory with release stores and acquire loads

An atomic location keeps every message that was stored to it. A load may return an old
message, but none older than one the thread has seen; a message carries what the storing
thread knew, and an acquire load learns it. What a thread knows of another is how many
accesses to plain cells that one has made. An access to a plain cell is defined only when the
thread knows of every earlier access that conflicts with it; otherwise there is a data race.

Every atomic location has one thread that stores to it, so that a new message comes last.
-/
namespace CapyJs.Memory

variable {ι L C V α : Type*}

/-- For each atomic location the number of the last message seen there, and for each thread
how many of its accesses to plain cells are known. -/
abbrev View (ι L : Type*) := L ⊕ ι → ℕ

structure Message (ι L V : Type*) where
  value : V
  view : View ι L

/-- A plain cell, with the numbers of the last write and of the last read by each thread among
the accesses of that thread. -/
structure Cell (ι α : Type*) where
  value : α
  writer : ι
  written : ℕ
  reads : ι → ℕ

structure State (ι L C V α : Type*) where
  messages : L → List (Message ι L V)
  cells : C → Cell ι α
  views : ι → View ι L

namespace State
variable {s s' : State ι L C V α} {t : ι} {l : L} {c : C}

section Views
variable [DecidableEq ι]

def setView (s : State ι L C V α) (t : ι) (v : View ι L) : State ι L C V α :=
  { s with views := Function.update s.views t v }

/-- The thread learns what somebody else knew. -/
def learn (s : State ι L C V α) (t : ι) (v : View ι L) : State ι L C V α :=
  s.setView t (s.views t ⊔ v)

theorem views_setView (s : State ι L C V α) (t t' : ι) (v : View ι L) :
    (s.setView t v).views t' = if t' = t then v else s.views t' := by
  by_cases h : t' = t
  · subst h
    simp [setView]
  · simp [setView, h]

@[simp] theorem messages_setView (s : State ι L C V α) (t : ι) (v : View ι L) :
    (s.setView t v).messages = s.messages := rfl

@[simp] theorem cells_setView (s : State ι L C V α) (t : ι) (v : View ι L) :
    (s.setView t v).cells = s.cells := rfl

/-- Nobody has gone beyond `bound` in a component of the views. -/
structure Bounded (s : State ι L C V α) (x : L ⊕ ι) (bound : ℕ) : Prop where
  thread : ∀ t, s.views t x ≤ bound
  message : ∀ (l : L) (k : ℕ) (m : Message ι L V), (s.messages l)[k]? = some m → m.view x ≤ bound

theorem Bounded.learn {x : L ⊕ ι} {bound : ℕ} (h : s.Bounded x bound) (t : ι) {v : View ι L}
    (hv : v x ≤ bound) : (s.learn t v).Bounded x bound where
  thread t' := by
    rw [State.learn, views_setView]
    split_ifs
    · exact sup_le (h.thread t) hv
    · exact h.thread t'
  message := h.message

end Views

/-! ## Atomic locations -/

section Atomics
variable [DecidableEq ι] [DecidableEq L]

/-- Thread `t` loads message `k` of a location. -/
def load (s : State ι L C V α) (acquire : Bool) (t : ι) (l : L) (k : ℕ) :
    Option (V × State ι L C V α) :=
  match (s.messages l)[k]? with
  | none => none
  | some m =>
    if s.views t (.inl l) ≤ k then
      let view := Function.update (s.views t) (.inl l) k
      some (m.value, s.setView t (if acquire then view ⊔ m.view else view))
    else none

/-- A release store. -/
def store (s : State ι L C V α) (t : ι) (l : L) (value : V) : State ι L C V α :=
  let view := Function.update (s.views t) (.inl l) (s.messages l).length
  { s.setView t view with
    messages := Function.update s.messages l (s.messages l ++ [⟨value, view⟩]) }

/-- An atomic exchange takes the last message and puts one of its own behind it. -/
def exchange (s : State ι L C V α) (t : ι) (l : L) (value : V) : Option (V × State ι L C V α) :=
  (s.messages l).getLast?.map fun m => (m.value, (s.learn t m.view).store t l value)

/-- A thread that has seen the last message of a location loads that one. -/
theorem load_own {v : V} {k : ℕ}
    (hlast : s.views t (.inl l) + 1 = (s.messages l).length)
    (h : s.load false t l k = some (v, s')) :
    k = s.views t (.inl l) ∧ s' = s ∧ ∃ m, (s.messages l)[k]? = some m ∧ m.value = v := by
  simp only [load, Bool.false_eq_true, if_false] at h
  split at h
  · cases h
  · next m hm =>
    split_ifs at h with hk
    cases h
    have hlt := (List.getElem?_eq_some_iff.mp hm).1
    have hkey : k = s.views t (.inl l) := by omega
    refine ⟨hkey, ?_, m, hm, rfl⟩
    rw [hkey, Function.update_eq_self]
    simp [setView]

theorem views_load_of_ne {acquire : Bool} {t' : ι} {v : V} {k : ℕ}
    (h : s.load acquire t l k = some (v, s')) (ht : t' ≠ t) : s'.views t' = s.views t' := by
  unfold load at h
  split at h
  · cases h
  · next m hm =>
    dsimp only at h
    split at h
    · cases h
      rw [views_setView, if_neg ht]
    · cases h

theorem Bounded.load_relaxed {bound : ℕ} (h : s.Bounded (.inl l) bound)
    (hlength : (s.messages l).length ≤ bound) {v : V} {k : ℕ}
    (hload : s.load false t l k = some (v, s')) : s'.Bounded (.inl l) bound := by
  simp only [load, Bool.false_eq_true, if_false] at hload
  split at hload
  · cases hload
  · next m hm =>
    split_ifs at hload
    cases hload
    refine ⟨fun t' => ?_, h.message⟩
    rw [views_setView]
    split_ifs
    · rw [Function.update_self]
      exact (List.getElem?_eq_some_iff.mp hm).1.le.trans hlength
    · exact h.thread t'

/-- The view of a message has seen that very message. -/
def Stamped (s : State ι L C V α) : Prop :=
  ∀ (l : L) (k : ℕ) (m : Message ι L V), (s.messages l)[k]? = some m → m.view (.inl l) = k

/-- To acquire a stamped message is to learn its view. -/
theorem load_acquire {v : V} {k : ℕ} (hstamped : s.Stamped)
    (h : s.load true t l k = some (v, s')) :
    s.views t (.inl l) ≤ k ∧ ∃ m, (s.messages l)[k]? = some m ∧ m.value = v ∧
      s' = s.learn t m.view := by
  simp only [load, if_true] at h
  split at h
  · cases h
  · next m hm =>
    split_ifs at h with hk
    cases h
    refine ⟨hk, m, hm, rfl, ?_⟩
    have hview : Function.update (s.views t) (.inl l) k ⊔ m.view = s.views t ⊔ m.view := by
      funext x
      by_cases hx : x = .inl l
      · subst hx
        simp [hstamped l k m hm, hk]
      · simp [hx]
    rw [learn, ← hview]

theorem views_store (s : State ι L C V α) (t t' : ι) (l : L) (value : V) :
    (s.store t l value).views t' = if t' = t then
      Function.update (s.views t) (.inl l) (s.messages l).length else s.views t' :=
  views_setView s t t' _

theorem messages_store (s : State ι L C V α) (t : ι) (l l' : L) (value : V) :
    (s.store t l value).messages l' = if l' = l then s.messages l ++
      [⟨value, Function.update (s.views t) (.inl l) (s.messages l).length⟩]
      else s.messages l' := by
  by_cases h : l' = l
  · subst h
    simp [store]
  · simp [store, h]

theorem messages_store_cases {l' : L} {value : V} {k : ℕ} {m : Message ι L V}
    (h : ((s.store t l value).messages l')[k]? = some m) :
    (s.messages l')[k]? = some m ∨ (l' = l ∧ k = (s.messages l).length ∧
      m = ⟨value, Function.update (s.views t) (.inl l) (s.messages l).length⟩) := by
  rw [messages_store] at h
  split_ifs at h with hl
  · subst hl
    rw [List.getElem?_append] at h
    split_ifs at h with hk
    · exact .inl h
    · obtain ⟨hzero, hm⟩ := List.getElem?_eq_some_iff.mp h
      rw [List.length_singleton] at hzero
      refine .inr ⟨rfl, by omega, ?_⟩
      rw [← hm, List.getElem_singleton]
  · exact .inl h

theorem Stamped.store (h : s.Stamped) (t : ι) (l : L) (value : V) :
    (s.store t l value).Stamped := by
  intro l' k m hm
  obtain hold | ⟨rfl, rfl, rfl⟩ := messages_store_cases hm
  · exact h l' k m hold
  · simp

theorem Bounded.store {x : L ⊕ ι} {bound : ℕ} (h : s.Bounded x bound) (t : ι) (value : V)
    (hx : x ≠ .inl l) : (s.store t l value).Bounded x bound where
  thread t' := by
    rw [views_store]
    split_ifs
    · rw [Function.update_of_ne hx]
      exact h.thread t
    · exact h.thread t'
  message l' k m hm := by
    obtain hold | ⟨-, -, rfl⟩ := messages_store_cases hm
    · exact h.message l' k m hold
    · simp only [Function.update_of_ne hx]
      exact h.thread t

/-- A store moves its own thread to the new message and nobody beyond it. -/
theorem Bounded.store_self {bound bound' : ℕ} (h : s.Bounded (.inl l) bound) (t : ι) (value : V)
    (hle : bound ≤ bound') (hlength : (s.messages l).length ≤ bound') :
    (s.store t l value).Bounded (.inl l) bound' where
  thread t' := by
    rw [views_store]
    split_ifs
    · rw [Function.update_self]
      exact hlength
    · exact (h.thread t').trans hle
  message l' k m hm := by
    obtain hold | ⟨-, -, rfl⟩ := messages_store_cases hm
    · exact (h.message l' k m hold).trans hle
    · simp only [Function.update_self]
      exact hlength

@[simp] theorem cells_store (s : State ι L C V α) (t : ι) (l : L) (value : V) :
    (s.store t l value).cells = s.cells := rfl

end Atomics

/-! ## What is left alone -/

/-- Threads only get to know more, and the locations in `keep` get no message. -/
structure Extends (s s' : State ι L C V α) (keep : L → Prop) : Prop where
  views : ∀ t, s.views t ≤ s'.views t
  messages : ∀ l, keep l → s'.messages l = s.messages l
  bounded : ∀ l bound, keep l → s.Bounded (.inl l) bound → s'.Bounded (.inl l) bound

theorem Extends.refl (s : State ι L C V α) (keep : L → Prop) : s.Extends s keep :=
  ⟨fun _ => le_rfl, fun _ _ => rfl, fun _ _ _ h => h⟩

theorem Extends.trans {s'' : State ι L C V α} {keep : L → Prop} (h : s.Extends s' keep)
    (h' : s'.Extends s'' keep) : s.Extends s'' keep where
  views t := (h.views t).trans (h'.views t)
  messages l hl := (h'.messages l hl).trans (h.messages l hl)
  bounded l bound hl hs := h'.bounded l bound hl (h.bounded l bound hl hs)

section Extending
variable [DecidableEq ι]

theorem extends_learn {k : ℕ} {m : Message ι L V} (hm : (s.messages l)[k]? = some m)
    (keep : L → Prop) : s.Extends (s.learn t m.view) keep where
  views t' := by
    rw [learn, views_setView]
    split_ifs with ht
    · subst ht
      exact le_sup_left
    · exact le_rfl
  messages _ _ := rfl
  bounded l' bound _ h := h.learn t (h.message l k m hm)

theorem extends_store [DecidableEq L] (hlast : s.views t (.inl l) ≤ (s.messages l).length)
    (value : V) (keep : L → Prop) (hl : ¬ keep l) : s.Extends (s.store t l value) keep where
  views t' := by
    intro x
    rw [views_store]
    split_ifs with ht
    · subst ht
      by_cases hx : x = .inl l
      · subst hx
        simpa using hlast
      · simp [hx]
    · exact le_rfl
  messages l' hl' := by
    rw [messages_store, if_neg]
    rintro rfl
    exact hl hl'
  bounded l' bound hl' h := by
    refine h.store t value ?_
    rintro ⟨⟩
    exact hl hl'

end Extending

/-! ## Plain cells -/

section Cells
variable [DecidableEq ι] [DecidableEq L]

/-- The thread makes one more access. -/
def tick (s : State ι L C V α) (t : ι) : State ι L C V α :=
  s.setView t (Function.update (s.views t) (.inr t) (s.views t (.inr t) + 1))

theorem views_tick (s : State ι L C V α) (t t' : ι) (x : L ⊕ ι) :
    (s.tick t).views t' x =
      if t' = t ∧ x = .inr t then s.views t (.inr t) + 1 else s.views t' x := by
  rw [tick, views_setView]
  by_cases ht : t' = t
  · subst ht
    simp [Function.update_apply]
  · simp [ht]

/-- An access to a cell by thread `t`. -/
theorem extends_tick (hviews : s'.views = (s.tick t).views) (hmessages : s'.messages = s.messages)
    (keep : L → Prop) : s.Extends s' keep where
  views t' := by
    intro x
    rw [hviews, views_tick]
    split_ifs with h
    · obtain ⟨rfl, rfl⟩ := h
      exact Nat.le_succ _
    · exact le_rfl
  messages l _ := by rw [hmessages]
  bounded l bound _ h := by
    refine ⟨fun t' => ?_, fun l' k m hm => h.message l' k m (by rwa [← hmessages])⟩
    rw [hviews, views_tick, if_neg (by simp)]
    exact h.thread t'

/-- Every write to the cell is known. -/
def KnowsWrite (s : State ι L C V α) (t : ι) (c : C) : Prop :=
  (s.cells c).written ≤ s.views t (.inr (s.cells c).writer)

/-- Every read of the cell is known. -/
def KnowsReads (s : State ι L C V α) (t : ι) (c : C) : Prop :=
  ∀ t', (s.cells c).reads t' ≤ s.views t (.inr t')

instance instDecidableKnowsWrite (s : State ι L C V α) (t : ι) (c : C) :
    Decidable (s.KnowsWrite t c) :=
  inferInstanceAs (Decidable (_ ≤ _))

instance instDecidableKnowsReads [Fintype ι] (s : State ι L C V α) (t : ι) (c : C) :
    Decidable (s.KnowsReads t c) :=
  inferInstanceAs (Decidable (∀ _, _))

variable [DecidableEq C]

/-- A read of a plain cell; there is none in a race. -/
def read (s : State ι L C V α) (t : ι) (c : C) : Option (α × State ι L C V α) :=
  if s.KnowsWrite t c then
    let reads := Function.update (s.cells c).reads t (s.views t (.inr t) + 1)
    some ((s.cells c).value,
      { s.tick t with cells := Function.update s.cells c { s.cells c with reads } })
  else none

/-- A write to a plain cell. -/
def write [Fintype ι] (s : State ι L C V α) (t : ι) (c : C) (value : α) :
    Option (State ι L C V α) :=
  if s.KnowsWrite t c ∧ s.KnowsReads t c then
    let cell := ⟨value, t, s.views t (.inr t) + 1, (s.cells c).reads⟩
    some { s.tick t with cells := Function.update s.cells c cell }
  else none

theorem views_read_of_ne {t' : ι} {x : α} (h : s.read t c = some (x, s')) (ht : t' ≠ t) :
    s'.views t' = s.views t' := by
  unfold read at h
  split_ifs at h
  cases h
  simp [tick, views_setView, ht]

theorem views_write_of_ne [Fintype ι] {t' : ι} {x : α} (h : s.write t c x = some s')
    (ht : t' ≠ t) : s'.views t' = s.views t' := by
  unfold write at h
  split_ifs at h
  cases h
  simp [tick, views_setView, ht]

end Cells
end State
end CapyJs.Memory
