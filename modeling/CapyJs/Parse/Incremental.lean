import Mathlib.Data.List.Infix
import Mathlib.Tactic.Common

/-!
# Parsers that are run again when more input has come

A parser reads what its input begins with. It stops early when the input ends too soon,
when it can refuse the input, or by reading behind the end, which it should never do.
Run on a longer input it has to give the same answer or refusal again. `Incremental`
states this together with what a parser needs of its input and says about the rest, so
that it can be shown step by step; `Reads` says in the same way what is read.
-/
namespace CapyJs.Parse

universe u
variable {β α γ : Type u}

/-- Why a parser stops early; `overrun` is a read behind the end of the input. -/
inductive Stop
  | incomplete
  | malformed
  | overrun
  deriving DecidableEq, Repr

abbrev Parser (β α : Type u) := StateT (List β) (Except Stop) α

namespace Parser

/-- Stop if nothing is left. -/
def checkEof : Parser β PUnit := fun
  | [] => .error .incomplete
  | c :: rest => .ok (⟨⟩, c :: rest)

/-- Look at the next element, whether there is one or not. -/
def current : Parser β β := fun
  | [] => .error .overrun
  | c :: rest => .ok (c, c :: rest)

/-- Go to the next element. -/
def advance : Parser β PUnit := fun
  | [] => .error .overrun
  | _ :: rest => .ok (⟨⟩, rest)

/-- Stop if fewer than `n` elements are left. -/
def atLeast (n : ℕ) (p : Parser β α) : Parser β α := fun s =>
  if s.length < n then .error .incomplete else p s

/-- Everything before the first element at which to halt. -/
def upTo (halt : β → Bool) : List β → Except Stop (List β × List β)
  | [] => .error .incomplete
  | c :: rest =>
    if halt c then .ok ([], c :: rest)
    else (upTo halt rest).map fun r => (c :: r.1, r.2)

theorem bind_eq (p : Parser β α) (f : α → Parser β γ) (s : List β) :
    (p >>= f) s = (p s).bind fun r => f r.1 r.2 := rfl

theorem bind_ok_iff {p : Parser β α} {f : α → Parser β γ} {s r : List β} {b : γ} :
    (p >>= f) s = .ok (b, r) ↔ ∃ a s', p s = .ok (a, s') ∧ f a s' = .ok (b, r) := by
  rw [bind_eq]
  cases hp : p s with
  | error e => simp [Except.bind]
  | ok x =>
    obtain ⟨a, s'⟩ := x
    simp [Except.bind]

theorem bind_error_iff {p : Parser β α} {f : α → Parser β γ} {s : List β} {e : Stop} :
    (p >>= f) s = .error e ↔
      p s = .error e ∨ ∃ a s', p s = .ok (a, s') ∧ f a s' = .error e := by
  rw [bind_eq]
  cases hp : p s with
  | error e' => simp [Except.bind]
  | ok x =>
    obtain ⟨a, s'⟩ := x
    simp [Except.bind]

theorem ite_run {c : Prop} [Decidable c] (p q : Parser β α) (s : List β) :
    (if c then p else q) s = if c then p s else q s := by
  split_ifs <;> rfl

section Answers
variable {s r : List β}

theorem pure_ok_iff {a b : α} : (pure a : Parser β α) s = .ok (b, r) ↔ a = b ∧ s = r := by
  constructor
  · rintro ⟨⟩
    exact ⟨rfl, rfl⟩
  · rintro ⟨rfl, rfl⟩
    rfl

theorem checkEof_ok_iff {u : PUnit} : checkEof s = .ok (u, r) ↔ s ≠ [] ∧ s = r := by
  cases s <;> simp [checkEof]

theorem current_ok_iff {c : β} : current s = .ok (c, r) ↔ (∃ tail, s = c :: tail) ∧ s = r := by
  cases s <;> simp [current]

theorem advance_ok_iff {u : PUnit} : advance s = .ok (u, r) ↔ ∃ c, s = c :: r := by
  cases s <;> simp [advance]

end Answers

theorem atLeast_of_le {n : ℕ} {p : Parser β α} {s : List β} (h : n ≤ s.length) :
    atLeast n p s = p s := if_neg (Nat.not_lt_of_le h)

theorem atLeast_of_lt {n : ℕ} {p : Parser β α} {s : List β} (h : s.length < n) :
    atLeast n p s = .error .incomplete := if_pos h

/-! ## Reading up to an element -/

section UpTo
variable {halt : β → Bool} {s : List β}

theorem upTo_ok_iff {used rest : List β} : upTo halt s = .ok (used, rest) ↔
    s = used ++ rest ∧ (∀ c ∈ used, halt c = false) ∧ ∃ c tail, rest = c :: tail ∧ halt c := by
  induction s generalizing used with
  | nil =>
    simp only [upTo, reduceCtorEq, List.nil_eq, List.append_eq_nil_iff, false_iff]
    rintro ⟨⟨-, rfl⟩, -, c, tail, hrest, -⟩
    cases hrest
  | cons c s ih =>
    rw [upTo]
    split_ifs with hc
    · constructor
      · rintro ⟨⟩
        exact ⟨rfl, by simp, c, s, rfl, hc⟩
      · rintro ⟨heq, hused, -⟩
        cases used with
        | nil => rw [heq, List.nil_append]
        | cons b used =>
          obtain ⟨rfl, -⟩ := List.cons.inj heq
          have hb := hused c List.mem_cons_self
          rw [hc] at hb
          cases hb
    · constructor
      · intro h
        cases hs : upTo halt s with
        | error e =>
          rw [hs] at h
          cases h
        | ok x =>
          obtain ⟨used', rest'⟩ := x
          rw [hs] at h
          cases h
          obtain ⟨rfl, hused, hrest⟩ := ih.mp hs
          refine ⟨rfl, ?_, hrest⟩
          intro b hb
          rcases List.mem_cons.mp hb with rfl | hb
          · exact Bool.eq_false_iff.mpr hc
          · exact hused b hb
      · rintro ⟨heq, hused, hrest⟩
        cases used with
        | nil =>
          obtain ⟨b, tail, hb, hhalt⟩ := hrest
          rw [List.nil_append, hb] at heq
          obtain ⟨rfl, -⟩ := List.cons.inj heq
          exact absurd hhalt hc
        | cons b used =>
          obtain ⟨rfl, hs⟩ := List.cons.inj heq
          rw [ih.mpr ⟨hs, fun d hd => hused d (List.mem_cons_of_mem c hd), hrest⟩]
          rfl

theorem upTo_error {e : Stop} (h : upTo halt s = .error e) : e = .incomplete := by
  induction s with
  | nil =>
    cases h
    rfl
  | cons c s ih =>
    rw [upTo] at h
    split_ifs at h
    cases hs : upTo halt s with
    | error e' =>
      rw [hs] at h
      cases h
      exact ih hs
    | ok x =>
      rw [hs] at h
      cases h

theorem upTo_append {front : List β} (h : ∀ c ∈ front, halt c = false) (s : List β) :
    upTo halt (front ++ s) = (upTo halt s).map fun r => (front ++ r.1, r.2) := by
  induction front with
  | nil => cases hs : upTo halt s <;> simp [Except.map, hs]
  | cons c front ih =>
    have hc : ¬halt c = true := by simp [h c List.mem_cons_self]
    rw [List.cons_append, upTo, if_neg hc, ih fun b hb => h b (List.mem_cons_of_mem c hb)]
    cases upTo halt s <;> rfl

end UpTo

/-! ## More input -/

/-- On an input that meets `P` the parser never reads behind the end, its answers and
refusals stay when more input follows, and an answer comes with a rest that meets `Q`. -/
structure Incremental (P : List β → Prop) (p : Parser β α) (Q : α → List β → Prop) : Prop where
  answer : ∀ {s a r}, P s → p s = .ok (a, r) →
    Q a r ∧ r <:+ s ∧ ∀ more, p (s ++ more) = .ok (a, r ++ more)
  refusal : ∀ {s}, P s → p s = .error .malformed → ∀ more, p (s ++ more) = .error .malformed
  inside : ∀ {s}, P s → p s ≠ .error .overrun

namespace Incremental
variable {P P' : List β → Prop} {Q Q' : α → List β → Prop} {R : γ → List β → Prop}
  {p q : Parser β α} {f : α → Parser β γ}

theorem pure {a : α} (h : ∀ s, P s → Q a s) : Incremental P (Pure.pure a : Parser β α) Q where
  answer hs heq := by
    cases heq
    exact ⟨h _ hs, List.suffix_rfl, fun _ => rfl⟩
  refusal _ heq := by cases heq
  inside _ heq := by cases heq

theorem malformed : Incremental P (throw .malformed : Parser β α) Q where
  answer _ h := by cases h
  refusal _ _ _ := rfl
  inside _ h := by cases h

theorem bind (hp : Incremental P p Q) (hf : ∀ a, Incremental (Q a) (f a) R) :
    Incremental P (p >>= f) R where
  answer hs h := by
    obtain ⟨a, s', hp', hf'⟩ := bind_ok_iff.mp h
    obtain ⟨hQ, hsuffix, hmore⟩ := hp.answer hs hp'
    obtain ⟨hR, hsuffix', hmore'⟩ := (hf a).answer hQ hf'
    refine ⟨hR, hsuffix'.trans hsuffix, fun more => ?_⟩
    exact bind_ok_iff.mpr ⟨a, s' ++ more, hmore more, hmore' more⟩
  refusal hs h more := by
    rw [bind_error_iff] at h ⊢
    rcases h with h | ⟨a, s', hp', hf'⟩
    · exact .inl (hp.refusal hs h more)
    · obtain ⟨hQ, -, hmore⟩ := hp.answer hs hp'
      exact .inr ⟨a, s' ++ more, hmore more, (hf a).refusal hQ hf' more⟩
  inside hs h := by
    rcases bind_error_iff.mp h with h | ⟨a, s', hp', hf'⟩
    · exact hp.inside hs h
    · exact (hf a).inside (hp.answer hs hp').1 hf'

theorem ite {c : Prop} [Decidable c] (hp : c → Incremental P p Q) (hq : ¬c → Incremental P q Q) :
    Incremental P (if c then p else q) Q := by
  split_ifs with hc
  · exact hp hc
  · exact hq hc

theorem mono (h : Incremental P p Q) (hP : ∀ s, P' s → P s) (hQ : ∀ a s, Q a s → Q' a s) :
    Incremental P' p Q' where
  answer hs heq :=
    have ⟨hq, hrest⟩ := h.answer (hP _ hs) heq
    ⟨hQ _ _ hq, hrest⟩
  refusal hs := h.refusal (hP _ hs)
  inside hs := h.inside (hP _ hs)

theorem checkEof : Incremental P (checkEof : Parser β PUnit) fun _ s => s ≠ [] ∧ P s where
  answer {s a r} hs h := by
    cases s with
    | nil => cases h
    | cons c s =>
      cases h
      exact ⟨⟨List.cons_ne_nil c s, hs⟩, List.suffix_rfl, fun _ => rfl⟩
  refusal {s} _ h := by cases s <;> cases h
  inside {s} _ h := by cases s <;> cases h

theorem current (hP : ∀ s, P s → s ≠ []) :
    Incremental P (current : Parser β β) fun c s => s.head? = some c ∧ P s where
  answer {s a r} hs h := by
    cases s with
    | nil => cases h
    | cons c s =>
      cases h
      exact ⟨⟨rfl, hs⟩, List.suffix_rfl, fun _ => rfl⟩
  refusal {s} _ h := by cases s <;> cases h
  inside {s} hs h := by
    cases s with
    | nil => exact hP [] hs rfl
    | cons c s => cases h

theorem advance {n : ℕ} (hP : ∀ s, P s → n < s.length) :
    Incremental P (advance : Parser β PUnit) fun _ s => n ≤ s.length where
  answer {s _ _} hs h := by
    cases s with
    | nil => cases h
    | cons c s =>
      cases h
      exact ⟨Nat.le_of_lt_succ (hP _ hs), List.suffix_cons c _, fun _ => rfl⟩
  refusal {s} _ h := by cases s <;> cases h
  inside {s} hs h := by
    cases s with
    | nil => exact absurd (hP [] hs) (Nat.not_lt_zero n)
    | cons c s => cases h

theorem atLeast {n : ℕ} (h : Incremental (n ≤ ·.length) p Q) : Incremental P (atLeast n p) Q where
  answer {s a r} _ hs := by
    rcases Nat.lt_or_ge s.length n with hn | hn
    · rw [atLeast_of_lt hn] at hs
      cases hs
    · rw [atLeast_of_le hn] at hs
      obtain ⟨hq, hsuffix, hmore⟩ := h.answer hn hs
      refine ⟨hq, hsuffix, fun more => ?_⟩
      rw [atLeast_of_le (by rw [List.length_append]; omega)]
      exact hmore more
  refusal {s} _ hs more := by
    rcases Nat.lt_or_ge s.length n with hn | hn
    · rw [atLeast_of_lt hn] at hs
      cases hs
    · rw [atLeast_of_le hn] at hs
      rw [atLeast_of_le (by rw [List.length_append]; omega)]
      exact h.refusal hn hs more
  inside {s} _ hs := by
    rcases Nat.lt_or_ge s.length n with hn | hn
    · rw [atLeast_of_lt hn] at hs
      cases hs
    · rw [atLeast_of_le hn] at hs
      exact h.inside hn hs

theorem upTo (halt : β → Bool) :
    Incremental P (upTo halt : Parser β (List β)) fun _ s => ∃ c tail, s = c :: tail ∧ halt c where
  answer _ h := by
    obtain ⟨rfl, hused, c, tail, rfl, hc⟩ := upTo_ok_iff.mp h
    refine ⟨⟨c, tail, rfl, hc⟩, List.suffix_append _ _, fun more => ?_⟩
    exact upTo_ok_iff.mpr ⟨by simp, hused, c, tail ++ more, rfl, hc⟩
  refusal _ h := by cases upTo_error h
  inside _ h := by cases upTo_error h

end Incremental
end Parser
end CapyJs.Parse
