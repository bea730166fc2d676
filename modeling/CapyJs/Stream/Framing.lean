import Mathlib.Data.List.Basic
import Mathlib.Data.List.Infix
import Mathlib.Tactic.Common

/-!
# Messages cut out of a byte stream

A parser looks at the bytes collected so far and either asks for more or gives a
value and the number of bytes it used; it may also have no answer at all. A
receiver that drops everything it has collected after each value sees every
message exactly when each message ends where a read ends.
-/
namespace CapyJs.Stream

variable {β γ : Type*}

/-- A message: its bytes on the wire and the value it stands for. -/
structure Message (β γ : Type*) where
  bytes : List β
  value : γ

/-- The bytes of a message can be told from the bytes that follow, as long as no more
than `limit` bytes are collected, and not before the last of them is there. -/
structure Delimited (parse : List β → Option (Option (γ × ℕ))) (limit : ℕ) (m : Message β γ) :
    Prop where
  nonempty : m.bytes ≠ []
  complete : ∀ rest, (m.bytes ++ rest).length ≤ limit →
    parse (m.bytes ++ rest) = some (some (m.value, m.bytes.length))
  incomplete : ∀ p, p <+: m.bytes → p.length < m.bytes.length → parse p = some none

/-- The bytes of a sequence of messages. -/
def wire (ms : List (Message β γ)) : List β := (ms.map Message.bytes).flatten

@[simp] theorem wire_nil : wire ([] : List (Message β γ)) = [] := rfl

@[simp] theorem wire_cons (m : Message β γ) (ms : List (Message β γ)) :
    wire (m :: ms) = m.bytes ++ wire ms := rfl

/-- Collect reads until the parser gives a value, then start afresh. Each value comes
with the bytes that were collected beyond it and are dropped. -/
def receive (parse : List β → Option (Option (γ × ℕ))) :
    (buf : List β) → List (List β) → Option (List (γ × List β))
  | _, [] => some []
  | buf, chunk :: chunks =>
    match parse (buf ++ chunk) with
    | none => none
    | some none => receive parse (buf ++ chunk) chunks
    | some (some (v, n)) =>
      (receive parse [] chunks).map fun rest => (v, (buf ++ chunk).drop n) :: rest

/-- Every message ends where a read ends: the bytes of any first messages are `buf`
followed by the bytes of some first reads. -/
def EndsAtRead (buf : List β) (ms : List (Message β γ)) (chunks : List (List β)) : Prop :=
  ∀ ms', ms' ≠ [] → ms' <+: ms → ∃ cs, cs <+: chunks ∧ buf ++ cs.flatten = wire ms'

theorem endsAtRead_cons {buf chunk : List β} {ms : List (Message β γ)} {chunks : List (List β)}
    (hbuf : ∀ m ∈ ms.head?, buf.length < m.bytes.length) :
    EndsAtRead buf ms (chunk :: chunks) ↔ EndsAtRead (buf ++ chunk) ms chunks := by
  constructor
  · intro h ms' hne hpre
    obtain ⟨cs, hcs, heq⟩ := h ms' hne hpre
    cases cs with
    | nil =>
      -- the first message is longer than what was collected
      obtain ⟨m, rest, rfl⟩ := List.exists_cons_of_ne_nil hne
      obtain ⟨tail, rfl⟩ := hpre
      have hlt := hbuf m rfl
      have hlen := congrArg List.length heq
      simp only [List.flatten_nil, List.append_nil, wire_cons, List.length_append] at hlen
      omega
    | cons c cs =>
      obtain ⟨rfl, hrest⟩ := List.cons_prefix_cons.mp hcs
      exact ⟨cs, hrest, by simpa using heq⟩
  · intro h ms' hne hpre
    obtain ⟨cs, hcs, heq⟩ := h ms' hne hpre
    exact ⟨chunk :: cs, List.cons_prefix_cons.mpr ⟨rfl, hcs⟩, by simpa using heq⟩

theorem endsAtRead_start {m : Message β γ} {ms : List (Message β γ)} {chunks : List (List β)} :
    EndsAtRead m.bytes (m :: ms) chunks ↔ EndsAtRead [] ms chunks := by
  constructor
  · intro h ms' _ hpre
    obtain ⟨cs, hcs, heq⟩ := h (m :: ms') (List.cons_ne_nil _ _)
      (List.cons_prefix_cons.mpr ⟨rfl, hpre⟩)
    exact ⟨cs, hcs, List.append_cancel_left heq⟩
  · intro h ms' hne hpre
    obtain ⟨m', rest, rfl⟩ := List.exists_cons_of_ne_nil hne
    obtain ⟨rfl, hrest⟩ := List.cons_prefix_cons.mp hpre
    by_cases hnil : rest = []
    · subst hnil
      exact ⟨[], List.nil_prefix, by simp⟩
    · obtain ⟨cs, hcs, heq⟩ := h rest hnil hrest
      exact ⟨cs, hcs, by simpa using heq⟩

/-- A read that goes past the end of the first message puts that end inside the read. -/
theorem not_endsAtRead_of_lt {buf : List β} {m : Message β γ} {ms : List (Message β γ)}
    {chunks : List (List β)} (h : m.bytes.length < buf.length) :
    ¬EndsAtRead buf (m :: ms) chunks := by
  intro hends
  obtain ⟨cs, -, heq⟩ := hends [m] (List.cons_ne_nil _ _) (by simp)
  have hlen := congrArg List.length heq
  simp only [wire_cons, wire_nil, List.append_nil, List.length_append] at hlen
  omega

/-- What was collected and the first message are both first bytes of the stream. -/
theorem prefix_or_prefix {a b rest rest' : List β} (h : a ++ rest = b ++ rest') :
    a <+: b ∨ b <+: a :=
  List.prefix_or_prefix_of_prefix ⟨rest, h⟩ ⟨rest', rfl⟩

/-- Either every message ends where a read ends and the values are exactly the
messages, with nothing dropped, or bytes are dropped. -/
theorem receive_cases {parse : List β → Option (Option (γ × ℕ))} {limit : ℕ}
    {ms : List (Message β γ)} (hms : ∀ m ∈ ms, Delimited parse limit m) {chunks : List (List β)}
    (hchunks : ∀ c ∈ chunks, c ≠ [])
    (hlimit : ∀ m ∈ ms, ∀ c ∈ chunks, m.bytes.length + c.length ≤ limit) {buf : List β}
    (hbuf : ∀ m ∈ ms.head?, buf.length < m.bytes.length)
    (hwire : buf ++ chunks.flatten = wire ms) :
    (EndsAtRead buf ms chunks ∧
        receive parse buf chunks = some (ms.map fun m => (m.value, []))) ∨
      (¬EndsAtRead buf ms chunks ∧
        ∀ l, receive parse buf chunks = some l → ∃ e ∈ l, e.2 ≠ []) := by
  induction chunks generalizing buf ms with
  | nil =>
    cases ms with
    | nil =>
      refine .inl ⟨?_, rfl⟩
      intro ms' hne hpre
      exact absurd (List.prefix_nil.mp hpre) hne
    | cons m ms =>
      have hlt := hbuf m rfl
      have hlen := congrArg List.length hwire
      simp only [List.flatten_nil, List.append_nil, wire_cons, List.length_append] at hlen
      omega
  | cons chunk chunks ih =>
    have hchunk := hchunks chunk List.mem_cons_self
    have hchunks' := fun c hc => hchunks c (List.mem_cons_of_mem _ hc)
    cases ms with
    | nil => simp [hchunk] at hwire
    | cons m ms =>
      have hm := hms m List.mem_cons_self
      have hfits : (buf ++ chunk).length ≤ limit := by
        have hlt := hbuf m rfl
        have hle := hlimit m List.mem_cons_self chunk List.mem_cons_self
        rw [List.length_append]
        omega
      have hwire' : (buf ++ chunk) ++ chunks.flatten = m.bytes ++ wire ms := by simpa using hwire
      rw [endsAtRead_cons hbuf]
      rcases Nat.lt_trichotomy (buf ++ chunk).length m.bytes.length with hlt | heq | hgt
      · -- still short of the first message
        have hpre : (buf ++ chunk) <+: m.bytes := by
          rcases prefix_or_prefix hwire' with h | h
          · exact h
          · have := h.length_le
            omega
        simp only [receive, hm.incomplete _ hpre hlt]
        apply ih hms hchunks'
        · intro m' hm' c hc
          exact hlimit m' hm' c (List.mem_cons_of_mem _ hc)
        · simpa using hlt
        · exact hwire'
      · -- exactly the first message
        obtain ⟨hbytes, hrest⟩ := List.append_inj hwire' heq
        have hparse := hm.complete [] (by simpa [← hbytes] using hfits)
        rw [List.append_nil] at hparse
        simp only [receive, hbytes, hparse, List.drop_length]
        rw [endsAtRead_start]
        have hms' := fun m' hm' => hms m' (List.mem_cons_of_mem _ hm')
        have hstart : ∀ m' ∈ ms.head?, ([] : List β).length < m'.bytes.length := by
          intro m' hm'
          exact List.length_pos_iff.mpr (hms' m' (List.mem_of_mem_head? hm')).nonempty
        have hnext := ih hms' hchunks'
          (fun m' hm' c hc =>
            hlimit m' (List.mem_cons_of_mem _ hm') c (List.mem_cons_of_mem _ hc))
          hstart hrest
        rcases hnext with ⟨hends, hrec⟩ | ⟨hends, hdrop⟩
        · exact .inl ⟨hends, by rw [hrec]; rfl⟩
        · refine .inr ⟨hends, ?_⟩
          intro l hl
          obtain ⟨rest, hrec, rfl⟩ := Option.map_eq_some_iff.mp hl
          obtain ⟨e, he, hne⟩ := hdrop rest hrec
          exact ⟨e, List.mem_cons_of_mem _ he, hne⟩
      · -- past its end: the value comes with dropped bytes
        obtain ⟨tail, htail⟩ : m.bytes <+: buf ++ chunk := by
          rcases prefix_or_prefix hwire' with h | h
          · have := h.length_le
            omega
          · exact h
        have hne : tail ≠ [] := by
          rintro rfl
          rw [← htail, List.append_nil] at hgt
          omega
        have hparse := hm.complete tail (by rwa [htail])
        have hdrop : (buf ++ chunk).drop m.bytes.length = tail := by rw [← htail, List.drop_left]
        rw [htail] at hparse
        refine .inr ⟨not_endsAtRead_of_lt hgt, ?_⟩
        simp only [receive, hparse, hdrop]
        intro l hl
        obtain ⟨rest, -, rfl⟩ := Option.map_eq_some_iff.mp hl
        exact ⟨_, List.mem_cons_self, hne⟩

end CapyJs.Stream
