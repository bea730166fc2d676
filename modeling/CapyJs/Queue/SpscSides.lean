import CapyJs.Queue.WorkQueue

/-!
# The two sides of the ring apart

An access of one side leaves the other side where it is, and an outcome of `push` names the
item that `push` was called with.
-/
namespace CapyJs.Queue.SPSCQueue
open BoundedFifo

variable {α : Type*} {N k : ℕ} {s s' : State α N} {out : List (Outcome α)} {x : α}

/-- The item of a `push` that is under way. -/
def Producer.item : Producer α N → Option α
  | .idle => none
  | .loadedWrite item _ | .copying item _ _ | .storing item _ => some item

/-- The next access of a `push` that is repeated until it succeeds. -/
def nextPush (s : State α N) (item : α) : Access α :=
  match s.producer with
  | .idle => .push item
  | _ => .producer

/-- The next access of a `pop`. -/
def nextPop (s : State α N) : Access α :=
  match s.consumer with
  | .idle => .pop
  | _ => .consumer

theorem step_push (h : step s (.push x) = some (s', out)) :
    out = [] ∧ s'.producer.item = some x ∧ s'.consumer = s.consumer := by
  simp only [step] at h
  split at h <;> cases h
  exact ⟨rfl, rfl, rfl⟩

/-- A `push` goes on, or ends with an answer for its item. -/
theorem step_producer (h : step s .producer = some (s', out)) :
    s'.consumer = s.consumer ∧
      (out = [] ∧ s'.producer.item = s.producer.item ∨
        ∃ item ok, out = [.push item ok] ∧ s.producer.item = some item ∧ s'.producer = .idle) := by
  simp only [step, producerStep] at h
  split at h
  · cases h
  · next item w hp =>
    split_ifs at h <;> cases h
    · exact ⟨rfl, .inr ⟨item, false, rfl, by rw [hp]; rfl, rfl⟩⟩
    · exact ⟨rfl, .inl ⟨rfl, by rw [hp]; rfl⟩⟩
  · next item w nxt hp =>
    cases h
    exact ⟨rfl, .inl ⟨rfl, by rw [hp]; rfl⟩⟩
  · next item nxt hp =>
    cases h
    exact ⟨rfl, .inr ⟨item, true, rfl, by rw [hp]; rfl, rfl⟩⟩

/-- A repeated `push` either is under way for its item or has just been answered. -/
theorem step_nextPush (hitem : s.producer = .idle ∨ s.producer.item = some x)
    (h : step s (nextPush s x) = some (s', out)) :
    s'.consumer = s.consumer ∧
      (out = [] ∧ s'.producer.item = some x ∨
        ∃ ok, out = [.push x ok] ∧ s'.producer = .idle) := by
  unfold nextPush at h
  split at h
  · obtain ⟨rfl, hnew, hcons⟩ := step_push h
    exact ⟨hcons, .inl ⟨rfl, hnew⟩⟩
  · next hbusy =>
    have hunder := hitem.resolve_left hbusy
    obtain ⟨hcons, ⟨rfl, hsame⟩ | ⟨item', ok, rfl, hitem', hidle⟩⟩ := step_producer h
    · exact ⟨hcons, .inl ⟨rfl, hsame.trans hunder⟩⟩
    · cases hitem'.symm.trans hunder
      exact ⟨hcons, .inr ⟨ok, rfl, hidle⟩⟩

/-- A `pop` goes on, or ends with an answer. -/
theorem step_nextPop (h : step s (nextPop s) = some (s', out)) :
    s'.producer = s.producer ∧
      (out = [] ∨ s'.consumer = .idle ∧ ∃ o, out = [o]) := by
  unfold nextPop at h
  split at h
  · simp only [step] at h
    split at h <;> cases h
    exact ⟨rfl, .inl rfl⟩
  · simp only [step, consumerStep] at h
    split at h
    · cases h
    · split_ifs at h <;> cases h
      · exact ⟨rfl, .inr ⟨rfl, _, rfl⟩⟩
      · exact ⟨rfl, .inl rfl⟩
    · cases h
      exact ⟨rfl, .inl rfl⟩
    · cases h
      exact ⟨rfl, .inr ⟨rfl, _, rfl⟩⟩
    · cases h
      exact ⟨rfl, .inr ⟨rfl, _, rfl⟩⟩

/-- The ring after a loop of `pop` that nobody disturbs. -/
def popAll : ℕ → SPSCQueue α N → SPSCQueue α N
  | 0, m => m
  | fuel + 1, m =>
    match m.pop with
    | none => m
    | some (_, m') => popAll fuel m'

theorem contents_popAll (fuel : ℕ) (m : SPSCQueue α (2 ^ k)) (h : m.occupancy ≤ fuel) :
    (popAll fuel m).contents = [] := by
  induction fuel generalizing m with
  | zero =>
    rw [popAll, contents_eq_nil, ← occupancy_eq_zero]
    exact Nat.le_zero.mp h
  | succ fuel ih =>
    by_cases he : m.read = m.write
    · simpa [popAll, pop, he] using (contents_eq_nil m).mpr he
    · have hpos : 0 < m.occupancy :=
        Nat.pos_of_ne_zero fun h => he ((occupancy_eq_zero m).mp h)
      have hocc := occupancy_store_read m hpos
      simp only [popAll, pop, he, ite_false]
      exact ih _ (by omega)

end CapyJs.Queue.SPSCQueue
