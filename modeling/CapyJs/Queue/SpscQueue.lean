import CapyJs.Queue.BoundedFifo
import Mathlib.Algebra.Group.Nat.Defs
import Mathlib.Order.Basic
import Mathlib.Tactic.Common

/-!
# The lock-free ring at the level of single memory accesses

One producer runs `push`, one consumer runs `pop` and `empty`. Every atomic
load, every atomic store and every element copy is a step of its own, so each
side works with an index it loaded earlier while the other side moves on. The
occupied cells, read from `read` up to `write`, refine a bounded queue that
keeps one cell free.
-/
namespace CapyJs.Queue
open BoundedFifo Transition

variable {α : Type*} {N : ℕ}

/-- The shared memory: the cells and the two indices. -/
structure SPSCQueue (α : Type*) (N : ℕ) where
  buf : Fin N → α
  write : Fin N
  read : Fin N

namespace SPSCQueue

/-- `(w + 1) & (N - 1)`. Masking alone already keeps it a cell index. -/
def next (w : Fin N) : Fin N :=
  ⟨(w.val + 1) &&& (N - 1), by
    have hw := w.isLt
    have hle := @Nat.and_le_right (w.val + 1) (N - 1)
    omega⟩

/-- Where `push` is, with the values it has loaded so far. -/
inductive Producer (α : Type*) (N : ℕ)
  | idle
  | loadedWrite (item : α) (w : Fin N)
  | copying (item : α) (w next : Fin N)
  | storing (item : α) (next : Fin N)

/-- Where `pop` or `empty` is. -/
inductive Consumer (α : Type*) (N : ℕ)
  | idle
  | loadedRead (r : Fin N)
  | copying (r : Fin N)
  | storing (r : Fin N) (out : α)
  | emptyLoadedRead (r : Fin N)

structure State (α : Type*) (N : ℕ) where
  mem : SPSCQueue α N
  producer : Producer α N
  consumer : Consumer α N

/-- A call makes its first load; afterwards the caller makes its next access. -/
inductive Access (α : Type*)
  | push (item : α)
  | producer
  | pop
  | empty
  | consumer
  deriving Repr

def producerStep (s : State α N) : Option (State α N × List (Outcome α)) :=
  match s.producer with
  | .idle => none
  | .loadedWrite item w =>
    if next w = s.mem.read then some ({ s with producer := .idle }, [.push item false])
    else some ({ s with producer := .copying item w (next w) }, [])
  | .copying item w nxt =>
    some ({ s with mem := { s.mem with buf := Function.update s.mem.buf w item },
                   producer := .storing item nxt }, [])
  | .storing item nxt =>
    some ({ s with mem := { s.mem with write := nxt }, producer := .idle }, [.push item true])

def consumerStep (s : State α N) : Option (State α N × List (Outcome α)) :=
  match s.consumer with
  | .idle => none
  | .loadedRead r =>
    if r = s.mem.write then some ({ s with consumer := .idle }, [.pop none])
    else some ({ s with consumer := .copying r }, [])
  | .copying r => some ({ s with consumer := .storing r (s.mem.buf r) }, [])
  | .storing r out =>
    some ({ s with mem := { s.mem with read := next r }, consumer := .idle }, [.pop (some out)])
  | .emptyLoadedRead r => some ({ s with consumer := .idle }, [.empty (r = s.mem.write)])

def step (s : State α N) : Access α → Option (State α N × List (Outcome α))
  | .push item =>
    match s.producer with
    | .idle => some ({ s with producer := .loadedWrite item s.mem.write }, [])
    | _ => none
  | .producer => producerStep s
  | .pop =>
    match s.consumer with
    | .idle => some ({ s with consumer := .loadedRead s.mem.read }, [])
    | _ => none
  | .empty =>
    match s.consumer with
    | .idle => some ({ s with consumer := .emptyLoadedRead s.mem.read }, [])
    | _ => none
  | .consumer => consumerStep s

/-- `pop` run by a consumer that nobody disturbs. -/
def pop (m : SPSCQueue α N) : Option (α × SPSCQueue α N) :=
  if m.read = m.write then none else some (m.buf m.read, { m with read := next m.read })

/-- Both indices start at zero; the cells hold whatever they hold. -/
def machine (α : Type*) (N : ℕ) : Machine (State α N) (Access α) (Outcome α) where
  init s := s.mem.write.val = 0 ∧ s.mem.read.val = 0 ∧ s.producer = .idle ∧ s.consumer = .idle
  step := step

/-- A call returns nothing yet: it only makes its first load. -/
theorem push_call_silent {s s' : State α N} {item : α} {out : List (Outcome α)}
    (h : step s (.push item) = some (s', out)) : out = [] := by
  simp only [step] at h
  split at h <;> cases h
  rfl

theorem pop_call_silent {s s' : State α N} {out : List (Outcome α)}
    (h : step s .pop = some (s', out)) : out = [] := by
  simp only [step] at h
  split at h <;> cases h
  rfl

/-- The undisturbed `pop` is what its four accesses compute when taken in a row. -/
theorem pop_eq_exec (m : SPSCQueue α N) (p : Producer α N) {item : α} {m' : SPSCQueue α N}
    (h : m.pop = some (item, m')) :
    (machine α N).exec ⟨m, p, .idle⟩ [.pop, .consumer, .consumer, .consumer] =
      some (⟨m', p, .idle⟩, [.pop (some item)]) := by
  rw [pop] at h
  split_ifs at h with hne
  cases h
  simp [Machine.exec, machine, step, consumerStep, hne]

/-! ## The occupied cells -/

/-- The cell `i` places after `r`. -/
def slot (r : Fin N) (i : ℕ) : Fin N := ⟨(r.val + i) % N, Nat.mod_lt _ (by have := r.isLt; omega)⟩

def occupancy (m : SPSCQueue α N) : ℕ := (m.write.val + (N - m.read.val)) % N

/-- The unconsumed items, oldest first. -/
def contents (m : SPSCQueue α N) : List α :=
  (List.range m.occupancy).map fun i => m.buf (slot m.read i)

@[simp] theorem contents_length (m : SPSCQueue α N) : m.contents.length = m.occupancy := by
  simp [contents]

theorem mod_of_le {a : ℕ} (h : a < N + N) : a % N = if a < N then a else a - N := by
  split_ifs with hlt
  · exact Nat.mod_eq_of_lt hlt
  · rw [Nat.mod_eq_sub_mod (by omega), Nat.mod_eq_of_lt (by omega)]

theorem slot_val (r : Fin N) {i : ℕ} (hi : i < N) :
    (slot r i).val = if r.val + i < N then r.val + i else r.val + i - N :=
  mod_of_le (by have := r.isLt; omega)

theorem occupancy_val (m : SPSCQueue α N) :
    m.occupancy = if m.read.val ≤ m.write.val then m.write.val - m.read.val
      else m.write.val + N - m.read.val := by
  have hw := m.write.isLt
  have hr := m.read.isLt
  rw [occupancy, mod_of_le (by omega)]
  split_ifs <;> omega

theorem occupancy_lt (m : SPSCQueue α N) : m.occupancy < N :=
  Nat.mod_lt _ (by have := m.write.isLt; omega)

@[simp] theorem slot_zero (r : Fin N) : slot r 0 = r := by
  ext
  simp [slot, Nat.mod_eq_of_lt r.isLt]

@[simp] theorem slot_occupancy (m : SPSCQueue α N) : slot m.read m.occupancy = m.write := by
  ext
  have hw := m.write.isLt
  have hr := m.read.isLt
  rw [slot_val _ m.occupancy_lt, occupancy_val]
  split_ifs <;> omega

theorem slot_inj {r : Fin N} {i j : ℕ} (hi : i < N) (hj : j < N) (h : slot r i = slot r j) :
    i = j := by
  have hv := congrArg Fin.val h
  have hr := r.isLt
  rw [slot_val r hi, slot_val r hj] at hv
  split_ifs at hv <;> omega

/-- No occupied cell is the one `write` names. -/
theorem slot_ne_write (m : SPSCQueue α N) {i : ℕ} (hi : i < m.occupancy) :
    slot m.read i ≠ m.write := by
  intro h
  rw [← slot_occupancy m] at h
  have hlt := m.occupancy_lt
  have := slot_inj (by omega) hlt h
  omega

theorem occupancy_eq_zero (m : SPSCQueue α N) : m.occupancy = 0 ↔ m.read = m.write := by
  constructor
  · intro h
    simpa [h] using slot_occupancy m
  · intro h
    simp [occupancy_val, h]

/-! ## Powers of two: the mask is the remainder -/

section PowerOfTwo
variable {k : ℕ}

theorem next_val (w : Fin (2 ^ k)) : (next w).val = if w.val + 1 < 2 ^ k then w.val + 1 else 0 := by
  have hw := w.isLt
  have hmask : (next w).val = (w.val + 1) % 2 ^ k := Nat.and_two_pow_sub_one_eq_mod _ _
  rw [hmask, mod_of_le (by omega)]
  split_ifs <;> omega

theorem slot_next (r : Fin (2 ^ k)) {i : ℕ} (hi : i + 1 < 2 ^ k) :
    slot (next r) i = slot r (i + 1) := by
  ext
  have hr := r.isLt
  rw [slot_val _ (by omega), slot_val _ hi, next_val]
  split_ifs <;> omega

/-- The test of `push`: the cell after `write` is `read` exactly when one cell is left. -/
theorem next_write_eq_read (m : SPSCQueue α (2 ^ k)) (hk : 0 < k) :
    next m.write = m.read ↔ m.occupancy + 1 = 2 ^ k := by
  have hw := m.write.isLt
  have hr := m.read.isLt
  have htwo : 2 ≤ 2 ^ k := Nat.le_self_pow (by omega) 2
  rw [Fin.ext_iff, next_val, occupancy_val]
  split_ifs <;> omega

theorem occupancy_store_write (m : SPSCQueue α (2 ^ k)) (h : m.occupancy + 1 < 2 ^ k) :
    occupancy { m with write := next m.write } = m.occupancy + 1 := by
  have hw := m.write.isLt
  have hr := m.read.isLt
  have hn := next_val m.write
  rw [occupancy_val] at h ⊢
  simp only [occupancy_val, hn]
  split_ifs at h ⊢ <;> omega

theorem occupancy_store_read (m : SPSCQueue α (2 ^ k)) (h : 0 < m.occupancy) :
    occupancy { m with read := next m.read } + 1 = m.occupancy := by
  have hw := m.write.isLt
  have hr := m.read.isLt
  have hn := next_val m.read
  rw [occupancy_val] at h ⊢
  simp only [occupancy_val, hn]
  split_ifs at h ⊢ <;> omega

/-- Copying into the free cell at `write` is invisible until `write` moves. -/
theorem contents_copy (m : SPSCQueue α N) (item : α) :
    contents { m with buf := Function.update m.buf m.write item } = m.contents := by
  apply List.map_congr_left
  intro i hi
  exact Function.update_of_ne (slot_ne_write m (List.mem_range.mp hi)) _ _

theorem contents_store_write (m : SPSCQueue α (2 ^ k)) (h : m.occupancy + 1 < 2 ^ k) :
    contents { m with write := next m.write } = m.contents ++ [m.buf m.write] := by
  rw [contents, occupancy_store_write m h, List.range_succ, List.map_append]
  simp [contents]

theorem contents_store_read (m : SPSCQueue α (2 ^ k)) (h : 0 < m.occupancy) :
    m.contents = m.buf m.read :: contents { m with read := next m.read } := by
  have hlt := m.occupancy_lt
  rw [contents, contents, ← occupancy_store_read m h, List.range_succ_eq_map, List.map_cons,
    List.map_map, slot_zero]
  congr 1
  apply List.map_congr_left
  intro i hi
  have hi' := List.mem_range.mp hi
  have := occupancy_store_read m h
  exact congrArg m.buf (slot_next m.read (by omega)).symm

/-! ## What each side knows while it runs -/

/-- An index loaded by its owner stays current, and the room that `push` saw
can only have grown since. -/
def Producer.Ok (m : SPSCQueue α N) : Producer α N → Prop
  | .idle => True
  | .loadedWrite _ w => w = m.write
  | .copying _ w nxt => w = m.write ∧ nxt = next m.write ∧ m.occupancy + 1 < N
  | .storing item nxt => nxt = next m.write ∧ m.occupancy + 1 < N ∧ m.buf m.write = item

/-- Likewise the items that `pop` saw can only have grown in number. -/
def Consumer.Ok (m : SPSCQueue α N) : Consumer α N → Prop
  | .idle => True
  | .loadedRead r => r = m.read
  | .copying r => r = m.read ∧ 0 < m.occupancy
  | .storing r out => r = m.read ∧ 0 < m.occupancy ∧ m.buf m.read = out
  | .emptyLoadedRead r => r = m.read

structure State.Inv (s : State α N) : Prop where
  producer : s.producer.Ok s.mem
  consumer : s.consumer.Ok s.mem

theorem Producer.Ok.store_read {m : SPSCQueue α (2 ^ k)} {p : Producer α (2 ^ k)} (hp : p.Ok m)
    (h : 0 < m.occupancy) : p.Ok { m with read := next m.read } := by
  have hocc := occupancy_store_read m h
  cases p with
  | idle => trivial
  | loadedWrite item w => exact hp
  | copying item w nxt => exact ⟨hp.1, hp.2.1, by have := hp.2.2; omega⟩
  | storing item nxt => exact ⟨hp.1, by have := hp.2.1; omega, hp.2.2⟩

theorem Consumer.Ok.copy {m : SPSCQueue α N} {c : Consumer α N} (hc : c.Ok m) (item : α) :
    c.Ok { m with buf := Function.update m.buf m.write item } := by
  cases c with
  | idle => trivial
  | loadedRead r => exact hc
  | copying r => exact hc
  | storing r out =>
    refine ⟨hc.1, hc.2.1, ?_⟩
    have hne : m.read ≠ m.write := fun h => by
      have := (occupancy_eq_zero m).mpr h
      have := hc.2.1
      omega
    simpa [Function.update_of_ne hne] using hc.2.2
  | emptyLoadedRead r => exact hc

theorem Consumer.Ok.store_write {m : SPSCQueue α (2 ^ k)} {c : Consumer α (2 ^ k)} (hc : c.Ok m)
    (h : m.occupancy + 1 < 2 ^ k) : c.Ok { m with write := next m.write } := by
  have hocc := occupancy_store_write m h
  cases c with
  | idle => trivial
  | loadedRead r => exact hc
  | copying r => exact ⟨hc.1, by omega⟩
  | storing r out => exact ⟨hc.1, by omega, hc.2.2⟩
  | emptyLoadedRead r => exact hc

/-- One access of the producer keeps the invariant and is either silent or one
step of the bounded queue on the occupied cells. -/
theorem producerStep_spec (hk : 0 < k) {s s' : State α (2 ^ k)} {out : List (Outcome α)}
    (hi : s.Inv) (h : producerStep s = some (s', out)) :
    s'.Inv ∧ Machine.Observes (Step (2 ^ k - 1)) s.mem.contents out s'.mem.contents := by
  obtain ⟨m, p, c⟩ := s
  have hp : p.Ok m := hi.producer
  have hc : c.Ok m := hi.consumer
  have hlt := m.occupancy_lt
  clear hi
  cases p with
  | idle => cases h
  | loadedWrite item w =>
    obtain rfl : w = m.write := hp
    simp only [producerStep] at h
    split_ifs at h with hfull
    · cases h
      have hocc := (next_write_eq_read m hk).mp hfull
      refine ⟨⟨trivial, hc⟩, .snoc (.nil _) (.full ?_)⟩
      simp only [contents_length]
      omega
    · cases h
      have hroom : m.occupancy + 1 ≠ 2 ^ k := fun h => hfull ((next_write_eq_read m hk).mpr h)
      exact ⟨⟨⟨rfl, rfl, by simp only; omega⟩, hc⟩, .nil _⟩
  | copying item w nxt =>
    obtain ⟨rfl, rfl, hroom⟩ := hp
    cases h
    refine ⟨⟨⟨rfl, hroom, by simp⟩, hc.copy item⟩, ?_⟩
    simp only [contents_copy]
    exact .nil _
  | storing item nxt =>
    obtain ⟨rfl, hroom, rfl⟩ := hp
    cases h
    refine ⟨⟨trivial, hc.store_write hroom⟩, ?_⟩
    simp only [contents_store_write m hroom]
    exact .snoc (.nil _) (.push (by rw [contents_length]; omega))

theorem contents_eq_nil (m : SPSCQueue α N) : m.contents = [] ↔ m.read = m.write := by
  rw [← List.length_eq_zero_iff, contents_length, occupancy_eq_zero]

/-- One access of the consumer, in the same terms. -/
theorem consumerStep_spec {s s' : State α (2 ^ k)} {out : List (Outcome α)}
    (hi : s.Inv) (h : consumerStep s = some (s', out)) :
    s'.Inv ∧ Machine.Observes (Step (2 ^ k - 1)) s.mem.contents out s'.mem.contents := by
  obtain ⟨m, p, c⟩ := s
  have hp : p.Ok m := hi.producer
  have hc : c.Ok m := hi.consumer
  clear hi
  cases c with
  | idle => cases h
  | loadedRead r =>
    obtain rfl : r = m.read := hc
    simp only [consumerStep] at h
    split_ifs at h with hempty
    · cases h
      simp only [(contents_eq_nil m).mpr hempty]
      exact ⟨⟨hp, trivial⟩, .snoc (.nil _) .nothing⟩
    · cases h
      have hpos : m.occupancy ≠ 0 := fun h => hempty ((occupancy_eq_zero m).mp h)
      exact ⟨⟨hp, rfl, Nat.pos_of_ne_zero hpos⟩, .nil _⟩
  | copying r =>
    obtain ⟨rfl, hpos⟩ := hc
    cases h
    exact ⟨⟨hp, rfl, hpos, rfl⟩, .nil _⟩
  | storing r out =>
    obtain ⟨rfl, hpos, rfl⟩ := hc
    cases h
    refine ⟨⟨hp.store_read hpos, trivial⟩, ?_⟩
    simp only [contents_store_read m hpos]
    exact .snoc (.nil _) .pop
  | emptyLoadedRead r =>
    obtain rfl : r = m.read := hc
    cases h
    exact ⟨⟨hp, trivial⟩, .snoc (.nil _) (.empty (by simp [contents_eq_nil]))⟩

theorem step_spec (hk : 0 < k) {s s' : State α (2 ^ k)} {a : Access α} {out : List (Outcome α)}
    (hi : s.Inv) (h : step s a = some (s', out)) :
    s'.Inv ∧ Machine.Observes (Step (2 ^ k - 1)) s.mem.contents out s'.mem.contents := by
  cases a with
  | push item =>
    simp only [step] at h
    split at h
    · cases h
      exact ⟨⟨rfl, hi.consumer⟩, .nil _⟩
    · cases h
  | producer => exact producerStep_spec hk hi h
  | pop =>
    simp only [step] at h
    split at h
    · cases h
      exact ⟨⟨hi.producer, rfl⟩, .nil _⟩
    · cases h
  | empty =>
    simp only [step] at h
    split at h
    · cases h
      exact ⟨⟨hi.producer, rfl⟩, .nil _⟩
    · cases h
  | consumer => exact consumerStep_spec hi h

theorem reaches_inv (hk : 0 < k) {s : State α (2 ^ k)} {hist : List (Outcome α)}
    (run : (machine α (2 ^ k)).Reaches s hist) : s.Inv := by
  refine run.invariant (I := fun _ s => s.Inv) ?_ ?_
  · rintro s ⟨-, -, hp, hc⟩
    exact ⟨by rw [hp]; trivial, by rw [hc]; trivial⟩
  · intro hist s a s' out hi h
    exact (step_spec hk hi h).1

/-- Every run of the ring is a run of the bounded queue on its occupied cells. -/
theorem reaches_observes (hk : 0 < k) {s : State α (2 ^ k)} {hist : List (Outcome α)}
    (run : (machine α (2 ^ k)).Reaches s hist) :
    Machine.Observes (Step (2 ^ k - 1)) [] hist s.mem.contents := by
  refine run.observes (I := fun _ s => s.Inv) (fun s => s.mem.contents) ?_
    (fun s hist run => reaches_inv hk run) (fun hist s a s' out hi h => (step_spec hk hi h).2)
  rintro s ⟨hw, hr, -, -⟩
  exact (contents_eq_nil s.mem).mpr (Fin.ext (by rw [hw, hr]))

end PowerOfTwo

/-- What an observer of a run may rely on, for a ring of `N` cells. -/
structure BoundedFifoRun (s : State α N) (hist : List (Outcome α)) : Prop where
  /-- Pops return what was pushed, in order. -/
  popped_prefix : popped hist <+: pushed hist
  /-- One cell stays free. -/
  unconsumed_le : (pushed hist).length - (popped hist).length ≤ N - 1
  /-- The cell being written is neither occupied nor being read. -/
  copy_cell_free : ∀ item w nxt, s.producer = .copying item w nxt →
    (∀ i < s.mem.occupancy, slot s.mem.read i ≠ w) ∧ ∀ r, s.consumer = .copying r → r ≠ w
  /-- The load of `read` that makes `push` fail sees a full ring. -/
  push_false : ∀ a s' item, step s a = some (s', [.push item false]) →
    (pushed hist).length - (popped hist).length = N - 1
  /-- The load of `write` that makes `pop` fail sees an empty ring. -/
  pop_false : ∀ a s', step s a = some (s', [.pop none]) → popped hist = pushed hist

/-- For every power of two above one, the ring refines a queue of `N - 1` places. -/
theorem refines_boundedFifo (k : ℕ) {s : State α (2 ^ (k + 1))} {hist : List (Outcome α)}
    (run : (machine α (2 ^ (k + 1))).Reaches s hist) :
    Machine.Observes (Step (2 ^ (k + 1) - 1)) [] hist s.mem.contents ∧ BoundedFifoRun s hist := by
  have hobs := reaches_observes (Nat.succ_pos k) run
  have hinv := reaches_inv (Nat.succ_pos k) run
  obtain ⟨hitems, hlen⟩ := accounting hobs
  have hcount : (pushed hist).length - (popped hist).length = s.mem.contents.length := by
    simp [hitems]
  refine ⟨hobs, ⟨s.mem.contents, hitems.symm⟩, by omega, ?_, ?_, ?_⟩
  · intro item w nxt hp
    have hok := hinv.producer
    rw [hp] at hok
    obtain ⟨rfl, -, -⟩ := hok
    refine ⟨fun i hi => slot_ne_write _ hi, fun r hr => ?_⟩
    have hok := hinv.consumer
    rw [hr] at hok
    obtain ⟨rfl, hpos⟩ := hok
    simpa using slot_ne_write s.mem hpos
  · intro a s' item h
    rw [hcount, (step_spec (Nat.succ_pos k) hinv h).2.of_singleton.length_of_push_false]
  · intro a s' h
    rw [hitems, (step_spec (Nat.succ_pos k) hinv h).2.of_singleton.eq_nil_of_pop_none,
      List.append_nil]

/-- Two cells: the second push meets a full ring, and the pop returns the first item. -/
theorem refines_boundedFifo_two_cells : ∃ (s : State ℕ (2 ^ (0 + 1))) (hist : List (Outcome ℕ)),
    (machine ℕ (2 ^ (0 + 1))).Reaches s hist ∧
      hist = [.push 7 true, .push 8 false, .pop (some 7)] ∧ BoundedFifoRun s hist := by
  have run := Machine.reaches_exec (M := machine ℕ (2 ^ (0 + 1)))
    (s := ⟨⟨fun _ => 0, 0, 0⟩, .idle, .idle⟩)
    [.push 7, .producer, .producer, .producer, .push 8, .producer,
      .pop, .consumer, .consumer, .consumer] ⟨rfl, rfl, rfl, rfl⟩ rfl
  exact ⟨_, _, run, rfl, (refines_boundedFifo 0 run).2⟩

end SPSCQueue
end CapyJs.Queue
