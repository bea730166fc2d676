import CapyJs.Pool.MemPool
import CapyJs.Transition.Machine
import Mathlib.Data.Finset.Card
import Mathlib.Data.Finset.Range

/-!
# Runs of a slot pool

A client acquires slots, writes to the slots it holds and gives them back. The
slots it holds are recorded beside the pool; the pool never reads that record.
-/
namespace CapyJs.Pool.Allocator

variable {α : Type*} [MemSet α]

structure State (α : Type*) where
  pool : MemPool α
  outstanding : Finset ℕ

inductive Call (α : Type*)
  | acquire
  | release (i : ℕ)
  | store (i : ℕ) (x : α)

/-- One call. A slot may be released or written only while it is held; the result
of `acquire` is emitted. -/
def step (s : State α) : Call α → Option (State α × List (Option ℕ))
  | .acquire =>
    match s.pool.acquire with
    | none => none
    | some (none, p) => some (⟨p, s.outstanding⟩, [none])
    | some (some i, p) => some (⟨p, insert i s.outstanding⟩, [some i])
  | .release i =>
    if i ∈ s.outstanding then
      (s.pool.release i).map fun p => (⟨p, s.outstanding.erase i⟩, [])
    else none
  | .store i x =>
    if i ∈ s.outstanding then some (⟨s.pool.modify i fun _ => x, s.outstanding⟩, []) else none

def machine (junk : ℕ → α) (capacity : ℕ) : Transition.Machine (State α) (Call α) (Option ℕ) where
  init s := MemPool.new junk capacity = some s.pool ∧ s.outstanding = ∅
  step := step

/-- What a client relies on in one state of a pool of `capacity` slots. -/
structure Reliable (capacity : ℕ) (s : State α) : Prop where
  freeList : ∃ l, Chain s.pool.link sizeMax s.pool.freeListHead l ∧ l.Nodup ∧
    (∀ i, i ∈ l ↔ ∃ slot, s.pool.slots[i]? = some slot ∧ slot.inUse = false) ∧
    l.length + s.pool.inUseCount = capacity
  inUse : ∀ i, i ∈ s.outstanding ↔ ∃ slot, s.pool.slots[i]? = some slot ∧ slot.inUse = true
  count : s.pool.inUseCount = s.outstanding.card
  /-- `acquire` returns null exactly when every slot is held, and else a zeroed slot
  that was not held. -/
  acquire : ∃ r p, s.pool.acquire = some (r, p) ∧
    (r = none ↔ s.outstanding = Finset.range capacity) ∧
    (∀ i ∈ r, i ∉ s.outstanding ∧ p.live i = some MemSet.zeroed) ∧
    ∀ j ∈ s.outstanding, p.live j = s.pool.live j
  /-- `release` of a held slot does not meet the head of the free list. -/
  release : ∀ i ∈ s.outstanding, i ≠ s.pool.freeListHead ∧
    ∃ p, s.pool.release i = some p ∧ ∀ j ∈ s.outstanding, j ≠ i → p.live j = s.pool.live j

/-- The pool can be built, and is reliable in every state of every run. -/
def SlotAllocator (junk : ℕ → α) (capacity : ℕ) : Prop :=
  (∃ p, MemPool.new junk capacity = some p) ∧
    ∀ s hist, (machine junk capacity).Reaches s hist → Reliable capacity s

/-! ## Invariant -/

structure Inv (capacity : ℕ) (s : State α) : Prop where
  wf : s.pool.WF
  capacity_eq : s.pool.capacity = capacity
  held : ∀ i, i ∈ s.outstanding ↔ (s.pool.live i).isSome
  count : s.pool.inUseCount = s.outstanding.card

theorem init_inv {junk : ℕ → α} {capacity : ℕ} {s : State α} (h : (machine junk capacity).init s) :
    Inv capacity s := by
  obtain ⟨hnew, hempty⟩ := h
  have hlive := MemPool.live_new hnew
  have hwf := MemPool.new_wf hnew
  have htotal := MemPool.total_new hnew fun _ _ => 1
  refine ⟨hwf, ?_, ?_, ?_⟩
  · rw [MemPool.new_eq] at hnew
    split_ifs at hnew
    rw [← Option.some.inj hnew]
  · intro i
    simp [hempty, hlive]
  · rw [hwf.count_eq, htotal, hempty, Finset.card_empty]

theorem step_inv {capacity : ℕ} {s s' : State α} {call : Call α} {out : List (Option ℕ)}
    (hi : Inv capacity s) (h : step s call = some (s', out)) : Inv capacity s' := by
  cases call with
  | acquire =>
    obtain ⟨r, p, hacq⟩ := MemPool.acquire_defined hi.wf
    simp only [step, hacq] at h
    cases r with
    | none =>
      obtain ⟨rfl, -⟩ := MemPool.eq_of_acquire_none hacq
      obtain ⟨rfl, -⟩ := Prod.mk.inj (Option.some.inj h)
      exact hi
    | some i =>
      obtain ⟨rfl, -⟩ := Prod.mk.inj (Option.some.inj h)
      obtain ⟨hr, hwf, -⟩ := MemPool.acquire_spec hi.wf hacq
      have hfree : i ∉ s.outstanding := by simp [hi.held, hr.before]
      have hcount := MemPool.inUseCount_of_replaces hi.wf hwf hr
      refine ⟨hwf, hr.capacity_eq.trans hi.capacity_eq, ?_, ?_⟩
      · intro j
        rw [Finset.mem_insert, hr.live_eq, hi.held]
        split_ifs with hj <;> simp [hj]
      · rw [Finset.card_insert_of_notMem hfree, ← hi.count]
        exact hcount
  | release i =>
    simp only [step] at h
    split_ifs at h with hmem
    obtain ⟨x, hx⟩ := Option.isSome_iff_exists.mp ((hi.held i).mp hmem)
    obtain ⟨p, hrel, hr, hwf⟩ := MemPool.release_spec hi.wf hx
    rw [hrel] at h
    obtain ⟨rfl, -⟩ := Prod.mk.inj (Option.some.inj h)
    have hcount := MemPool.inUseCount_of_replaces hi.wf hwf hr
    refine ⟨hwf, hr.capacity_eq.trans hi.capacity_eq, ?_, ?_⟩
    · intro j
      rw [Finset.mem_erase, hr.live_eq, hi.held]
      split_ifs with hj <;> simp [hj]
    · rw [Finset.card_erase_of_mem hmem, ← hi.count, ← Nat.add_zero s.pool.inUseCount]
      exact Nat.eq_sub_of_add_eq hcount
  | store i x =>
    simp only [step] at h
    split_ifs at h with hmem
    obtain ⟨y, hy⟩ := Option.isSome_iff_exists.mp ((hi.held i).mp hmem)
    obtain ⟨hr, hwf⟩ := MemPool.modify_spec hi.wf hy fun _ => x
    obtain ⟨rfl, -⟩ := Prod.mk.inj (Option.some.inj h)
    refine ⟨hwf, hr.capacity_eq.trans hi.capacity_eq, ?_, hi.count⟩
    intro j
    rw [hr.live_eq, hi.held]
    split_ifs with hj
    · simp [hj, hy]
    · rfl

theorem reaches_inv {junk : ℕ → α} {capacity : ℕ} {s : State α} {hist : List (Option ℕ)}
    (run : (machine junk capacity).Reaches s hist) : Inv capacity s :=
  run.invariant (I := fun _ s => Inv capacity s) (fun _ h => init_inv h)
    fun _ _ _ _ _ hi h => step_inv hi h

/-! ## What the invariant gives a client -/

omit [MemSet α] in
theorem Inv.outstanding_subset {capacity : ℕ} {s : State α} (hi : Inv capacity s) :
    s.outstanding ⊆ Finset.range capacity := by
  intro i hmem
  obtain ⟨x, hx⟩ := Option.isSome_iff_exists.mp ((hi.held i).mp hmem)
  rw [Finset.mem_range, ← hi.capacity_eq]
  exact MemPool.lt_capacity_of_live hi.wf hx

omit [MemSet α] in
theorem Inv.full_iff {capacity : ℕ} {s : State α} (hi : Inv capacity s) :
    s.pool.inUseCount = s.pool.capacity ↔ s.outstanding = Finset.range capacity := by
  rw [hi.count, hi.capacity_eq]
  constructor
  · intro hcard
    apply Finset.eq_of_subset_of_card_le hi.outstanding_subset
    rw [Finset.card_range, hcard]
  · intro hall
    rw [hall, Finset.card_range]

theorem Inv.reliable {capacity : ℕ} {s : State α} (hi : Inv capacity s) (hpos : 0 < capacity) :
    Reliable capacity s where
  freeList := by
    obtain ⟨l, hl⟩ := MemPool.exists_freeList hi.wf (hpos.trans_eq hi.capacity_eq.symm)
    refine ⟨l, hl.chain, hl.nodup, ?_, hl.length_eq.trans hi.capacity_eq⟩
    intro i
    rw [hl.mem_iff, MemPool.free_iff hi.wf]
  inUse i := by rw [hi.held, MemPool.live_isSome_iff]
  count := hi.count
  acquire := by
    obtain ⟨r, p, hacq⟩ := MemPool.acquire_defined hi.wf
    refine ⟨r, p, hacq, ?_⟩
    cases r with
    | none =>
      obtain ⟨rfl, hfull⟩ := MemPool.eq_of_acquire_none hacq
      simp [hi.full_iff.mp hfull]
    | some i =>
      obtain ⟨hr, -, -⟩ := MemPool.acquire_spec hi.wf hacq
      have hfree : i ∉ s.outstanding := by simp [hi.held, hr.before]
      refine ⟨?_, ?_, ?_⟩
      · rw [← hi.full_iff]
        simp only [reduceCtorEq, false_iff]
        intro hfull
        simp [MemPool.acquire, hfull] at hacq
      · rintro _ ⟨⟩
        exact ⟨hfree, by simp [hr.live_eq]⟩
      · intro j hj
        rw [hr.live_eq, if_neg]
        rintro rfl
        exact hfree hj
  release i hmem := by
    obtain ⟨x, hx⟩ := Option.isSome_iff_exists.mp ((hi.held i).mp hmem)
    obtain ⟨p, hrel, hr, -⟩ := MemPool.release_spec hi.wf hx
    refine ⟨MemPool.ne_freeListHead_of_live hi.wf hx, p, hrel, ?_⟩
    intro j _ hne
    rw [hr.live_eq, if_neg hne]

/-! ## Which capacities work -/

theorem not_slotAllocator_of_intMax_lt (junk : ℕ → α) {capacity : ℕ} (h : intMax < capacity) :
    ¬SlotAllocator junk capacity := by
  rintro ⟨⟨p, hp⟩, -⟩
  rw [MemPool.new_eq, if_neg (by omega)] at hp
  cases hp

/-- The head of an empty pool is index 0, which is not the end of the free list. -/
theorem not_slotAllocator_zero (junk : ℕ → α) : ¬SlotAllocator junk 0 := by
  rintro ⟨⟨p, hp⟩, hall⟩
  have hstart : (machine junk 0).Reaches ⟨p, ∅⟩ [] := .start ⟨hp, rfl⟩
  obtain ⟨l, hchain, -, -, hlen⟩ := (hall _ _ hstart).freeList
  obtain rfl : l = [] := List.eq_nil_of_length_eq_zero (by omega)
  have hhead := hchain.eq_stop
  rw [MemPool.new_eq, if_pos (Nat.zero_le _)] at hp
  rw [← Option.some.inj hp] at hhead
  cases hhead

/-- A pool is a slot allocator over every run exactly when it has a slot and the
constructor's `int` counter can reach its capacity. -/
theorem slotAllocator_iff (junk : ℕ → α) (capacity : ℕ) :
    SlotAllocator junk capacity ↔ 0 < capacity ∧ capacity < 2 ^ 31 := by
  constructor
  · intro h
    constructor
    · by_contra hzero
      obtain rfl : capacity = 0 := by omega
      exact not_slotAllocator_zero junk h
    · by_contra hlarge
      exact not_slotAllocator_of_intMax_lt junk (by unfold intMax; omega) h
  · rintro ⟨hpos, hsmall⟩
    have hnew := MemPool.new_eq junk capacity
    rw [if_pos (by unfold intMax; omega)] at hnew
    exact ⟨⟨_, hnew⟩, fun s hist run => (reaches_inv run).reliable hpos⟩

instance : MemSet UInt8 := ⟨0, 0xAD⟩

/-- No slots, and more slots than an `int` can count. -/
theorem not_slotAllocator_bytes :
    ¬SlotAllocator (fun _ => (0 : UInt8)) 0 ∧ ¬SlotAllocator (fun _ => (0 : UInt8)) (2 ^ 31) :=
  ⟨not_slotAllocator_zero _, not_slotAllocator_of_intMax_lt _ (by decide)⟩

end CapyJs.Pool.Allocator
