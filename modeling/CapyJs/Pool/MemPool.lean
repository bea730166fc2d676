import CapyJs.Pool.IndexChain

/-!
# The fixed-capacity slot pool with its intrusive free list

Slots are numbered; `free_list_head` and the `next` links are indices modulo
2^64, and `SIZE_MAX` stands both for "no next slot" and for the pointer one
before the array that the head takes when the last slot is handed out. A
pointer that is dereferenced outside the array, a failed assertion and a signed
overflow have no result here.
-/
namespace CapyJs.Pool

variable {α : Type*}

def sizeMax : ℕ := 2 ^ 64 - 1
def intMax : ℕ := 2 ^ 31 - 1

/-- The object representations that `memset` leaves behind. -/
class MemSet (α : Type*) where
  /-- All bytes zero. -/
  zeroed : α
  /-- All bytes 0xAD. -/
  poisoned : α

structure Slot (α : Type*) where
  data : α
  next : ℕ
  inUse : Bool
  deriving DecidableEq, Repr

/-- The object in a slot, once handed out. -/
def Slot.object (s : Slot α) : Option α := if s.inUse then some s.data else none

structure MemPool (α : Type*) where
  slots : List (Slot α)
  freeListHead : ℕ
  capacity : ℕ
  inUseCount : ℕ
  deriving DecidableEq, Repr

namespace MemPool

/-- The constructor's loop, from counter `i` with `n` rounds to go. The counter is
an `int`, so the increment past `INT_MAX` is undefined. -/
def linkSlots (capacity : ℕ) : (n i : ℕ) → List (Slot α) → Option (List (Slot α))
  | 0, _, slots => some slots
  | n + 1, i, slots =>
    if i = intMax then none
    else linkSlots capacity n (i + 1)
      (if i < capacity - 1 then slots.modify i fun s => { s with next := i + 1 } else slots)

/-- `MemPool(capacity)`, over whatever bytes `junk` the allocation holds. -/
def new (junk : ℕ → α) (capacity : ℕ) : Option (MemPool α) :=
  (linkSlots capacity capacity 0 ((List.range capacity).map fun i => ⟨junk i, sizeMax, false⟩)).map
    fun slots => { slots, freeListHead := 0, capacity, inUseCount := 0 }

/-- A slot index, or null when the pool is exhausted. -/
def acquire [MemSet α] (p : MemPool α) : Option (Option ℕ × MemPool α) :=
  if p.inUseCount = p.capacity then some (none, p)
  else
    match p.slots[p.freeListHead]? with
    | none => none
    | some slot =>
      some (some p.freeListHead,
        { p with slots := p.slots.set p.freeListHead ⟨MemSet.zeroed, sizeMax, true⟩
                 freeListHead := slot.next
                 inUseCount := p.inUseCount + 1 })

def release [MemSet α] (p : MemPool α) (i : ℕ) : Option (MemPool α) :=
  match p.slots[i]? with
  | none => none
  | some slot =>
    if !slot.inUse then none
    else if i = p.freeListHead then
      some { p with slots := p.slots.set i ⟨MemSet.poisoned, slot.next, false⟩
                    inUseCount := p.inUseCount - 1 }
    else
      some { p with slots := p.slots.set i ⟨MemSet.poisoned, p.freeListHead, false⟩
                    freeListHead := i
                    inUseCount := p.inUseCount - 1 }

/-- The owner of a slot writes through its pointer. -/
def modify (p : MemPool α) (i : ℕ) (f : α → α) : MemPool α :=
  { p with slots := p.slots.modify i fun s => { s with data := f s.data } }

/-- What a pointer to slot `i` reads, whether or not the slot is outstanding. -/
def deref (p : MemPool α) (i : ℕ) : Option α := p.slots[i]?.map Slot.data

/-- The object in an outstanding slot. -/
def live (p : MemPool α) (i : ℕ) : Option α := p.slots[i]?.bind Slot.object

/-- A sum over the outstanding slots and the objects in them. -/
def total (p : MemPool α) (f : ℕ → α → ℕ) : ℕ :=
  ((List.range p.slots.length).map fun i => (p.live i).elim 0 (f i)).sum

def link (p : MemPool α) (i : ℕ) : Option ℕ := p.slots[i]?.map Slot.next

/-- The chain from `free_list_head` visits the free slots, each once. -/
structure FreeList (p : MemPool α) (l : List ℕ) : Prop where
  chain : Chain p.link sizeMax p.freeListHead l
  nodup : l.Nodup
  mem_iff : ∀ i, i ∈ l ↔ i < p.capacity ∧ p.live i = none
  length_eq : l.length + p.inUseCount = p.capacity

/-- What every operation keeps. A pool of no slots has no free list to speak of:
its head points at the end of the array and is never followed. -/
structure WF (p : MemPool α) : Prop where
  length_eq : p.slots.length = p.capacity
  capacity_le : p.capacity ≤ intMax
  count_eq : p.inUseCount = p.total fun _ _ => 1
  free : p.capacity = 0 ∨ ∃ l, p.FreeList l

/-- What the outstanding slots of two pools have to do with each other when the
pools differ in slot `i` only. -/
structure Replaces (p p' : MemPool α) (i : ℕ) (old new : Option α) : Prop where
  before : p.live i = old
  live_eq : ∀ j, p'.live j = if j = i then new else p.live j
  total_eq : ∀ f, p'.total f + old.elim 0 (f i) = p.total f + new.elim 0 (f i)
  capacity_eq : p'.capacity = p.capacity

theorem Replaces.trans {p p' p'' : MemPool α} {i : ℕ} {old mid new : Option α}
    (h : Replaces p p' i old mid) (h' : Replaces p' p'' i mid new) : Replaces p p'' i old new where
  before := h.before
  live_eq j := by
    rw [h'.live_eq, h.live_eq]
    split_ifs <;> rfl
  total_eq f := by
    have h1 := h.total_eq f
    have h2 := h'.total_eq f
    omega
  capacity_eq := h'.capacity_eq.trans h.capacity_eq

/-! ## One slot written -/

theorem lt_capacity_of_live {p : MemPool α} (hp : p.WF) {i : ℕ} {x : α}
    (h : p.live i = some x) : i < p.capacity := by
  obtain ⟨slot, hslot, -⟩ := Option.bind_eq_some_iff.mp h
  have hlt := (List.getElem?_eq_some_iff.mp hslot).1
  rwa [hp.length_eq] at hlt

theorem deref_of_live {p : MemPool α} {i : ℕ} {x : α} (h : p.live i = some x) :
    p.deref i = some x := by
  obtain ⟨slot, hslot, hobj⟩ := Option.bind_eq_some_iff.mp h
  by_cases huse : slot.inUse
  · simpa [deref, hslot, Slot.object, huse] using hobj
  · simp [Slot.object, huse] at hobj

theorem exists_slot {p : MemPool α} (hp : p.WF) {i : ℕ} (hi : i < p.capacity) :
    ∃ slot, p.slots[i]? = some slot ∧ p.live i = slot.object := by
  have hlt : i < p.slots.length := by rwa [hp.length_eq]
  exact ⟨_, List.getElem?_eq_getElem hlt, by simp [live, List.getElem?_eq_getElem hlt]⟩

theorem live_set {p : MemPool α} {i : ℕ} {slot : Slot α} (h : p.slots[i]? = some slot)
    (slot' : Slot α) (head count j : ℕ) :
    live ⟨p.slots.set i slot', head, p.capacity, count⟩ j =
      if j = i then slot'.object else p.live j := by
  have hlt := (List.getElem?_eq_some_iff.mp h).1
  by_cases hj : j = i
  · subst hj
    simp [live, hlt]
  · simp [live, List.getElem?_set_ne (Ne.symm hj), hj]

theorem replaces_set {p : MemPool α} {i : ℕ} {slot : Slot α} (h : p.slots[i]? = some slot)
    (slot' : Slot α) (head count : ℕ) :
    Replaces p ⟨p.slots.set i slot', head, p.capacity, count⟩ i slot.object slot'.object where
  before := by simp [live, h]
  live_eq := live_set h slot' head count
  total_eq f := by
    have hlt := (List.getElem?_eq_some_iff.mp h).1
    have hbefore : p.live i = slot.object := by simp [live, h]
    have hafter := live_set h slot' head count i
    have hsum := sum_map_range_of_eq_of_ne (f := fun j => (p.live j).elim 0 (f j))
      (g := fun j => (live ⟨p.slots.set i slot', head, p.capacity, count⟩ j).elim 0 (f j)) hlt
      fun j hj => by rw [live_set h, if_neg hj]
    rw [if_pos rfl] at hafter
    simp only [hbefore, hafter] at hsum
    simpa [total] using hsum
  capacity_eq := rfl

theorem link_set_ne (p : MemPool α) {i j : ℕ} (hj : j ≠ i) (slot' : Slot α) (head count : ℕ) :
    link ⟨p.slots.set i slot', head, p.capacity, count⟩ j = p.link j := by
  simp [link, List.getElem?_set_ne (Ne.symm hj)]

theorem link_set_self {p : MemPool α} {i : ℕ} {slot : Slot α} (h : p.slots[i]? = some slot)
    (slot' : Slot α) (head count : ℕ) :
    link ⟨p.slots.set i slot', head, p.capacity, count⟩ i = some slot'.next := by
  have hlt := (List.getElem?_eq_some_iff.mp h).1
  simp [link, hlt]

/-- The invariant after one slot has been written, from what it did to the free list. -/
theorem wf_of_replaces {p : MemPool α} (hp : p.WF) {i head count : ℕ} {slot' : Slot α}
    {old new : Option α}
    (hr : Replaces p ⟨p.slots.set i slot', head, p.capacity, count⟩ i old new)
    (hcount : count + old.elim 0 (fun _ => 1) = p.inUseCount + new.elim 0 (fun _ => 1))
    (hfree : ∃ l, FreeList ⟨p.slots.set i slot', head, p.capacity, count⟩ l) :
    WF ⟨p.slots.set i slot', head, p.capacity, count⟩ where
  length_eq := by simp [hp.length_eq]
  capacity_le := hp.capacity_le
  count_eq := by
    have htotal := hr.total_eq fun _ _ => 1
    have hcount' := hp.count_eq
    change count = _
    omega
  free := .inr hfree

theorem exists_freeList {p : MemPool α} (hp : p.WF) {i : ℕ} (hi : i < p.capacity) :
    ∃ l, p.FreeList l := by
  rcases hp.free with h0 | hl
  · omega
  · exact hl

/-- The number of slots in use after one slot has been replaced. -/
theorem inUseCount_of_replaces {p p' : MemPool α} {i : ℕ} {old new : Option α} (hp : p.WF)
    (hp' : p'.WF) (hr : Replaces p p' i old new) :
    p'.inUseCount + old.elim 0 (fun _ => 1) = p.inUseCount + new.elim 0 (fun _ => 1) := by
  rw [hp.count_eq, hp'.count_eq]
  exact hr.total_eq _

theorem live_isSome_iff (p : MemPool α) (i : ℕ) :
    (p.live i).isSome ↔ ∃ slot, p.slots[i]? = some slot ∧ slot.inUse = true := by
  unfold live
  cases p.slots[i]? with
  | none => simp
  | some slot => by_cases h : slot.inUse <;> simp [Slot.object, h]

theorem free_iff {p : MemPool α} (hp : p.WF) (i : ℕ) :
    (i < p.capacity ∧ p.live i = none) ↔
      ∃ slot, p.slots[i]? = some slot ∧ slot.inUse = false := by
  rw [← hp.length_eq]
  unfold live
  by_cases hi : i < p.slots.length
  · by_cases h : p.slots[i].inUse <;> simp [Slot.object, hi, h]
  · simp [hi]

theorem le_total {p : MemPool α} {i : ℕ} {x : α} (h : p.live i = some x) (f : ℕ → α → ℕ) :
    f i x ≤ p.total f := by
  obtain ⟨slot, hslot, -⟩ := Option.bind_eq_some_iff.mp h
  have hlt := (List.getElem?_eq_some_iff.mp hslot).1
  apply List.le_sum_of_mem
  exact List.mem_map.mpr ⟨i, List.mem_range.mpr hlt, by simp [h]⟩

/-- A positive sum has a positive term. -/
theorem exists_live_of_total_pos {p : MemPool α} {f : ℕ → α → ℕ} (h : 0 < p.total f) :
    ∃ i x, p.live i = some x ∧ 0 < f i x := by
  by_contra hnone
  have hzero : p.total f = 0 := by
    apply List.sum_eq_zero
    intro n hn
    obtain ⟨i, -, rfl⟩ := List.mem_map.mp hn
    cases hlive : p.live i with
    | none => rfl
    | some x =>
      by_contra hne
      exact hnone ⟨i, x, hlive, Nat.pos_of_ne_zero hne⟩
  omega

/-- `in_use_count` counts the outstanding slots. -/
theorem inUseCount_eq_countP {p : MemPool α} (hp : p.WF) :
    p.inUseCount = (List.range p.capacity).countP fun i => (p.live i).isSome := by
  rw [hp.count_eq, total, hp.length_eq]
  induction List.range p.capacity with
  | nil => rfl
  | cons i l ih =>
    rw [List.map_cons, List.sum_cons, List.countP_cons, ih]
    cases p.live i <;> simp [Nat.add_comm]

/-- An outstanding slot is never the head of the free list, so `release` links it
back in and the branch for the head is not taken. -/
theorem ne_freeListHead_of_live {p : MemPool α} (hp : p.WF) {i : ℕ} {x : α}
    (hlive : p.live i = some x) : i ≠ p.freeListHead := by
  rintro rfl
  have hlt := lt_capacity_of_live hp hlive
  obtain ⟨l, hl⟩ := exists_freeList hp hlt
  rcases hl.chain.start_mem_or_stop with hmem | hstop
  · have hfree := ((hl.mem_iff _).mp hmem).2
    simp [hfree] at hlive
  · have hle := hp.capacity_le
    simp only [hstop, intMax, sizeMax] at hlt hle
    omega

/-! ## The operations -/

section Operations
variable [MemSet α]

theorem acquire_defined {p : MemPool α} (hp : p.WF) : ∃ r p', p.acquire = some (r, p') := by
  by_cases hfull : p.inUseCount = p.capacity
  · exact ⟨none, p, if_pos hfull⟩
  · rcases hp.free with h0 | ⟨l, hl⟩
    · have hcount := hp.count_eq
      simp only [total, hp.length_eq, h0, List.range_zero, List.map_nil, List.sum_nil] at hcount
      omega
    · cases l with
      | nil =>
        have hlen := hl.length_eq
        simp only [List.length_nil] at hlen
        omega
      | cons i l =>
        obtain rfl := hl.chain.head_eq
        obtain ⟨hlt, -⟩ := (hl.mem_iff _).mp List.mem_cons_self
        obtain ⟨slot, hslot, -⟩ := exists_slot hp hlt
        simp [acquire, hfull, hslot]

theorem eq_of_acquire_none {p p' : MemPool α} (h : p.acquire = some (none, p')) :
    p' = p ∧ p.inUseCount = p.capacity := by
  unfold acquire at h
  split at h
  · simp only [Option.some.injEq, Prod.mk.injEq, true_and] at h
    exact ⟨h.symm, ‹_›⟩
  · split at h <;> simp at h

/-- A slot handed out was free, and comes zeroed. -/
theorem acquire_spec {p p' : MemPool α} {i : ℕ} (hp : p.WF)
    (h : p.acquire = some (some i, p')) :
    Replaces p p' i none (some MemSet.zeroed) ∧ p'.WF ∧ i < p.capacity := by
  unfold acquire at h
  split at h
  · simp at h
  · next hfull =>
    split at h
    · simp at h
    · next slot hslot =>
      simp only [Option.some.injEq, Prod.mk.injEq] at h
      obtain ⟨rfl, rfl⟩ := h
      have hlt : p.freeListHead < p.capacity := by
        rw [← hp.length_eq]
        exact (List.getElem?_eq_some_iff.mp hslot).1
      obtain ⟨l, hl⟩ := exists_freeList hp hlt
      cases l with
      | nil =>
        have hlen := hl.length_eq
        simp only [List.length_nil] at hlen
        omega
      | cons j l =>
        obtain rfl := hl.chain.head_eq
        have hfree := ((hl.mem_iff _).mp List.mem_cons_self).2
        have hobj : slot.object = none := by simpa [live, hslot] using hfree
        have hr := replaces_set hslot ⟨MemSet.zeroed, sizeMax, true⟩ slot.next (p.inUseCount + 1)
        rw [hobj] at hr
        refine ⟨hr, wf_of_replaces hp hr (by simp [Slot.object]) ⟨l, ?_⟩, hlt⟩
        -- the old chain is the head followed by the new one
        obtain ⟨hnotMem, hnodup⟩ := List.nodup_cons.mp hl.nodup
        obtain ⟨j, hj, hrest⟩ := hl.chain.tail
        have hnext : slot.next = j := by simpa [link, hslot] using hj
        constructor
        · rw [hnext]
          apply hrest.congr
          intro k hk
          apply link_set_ne
          rintro rfl
          exact hnotMem hk
        · exact hnodup
        · intro k
          rw [hr.live_eq]
          have hk := hl.mem_iff k
          by_cases hkh : k = p.freeListHead
          · simp [hkh, hnotMem, Slot.object]
          · simpa [hkh] using hk
        · have hlen := hl.length_eq
          simp only [List.length_cons] at hlen
          change l.length + (p.inUseCount + 1) = p.capacity
          omega

theorem release_spec {p : MemPool α} (hp : p.WF) {i : ℕ} {x : α} (hlive : p.live i = some x) :
    ∃ p', p.release i = some p' ∧ Replaces p p' i (some x) none ∧ p'.WF := by
  have hlt := lt_capacity_of_live hp hlive
  have hne := ne_freeListHead_of_live hp hlive
  obtain ⟨slot, hslot, hobj⟩ := exists_slot hp hlt
  obtain ⟨l, hl⟩ := exists_freeList hp hlt
  rw [hlive] at hobj
  have huse : slot.inUse = true := by
    by_contra hfree
    simp [Slot.object, hfree] at hobj
  have hr := replaces_set hslot ⟨MemSet.poisoned, p.freeListHead, false⟩ i (p.inUseCount - 1)
  rw [← hobj] at hr
  refine ⟨_, by simp [release, hslot, huse, hne], hr, ?_⟩
  have hnotMem : i ∉ l := by
    intro hmem
    have hfree := ((hl.mem_iff i).mp hmem).2
    simp [hfree] at hlive
  -- the slot itself is counted, so the count does not go below zero
  have hpos : 0 < p.inUseCount := by
    have htotal := hr.total_eq fun _ _ => 1
    have hcount := hp.count_eq
    simp only [Option.elim_some, Slot.object, Bool.false_eq_true, if_false, Option.elim_none] at htotal
    omega
  apply wf_of_replaces hp hr
  · simp only [Option.elim_some, Slot.object, Bool.false_eq_true, if_false, Option.elim_none]
    omega
  · refine ⟨i :: l, ?_, List.nodup_cons.mpr ⟨hnotMem, hl.nodup⟩, ?_, ?_⟩
    · apply Chain.cons (link_set_self hslot _ _ _)
      apply hl.chain.congr
      intro k hk
      apply link_set_ne
      rintro rfl
      exact hnotMem hk
    · intro k
      rw [hr.live_eq, List.mem_cons, hl.mem_iff]
      by_cases hki : k = i
      · simp [hki, hlt, Slot.object]
      · simp [hki]
    · have hlen := hl.length_eq
      simp only [List.length_cons]
      omega

end Operations

theorem modify_spec {p : MemPool α} (hp : p.WF) {i : ℕ} {x : α} (hlive : p.live i = some x)
    (f : α → α) : Replaces p (p.modify i f) i (some x) (some (f x)) ∧ (p.modify i f).WF := by
  have hlt := lt_capacity_of_live hp hlive
  obtain ⟨slot, hslot, hobj⟩ := exists_slot hp hlt
  obtain ⟨l, hl⟩ := exists_freeList hp hlt
  rw [hlive] at hobj
  have hset : p.modify i f =
      ⟨p.slots.set i { slot with data := f slot.data }, p.freeListHead, p.capacity, p.inUseCount⟩ := by
    simp [modify, List.modify_eq_set_getElem?, hslot]
  have hobj' : Slot.object { slot with data := f slot.data } = some (f x) := by
    by_cases huse : slot.inUse
    · simp only [Slot.object, huse, if_true, Option.some.injEq] at hobj ⊢
      rw [hobj]
    · simp [Slot.object, huse] at hobj
  have hr := replaces_set hslot { slot with data := f slot.data } p.freeListHead p.inUseCount
  rw [← hobj, hobj'] at hr
  rw [hset]
  refine ⟨hr, wf_of_replaces hp hr rfl ⟨l, ?_, hl.nodup, ?_, hl.length_eq⟩⟩
  · apply hl.chain.congr
    intro k _
    by_cases hki : k = i
    · subst hki
      rw [link_set_self hslot]
      simp [link, hslot]
    · exact link_set_ne p hki _ _ _
  · intro k
    rw [hr.live_eq, hl.mem_iff]
    by_cases hki : k = i
    · simp [hki, hlive]
    · simp [hki]

/-! ## Construction -/

/-- Slot `i` once the constructor's loop has been through the first `done` slots. -/
def linked (junk : ℕ → α) (capacity done i : ℕ) : Slot α :=
  ⟨junk i, if i < done ∧ i < capacity - 1 then i + 1 else sizeMax, false⟩

theorem map_linked_succ (junk : ℕ → α) (capacity i : ℕ) :
    (if i < capacity - 1 then
        ((List.range capacity).map (linked junk capacity i)).modify i
          fun s => { s with next := i + 1 }
      else (List.range capacity).map (linked junk capacity i)) =
      (List.range capacity).map (linked junk capacity (i + 1)) := by
  apply List.ext_getElem?
  intro j
  split_ifs with hlast
  · by_cases hj : j < capacity
    · by_cases hji : i = j
      · simp [hj, hji, linked, show j < capacity - 1 by omega]
      · simp [hj, hji, linked, show j < i + 1 ↔ j < i by omega]
    · simp [hj]
  · by_cases hj : j < capacity
    · have hsame : j < i + 1 ∧ j < capacity - 1 ↔ j < i ∧ j < capacity - 1 := by omega
      simp only [List.getElem?_map, List.getElem?_range hj, Option.map_some, linked, hsame]
    · simp [hj]

theorem linkSlots_eq (junk : ℕ → α) {capacity : ℕ} (n i : ℕ) (hn : n + i = capacity)
    (hi : i ≤ intMax) :
    linkSlots capacity n i ((List.range capacity).map (linked junk capacity i)) =
      if capacity ≤ intMax then some ((List.range capacity).map (linked junk capacity capacity))
      else none := by
  induction n generalizing i with
  | zero =>
    obtain rfl : i = capacity := by omega
    simp [linkSlots, hi]
  | succ n ih =>
    unfold linkSlots
    by_cases hlast : i = intMax
    · rw [if_pos hlast, if_neg (by omega)]
    · rw [if_neg hlast, map_linked_succ, ih (i + 1) (by omega) (by omega)]

theorem new_eq (junk : ℕ → α) (capacity : ℕ) :
    new junk capacity =
      if capacity ≤ intMax then
        some ⟨(List.range capacity).map (linked junk capacity capacity), 0, capacity, 0⟩
      else none := by
  have hstart : ((List.range capacity).map fun i => (⟨junk i, sizeMax, false⟩ : Slot α)) =
      (List.range capacity).map (linked junk capacity 0) := by
    simp [linked]
  unfold new
  rw [hstart, linkSlots_eq junk capacity 0 (Nat.add_zero _) (Nat.zero_le _)]
  split_ifs <;> rfl

theorem live_new {junk : ℕ → α} {capacity : ℕ} {p : MemPool α} (h : new junk capacity = some p)
    (i : ℕ) : p.live i = none := by
  rw [new_eq] at h
  split_ifs at h
  obtain rfl := Option.some.inj h
  by_cases hi : i < capacity
  · simp [live, hi, linked, Slot.object]
  · simp [live, hi]

theorem total_new {junk : ℕ → α} {capacity : ℕ} {p : MemPool α} (h : new junk capacity = some p)
    (f : ℕ → α → ℕ) : p.total f = 0 := by
  simp [total, live_new h]

theorem freeList_new {junk : ℕ → α} {capacity : ℕ} {p : MemPool α}
    (h : new junk capacity = some p) (hpos : 0 < capacity) :
    p.FreeList (List.range capacity) := by
  have hlive := live_new h
  rw [new_eq] at h
  split_ifs at h
  obtain rfl := Option.some.inj h
  refine ⟨?_, List.nodup_range, fun i => by simp [hlive], by simp⟩
  obtain ⟨n, rfl⟩ := Nat.exists_eq_add_one.mpr hpos
  have hlink : ∀ i ≤ n, link
      ⟨(List.range (n + 1)).map (linked junk (n + 1) (n + 1)), 0, n + 1, 0⟩ i =
        some (if i < n then i + 1 else sizeMax) := by
    intro i hi
    simp [link, linked, show i < n + 1 by omega]
  have hchain := Chain.range' (s := 0) (n := n)
    (fun i _ hlt => (hlink i (by omega)).trans (by rw [if_pos (by omega)]))
    ((hlink (0 + n) (by omega)).trans (by rw [if_neg (by omega)]))
  rwa [← List.range_eq_range'] at hchain

theorem new_wf {junk : ℕ → α} {capacity : ℕ} {p : MemPool α} (h : new junk capacity = some p) :
    p.WF := by
  have htotal := total_new h
  have hfree := freeList_new h
  rw [new_eq] at h
  split_ifs at h with hle
  obtain rfl := Option.some.inj h
  refine ⟨by simp, hle, (htotal _).symm, ?_⟩
  rcases Nat.eq_zero_or_pos capacity with h0 | hpos
  · exact .inl h0
  · exact .inr ⟨_, hfree hpos⟩

end MemPool
end CapyJs.Pool
