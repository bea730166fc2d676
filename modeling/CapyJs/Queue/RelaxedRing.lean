import CapyJs.Memory.ReleaseAcquire
import Mathlib.Data.Nat.ModEq

/-!
# What the two sides of the ring know of each other

The cells and the indices of the ring in a memory where an acquire load may return an old
index. Each side knows its own index. What it knows of the other index was published by the
other side together with the copies made before, and that keeps the copies of the two sides
apart.
-/
namespace CapyJs.Queue.Relaxed
open Memory

variable {ι L α : Type*}

/-- The two threads and the two indices, `write_` and `read_`. -/
structure Layout (ι L : Type*) where
  producer : ι
  consumer : ι
  write : L
  read : L
  threads_ne : producer ≠ consumer
  indices_ne : write ≠ read

/-- The memory the ring lives in; `buf_` is an array of plain cells. -/
abbrev Mem (ι L α : Type*) := Memory.State ι L ℕ ℕ α

/-- Every location has been initialised, the two indices to zero, and whoever runs later knows
it. -/
structure Fresh (q : Layout ι L) (m : Mem ι L α) : Prop where
  initialised : ∀ l, ∃ value, m.messages l = [⟨value, fun _ => 0⟩]
  write : m.messages q.write = [⟨0, fun _ => 0⟩]
  read : m.messages q.read = [⟨0, fun _ => 0⟩]
  unwritten : ∀ c, (m.cells c).written = 0
  unread : ∀ c t, (m.cells c).reads t = 0
  views : ∀ t x, m.views t x = 0

/-! ## What the threads know -/

/-- How far the two sides are: items copied into the cells, indices published for them, items
copied out, indices published for those. -/
structure Counts where
  copiedIn : ℕ
  pushed : ℕ
  copiedOut : ℕ
  popped : ℕ

/-- A view never claims more than what was done, and never knows an index without the copies
made before it was published. -/
structure Known (q : Layout ι L) (n : Counts) (v : View ι L) : Prop where
  write_le : v (.inl q.write) ≤ n.pushed
  write_copies : v (.inl q.write) ≤ v (.inr q.producer)
  producer_le : v (.inr q.producer) ≤ n.copiedIn
  read_le : v (.inl q.read) ≤ n.popped
  read_copies : v (.inl q.read) ≤ v (.inr q.consumer)
  consumer_le : v (.inr q.consumer) ≤ n.copiedOut

/-- `items` are the items copied into the cells so far. -/
structure MemInv (q : Layout ι L) (N : ℕ) (items : List α) (n : Counts) (m : Mem ι L α) :
    Prop where
  copied : items.length = n.copiedIn
  pushed_le : n.pushed ≤ n.copiedIn
  popped_le : n.popped ≤ n.copiedOut
  pushes : (m.messages q.write).length = n.pushed + 1
  pops : (m.messages q.read).length = n.popped + 1
  stamped : m.Stamped
  write_value : ∀ k msg, (m.messages q.write)[k]? = some msg → msg.value = k % N
  read_value : ∀ k msg, (m.messages q.read)[k]? = some msg → msg.value = k % N
  message_known : ∀ (l : L) (k : ℕ) msg, (m.messages l)[k]? = some msg → Known q n msg.view
  thread_known : ∀ t, Known q n (m.views t)
  producer_seen : m.views q.producer (.inl q.write) = n.pushed
  producer_count : m.views q.producer (.inr q.producer) = n.copiedIn
  consumer_seen : m.views q.consumer (.inl q.read) = n.popped
  consumer_count : m.views q.consumer (.inr q.consumer) = n.copiedOut
  room : n.copiedIn ≤ m.views q.producer (.inl q.read) + (N - 1)
  filled : n.copiedOut ≤ m.views q.consumer (.inl q.write)
  written : ∀ c, (m.cells c).written = 0 ∨ (m.cells c).writer = q.producer ∧
    ∃ i, i < n.copiedIn ∧ i % N = c ∧ (m.cells c).written = i + 1
  reads : ∀ c t, (m.cells c).reads t = 0 ∨ t = q.consumer ∧
    ∃ j, j < n.copiedOut ∧ j % N = c ∧ (m.cells c).reads t = j + 1
  values : ∀ i, n.popped ≤ i → i < n.copiedIn → items[i]? = some (m.cells (i % N)).value

section Proofs
variable {q : Layout ι L} {N : ℕ} {items : List α} {n n' : Counts} {m : Mem ι L α}

theorem Known.mono {v : View ι L} (h : Known q n v) (hin : n.copiedIn ≤ n'.copiedIn)
    (hpush : n.pushed ≤ n'.pushed) (hout : n.copiedOut ≤ n'.copiedOut)
    (hpop : n.popped ≤ n'.popped) : Known q n' v where
  write_le := h.write_le.trans hpush
  write_copies := h.write_copies
  producer_le := h.producer_le.trans hin
  read_le := h.read_le.trans hpop
  read_copies := h.read_copies
  consumer_le := h.consumer_le.trans hout

theorem Known.sup {v w : View ι L} (hv : Known q n v) (hw : Known q n w) : Known q n (v ⊔ w) where
  write_le := sup_le hv.write_le hw.write_le
  write_copies := sup_le_sup hv.write_copies hw.write_copies
  producer_le := sup_le hv.producer_le hw.producer_le
  read_le := sup_le hv.read_le hw.read_le
  read_copies := sup_le_sup hv.read_copies hw.read_copies
  consumer_le := sup_le hv.consumer_le hw.consumer_le

theorem MemInv.copiedOut_le (h : MemInv q N items n m) : n.copiedOut ≤ n.pushed :=
  h.filled.trans (h.thread_known q.consumer).write_le

/-- The cell of the next item is not in use: no item waits in it and no copy of it is unknown
to the producer. -/
theorem MemInv.write_free (h : MemInv q N items n m)
    (hroom : n.copiedIn + 1 ≤ m.views q.producer (.inl q.read) + (N - 1)) :
    m.KnowsWrite q.producer (n.copiedIn % N) ∧ m.KnowsReads q.producer (n.copiedIn % N) := by
  have hown := h.thread_known q.producer
  refine ⟨?_, fun t => ?_⟩
  · unfold State.KnowsWrite
    obtain hzero | ⟨hwriter, i, hi, -, hwritten⟩ := h.written (n.copiedIn % N)
    · rw [hzero]
      exact Nat.zero_le _
    · rw [hwriter, hwritten, h.producer_count]
      exact hi
  · obtain hzero | ⟨rfl, j, hj, hcell, hreads⟩ := h.reads (n.copiedIn % N) t
    · rw [hzero]
      exact Nat.zero_le _
    · -- an item read from the same cell is a whole round behind, hence known
      have hround := Nat.ModEq.add_le_of_lt hcell
        (hj.trans_le (h.copiedOut_le.trans h.pushed_le))
      have hread := hown.read_copies
      omega

theorem known_zero {v : View ι L} (hv : ∀ x, v x = 0) : Known q n v := by
  constructor <;> simp [hv]

theorem Fresh.message (h : Fresh q m) {l : L} {k : ℕ} {msg : Message ι L ℕ}
    (hmsg : (m.messages l)[k]? = some msg) : k = 0 ∧ msg.view = fun _ => 0 := by
  obtain ⟨value, hvalue⟩ := h.initialised l
  rw [hvalue] at hmsg
  obtain ⟨hk, rfl⟩ := List.getElem?_eq_some_iff.mp hmsg
  obtain rfl : k = 0 := Nat.lt_one_iff.mp hk
  exact ⟨rfl, rfl⟩

theorem Fresh.bounded (h : Fresh q m) (x : L ⊕ ι) (bound : ℕ) : m.Bounded x bound where
  thread t := by
    rw [h.views]
    exact Nat.zero_le _
  message l k msg hmsg := by
    rw [(h.message hmsg).2]
    exact Nat.zero_le _

theorem Fresh.memInv (h : Fresh q m) : MemInv q N [] ⟨0, 0, 0, 0⟩ m := by
  exact
    { copied := rfl
      pushed_le := le_rfl
      popped_le := le_rfl
      pushes := by rw [h.write, List.length_singleton]
      pops := by rw [h.read, List.length_singleton]
      stamped := by
        intro l k msg hmsg
        obtain ⟨rfl, hview⟩ := h.message hmsg
        rw [hview]
      write_value := by
        intro k msg hmsg
        obtain ⟨rfl, -⟩ := h.message hmsg
        simp only [h.write, List.getElem?_cons_zero, Option.some.injEq] at hmsg
        rw [← hmsg, Nat.zero_mod]
      read_value := by
        intro k msg hmsg
        obtain ⟨rfl, -⟩ := h.message hmsg
        simp only [h.read, List.getElem?_cons_zero, Option.some.injEq] at hmsg
        rw [← hmsg, Nat.zero_mod]
      message_known := by
        intro l k msg hmsg
        exact known_zero fun x => by rw [(h.message hmsg).2]
      thread_known := fun t => known_zero (h.views t)
      producer_seen := h.views _ _
      producer_count := h.views _ _
      consumer_seen := h.views _ _
      consumer_count := h.views _ _
      room := Nat.zero_le _
      filled := Nat.zero_le _
      written := fun c => .inl (h.unwritten c)
      reads := fun c t => .inl (h.unread c t)
      values := fun i _ hi => absurd hi (Nat.not_lt_zero i) }

variable [DecidableEq ι]

/-- Whatever a thread learns from a message or from another thread keeps the invariant. -/
theorem MemInv.learn (h : MemInv q N items n m) (t : ι) {v : View ι L} (hv : Known q n v) :
    MemInv q N items n (m.learn t v) := by
  have hviews : ∀ t', (m.learn t v).views t' = if t' = t then m.views t ⊔ v else m.views t' :=
    fun t' => State.views_setView m t t' _
  have hkeep : ∀ t' x, v x ≤ m.views t' x → (m.learn t v).views t' x = m.views t' x := by
    intro t' x hx
    rw [hviews]
    split_ifs with ht
    · subst ht
      exact sup_eq_left.mpr hx
    · rfl
  have hmono : ∀ t' x, m.views t' x ≤ (m.learn t v).views t' x := by
    intro t' x
    rw [hviews]
    split_ifs with ht
    · subst ht
      exact le_sup_left
    · exact le_rfl
  exact
    { h with
      thread_known := by
        intro t'
        rw [hviews]
        split_ifs
        · exact (h.thread_known t).sup hv
        · exact h.thread_known t'
      producer_seen := by
        rw [hkeep _ _ (hv.write_le.trans h.producer_seen.ge), h.producer_seen]
      producer_count := by
        rw [hkeep _ _ (hv.producer_le.trans h.producer_count.ge), h.producer_count]
      consumer_seen := by
        rw [hkeep _ _ (hv.read_le.trans h.consumer_seen.ge), h.consumer_seen]
      consumer_count := by
        rw [hkeep _ _ (hv.consumer_le.trans h.consumer_count.ge), h.consumer_count]
      room := h.room.trans (Nat.add_le_add_right (hmono _ _) _)
      filled := h.filled.trans (hmono _ _) }

variable [DecidableEq L]

/-- The view a store puts into its message is the view its thread has afterwards. -/
theorem MemInv.known_store (h : MemInv q N items n m) {t : ι} {l : L} (value : ℕ)
    (hnew : Known q n' (Function.update (m.views t) (.inl l) (m.messages l).length))
    (hmono : ∀ v, Known q n v → Known q n' v) :
    (∀ (l' : L) (k : ℕ) msg, ((m.store t l value).messages l')[k]? = some msg →
        Known q n' msg.view) ∧ ∀ t', Known q n' ((m.store t l value).views t') := by
  refine ⟨fun l' k msg hmsg => ?_, fun t' => ?_⟩
  · obtain hold | ⟨-, -, rfl⟩ := State.messages_store_cases hmsg
    · exact hmono _ (h.message_known l' k msg hold)
    · exact hnew
  · rw [State.views_store]
    split_ifs
    · exact hnew
    · exact hmono _ (h.thread_known t')

/-- `write_.store(next, release)`, after the item was copied. -/
theorem MemInv.publish (h : MemInv q N items n m) (hnext : n.copiedIn = n.pushed + 1) :
    MemInv q N items { n with pushed := n.pushed + 1 }
      (m.store q.producer q.write ((n.pushed + 1) % N)) := by
  have hcons : q.consumer ≠ q.producer := q.threads_ne.symm
  have hread : q.read ≠ q.write := q.indices_ne.symm
  have hown := h.thread_known q.producer
  have hnew : Known q { n with pushed := n.pushed + 1 }
      (Function.update (m.views q.producer) (.inl q.write) (m.messages q.write).length) := by
    rw [h.pushes]
    exact
      { write_le := by simp
        write_copies := by simp [h.producer_count, hnext]
        producer_le := by simpa using hown.producer_le
        read_le := by simpa [hread] using hown.read_le
        read_copies := by simpa [hread] using hown.read_copies
        consumer_le := by simpa using hown.consumer_le }
  obtain ⟨hmessages, hthreads⟩ := h.known_store ((n.pushed + 1) % N) hnew
    fun v hv => hv.mono le_rfl (Nat.le_succ _) le_rfl le_rfl
  exact
    { h with
      pushed_le := hnext.ge
      pushes := by simp [State.messages_store, h.pushes]
      pops := by simp [State.messages_store, hread, h.pops]
      stamped := h.stamped.store _ _ _
      write_value := by
        intro k msg hmsg
        obtain hold | ⟨-, rfl, rfl⟩ := State.messages_store_cases hmsg
        · exact h.write_value k msg hold
        · rw [h.pushes]
      read_value := by
        intro k msg hmsg
        obtain hold | ⟨heq, -, -⟩ := State.messages_store_cases hmsg
        · exact h.read_value k msg hold
        · exact absurd heq hread
      message_known := hmessages
      thread_known := hthreads
      producer_seen := by simp [State.views_store, h.pushes]
      producer_count := by simp [State.views_store, h.producer_count]
      consumer_seen := by simp [State.views_store, hcons, h.consumer_seen]
      consumer_count := by simp [State.views_store, hcons, h.consumer_count]
      room := by simpa [State.views_store, hread] using h.room
      filled := by simpa [State.views_store, hcons] using h.filled }

/-- `read_.store((r + 1) & (N - 1), release)`, after the item was copied out. -/
theorem MemInv.release (h : MemInv q N items n m) (hnext : n.copiedOut = n.popped + 1) :
    MemInv q N items { n with popped := n.popped + 1 }
      (m.store q.consumer q.read ((n.popped + 1) % N)) := by
  have hprod : q.producer ≠ q.consumer := q.threads_ne
  have hwrite : q.write ≠ q.read := q.indices_ne
  have hown := h.thread_known q.consumer
  have hnew : Known q { n with popped := n.popped + 1 }
      (Function.update (m.views q.consumer) (.inl q.read) (m.messages q.read).length) := by
    rw [h.pops]
    exact
      { write_le := by simpa [hwrite] using hown.write_le
        write_copies := by simpa [hwrite] using hown.write_copies
        producer_le := by simpa using hown.producer_le
        read_le := by simp
        read_copies := by simp [h.consumer_count, hnext]
        consumer_le := by simpa using hown.consumer_le }
  obtain ⟨hmessages, hthreads⟩ := h.known_store ((n.popped + 1) % N) hnew
    fun v hv => hv.mono le_rfl le_rfl le_rfl (Nat.le_succ _)
  exact
    { h with
      popped_le := hnext.ge
      pushes := by simp [State.messages_store, hwrite, h.pushes]
      pops := by simp [State.messages_store, h.pops]
      stamped := h.stamped.store _ _ _
      write_value := by
        intro k msg hmsg
        obtain hold | ⟨heq, -, -⟩ := State.messages_store_cases hmsg
        · exact h.write_value k msg hold
        · exact absurd heq hwrite
      read_value := by
        intro k msg hmsg
        obtain hold | ⟨-, rfl, rfl⟩ := State.messages_store_cases hmsg
        · exact h.read_value k msg hold
        · rw [h.pops]
      message_known := hmessages
      thread_known := hthreads
      producer_seen := by simp [State.views_store, hprod, h.producer_seen]
      producer_count := by simp [State.views_store, hprod, h.producer_count]
      consumer_seen := by simp [State.views_store, h.pops]
      consumer_count := by simp [State.views_store, h.consumer_count]
      room := by simpa [State.views_store, hprod] using h.room
      filled := by simpa [State.views_store, hwrite] using h.filled
      values := fun i hi => h.values i (Nat.le_of_succ_le hi) }

omit [DecidableEq ι] [DecidableEq L] in
/-- The cell of the next item to be read holds it, and its copy is known to the consumer. -/
theorem MemInv.read_known (h : MemInv q N items n m)
    (hfilled : n.copiedOut + 1 ≤ m.views q.consumer (.inl q.write)) :
    m.KnowsWrite q.consumer (n.copiedOut % N) := by
  unfold State.KnowsWrite
  obtain hzero | ⟨hwriter, i, hi, hcell, hwritten⟩ := h.written (n.copiedOut % N)
  · rw [hzero]
    exact Nat.zero_le _
  · rw [hwriter, hwritten]
    -- a later item in the same cell would be a whole round ahead
    have hle : i ≤ n.copiedOut := by
      by_contra hlt
      have hround := Nat.ModEq.add_le_of_lt (Nat.ModEq.symm hcell) (not_le.mp hlt)
      have hroom := h.room
      have hread := (h.thread_known q.producer).read_le
      have hpopped := h.popped_le
      omega
    have hcopies := (h.thread_known q.consumer).write_copies
    omega

theorem Known.copyIn {v : View ι L} (h : Known q n v) :
    Known q { n with copiedIn := n.copiedIn + 1 }
      (Function.update v (.inr q.producer) (v (.inr q.producer) + 1)) where
  write_le := by simpa using h.write_le
  write_copies := by simpa using h.write_copies.trans (Nat.le_succ _)
  producer_le := by simpa using h.producer_le
  read_le := by simpa using h.read_le
  read_copies := by simpa [q.threads_ne.symm] using h.read_copies
  consumer_le := by simpa [q.threads_ne.symm] using h.consumer_le

theorem Known.copyOut {v : View ι L} (h : Known q n v) :
    Known q { n with copiedOut := n.copiedOut + 1 }
      (Function.update v (.inr q.consumer) (v (.inr q.consumer) + 1)) where
  write_le := by simpa using h.write_le
  write_copies := by simpa [q.threads_ne] using h.write_copies
  producer_le := by simpa [q.threads_ne] using h.producer_le
  read_le := by simpa using h.read_le
  read_copies := by simpa using h.read_copies.trans (Nat.le_succ _)
  consumer_le := by simpa using h.consumer_le

/-- `buf_[w] = item` -/
theorem MemInv.copyIn [Fintype ι] (h : MemInv q N items n m) (item : α)
    (hroom : n.copiedIn + 1 ≤ m.views q.producer (.inl q.read) + (N - 1)) :
    ∃ m', m.write q.producer (n.copiedIn % N) item = some m' ∧
      m'.views = (m.tick q.producer).views ∧ m'.messages = m.messages ∧
      MemInv q N (items ++ [item]) { n with copiedIn := n.copiedIn + 1 } m' := by
  have hcons : q.consumer ≠ q.producer := q.threads_ne.symm
  have hpopped := (h.thread_known q.producer).read_le
  refine ⟨_, if_pos (h.write_free hroom), rfl, rfl, ?_⟩
  exact
    { h with
      copied := by simp [h.copied]
      pushed_le := h.pushed_le.trans (Nat.le_succ _)
      message_known := fun l k msg hmsg =>
        (h.message_known l k msg hmsg).mono (Nat.le_succ _) le_rfl le_rfl le_rfl
      thread_known := by
        intro t
        simp only [State.tick, State.views_setView]
        split_ifs
        · exact (h.thread_known q.producer).copyIn
        · exact (h.thread_known t).mono (Nat.le_succ _) le_rfl le_rfl le_rfl
      producer_seen := by simp [State.views_tick, h.producer_seen]
      producer_count := by simp [State.views_tick, h.producer_count]
      consumer_seen := by simp [State.views_tick, h.consumer_seen]
      consumer_count := by simp [State.views_tick, hcons, h.consumer_count]
      room := by simpa [State.views_tick] using hroom
      filled := by simpa [State.views_tick] using h.filled
      written := by
        intro c
        by_cases hc : c = n.copiedIn % N
        · subst hc
          exact .inr ⟨by simp, n.copiedIn, by simp, rfl, by simp [h.producer_count]⟩
        · obtain hzero | ⟨hwriter, i, hi, hcell⟩ := h.written c
          · exact .inl (by simpa [hc] using hzero)
          · exact .inr ⟨by simpa [hc] using hwriter, i, hi.trans (Nat.lt_succ_self _),
              by simpa [hc] using hcell⟩
      reads := by
        intro c t
        by_cases hc : c = n.copiedIn % N
        · subst hc
          simpa using h.reads (n.copiedIn % N) t
        · simpa [hc] using h.reads c t
      values := by
        intro i (hpop : n.popped ≤ i) hi
        obtain rfl | hlt := Nat.eq_or_lt_of_le (Nat.le_of_lt_succ hi)
        · rw [List.getElem?_append_right h.copied.le]
          simp [h.copied]
        · -- the items that wait are less than a round apart
          have hne : i % N ≠ n.copiedIn % N := by
            intro heq
            have hround := Nat.ModEq.add_le_of_lt heq hlt
            omega
          rw [List.getElem?_append_left (h.copied ▸ hlt), h.values i hpop hlt]
          simp [hne] }

/-- `out = buf_[r]` -/
theorem MemInv.copyOut (h : MemInv q N items n m)
    (hnext : n.copiedOut = n.popped)
    (hfilled : n.copiedOut + 1 ≤ m.views q.consumer (.inl q.write)) :
    ∃ out m', m.read q.consumer (n.copiedOut % N) = some (out, m') ∧
      items[n.copiedOut]? = some out ∧ m'.views = (m.tick q.consumer).views ∧
      m'.messages = m.messages ∧
      MemInv q N items { n with copiedOut := n.copiedOut + 1 } m' := by
  have hprod : q.producer ≠ q.consumer := q.threads_ne
  have hwaits : n.copiedOut < n.copiedIn :=
    hfilled.trans ((h.thread_known q.consumer).write_le.trans h.pushed_le)
  refine ⟨_, _, if_pos (h.read_known hfilled), h.values _ hnext.ge hwaits, rfl, rfl, ?_⟩
  exact
    { h with
      popped_le := h.popped_le.trans (Nat.le_succ _)
      message_known := fun l k msg hmsg =>
        (h.message_known l k msg hmsg).mono le_rfl le_rfl (Nat.le_succ _) le_rfl
      thread_known := by
        intro t
        simp only [State.tick, State.views_setView]
        split_ifs
        · exact (h.thread_known q.consumer).copyOut
        · exact (h.thread_known t).mono le_rfl le_rfl (Nat.le_succ _) le_rfl
      producer_seen := by simp [State.views_tick, h.producer_seen]
      producer_count := by simp [State.views_tick, hprod, h.producer_count]
      consumer_seen := by simp [State.views_tick, h.consumer_seen]
      consumer_count := by simp [State.views_tick, h.consumer_count]
      room := by simpa [State.views_tick] using h.room
      filled := by simpa [State.views_tick] using hfilled
      written := by
        intro c
        by_cases hc : c = n.copiedOut % N
        · subst hc
          simpa using h.written (n.copiedOut % N)
        · simpa [hc] using h.written c
      reads := by
        intro c t
        by_cases hc : c = n.copiedOut % N ∧ t = q.consumer
        · obtain ⟨rfl, rfl⟩ := hc
          exact .inr ⟨rfl, n.copiedOut, by simp, rfl, by simp [h.consumer_count]⟩
        · have hsame : ((Function.update m.cells (n.copiedOut % N)
              { m.cells (n.copiedOut % N) with
                reads := Function.update (m.cells (n.copiedOut % N)).reads q.consumer
                  (m.views q.consumer (.inr q.consumer) + 1) }) c).reads t =
              (m.cells c).reads t := by
            by_cases hcell : c = n.copiedOut % N
            · subst hcell
              have ht : t ≠ q.consumer := fun ht => hc ⟨rfl, ht⟩
              simp [ht]
            · simp [hcell]
          obtain hzero | ⟨ht, j, hj, hcell, hreads⟩ := h.reads c t
          · exact .inl (hsame.trans hzero)
          · exact .inr ⟨ht, j, hj.trans (Nat.lt_succ_self _), hcell, hsame.trans hreads⟩
      values := by
        intro i hpop hi
        rw [h.values i hpop hi]
        by_cases hc : i % N = n.copiedOut % N
        · simp [hc]
        · simp [hc] }

/-- A store to a location that is not one of the two indices. -/
theorem MemInv.store_other (h : MemInv q N items n m) (t : ι) {l : L} (value : ℕ)
    (hwrite : q.write ≠ l) (hread : q.read ≠ l) : MemInv q N items n (m.store t l value) := by
  have hviews : ∀ t' x, x ≠ .inl l → (m.store t l value).views t' x = m.views t' x := by
    intro t' x hx
    rw [State.views_store]
    split_ifs with ht
    · subst ht
      simp [hx]
    · rfl
  have hold := h.thread_known t
  have hnew : Known q n (Function.update (m.views t) (.inl l) (m.messages l).length) :=
    { write_le := by simpa [hwrite] using hold.write_le
      write_copies := by simpa [hwrite] using hold.write_copies
      producer_le := by simpa using hold.producer_le
      read_le := by simpa [hread] using hold.read_le
      read_copies := by simpa [hread] using hold.read_copies
      consumer_le := by simpa using hold.consumer_le }
  obtain ⟨hmessages, hthreads⟩ := h.known_store value hnew fun v hv => hv
  exact
    { h with
      pushes := by simp [State.messages_store, hwrite, h.pushes]
      pops := by simp [State.messages_store, hread, h.pops]
      stamped := h.stamped.store _ _ _
      write_value := by simpa [State.messages_store, hwrite] using h.write_value
      read_value := by simpa [State.messages_store, hread] using h.read_value
      message_known := hmessages
      thread_known := hthreads
      producer_seen := by simp [hviews, hwrite, h.producer_seen]
      producer_count := by simp [hviews, h.producer_count]
      consumer_seen := by simp [hviews, hread, h.consumer_seen]
      consumer_count := by simp [hviews, h.consumer_count]
      room := by simpa [hviews, hread] using h.room
      filled := by simpa [hviews, hwrite] using h.filled }

/-- A relaxed load of a location that is not one of the two indices. -/
theorem MemInv.load_other (h : MemInv q N items n m) {t : ι} {l : L} {k v : ℕ} {m' : Mem ι L α}
    (hload : m.load false t l k = some (v, m')) (hwrite : q.write ≠ l) (hread : q.read ≠ l) :
    MemInv q N items n m' ∧ (∀ t' x, x ≠ .inl l → m'.views t' x = m.views t' x) ∧
      m'.messages = m.messages := by
  simp only [State.load, Bool.false_eq_true, if_false] at hload
  split at hload
  · cases hload
  · next msg hmsg =>
    split_ifs at hload with hk
    cases hload
    have hviews : ∀ t' x, x ≠ .inl l →
        (m.setView t (Function.update (m.views t) (.inl l) k)).views t' x = m.views t' x := by
      intro t' x hx
      rw [State.views_setView]
      split_ifs with ht
      · subst ht
        simp [hx]
      · rfl
    refine ⟨?_, hviews, rfl⟩
    exact
      { h with
        thread_known := by
          intro t'
          have hold := h.thread_known t'
          constructor <;> simp only [hviews, ne_eq, Sum.inl.injEq, reduceCtorEq, not_false_eq_true,
            hwrite, hread]
          · exact hold.write_le
          · exact hold.write_copies
          · exact hold.producer_le
          · exact hold.read_le
          · exact hold.read_copies
          · exact hold.consumer_le
        producer_seen := by simp [hviews, hwrite, h.producer_seen]
        producer_count := by simp [hviews, h.producer_count]
        consumer_seen := by simp [hviews, hread, h.consumer_seen]
        consumer_count := by simp [hviews, h.consumer_count]
        room := by simpa [hviews, hread] using h.room
        filled := by simpa [hviews, hwrite] using h.filled }

/-- An acquire load of any location by any thread. -/
theorem MemInv.acquire (h : MemInv q N items n m) {t : ι} {l : L} {k v : ℕ} {m' : Mem ι L α}
    (hload : m.load true t l k = some (v, m')) :
    MemInv q N items n m' ∧ (∃ msg, (m.messages l)[k]? = some msg ∧ msg.value = v) ∧
      m.views t (.inl l) ≤ k ∧ m'.views t (.inl l) = k ∧ ∀ keep, m.Extends m' keep := by
  obtain ⟨hle, msg, hmsg, hvalue, rfl⟩ := State.load_acquire h.stamped hload
  refine ⟨h.learn t (h.message_known l k msg hmsg), ⟨msg, hmsg, hvalue⟩, hle, ?_, ?_⟩
  · simp [State.learn, State.views_setView, h.stamped l k msg hmsg, hle]
  · exact State.extends_learn hmsg

end Proofs
end CapyJs.Queue.Relaxed
