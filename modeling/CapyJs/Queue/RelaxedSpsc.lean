import CapyJs.Queue.BoundedFifo
import CapyJs.Queue.RelaxedRing

/-!
# The ring with the memory orders its accesses name

The relaxed loads, acquire loads and release stores of `push`, `pop` and `empty`, with every
message that an acquire load may return.
-/
namespace CapyJs.Queue.Relaxed
open BoundedFifo Memory Transition

variable {ι L α : Type*}

/-- `(w + 1) & (N - 1)` -/
def next (N w : ℕ) : ℕ := (w + 1) &&& (N - 1)

/-- Where `push` is, with the values it has loaded so far. -/
inductive Producer (α : Type*)
  | idle
  | loadedWrite (item : α) (w : ℕ)
  | copying (item : α) (w next : ℕ)
  | storing (item : α) (next : ℕ)

/-- Where `pop` is. -/
inductive Consumer (α : Type*)
  | idle
  | loadedRead (r : ℕ)
  | copying (r : ℕ)
  | storing (r : ℕ) (out : α)

/-- `empty` may run on any thread; there it has loaded `read_` or has not been called. -/
structure Ring (ι L α : Type*) where
  mem : Mem ι L α
  producer : Producer α
  consumer : Consumer α
  observers : ι → Option ℕ

/-- An access, with the message that an atomic load among them returns. -/
inductive Access (ι α : Type*)
  | push (item : α) (message : ℕ)
  | producer (message : ℕ)
  | pop (message : ℕ)
  | consumer (message : ℕ)
  | empty (thread : ι) (message : ℕ)
  | observer (thread : ι) (message : ℕ)
  deriving Repr

section Model
variable [DecidableEq ι] [DecidableEq L] [Fintype ι] (q : Layout ι L) (N : ℕ)

/-- A copy outside `buf_` or in a race with another copy is not a step. -/
def producerStep (s : Ring ι L α) (message : ℕ) : Option (Ring ι L α × List (Outcome α)) :=
  match s.producer with
  | .idle => none
  | .loadedWrite item w =>
    match s.mem.load true q.producer q.read message with
    | none => none
    | some (r, mem) =>
      if next N w = r then some ({ s with mem, producer := .idle }, [.push item false])
      else some ({ s with mem, producer := .copying item w (next N w) }, [])
  | .copying item w nxt =>
    if w < N then
      (s.mem.write q.producer w item).map fun mem =>
        ({ s with mem, producer := .storing item nxt }, [])
    else none
  | .storing item nxt =>
    some ({ s with mem := s.mem.store q.producer q.write nxt, producer := .idle },
      [.push item true])

def consumerStep (s : Ring ι L α) (message : ℕ) : Option (Ring ι L α × List (Outcome α)) :=
  match s.consumer with
  | .idle => none
  | .loadedRead r =>
    match s.mem.load true q.consumer q.write message with
    | none => none
    | some (w, mem) =>
      if r = w then some ({ s with mem, consumer := .idle }, [.pop none])
      else some ({ s with mem, consumer := .copying r }, [])
  | .copying r =>
    if r < N then
      (s.mem.read q.consumer r).map fun p =>
        ({ s with mem := p.2, consumer := .storing r p.1 }, [])
    else none
  | .storing r out =>
    some ({ s with mem := s.mem.store q.consumer q.read (next N r), consumer := .idle },
      [.pop (some out)])

def step (s : Ring ι L α) : Access ι α → Option (Ring ι L α × List (Outcome α))
  | .push item message =>
    match s.producer with
    | .idle => (s.mem.load false q.producer q.write message).map fun p =>
        ({ s with mem := p.2, producer := .loadedWrite item p.1 }, [])
    | _ => none
  | .producer message => producerStep q N s message
  | .pop message =>
    match s.consumer with
    | .idle => (s.mem.load false q.consumer q.read message).map fun p =>
        ({ s with mem := p.2, consumer := .loadedRead p.1 }, [])
    | _ => none
  | .consumer message => consumerStep q N s message
  | .empty t message =>
    match s.observers t with
    | none => (s.mem.load true t q.read message).map fun p =>
        ({ s with mem := p.2, observers := Function.update s.observers t (some p.1) }, [])
    | some _ => none
  | .observer t message =>
    match s.observers t with
    | none => none
    | some r => (s.mem.load true t q.write message).map fun p =>
        ({ s with mem := p.2, observers := Function.update s.observers t none },
          [.empty (r = p.1)])

end Model

def machine [DecidableEq ι] [DecidableEq L] [Fintype ι] (q : Layout ι L) (α : Type*) (N : ℕ) :
    Machine (Ring ι L α) (Access ι α) (Outcome α) where
  init s := Fresh q s.mem ∧ s.producer = .idle ∧ s.consumer = .idle ∧ ∀ t, s.observers t = none
  step := step q N

section Proofs
variable {q : Layout ι L} {N : ℕ} {items : List α} {n n' : Counts}

/-- Who makes an access. -/
def Access.thread (q : Layout ι L) : Access ι α → ι
  | .push _ _ | .producer _ => q.producer
  | .pop _ | .consumer _ => q.consumer
  | .empty t _ | .observer t _ => t

/-! ## Where the two sides are -/

/-- `seen` is the number of the last `read_` the producer has seen. -/
def Producer.Ok (N : ℕ) (items : List α) (n : Counts) (seen : ℕ) : Producer α → Prop
  | .idle => n.copiedIn = n.pushed
  | .loadedWrite _ w => n.copiedIn = n.pushed ∧ w = n.pushed % N
  | .copying _ w nxt => n.copiedIn = n.pushed ∧ w = n.pushed % N ∧ nxt = (n.pushed + 1) % N ∧
      n.copiedIn + 1 ≤ seen + (N - 1)
  | .storing item nxt => n.copiedIn = n.pushed + 1 ∧ nxt = (n.pushed + 1) % N ∧
      items[n.pushed]? = some item

/-- `seen` is the number of the last `write_` the consumer has seen. -/
def Consumer.Ok (N : ℕ) (items : List α) (n : Counts) (seen : ℕ) : Consumer α → Prop
  | .idle => n.copiedOut = n.popped
  | .loadedRead r => n.copiedOut = n.popped ∧ r = n.popped % N
  | .copying r => n.copiedOut = n.popped ∧ r = n.popped % N ∧ n.copiedOut + 1 ≤ seen
  | .storing r out => n.copiedOut = n.popped + 1 ∧ r = n.popped % N ∧ items[n.popped]? = some out

theorem Producer.Ok.mono {p : Producer α} {seen seen' : ℕ} (h : p.Ok N items n seen)
    (hle : seen ≤ seen') (hin : n'.copiedIn = n.copiedIn) (hpush : n'.pushed = n.pushed) :
    p.Ok N items n' seen' := by
  cases p with
  | idle => simpa [Producer.Ok, hin, hpush] using h
  | loadedWrite item w => simpa [Producer.Ok, hin, hpush] using h
  | copying item w nxt =>
    obtain ⟨hidle, hw, hnxt, hroom⟩ := h
    simp only [Producer.Ok, hin, hpush]
    exact ⟨hidle, hw, hnxt, by omega⟩
  | storing item nxt => simpa [Producer.Ok, hin, hpush] using h

theorem Consumer.Ok.mono {c : Consumer α} {seen seen' : ℕ} (h : c.Ok N items n seen)
    (hle : seen ≤ seen') (hout : n'.copiedOut = n.copiedOut) (hpop : n'.popped = n.popped) :
    c.Ok N items n' seen' := by
  cases c with
  | idle => simpa [Consumer.Ok, hout, hpop] using h
  | loadedRead r => simpa [Consumer.Ok, hout, hpop] using h
  | copying r =>
    obtain ⟨hidle, hr, hfilled⟩ := h
    simp only [Consumer.Ok, hout, hpop]
    exact ⟨hidle, hr, hfilled.trans hle⟩
  | storing r out => simpa [Consumer.Ok, hout, hpop] using h

theorem Consumer.Ok.append {c : Consumer α} {seen : ℕ} (h : c.Ok N items n seen) (more : List α) :
    c.Ok N (items ++ more) n seen := by
  cases c with
  | idle => exact h
  | loadedRead r => exact h
  | copying r => exact h
  | storing r out =>
    obtain ⟨hnext, hr, hitem⟩ := h
    refine ⟨hnext, hr, ?_⟩
    rw [List.getElem?_append_left (List.getElem?_eq_some_iff.mp hitem).1, hitem]

structure Inv (q : Layout ι L) (N : ℕ) (items : List α) (n : Counts) (s : Ring ι L α) : Prop where
  mem : MemInv q N items n s.mem
  producer : s.producer.Ok N items n (s.mem.views q.producer (.inl q.read))
  consumer : s.consumer.Ok N items n (s.mem.views q.consumer (.inl q.write))

theorem Inv.length_pushed {s : Ring ι L α} (hs : Inv q N items n s) :
    (items.take n.pushed).length = n.pushed := by
  rw [List.length_take, hs.mem.copied]
  exact Nat.min_eq_left hs.mem.pushed_le

theorem Inv.length_popped {s : Ring ι L α} (hs : Inv q N items n s) :
    (items.take n.popped).length = n.popped := by
  rw [List.length_take, hs.mem.copied]
  exact Nat.min_eq_left (hs.mem.popped_le.trans (hs.mem.copiedOut_le.trans hs.mem.pushed_le))

/-- What a step does to the items, and what it leaves alone. -/
structure StepSpec (q : Layout ι L) (N : ℕ) (items : List α) (n : Counts) (s s' : Ring ι L α)
    (out : List (Outcome α)) (items' : List α) (n' : Counts) : Prop where
  inv : Inv q N items' n' s'
  pushed : items'.take n'.pushed = items.take n.pushed ++ pushed out
  popped : items'.take n'.popped = items.take n.popped ++ popped out
  known : ∀ v, Known q n v → Known q n' v
  rest : s.mem.Extends s'.mem fun l => l ≠ q.write ∧ l ≠ q.read
  push_full : ∀ item, .push item false ∈ out →
    n.pushed = s'.mem.views q.producer (.inl q.read) + (N - 1)
  pop_none : .pop none ∈ out → n.popped = s'.mem.views q.consumer (.inl q.write)

section Counting
variable {s s' : Ring ι L α} {out : List (Outcome α)} {items' : List α}

theorem StepSpec.count_pushed (h : StepSpec q N items n s s' out items' n')
    (hs : Inv q N items n s) : n'.pushed = n.pushed + (BoundedFifo.pushed out).length := by
  have hlength := congrArg List.length h.pushed
  rwa [List.length_append, hs.length_pushed, h.inv.length_pushed] at hlength

theorem StepSpec.count_popped (h : StepSpec q N items n s s' out items' n')
    (hs : Inv q N items n s) : n'.popped = n.popped + (BoundedFifo.popped out).length := by
  have hlength := congrArg List.length h.popped
  rwa [List.length_append, hs.length_popped, h.inv.length_popped] at hlength

end Counting

/-- A step that only learns something. -/
theorem StepSpec.quiet {s s' : Ring ι L α} {out : List (Outcome α)} (hinv : Inv q N items n s')
    (hrest : ∀ keep, s.mem.Extends s'.mem keep)
    (hpushed : BoundedFifo.pushed out = []) (hpopped : BoundedFifo.popped out = [])
    (hfull : ∀ item, .push item false ∈ out →
      n.pushed = s'.mem.views q.producer (.inl q.read) + (N - 1))
    (hnone : .pop none ∈ out → n.popped = s'.mem.views q.consumer (.inl q.write)) :
    StepSpec q N items n s s' out items n where
  inv := hinv
  pushed := by rw [hpushed, List.append_nil]
  popped := by rw [hpopped, List.append_nil]
  known := fun _ hv => hv
  rest := hrest _
  push_full := hfull
  pop_none := hnone

theorem next_mod (k x : ℕ) : next (2 ^ k) (x % 2 ^ k) = (x + 1) % 2 ^ k := by
  rw [next, Nat.and_two_pow_sub_one_eq_mod, Nat.mod_add_mod]

variable [DecidableEq ι] [DecidableEq L] {k : ℕ} {s s' : Ring ι L α} {out : List (Outcome α)}
  {message : ℕ}

/-- An acquire load leaves both sides where they are. -/
theorem Inv.acquire (hs : Inv q N items n s) {t : ι} {l : L} {v : ℕ} {mem : Mem ι L α}
    (hload : s.mem.load true t l message = some (v, mem)) (observers : ι → Option ℕ) :
    Inv q N items n { s with mem, observers } ∧ ∀ keep, s.mem.Extends mem keep := by
  obtain ⟨hmem, -, -, -, hrest⟩ := hs.mem.acquire hload
  have hviews := (hrest fun _ => True).views
  have hproducer := hs.producer.mono (hviews q.producer (.inl q.read)) rfl rfl
  have hconsumer := hs.consumer.mono (hviews q.consumer (.inl q.write)) rfl rfl
  exact ⟨⟨hmem, hproducer, hconsumer⟩, hrest⟩

theorem consumerStep_spec (hs : Inv q (2 ^ k) items n s)
    (h : consumerStep q (2 ^ k) s message = some (s', out)) :
    ∃ n', StepSpec q (2 ^ k) items n s s' out items n' := by
  have hok := hs.consumer
  unfold consumerStep at h
  split at h
  · cases h
  · next r hc =>
    rw [hc] at hok
    obtain ⟨hidle, rfl⟩ := hok
    split at h
    · cases h
    · next w mem hload =>
      obtain ⟨hinv, hrest⟩ := hs.acquire hload s.observers
      obtain ⟨hmem, ⟨msg, hmsg, rfl⟩, hle, hseen, -⟩ := hs.mem.acquire hload
      have hvalue := hs.mem.write_value _ msg hmsg
      have hfilled := hs.mem.filled
      split_ifs at h with hempty
      · cases h
        -- an index that is less than a round ahead is equal only when nothing waits
        have hsame : message = n.popped := by
          have hpush := (hmem.thread_known q.consumer).write_le
          rw [hseen] at hpush
          have hroom := hs.mem.room
          have hread := (hs.mem.thread_known q.producer).read_le
          have hpushed := hs.mem.pushed_le
          by_contra hne
          have hlt : n.popped < message := by omega
          have hround := Nat.ModEq.add_le_of_lt (hempty.trans hvalue) hlt
          have hpos : 0 < 2 ^ k := Nat.two_pow_pos k
          omega
        exact ⟨n, .quiet ⟨hmem, hinv.producer, hidle⟩ hrest rfl rfl
          (by simp) fun _ => hsame.symm.trans hseen.symm⟩
      · cases h
        have hnext : n.copiedOut + 1 ≤ message := by
          have hne : n.popped ≠ message := by
            intro heq
            rw [hvalue, ← heq] at hempty
            exact hempty rfl
          omega
        exact ⟨n, .quiet ⟨hmem, hinv.producer, ⟨hidle, rfl, by rwa [hseen]⟩⟩ hrest rfl
          rfl (by simp) (by simp)⟩
  · next r hc =>
    rw [hc] at hok
    obtain ⟨hidle, rfl, hfilled⟩ := hok
    split_ifs at h with hlt
    obtain ⟨⟨item, mem⟩, hread, heq⟩ := Option.map_eq_some_iff.mp h
    cases heq
    obtain ⟨item, mem, hcopy, hitem, hviews, hmessages, hmem⟩ := hs.mem.copyOut hidle hfilled
    rw [← hidle, hcopy] at hread
    cases hread
    have hseen : ∀ t l, mem.views t (.inl l) = s.mem.views t (.inl l) := by
      intro t l
      simp [hviews, State.views_tick]
    refine ⟨{ n with copiedOut := n.copiedOut + 1 }, ?_, ?_, ?_,
      fun v hv => hv.mono le_rfl le_rfl (Nat.le_succ _) le_rfl, ?_, by simp, by simp⟩
    · refine ⟨hmem, ?_, ⟨by simp [hidle], rfl, by rwa [← hidle]⟩⟩
      exact hs.producer.mono (hseen _ _).ge rfl rfl
    · simp [BoundedFifo.pushed]
    · simp [BoundedFifo.popped]
    · exact State.extends_tick hviews hmessages _
  · next r item hc =>
    rw [hc] at hok
    obtain ⟨hnext, rfl, hitem⟩ := hok
    cases h
    rw [next_mod]
    have hmem := hs.mem.release hnext
    have hlast : s.mem.views q.consumer (.inl q.read) ≤ (s.mem.messages q.read).length := by
      rw [hs.mem.consumer_seen, hs.mem.pops]
      exact Nat.le_succ _
    have hrest := State.extends_store hlast ((n.popped + 1) % 2 ^ k)
      (fun l => l ≠ q.write ∧ l ≠ q.read) (by simp)
    refine ⟨{ n with popped := n.popped + 1 }, ⟨hmem, ?_, hnext⟩, ?_, ?_,
      fun v hv => hv.mono le_rfl le_rfl le_rfl (Nat.le_succ _), hrest, by simp, by simp⟩
    · exact hs.producer.mono (hrest.views q.producer (.inl q.read)) rfl rfl
    · simp [BoundedFifo.pushed]
    · rw [List.take_add_one, hitem]
      rfl

variable [Fintype ι]

/-- A call returns nothing yet: it only makes its first load. -/
theorem call_silent {a : Access ι α} (h : step q N s a = some (s', out))
    (ha : (∃ item message, a = .push item message) ∨ ∃ message, a = .pop message) : out = [] := by
  obtain ⟨item, message, rfl⟩ | ⟨message, rfl⟩ := ha <;>
  · simp only [step] at h
    split at h
    · obtain ⟨p, -, heq⟩ := Option.map_eq_some_iff.mp h
      cases heq
      rfl
    · cases h

/-- `empty` returns its answer and moves no item. -/
theorem observe_silent {a : Access ι α} (h : step q N s a = some (s', out))
    (ha : (∃ t message, a = .empty t message) ∨ ∃ t message, a = .observer t message) :
    pushed out = [] ∧ popped out = [] := by
  obtain ⟨t, message, rfl⟩ | ⟨t, message, rfl⟩ := ha <;>
  · simp only [step] at h
    split at h
    · first
      | cases h
      | obtain ⟨p, -, heq⟩ := Option.map_eq_some_iff.mp h
        cases heq
        exact ⟨rfl, rfl⟩
    · first
      | cases h
      | obtain ⟨p, -, heq⟩ := Option.map_eq_some_iff.mp h
        cases heq
        exact ⟨rfl, rfl⟩

theorem push_spec {item : α} (hs : Inv q (2 ^ k) items n s)
    (h : step q (2 ^ k) s (.push item message) = some (s', out)) :
    StepSpec q (2 ^ k) items n s s' out items n := by
  simp only [step] at h
  split at h
  · next hp =>
    obtain ⟨⟨w, mem⟩, hload, heq⟩ := Option.map_eq_some_iff.mp h
    cases heq
    have hlast : s.mem.views q.producer (.inl q.write) + 1 = (s.mem.messages q.write).length := by
      rw [hs.mem.producer_seen, hs.mem.pushes]
    obtain ⟨hkey, rfl, msg, hmsg, rfl⟩ := State.load_own hlast hload
    have hidle := hs.producer
    rw [hp] at hidle
    have hw := hs.mem.write_value _ msg hmsg
    rw [hkey, hs.mem.producer_seen] at hw
    exact .quiet ⟨hs.mem, ⟨hidle, hw⟩, hs.consumer⟩ (.refl s.mem) rfl rfl (by simp) (by simp)
  · cases h

theorem pop_spec (hs : Inv q (2 ^ k) items n s)
    (h : step q (2 ^ k) s (.pop message) = some (s', out)) :
    StepSpec q (2 ^ k) items n s s' out items n := by
  simp only [step] at h
  split at h
  · next hc =>
    obtain ⟨⟨r, mem⟩, hload, heq⟩ := Option.map_eq_some_iff.mp h
    cases heq
    have hlast : s.mem.views q.consumer (.inl q.read) + 1 = (s.mem.messages q.read).length := by
      rw [hs.mem.consumer_seen, hs.mem.pops]
    obtain ⟨hkey, rfl, msg, hmsg, rfl⟩ := State.load_own hlast hload
    have hidle := hs.consumer
    rw [hc] at hidle
    have hr := hs.mem.read_value _ msg hmsg
    rw [hkey, hs.mem.consumer_seen] at hr
    exact .quiet ⟨hs.mem, hs.producer, ⟨hidle, hr⟩⟩ (.refl s.mem) rfl rfl (by simp) (by simp)
  · cases h

theorem producerStep_spec (hs : Inv q (2 ^ k) items n s)
    (h : producerStep q (2 ^ k) s message = some (s', out)) :
    ∃ items' n', StepSpec q (2 ^ k) items n s s' out items' n' := by
  have hok := hs.producer
  unfold producerStep at h
  split at h
  · cases h
  · next item w hp =>
    rw [hp] at hok
    obtain ⟨hidle, rfl⟩ := hok
    split at h
    · cases h
    · next r mem hload =>
      obtain ⟨hinv, hrest⟩ := hs.acquire hload s.observers
      obtain ⟨hmem, ⟨msg, hmsg, rfl⟩, hle, hseen, -⟩ := hs.mem.acquire hload
      have hvalue := hs.mem.read_value _ msg hmsg
      rw [next_mod] at h
      split_ifs at h with hfull
      · cases h
        -- an index that looks equal to the next one is a whole round behind it
        have hsame : n.pushed = message + (2 ^ k - 1) := by
          have hbefore := hs.mem.room
          have hpop := (hmem.thread_known q.producer).read_le
          rw [hseen] at hpop
          have hlt : message < n.pushed + 1 := by
            have hpopped := hs.mem.popped_le
            have hout := hs.mem.copiedOut_le
            omega
          have hround := Nat.ModEq.add_le_of_lt (hvalue.symm.trans hfull.symm) hlt
          omega
        refine ⟨items, n, .quiet ⟨hmem, hidle, hinv.consumer⟩ hrest rfl rfl ?_
          (by simp)⟩
        exact fun _ _ => hsame.trans (congrArg (· + (2 ^ k - 1)) hseen.symm)
      · cases h
        -- an index that is not one round behind leaves a free cell
        have hroom : n.copiedIn + 1 ≤ message + (2 ^ k - 1) := by
          have hbefore := hs.mem.room
          have hpos : 0 < 2 ^ k := Nat.two_pow_pos k
          have hne : n.pushed + 1 ≠ message + 2 ^ k := by
            intro heq
            rw [hvalue, heq, Nat.add_mod_right] at hfull
            exact hfull rfl
          omega
        exact ⟨items, n, .quiet ⟨hmem, ⟨hidle, rfl, rfl, by rwa [hseen]⟩, hinv.consumer⟩ hrest
          rfl rfl (by simp) (by simp)⟩
  · next item w nxt hp =>
    rw [hp] at hok
    obtain ⟨hidle, rfl, rfl, hroom⟩ := hok
    split_ifs at h with hlt
    obtain ⟨mem, hwrite, heq⟩ := Option.map_eq_some_iff.mp h
    cases heq
    obtain ⟨mem, hcopy, hviews, hmessages, hmem⟩ := hs.mem.copyIn item hroom
    rw [← hidle, hcopy] at hwrite
    cases hwrite
    have hlength : items.length = n.pushed := hs.mem.copied.trans hidle
    have hpopped := hs.mem.popped_le.trans hs.mem.copiedOut_le
    have hseen : ∀ t l, mem.views t (.inl l) = s.mem.views t (.inl l) := by
      intro t l
      simp [hviews, State.views_tick]
    refine ⟨items ++ [item], { n with copiedIn := n.copiedIn + 1 }, ?_, ?_, ?_,
      fun v hv => hv.mono (Nat.le_succ _) le_rfl le_rfl le_rfl, ?_, by simp, by simp⟩
    · refine ⟨hmem, ⟨by simp [hidle], rfl, by simp [← hlength]⟩, ?_⟩
      exact (hs.consumer.mono (hseen _ _).ge rfl rfl).append [item]
    · simp [BoundedFifo.pushed, hlength]
    · simp [BoundedFifo.popped, List.take_append_of_le_length, hlength, hpopped]
    · exact State.extends_tick hviews hmessages _
  · next item nxt hp =>
    rw [hp] at hok
    obtain ⟨hnext, rfl, hitem⟩ := hok
    cases h
    have hmem := hs.mem.publish hnext
    have hlast : s.mem.views q.producer (.inl q.write) ≤ (s.mem.messages q.write).length := by
      rw [hs.mem.producer_seen, hs.mem.pushes]
      exact Nat.le_succ _
    have hrest := State.extends_store hlast ((n.pushed + 1) % 2 ^ k)
      (fun l => l ≠ q.write ∧ l ≠ q.read) (by simp)
    refine ⟨items, { n with pushed := n.pushed + 1 }, ⟨hmem, hnext, ?_⟩, ?_, ?_,
      fun v hv => hv.mono le_rfl (Nat.le_succ _) le_rfl le_rfl, hrest, by simp, by simp⟩
    · exact hs.consumer.mono (hrest.views q.consumer (.inl q.write)) rfl rfl
    · rw [List.take_add_one, hitem]
      rfl
    · simp [BoundedFifo.popped]

theorem step_spec {a : Access ι α} (hs : Inv q (2 ^ k) items n s)
    (h : step q (2 ^ k) s a = some (s', out)) :
    ∃ items' n', StepSpec q (2 ^ k) items n s s' out items' n' := by
  cases a with
  | push item message => exact ⟨items, n, push_spec hs h⟩
  | producer message => exact producerStep_spec hs h
  | pop message => exact ⟨items, n, pop_spec hs h⟩
  | consumer message => exact ⟨items, consumerStep_spec hs h⟩
  | empty t message =>
    simp only [step] at h
    split at h
    · obtain ⟨⟨r, mem⟩, hload, heq⟩ := Option.map_eq_some_iff.mp h
      cases heq
      obtain ⟨hinv, hrest⟩ := hs.acquire hload (Function.update s.observers t (some r))
      exact ⟨items, n, .quiet hinv hrest rfl rfl (by simp) (by simp)⟩
    · cases h
  | observer t message =>
    simp only [step] at h
    split at h
    · cases h
    · obtain ⟨⟨w, mem⟩, hload, heq⟩ := Option.map_eq_some_iff.mp h
      cases heq
      obtain ⟨hinv, hrest⟩ := hs.acquire hload (Function.update s.observers t none)
      exact ⟨items, n, .quiet hinv hrest rfl rfl (by simp) (by simp)⟩

/-- An access changes what its own thread knows. -/
theorem views_step_of_ne {a : Access ι α} (h : step q N s a = some (s', out)) {t : ι}
    (ht : t ≠ a.thread q) : s'.mem.views t = s.mem.views t := by
  cases a with
  | push item message =>
    simp only [step] at h
    split at h
    · obtain ⟨⟨w, mem⟩, hload, heq⟩ := Option.map_eq_some_iff.mp h
      cases heq
      exact State.views_load_of_ne hload ht
    · cases h
  | producer message =>
    simp only [step, producerStep] at h
    split at h
    · cases h
    · split at h
      · cases h
      · next r mem hload =>
        split_ifs at h <;> cases h <;> exact State.views_load_of_ne hload ht
    · split_ifs at h
      obtain ⟨mem, hwrite, heq⟩ := Option.map_eq_some_iff.mp h
      cases heq
      exact State.views_write_of_ne hwrite ht
    · cases h
      exact (State.views_store ..).trans (if_neg ht)
  | pop message =>
    simp only [step] at h
    split at h
    · obtain ⟨⟨r, mem⟩, hload, heq⟩ := Option.map_eq_some_iff.mp h
      cases heq
      exact State.views_load_of_ne hload ht
    · cases h
  | consumer message =>
    simp only [step, consumerStep] at h
    split at h
    · cases h
    · split at h
      · cases h
      · next w mem hload =>
        split_ifs at h <;> cases h <;> exact State.views_load_of_ne hload ht
    · split_ifs at h
      obtain ⟨⟨out, mem⟩, hread, heq⟩ := Option.map_eq_some_iff.mp h
      cases heq
      exact State.views_read_of_ne hread ht
    · cases h
      exact (State.views_store ..).trans (if_neg ht)
  | empty t' message =>
    simp only [step] at h
    split at h
    · obtain ⟨⟨r, mem⟩, hload, heq⟩ := Option.map_eq_some_iff.mp h
      cases heq
      exact State.views_load_of_ne hload ht
    · cases h
  | observer t' message =>
    simp only [step] at h
    split at h
    · cases h
    · obtain ⟨⟨w, mem⟩, hload, heq⟩ := Option.map_eq_some_iff.mp h
      cases heq
      exact State.views_load_of_ne hload ht

theorem reaches_inv {hist : List (Outcome α)} (run : (machine q α (2 ^ k)).Reaches s hist) :
    ∃ items n, Inv q (2 ^ k) items n s ∧ pushed hist = items.take n.pushed ∧
      popped hist = items.take n.popped := by
  refine run.invariant (I := fun hist s => ∃ items n, Inv q (2 ^ k) items n s ∧
    pushed hist = items.take n.pushed ∧ popped hist = items.take n.popped) ?_ ?_
  · rintro s ⟨hfresh, hp, hc, -⟩
    exact ⟨[], ⟨0, 0, 0, 0⟩, ⟨hfresh.memInv, by rw [hp]; rfl, by rw [hc]; rfl⟩, rfl, rfl⟩
  · rintro hist s a s' out ⟨items, n, hs, hpushed, hpopped⟩ hstep
    obtain ⟨items', n', hspec⟩ := step_spec hs hstep
    refine ⟨items', n', hspec.inv, ?_, ?_⟩
    · rw [pushed_append, hpushed, hspec.pushed]
    · rw [popped_append, hpopped, hspec.popped]

/-- The next copy of either side stays inside `buf_` and is not in a race. -/
structure RaceFree (q : Layout ι L) (N : ℕ) (s : Ring ι L α) : Prop where
  copyIn : ∀ item w nxt, s.producer = .copying item w nxt →
    w < N ∧ (s.mem.write q.producer w item).isSome
  copyOut : ∀ r, s.consumer = .copying r → r < N ∧ (s.mem.read q.consumer r).isSome

theorem Inv.raceFree (hs : Inv q (2 ^ k) items n s) : RaceFree q (2 ^ k) s where
  copyIn := by
    intro item w nxt hp
    have hok := hs.producer
    rw [hp] at hok
    obtain ⟨hidle, rfl, -, hroom⟩ := hok
    obtain ⟨mem, hwrite, -⟩ := hs.mem.copyIn item hroom
    rw [← hidle, hwrite]
    exact ⟨Nat.mod_lt _ (Nat.two_pow_pos k), rfl⟩
  copyOut := by
    intro r hc
    have hok := hs.consumer
    rw [hc] at hok
    obtain ⟨hidle, rfl, hfilled⟩ := hok
    obtain ⟨out, mem, hread, -⟩ := hs.mem.copyOut hidle hfilled
    rw [← hidle, hread]
    exact ⟨Nat.mod_lt _ (Nat.two_pow_pos k), rfl⟩

/-- With release stores and acquire loads that may be late, the ring has no race, hands the
items over in order, and never holds more than `N - 1`. A `push` fails only if the pops it has
seen leave the ring full, and a `pop` only if it has popped every push it has seen. -/
theorem ring_correct (q : Layout ι L) (k : ℕ) {s : Ring ι L α} {hist : List (Outcome α)}
    (run : (machine q α (2 ^ k)).Reaches s hist) :
    RaceFree q (2 ^ k) s ∧ popped hist <+: pushed hist ∧
      (pushed hist).length ≤ (popped hist).length + (2 ^ k - 1) ∧
      (∀ a s' item, step q (2 ^ k) s a = some (s', [.push item false]) →
        (pushed hist).length = s'.mem.views q.producer (.inl q.read) + (2 ^ k - 1)) ∧
      ∀ a s', step q (2 ^ k) s a = some (s', [.pop none]) →
        (popped hist).length = s'.mem.views q.consumer (.inl q.write) := by
  obtain ⟨items, n, hs, hpushed, hpopped⟩ := reaches_inv run
  have hmem := hs.mem
  have horder : n.popped ≤ n.pushed := hmem.popped_le.trans hmem.copiedOut_le
  have hpush : (pushed hist).length = n.pushed := by rw [hpushed, hs.length_pushed]
  have hpop : (popped hist).length = n.popped := by rw [hpopped, hs.length_popped]
  refine ⟨hs.raceFree, ?_, ?_, ?_, ?_⟩
  · rw [hpushed, hpopped]
    exact List.take_prefix_take_left horder
  · have hroom := hmem.room
    have hread := (hmem.thread_known q.producer).read_le
    have hle := hmem.pushed_le
    omega
  · intro a s' item hstep
    obtain ⟨items', n', hspec⟩ := step_spec hs hstep
    exact hpush.trans (hspec.push_full item List.mem_cons_self)
  · intro a s' hstep
    obtain ⟨items', n', hspec⟩ := step_spec hs hstep
    exact hpop.trans (hspec.pop_none List.mem_cons_self)

/-- Two cells, with the consumer on one thread and the producer on the other. -/
def twoThreads : Layout Bool Bool := ⟨false, true, false, true, by decide, by decide⟩

def emptyRing : Ring Bool Bool ℕ where
  mem := ⟨fun _ => [⟨0, fun _ => 0⟩], fun _ => ⟨0, false, 0, fun _ => 0⟩, fun _ _ => 0⟩
  producer := .idle
  consumer := .idle
  observers := fun _ => none

/-- The second push loads the old `read_` after the pop and finds the ring full. -/
theorem ring_correct_late_load : ∃ s hist,
    (machine twoThreads ℕ (2 ^ 1)).Reaches s hist ∧
      hist = [.push 7 true, .pop (some 7), .push 8 false] ∧ RaceFree twoThreads (2 ^ 1) s := by
  have run := Machine.reaches_exec (M := machine twoThreads ℕ (2 ^ 1)) (s := emptyRing)
    [.push 7 0, .producer 0, .producer 0, .producer 0, .pop 0, .consumer 1, .consumer 0,
      .consumer 0, .push 8 1, .producer 0]
    ⟨⟨fun _ => ⟨0, rfl⟩, rfl, rfl, fun _ => rfl, fun _ _ => rfl, fun _ _ => rfl⟩, rfl, rfl,
      fun _ => rfl⟩ rfl
  exact ⟨_, _, run, rfl, (ring_correct twoThreads 1 run).1⟩

end Proofs

/-- Two threads, with a location for a flag beside the two indices. -/
def twoThreadsWithFlag : Layout Bool (Option Bool) :=
  ⟨false, true, some false, some true, by decide, by decide⟩

end CapyJs.Queue.Relaxed
