import CapyJs.Queue.RelaxedSpsc

/-!
# Results and the doorbell over late loads

A worker pushes a result and calls `uv_async_send`; the event loop wakes, clears the pending
flag and pops until nothing is left. `uv_async_send` first makes a relaxed load of the flag and
returns when it finds it set. That load may be late, so such a call promises nothing for the
result pushed before it; a call that goes through the exchange does.
-/
namespace CapyJs.Worker.ResultBell
open Queue Queue.BoundedFifo Queue.Relaxed Memory Transition

variable {ι L α : Type*}

/-- The result ring, whose producer is the worker and whose consumer is the event loop, and the
flag `pending` of the doorbell. -/
structure Layout (ι L : Type*) extends Relaxed.Layout ι L where
  pending : L
  write_ne : write ≠ pending
  read_ne : read ≠ pending

/-- The worker between two results: `push` until it succeeds, then `uv_async_send`. -/
inductive Sender (α : Type*)
  | idle
  | pushing
  | retry (item : α)
  | checking
  | exchanging
  | writing

/-- The event loop: `uv__async_io` and inside it `on_result_ready`. -/
inductive Looper
  | polling
  | clearing
  | draining
  | popping
  deriving DecidableEq, Repr

/-- `fd` counts what was written to the descriptor that wakes the loop. -/
structure State (ι L α : Type*) where
  ring : Ring ι L α
  fd : ℕ
  sender : Sender α
  looper : Looper

/-- `otherHandle` is the `uv_async_send` of another handle of the loop, which shares the
descriptor. -/
inductive Action (α : Type*)
  | result (item : α) (message : ℕ)
  | sender (message : ℕ)
  | wake
  | looper (message : ℕ)
  | otherHandle
  deriving Repr

inductive Event (α : Type*)
  | pushed (item : α)
  | skipped
  | rang
  | delivered (item : α)
  deriving DecidableEq, Repr

section Model
variable [DecidableEq ι] [DecidableEq L]

def State.setMem (s : State ι L α) (mem : Mem ι L α) : State ι L α :=
  { s with ring := { s.ring with mem } }

variable [Fintype ι] (q : Layout ι L) (N : ℕ)

def senderStep (s : State ι L α) (message : ℕ) : Option (State ι L α × List (Event α)) :=
  match s.sender with
  | .idle => none
  | .pushing =>
    match Relaxed.step q.toLayout N s.ring (.producer message) with
    | some (ring, []) => some ({ s with ring }, [])
    | some (ring, [.push item true]) => some ({ s with ring, sender := .checking }, [.pushed item])
    | some (ring, [.push item false]) => some ({ s with ring, sender := .retry item }, [])
    | _ => none
  | .retry item =>
    match Relaxed.step q.toLayout N s.ring (.push item message) with
    | some (ring, _) => some ({ s with ring, sender := .pushing }, [])
    | none => none
  | .checking =>
    match s.ring.mem.load false q.producer q.pending message with
    | none => none
    | some (pending, mem) =>
      if pending ≠ 0 then some ({ s.setMem mem with sender := .idle }, [.skipped])
      else some ({ s.setMem mem with sender := .exchanging }, [])
  | .exchanging =>
    match s.ring.mem.exchange q.producer q.pending 1 with
    | none => none
    | some (pending, mem) =>
      some ({ s.setMem mem with sender := if pending = 0 then .writing else .idle }, [.rang])
  | .writing => some ({ s with fd := s.fd + 1, sender := .idle }, [])

def looperStep (s : State ι L α) (message : ℕ) : Option (State ι L α × List (Event α)) :=
  match s.looper with
  | .polling => none
  | .clearing =>
    match s.ring.mem.exchange q.consumer q.pending 0 with
    | none => none
    | some (pending, mem) =>
      some ({ s.setMem mem with looper := if pending = 0 then .polling else .draining }, [])
  | .draining =>
    match Relaxed.step q.toLayout N s.ring (.pop message) with
    | some (ring, _) => some ({ s with ring, looper := .popping }, [])
    | none => none
  | .popping =>
    match Relaxed.step q.toLayout N s.ring (.consumer message) with
    | some (ring, []) => some ({ s with ring }, [])
    | some (ring, [.pop (some item)]) =>
      some ({ s with ring, looper := .draining }, [.delivered item])
    | some (ring, [.pop none]) => some ({ s with ring, looper := .polling }, [])
    | _ => none

def step (s : State ι L α) : Action α → Option (State ι L α × List (Event α))
  | .result item message =>
    match s.sender, Relaxed.step q.toLayout N s.ring (.push item message) with
    | .idle, some (ring, _) => some ({ s with ring, sender := .pushing }, [])
    | _, _ => none
  | .sender message => senderStep q N s message
  | .wake =>
    match s.looper with
    | .polling => if s.fd = 0 then none else some ({ s with fd := 0, looper := .clearing }, [])
    | _ => none
  | .looper message => looperStep q N s message
  | .otherHandle => some ({ s with fd := s.fd + 1 }, [])

def machine (α : Type*) : Machine (State ι L α) (Action α) (Event α) where
  init s := (Relaxed.machine q.toLayout α N).init s.ring ∧
    s.ring.mem.messages q.pending = [⟨0, fun _ => 0⟩] ∧ s.fd = 0 ∧ s.sender = .idle ∧
    s.looper = .polling
  step := step q N

end Model

/-! ## What is rung for -/

def pushedItems (hist : List (Event α)) : List α :=
  hist.filterMap fun
    | .pushed item => some item
    | _ => none

def deliveredItems (hist : List (Event α)) : List α :=
  hist.filterMap fun
    | .delivered item => some item
    | _ => none

@[simp] theorem pushedItems_append (hist out : List (Event α)) :
    pushedItems (hist ++ out) = pushedItems hist ++ pushedItems out := List.filterMap_append

@[simp] theorem deliveredItems_append (hist out : List (Event α)) :
    deliveredItems (hist ++ out) = deliveredItems hist ++ deliveredItems out :=
  List.filterMap_append

structure Inv (q : Layout ι L) (N : ℕ) (items : List α) (n : Counts) (last : Message ι L ℕ)
    (hist : List (Event α)) (s : State ι L α) : Prop where
  ring : Relaxed.Inv q.toLayout N items n s.ring
  pushed : pushedItems hist = items.take n.pushed
  delivered : deliveredItems hist = items.take n.popped
  last_pending : (s.ring.mem.messages q.pending).getLast? = some last
  bounded : s.ring.mem.Bounded (.inl q.pending) (s.ring.mem.messages q.pending).length
  /-- Who clears the flag learns of every result that was rung for. -/
  rung : ∀ before, before ++ [.rang] <+: hist →
    (pushedItems before).length ≤ last.view (.inl q.write)
  /-- A set flag wakes the loop. -/
  signal : last.value ≠ 0 → 0 < s.fd ∨ s.sender = .writing ∨ s.looper = .clearing
  cleared : last.value = 0 →
    last.view (.inl q.write) ≤ s.ring.mem.views q.consumer (.inl q.write)
  quiet : s.looper = .polling ∨ s.looper = .clearing →
    s.ring.mem.views q.consumer (.inl q.write) ≤ n.popped

theorem rung_append {hist out : List (Event α)} {bound bound' : ℕ}
    (h : ∀ before, before ++ [.rang] <+: hist → (pushedItems before).length ≤ bound)
    (hle : bound ≤ bound')
    (hout : out = [] ∨ ∃ e, out = [e] ∧ (e = .rang → (pushedItems hist).length ≤ bound')) :
    ∀ before, before ++ [.rang] <+: hist ++ out → (pushedItems before).length ≤ bound' := by
  intro before hprefix
  obtain rfl | ⟨e, rfl, he⟩ := hout
  · rw [List.append_nil] at hprefix
    exact (h before hprefix).trans hle
  · obtain heq | hold := List.prefix_concat_iff.mp hprefix
    · obtain ⟨rfl, rfl⟩ := List.append_inj' heq rfl |>.imp id fun h => by simpa using h
      exact he rfl
    · exact (h before hold).trans hle

section Proofs
variable {q : Layout ι L} {items items' : List α} {n n' : Counts} {last : Message ι L ℕ}
  {hist ret : List (Event α)} {out : List (Outcome α)} {s s' : State ι L α} {ring : Ring ι L α}
  {N k message : ℕ}

/-- A step of the ring inside `push` or `pop`. -/
theorem Inv.step_ring (hi : Inv q N items n last hist s)
    (hspec : StepSpec q.toLayout N items n s.ring ring out items' n') {sender : Sender α}
    {looper : Looper} (hret : ret = [] ∨ ∃ e, ret = [e] ∧ e ≠ .rang)
    (hpushed : pushedItems ret = BoundedFifo.pushed out)
    (hpopped : deliveredItems ret = BoundedFifo.popped out)
    (hsender : s.sender = .writing → sender = .writing)
    (hlooper : s.looper = .clearing → looper = .clearing)
    (hquiet : looper = .polling ∨ looper = .clearing →
      ring.mem.views q.consumer (.inl q.write) ≤ n'.popped) :
    Inv q N items' n' last (hist ++ ret) { s with ring, sender, looper } := by
  have hkeep : q.pending ≠ q.write ∧ q.pending ≠ q.read := ⟨q.write_ne.symm, q.read_ne.symm⟩
  have hmessages := hspec.rest.messages q.pending hkeep
  exact
    { ring := hspec.inv
      pushed := by rw [pushedItems_append, hi.pushed, hpushed, hspec.pushed]
      delivered := by rw [deliveredItems_append, hi.delivered, hpopped, hspec.popped]
      last_pending := by rw [hmessages, hi.last_pending]
      bounded := by
        rw [hmessages]
        exact hspec.rest.bounded _ _ hkeep hi.bounded
      rung := by
        refine rung_append hi.rung le_rfl (hret.imp_right ?_)
        rintro ⟨e, rfl, he⟩
        exact ⟨e, rfl, fun hrang => absurd hrang he⟩
      signal := fun hset => (hi.signal hset).imp_right (Or.imp hsender hlooper)
      cleared := fun hzero => (hi.cleared hzero).trans (hspec.rest.views _ _)
      quiet := hquiet }

variable [DecidableEq ι] [DecidableEq L]

/-- An exchange of the flag by thread `t`. -/
theorem Inv.exchange (hi : Inv q N items n last hist s) {t : ι} {value old : ℕ} {mem : Mem ι L α}
    (h : s.ring.mem.exchange t q.pending value = some (old, mem)) :
    old = last.value ∧ Relaxed.Inv q.toLayout N items n { s.ring with mem } ∧
      mem.Bounded (.inl q.pending) (mem.messages q.pending).length ∧
      (∀ t', t' ≠ t → mem.views t' = s.ring.mem.views t') ∧
      mem.views t (.inl q.write) =
        max (s.ring.mem.views t (.inl q.write)) (last.view (.inl q.write)) ∧
      ∃ last', (mem.messages q.pending).getLast? = some last' ∧ last'.value = value ∧
        last'.view (.inl q.write) = mem.views t (.inl q.write) := by
  rw [State.exchange, hi.last_pending, Option.map_some, Option.some.injEq, Prod.mk.injEq] at h
  obtain ⟨rfl, rfl⟩ := h
  have hmem := hi.ring.mem
  obtain ⟨j, hj⟩ := List.getElem?_of_mem (List.mem_of_getLast? hi.last_pending)
  have hlearn := State.extends_learn (t := t) hj fun _ => True
  have hbounded := hlearn.bounded q.pending _ trivial hi.bounded
  have hstore := State.extends_store (hbounded.thread t) value (fun l => l ≠ q.pending) (by simp)
  have hviews : ∀ t', s.ring.mem.views t' ≤
      ((s.ring.mem.learn t last.view).store t q.pending value).views t' :=
    fun t' => (hlearn.views t').trans (hstore.views t')
  have hown : ((s.ring.mem.learn t last.view).store t q.pending value).views t (.inl q.write) =
      max (s.ring.mem.views t (.inl q.write)) (last.view (.inl q.write)) := by
    simp [State.views_store, State.learn, State.views_setView, q.write_ne]
  refine ⟨rfl, ⟨?_, ?_, ?_⟩, ?_, ?_, hown, ?_⟩
  · exact (hmem.learn t (hmem.message_known _ _ _ hj)).store_other t value q.write_ne q.read_ne
  · exact hi.ring.producer.mono (hviews _ _) rfl rfl
  · exact hi.ring.consumer.mono (hviews _ _) rfl rfl
  · have hlength : (((s.ring.mem.learn t last.view).store t q.pending value).messages
        q.pending).length = (s.ring.mem.messages q.pending).length + 1 := by
      simp [State.messages_store, State.learn]
    rw [hlength]
    exact hbounded.store_self t value (Nat.le_succ _) (Nat.le_succ _)
  · intro t' ht
    simp [State.views_store, State.learn, State.views_setView, ht]
  · refine ⟨⟨value, Function.update ((s.ring.mem.learn t last.view).views t) (.inl q.pending)
      ((s.ring.mem.learn t last.view).messages q.pending).length⟩, ?_, rfl, ?_⟩
    · simp [State.messages_store]
    · simp [State.views_store]

/-- The relaxed load of `uv_async_send`. -/
theorem Inv.check (hi : Inv q N items n last hist s) {pending : ℕ} {mem : Mem ι L α}
    (h : s.ring.mem.load false q.producer q.pending message = some (pending, mem))
    (hsender : s.sender = .checking) {sender : Sender α} {ret : List (Event α)}
    (hret : ret = [] ∨ ret = [.skipped]) :
    Inv q N items n last (hist ++ ret) { s.setMem mem with sender } := by
  obtain ⟨hmem, hviews, hmessages⟩ := hi.ring.mem.load_other h q.write_ne q.read_ne
  have hsame : ∀ t l, l ≠ q.pending → mem.views t (.inl l) = s.ring.mem.views t (.inl l) :=
    fun t l hl => hviews t (.inl l) (by simpa using hl)
  have hread := hsame q.producer q.read q.read_ne
  have hwrite := hsame q.consumer q.write q.write_ne
  have hpushed : pushedItems ret = [] := by obtain rfl | rfl := hret <;> rfl
  have hdelivered : deliveredItems ret = [] := by obtain rfl | rfl := hret <;> rfl
  exact
    { ring := ⟨hmem, hi.ring.producer.mono hread.ge rfl rfl,
        hi.ring.consumer.mono hwrite.ge rfl rfl⟩
      pushed := by rw [pushedItems_append, hpushed, List.append_nil, hi.pushed]
      delivered := by rw [deliveredItems_append, hdelivered, List.append_nil, hi.delivered]
      last_pending := by
        change (mem.messages q.pending).getLast? = some last
        rw [hmessages, hi.last_pending]
      bounded := by
        change mem.Bounded (.inl q.pending) (mem.messages q.pending).length
        rw [hmessages]
        exact hi.bounded.load_relaxed le_rfl h
      rung := rung_append hi.rung le_rfl (hret.imp_right fun h => ⟨.skipped, h, by rintro ⟨⟩⟩)
      signal := by
        intro hset
        have hsignal := hi.signal hset
        rw [hsender] at hsignal
        exact hsignal.imp_right fun h => .inr (h.resolve_left (by rintro ⟨⟩))
      cleared := fun hzero => (hi.cleared hzero).trans hwrite.ge
      quiet := fun hquiet => hwrite.le.trans (hi.quiet hquiet) }

variable [Fintype ι]

/-- A step of the worker's `push`. -/
theorem Inv.push_step {a : Access ι α} (hi : Inv q (2 ^ k) items n last hist s)
    (sender : Sender α) (hring : Relaxed.step q.toLayout (2 ^ k) s.ring a = some (ring, out))
    (ha : a.thread q.toLayout = q.producer) (hpopped : BoundedFifo.popped out = [])
    (hret : ret = [] ∨ ∃ e, ret = [e] ∧ e ≠ .rang)
    (hpushed : pushedItems ret = BoundedFifo.pushed out) (hdelivered : deliveredItems ret = [])
    (hsender : s.sender = .writing → sender = .writing) :
    ∃ items' n', Inv q (2 ^ k) items' n' last (hist ++ ret) { s with ring, sender } := by
  obtain ⟨items', n', hspec⟩ := Relaxed.step_spec hi.ring hring
  refine ⟨items', n', hi.step_ring hspec hret hpushed (hdelivered.trans hpopped.symm) hsender id ?_⟩
  intro hquiet
  have hcount := hspec.count_popped hi.ring
  rw [hpopped, List.length_nil, Nat.add_zero] at hcount
  have hother : q.consumer ≠ a.thread q.toLayout := by
    rw [ha]
    exact q.threads_ne.symm
  rw [Relaxed.views_step_of_ne hring hother, hcount]
  exact hi.quiet hquiet

theorem senderStep_inv (hi : Inv q (2 ^ k) items n last hist s)
    (h : senderStep q (2 ^ k) s message = some (s', ret)) :
    ∃ items' n' last', Inv q (2 ^ k) items' n' last' (hist ++ ret) s' := by
  unfold senderStep at h
  split at h
  · cases h
  · next hs =>
    split at h
    · next ring hring =>
      cases h
      obtain ⟨items', n', hinv⟩ := hi.push_step s.sender hring rfl rfl (.inl rfl) rfl rfl id
      exact ⟨items', n', last, hinv⟩
    · next ring item hring =>
      cases h
      obtain ⟨items', n', hinv⟩ := hi.push_step .checking hring rfl rfl
        (.inr ⟨.pushed item, rfl, by rintro ⟨⟩⟩) rfl rfl (by rw [hs]; rintro ⟨⟩)
      exact ⟨items', n', last, hinv⟩
    · next ring item hring =>
      cases h
      obtain ⟨items', n', hinv⟩ := hi.push_step (.retry item) hring rfl rfl (.inl rfl)
        rfl rfl (by rw [hs]; rintro ⟨⟩)
      exact ⟨items', n', last, hinv⟩
    · cases h
  · next item hs =>
    split at h
    · next ring out hring =>
      cases h
      obtain rfl := Relaxed.call_silent hring (.inl ⟨item, message, rfl⟩)
      obtain ⟨items', n', hinv⟩ := hi.push_step .pushing hring rfl rfl (.inl rfl)
        rfl rfl (by rw [hs]; rintro ⟨⟩)
      exact ⟨items', n', last, hinv⟩
    · cases h
  · next hs =>
    split at h
    · cases h
    · next pending mem hload =>
      split_ifs at h
      · cases h
        exact ⟨items, n, last, hi.check hload hs (.inr rfl)⟩
      · cases h
        exact ⟨items, n, last, hi.check hload hs (.inl rfl)⟩
  · next hs =>
    split at h
    · cases h
    · next pending mem hexchange =>
      cases h
      obtain ⟨rfl, hring, hbounded, hothers, hown, last', hlast, hvalue, hview⟩ :=
        hi.exchange hexchange
      refine ⟨items, n, last', ?_⟩
      have hle : last.view (.inl q.write) ≤ last'.view (.inl q.write) := by
        rw [hview, hown]
        exact le_max_right _ _
      exact
        { ring := hring
          pushed := by rw [pushedItems_append, hi.pushed]; exact List.append_nil _
          delivered := by rw [deliveredItems_append, hi.delivered]; exact List.append_nil _
          last_pending := hlast
          bounded := hbounded
          rung := by
            -- the worker knows of all its pushes
            refine rung_append hi.rung hle (.inr ⟨.rang, rfl, fun _ => ?_⟩)
            rw [hi.pushed, hi.ring.length_pushed, hview, hown, hi.ring.mem.producer_seen]
            exact le_max_left _ _
          signal := by
            intro _
            by_cases hzero : last.value = 0
            · simp [hzero]
            · have hsignal := hi.signal hzero
              rw [hs] at hsignal
              exact hsignal.imp_right fun h => .inr (h.resolve_left (by rintro ⟨⟩))
          cleared := fun hzero => absurd (hvalue.symm.trans hzero) one_ne_zero
          quiet := by
            intro hquiet
            have hsame := hothers q.consumer q.threads_ne.symm
            change mem.views q.consumer (.inl q.write) ≤ n.popped
            rw [hsame]
            exact hi.quiet hquiet }
  · next hs =>
    cases h
    rw [List.append_nil]
    exact ⟨items, n, last, { hi with signal := fun _ => .inl (Nat.succ_pos _) }⟩

theorem looperStep_inv (hi : Inv q (2 ^ k) items n last hist s)
    (h : looperStep q (2 ^ k) s message = some (s', ret)) :
    ∃ items' n' last', Inv q (2 ^ k) items' n' last' (hist ++ ret) s' := by
  unfold looperStep at h
  split at h
  · cases h
  · next hs =>
    split at h
    · cases h
    · next pending mem hexchange =>
      cases h
      obtain ⟨rfl, hring, hbounded, hothers, hown, last', hlast, hvalue, hview⟩ :=
        hi.exchange hexchange
      refine ⟨items, n, last', ?_⟩
      have hle : last.view (.inl q.write) ≤ last'.view (.inl q.write) := by
        rw [hview, hown]
        exact le_max_right _ _
      rw [List.append_nil]
      exact
        { ring := hring
          pushed := hi.pushed
          delivered := hi.delivered
          last_pending := hlast
          bounded := hbounded
          rung := fun before hbefore => (hi.rung before hbefore).trans hle
          signal := fun hset => absurd hvalue hset
          cleared := fun _ => hview.le
          quiet := by
            -- without a set flag there is nothing the loop has not popped
            intro hquiet
            by_cases hzero : last.value = 0
            · have hpopped := hi.quiet (.inr hs)
              have hknown := (hi.cleared hzero).trans hpopped
              change mem.views q.consumer (.inl q.write) ≤ n.popped
              rw [hown]
              exact max_le hpopped hknown
            · simp [hzero] at hquiet }
  · next hs =>
    split at h
    · next ring out hring =>
      cases h
      obtain rfl := Relaxed.call_silent hring (.inr ⟨message, rfl⟩)
      obtain ⟨items', n', hspec⟩ := Relaxed.step_spec hi.ring hring
      exact ⟨items', n', last, hi.step_ring hspec (.inl rfl) rfl rfl id (by rw [hs]; rintro ⟨⟩)
        (by rintro (⟨⟨⟩⟩ | ⟨⟨⟩⟩))⟩
    · cases h
  · next hs =>
    split at h
    · next ring hring =>
      cases h
      obtain ⟨items', n', hspec⟩ := Relaxed.step_spec hi.ring hring
      exact ⟨items', n', last, hi.step_ring hspec (.inl rfl) rfl rfl id id
        (by rw [hs]; rintro (⟨⟨⟩⟩ | ⟨⟨⟩⟩))⟩
    · next ring item hring =>
      cases h
      obtain ⟨items', n', hspec⟩ := Relaxed.step_spec hi.ring hring
      exact ⟨items', n', last, hi.step_ring hspec (.inr ⟨.delivered item, rfl, by rintro ⟨⟩⟩) rfl
        rfl id (by rw [hs]; rintro ⟨⟩) (by rintro (⟨⟨⟩⟩ | ⟨⟨⟩⟩))⟩
    · next ring hring =>
      cases h
      obtain ⟨items', n', hspec⟩ := Relaxed.step_spec hi.ring hring
      have hcount := hspec.count_popped hi.ring
      have hnone := hspec.pop_none List.mem_cons_self
      exact ⟨items', n', last, hi.step_ring hspec (.inl rfl) rfl rfl id (by rw [hs]; rintro ⟨⟩)
        fun _ => (hnone.symm.trans hcount.symm).le⟩
    · cases h

theorem step_inv {a : Action α} (hi : Inv q (2 ^ k) items n last hist s)
    (h : step q (2 ^ k) s a = some (s', ret)) :
    ∃ items' n' last', Inv q (2 ^ k) items' n' last' (hist ++ ret) s' := by
  cases a with
  | result item message =>
    simp only [step] at h
    split at h
    · next ring out hs hring =>
      cases h
      obtain rfl := Relaxed.call_silent hring (.inl ⟨item, message, rfl⟩)
      obtain ⟨items', n', hinv⟩ := hi.push_step .pushing hring rfl rfl (.inl rfl) rfl rfl
        (by rw [hs]; rintro ⟨⟩)
      exact ⟨items', n', last, hinv⟩
    · cases h
  | sender message => exact senderStep_inv hi h
  | wake =>
    simp only [step] at h
    split at h
    · next hs =>
      split_ifs at h
      cases h
      rw [List.append_nil]
      exact ⟨items, n, last, { hi with
        signal := fun _ => .inr (.inr rfl)
        quiet := fun _ => hi.quiet (.inl hs) }⟩
    · cases h
  | looper message => exact looperStep_inv hi h
  | otherHandle =>
    cases h
    rw [List.append_nil]
    exact ⟨items, n, last, { hi with signal := fun _ => .inl (Nat.succ_pos _) }⟩

theorem reaches_inv (run : (machine q (2 ^ k) α).Reaches s hist) :
    ∃ items n last, Inv q (2 ^ k) items n last hist s := by
  refine run.invariant (I := fun hist s => ∃ items n last, Inv q (2 ^ k) items n last hist s) ?_ ?_
  · rintro s ⟨⟨hfresh, hp, hc, -⟩, hpending, hfd, hsender, hlooper⟩
    refine ⟨[], ⟨0, 0, 0, 0⟩, ⟨0, fun _ => 0⟩, ?_⟩
    exact
      { ring := ⟨hfresh.memInv, by rw [hp]; rfl, by rw [hc]; rfl⟩
        pushed := rfl
        delivered := rfl
        last_pending := by rw [hpending]; rfl
        bounded := hfresh.bounded _ _
        rung := by simp
        signal := fun hset => absurd rfl hset
        cleared := fun _ => Nat.zero_le _
        quiet := fun _ => (hfresh.views _ _).le }
  · rintro hist s a s' out ⟨items, n, last, hi⟩ hstep
    exact step_inv hi hstep

/-- The loop waits, nothing has been written for it, and the worker is not about to do so. -/
structure Asleep (s : State ι L α) : Prop where
  looper : s.looper = .polling
  fd : s.fd = 0
  sender : s.sender ≠ .writing

/-- Results come in the order in which they were pushed. When the loop sleeps, it has delivered
every result pushed before a call of `uv_async_send` that made the exchange. -/
theorem rung_results_delivered (q : Layout ι L) (k : ℕ) {s : State ι L α} {hist : List (Event α)}
    (run : (machine q (2 ^ k) α).Reaches s hist) :
    RaceFree q.toLayout (2 ^ k) s.ring ∧ deliveredItems hist <+: pushedItems hist ∧
      (Asleep s → ∀ before, before ++ [.rang] <+: hist →
        pushedItems before <+: deliveredItems hist) := by
  obtain ⟨items, n, last, hi⟩ := reaches_inv run
  have hmem := hi.ring.mem
  have hordered : deliveredItems hist <+: pushedItems hist := by
    rw [hi.pushed, hi.delivered]
    exact List.take_prefix_take_left (hmem.popped_le.trans hmem.copiedOut_le)
  refine ⟨hi.ring.raceFree, hordered, fun hasleep before hbefore => ?_⟩
  have hzero : last.value = 0 := by
    by_contra hset
    obtain hfd | hwriting | hclearing := hi.signal hset
    · exact absurd hasleep.fd hfd.ne'
    · exact hasleep.sender hwriting
    · rw [hasleep.looper] at hclearing
      cases hclearing
  have hpopped := (hi.cleared hzero).trans (hi.quiet (.inl hasleep.looper))
  have hlength : (pushedItems before).length ≤ (deliveredItems hist).length := by
    rw [hi.delivered, hi.ring.length_popped]
    exact (hi.rung before hbefore).trans hpopped
  have hearlier : pushedItems before <+: pushedItems hist := by
    obtain ⟨after, rfl⟩ := hbefore
    rw [List.append_assoc, pushedItems_append]
    exact List.prefix_append _ _
  exact List.prefix_of_prefix_length_le hearlier hordered hlength

/-- The worker, the event loop and the three locations. -/
def workerAndLoop : Layout Bool (Option Bool) where
  toLayout := Relaxed.twoThreadsWithFlag
  pending := none
  write_ne := Option.some_ne_none _
  read_ne := Option.some_ne_none _

def noResult (item : α) : State Bool (Option Bool) α where
  ring :=
    { mem := ⟨fun _ => [⟨0, fun _ => 0⟩], fun _ => ⟨item, false, 0, fun _ => 0⟩, fun _ _ => 0⟩
      producer := .idle
      consumer := .idle
      observers := fun _ => none }
  fd := 0
  sender := .idle
  looper := .polling

/-- The first result is rung for and delivered. The call for the second one still reads the
flag that the loop has cleared, so the loop sleeps with a result in the ring. -/
theorem rung_results_delivered_one_stranded : ∃ s hist,
    (machine workerAndLoop (2 ^ 6) ℕ).Reaches s hist ∧ Asleep s ∧
      hist = [.pushed 7, .rang, .delivered 7, .pushed 8, .skipped] ∧
      pushedItems [.pushed 7] <+: deliveredItems hist := by
  have run := Machine.reaches_exec (M := machine workerAndLoop (2 ^ 6) ℕ) (s := noResult 0)
    [.result 7 0, .sender 0, .sender 0, .sender 0, .sender 0, .sender 0, .sender 0, .wake,
      .looper 0, .looper 0, .looper 1, .looper 0, .looper 0, .looper 1, .looper 1,
      .result 8 1, .sender 0, .sender 0, .sender 0, .sender 1]
    ⟨⟨⟨fun _ => ⟨0, rfl⟩, rfl, rfl, fun _ => rfl, fun _ _ => rfl, fun _ _ => rfl⟩, rfl, rfl,
      fun _ => rfl⟩, rfl, rfl, rfl, rfl⟩ rfl
  refine ⟨_, _, run, ⟨rfl, rfl, by rintro ⟨⟩⟩, rfl, ?_⟩
  exact (rung_results_delivered workerAndLoop 6 run).2.2 ⟨rfl, rfl, by rintro ⟨⟩⟩ [.pushed 7]
    ⟨[.delivered 7, .pushed 8, .skipped], rfl⟩

end Proofs
end CapyJs.Worker.ResultBell
