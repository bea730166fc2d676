import CapyJs.Queue.RelaxedSpsc
import CapyJs.Queue.WorkQueue

/-!
# The work queue over late loads

`enqueue`, `dequeue` and `stop` with the memory orders of the ring and of the stop flag. The
semaphore is the only place where the consumer waits, so a token has to bring the knowledge of
the item it stands for: a `wait` learns what every `post` before it knew. That is enough for
the pop behind it to see the item, although the loads of the pop alone might miss it.
-/
namespace CapyJs.Queue.RelaxedWorkQueue
open BoundedFifo Memory Transition Relaxed
open WorkQueue (Enqueue Dequeue Return enqueued dequeued enqueued_append dequeued_append)

variable {ι L α : Type*}

/-- The ring, and the flag `stopped_`. -/
structure Layout (ι L : Type*) extends Relaxed.Layout ι L where
  stopped : L
  write_ne : write ≠ stopped
  read_ne : read ≠ stopped

/-- `stop` may be called on any thread. -/
inductive Stop (ι : Type*)
  | notCalled
  | posting (thread : ι)
  | returned

/-- `sem` is the count and `semView` what the posts so far knew. -/
structure State (ι L α : Type*) where
  ring : Ring ι L α
  sem : ℕ
  semView : View ι L
  producer : Enqueue
  consumer : Dequeue
  stopper : Stop ι

inductive Action (ι α : Type*)
  | enqueue (item : α) (message : ℕ)
  | producer (message : ℕ)
  | dequeue
  | consumer (message : ℕ)
  | stop (thread : ι)
  | stopper
  | empty (thread : ι) (message : ℕ)
  | observer (thread : ι) (message : ℕ)
  deriving Repr

section Model
variable [DecidableEq ι] [DecidableEq L]

/-- `uv_sem_post` -/
def State.post (s : State ι L α) (t : ι) : State ι L α :=
  { s with sem := s.sem + 1, semView := s.semView ⊔ s.ring.mem.views t }

def State.setMem (s : State ι L α) (mem : Mem ι L α) : State ι L α :=
  { s with ring := { s.ring with mem } }

variable [Fintype ι] (q : Layout ι L) (N : ℕ)

def producerStep (s : State ι L α) (message : ℕ) : Option (State ι L α × List (Return α)) :=
  match s.producer with
  | .idle => none
  | .pushing =>
    match Relaxed.step q.toLayout N s.ring (.producer message) with
    | some (ring, []) => some ({ s with ring }, [])
    | some (ring, [.push item true]) =>
      some ({ s with ring, producer := .posting }, [.enqueue item true])
    | some (ring, [.push item false]) =>
      some ({ s with ring, producer := .idle }, [.enqueue item false])
    | _ => none
  | .posting => some ({ s.post q.producer with producer := .idle }, [])

def consumerStep (s : State ι L α) (message : ℕ) : Option (State ι L α × List (Return α)) :=
  match s.consumer with
  | .idle => none
  | .waiting =>
    if s.sem = 0 then none
    else
      let woken := s.setMem (s.ring.mem.learn q.consumer s.semView)
      some ({ woken with sem := s.sem - 1, consumer := .woken }, [])
  | .woken =>
    match s.ring.mem.load true q.consumer q.stopped message with
    | none => none
    | some (stopped, mem) =>
      if stopped ≠ 0 then some ({ s.setMem mem with consumer := .idle }, [.dequeue none])
      else some ({ s.setMem mem with consumer := .checked }, [])
  | .checked =>
    match Relaxed.step q.toLayout N s.ring (.pop message) with
    | some (ring, _) => some ({ s with ring, consumer := .popping }, [])
    | none => none
  | .popping =>
    match Relaxed.step q.toLayout N s.ring (.consumer message) with
    | some (ring, []) => some ({ s with ring }, [])
    | some (ring, [.pop out]) => some ({ s with ring, consumer := .idle }, [.dequeue out])
    | _ => none

def step (s : State ι L α) : Action ι α → Option (State ι L α × List (Return α))
  | .enqueue item message =>
    match s.producer, Relaxed.step q.toLayout N s.ring (.push item message) with
    | .idle, some (ring, _) => some ({ s with ring, producer := .pushing }, [])
    | _, _ => none
  | .producer message => producerStep q N s message
  | .dequeue =>
    match s.consumer with
    | .idle => some ({ s with consumer := .waiting }, [])
    | _ => none
  | .consumer message => consumerStep q N s message
  | .stop t =>
    match s.stopper with
    | .notCalled =>
      some ({ s.setMem (s.ring.mem.store t q.stopped 1) with stopper := .posting t }, [])
    | _ => none
  | .stopper =>
    match s.stopper with
    | .posting t => some ({ s.post t with stopper := .returned }, [])
    | _ => none
  | .empty t message =>
    (Relaxed.step q.toLayout N s.ring (.empty t message)).map fun p => ({ s with ring := p.1 }, [])
  | .observer t message =>
    (Relaxed.step q.toLayout N s.ring (.observer t message)).map fun p =>
      ({ s with ring := p.1 }, [])

/-- `stopped_` is a Boolean; here it is stored as zero or one. -/
def machine (α : Type*) : Machine (State ι L α) (Action ι α) (Return α) where
  init s := (Relaxed.machine q.toLayout α N).init s.ring ∧
    s.ring.mem.messages q.stopped = [⟨0, fun _ => 0⟩] ∧ s.sem = 0 ∧ (∀ x, s.semView x = 0) ∧
    s.producer = .idle ∧ s.consumer = .idle ∧ s.stopper = .notCalled
  step := step q N

end Model

/-! ## What a token brings -/

def Stop.called : Stop ι → ℕ
  | .notCalled => 0
  | _ => 1

def Stop.posted : Stop ι → ℕ
  | .returned => 1
  | _ => 0

/-- The flag, and who knows of it. Its message `k` has the value `k`. -/
structure FlagInv (q : Layout ι L) (m : Mem ι L α) (semView : View ι L) (stopper : Stop ι) :
    Prop where
  length : (m.messages q.stopped).length = stopper.called + 1
  value : ∀ (k : ℕ) msg, (m.messages q.stopped)[k]? = some msg → msg.value = k
  bounded : m.Bounded (.inl q.stopped) stopper.called
  sem_bounded : semView (.inl q.stopped) ≤ stopper.called
  posting : ∀ t, stopper = .posting t → 1 ≤ m.views t (.inl q.stopped)
  posted : stopper.posted ≤ semView (.inl q.stopped)

structure Inv (q : Layout ι L) (N : ℕ) (items : List α) (n : Counts) (hist : List (Return α))
    (s : State ι L α) : Prop where
  ring : Relaxed.Inv q.toLayout N items n s.ring
  enqueued : enqueued hist = items.take n.pushed
  dequeued : dequeued hist = items.take n.popped
  flag : FlagInv q s.ring.mem s.semView s.stopper
  sem_known : Known q.toLayout n s.semView
  /-- Every item but one whose post is still owed is known to the semaphore. -/
  posts : n.pushed ≤ s.semView (.inl q.write) + s.producer.owed
  /-- Until a `dequeue` gives up, every token is an unclaimed item or the stop. -/
  tokens : .dequeue none ∉ hist →
    s.sem + s.consumer.held + n.popped + s.producer.owed = n.pushed + s.stopper.posted
  gave_up : .dequeue none ∈ hist → 1 ≤ s.ring.mem.views q.consumer (.inl q.stopped)
  /-- A token stands for a stop the consumer knows of or for an item it knows of. -/
  woken : s.consumer = .woken → 1 ≤ s.ring.mem.views q.consumer (.inl q.stopped) ∨
    n.popped + 1 + s.producer.owed ≤ n.pushed ∧
      n.popped + 1 ≤ s.ring.mem.views q.consumer (.inl q.write)
  room : n.popped + s.consumer.reserved + s.producer.owed ≤ n.pushed
  reserved : n.popped + s.consumer.reserved ≤ s.ring.mem.views q.consumer (.inl q.write)

section Flag
variable {q : Layout ι L} {m m' : Mem ι L α} {semView : View ι L} {stopper : Stop ι} {t : ι}

theorem FlagInv.of_extends (h : FlagInv q m semView stopper) {keep : L → Prop}
    (hrest : m.Extends m' keep) (hkeep : keep q.stopped) : FlagInv q m' semView stopper where
  length := by rw [hrest.messages _ hkeep, h.length]
  value := by
    rw [hrest.messages _ hkeep]
    exact h.value
  bounded := hrest.bounded _ _ hkeep h.bounded
  sem_bounded := h.sem_bounded
  posting := fun t ht => (h.posting t ht).trans (hrest.views t _)
  posted := h.posted

theorem FlagInv.post (h : FlagInv q m semView stopper) (t : ι) :
    FlagInv q m (semView ⊔ m.views t) stopper :=
  { h with
    sem_bounded := sup_le h.sem_bounded (h.bounded.thread t)
    posted := h.posted.trans le_sup_left }

/-- The post of `stop` puts the flag into what a later wait learns. -/
theorem FlagInv.returned (h : FlagInv q m semView (.posting t)) :
    FlagInv q m (semView ⊔ m.views t) .returned :=
  { h with
    sem_bounded := sup_le h.sem_bounded (h.bounded.thread t)
    posting := by rintro t ⟨⟩
    posted := (h.posting t rfl).trans le_sup_right }

variable [DecidableEq ι]

theorem FlagInv.learn (h : FlagInv q m semView stopper) (t : ι) :
    FlagInv q (m.learn t semView) semView stopper :=
  { h with
    bounded := h.bounded.learn t h.sem_bounded
    posting := by
      intro t' ht'
      have hseen := h.posting t' ht'
      rw [State.learn, State.views_setView]
      split_ifs with heq
      · subst heq
        exact hseen.trans le_sup_left
      · exact hseen }

theorem FlagInv.stop [DecidableEq L] (h : FlagInv q m semView .notCalled) (t : ι) :
    FlagInv q (m.store t q.stopped 1) semView (.posting t) where
  length := by simp [State.messages_store, h.length, Stop.called]
  value := by
    intro k msg hmsg
    obtain hold | ⟨-, rfl, rfl⟩ := State.messages_store_cases hmsg
    · exact h.value k msg hold
    · rw [h.length, Stop.called]
  bounded := h.bounded.store_self t 1 (Nat.zero_le _) h.length.le
  sem_bounded := h.sem_bounded.trans (Nat.zero_le _)
  posting := by
    rintro t' ⟨⟩
    simp [State.views_store, h.length]
  posted := Nat.zero_le _

end Flag

section Proofs
variable {q : Layout ι L} {items items' : List α} {n n' : Counts} {hist ret : List (Return α)}
  {out : List (Outcome α)} {s s' : State ι L α} {ring : Ring ι L α} {N k message : ℕ}

theorem Inv.ordered (hi : Inv q N items n hist s) :
    WorkQueue.dequeued hist <+: WorkQueue.enqueued hist := by
  have hmem := hi.ring.mem
  rw [hi.enqueued, hi.dequeued]
  exact List.take_prefix_take_left (hmem.popped_le.trans hmem.copiedOut_le)

/-- A step of the ring inside a call. -/
theorem Inv.step_ring (hi : Inv q N items n hist s)
    (hspec : StepSpec q.toLayout N items n s.ring ring out items' n') {p : Enqueue} {c : Dequeue}
    (hpushed : WorkQueue.enqueued ret = pushed out)
    (hpopped : WorkQueue.dequeued ret = popped out) (hnone : .dequeue none ∉ ret)
    (howed : p.owed = s.producer.owed + (pushed out).length)
    (hheld : c.held + (popped out).length = s.consumer.held)
    (hwoken : c = .woken → s.consumer = .woken ∧ popped out = [])
    (hreserved : c.reserved + (popped out).length ≤ s.consumer.reserved) :
    Inv q N items' n' (hist ++ ret) { s with ring, producer := p, consumer := c } := by
  have hcount := hspec.count_pushed hi.ring
  have hcount' := hspec.count_popped hi.ring
  have hviews := hspec.rest.views
  exact
    { ring := hspec.inv
      enqueued := by rw [enqueued_append, hi.enqueued, hpushed, hspec.pushed]
      dequeued := by rw [dequeued_append, hi.dequeued, hpopped, hspec.popped]
      flag := hi.flag.of_extends hspec.rest ⟨q.write_ne.symm, q.read_ne.symm⟩
      sem_known := hspec.known _ hi.sem_known
      posts := by
        have hposts := hi.posts
        simp only
        omega
      tokens := by
        intro hno
        have htokens := hi.tokens fun hmem => hno (List.mem_append_left _ hmem)
        simp only
        omega
      gave_up := by
        intro hmem
        exact (hi.gave_up ((List.mem_append.mp hmem).resolve_right hnone)).trans (hviews _ _)
      woken := by
        intro hc
        obtain ⟨hsame, hnil⟩ := hwoken hc
        rw [hnil, List.length_nil, Nat.add_zero] at hcount'
        rw [hcount', hcount, howed]
        refine (hi.woken hsame).imp (·.trans (hviews _ _)) fun h => ⟨?_, h.2.trans (hviews _ _)⟩
        have hposted := h.1
        omega
      room := by
        have hroom := hi.room
        simp only
        omega
      reserved := by
        have hbefore := hi.reserved.trans (hviews q.consumer (.inl q.write))
        simp only
        omega }

/-- A ring step that moves no item. -/
theorem Inv.step_quiet (hi : Inv q N items n hist s)
    (hspec : StepSpec q.toLayout N items n s.ring ring out items' n') {p : Enqueue} {c : Dequeue}
    (hpushed : pushed out = []) (hpopped : popped out = []) (howed : p.owed = s.producer.owed)
    (hheld : c.held = s.consumer.held) (hwoken : c = .woken → s.consumer = .woken)
    (hreserved : c.reserved ≤ s.consumer.reserved) :
    Inv q N items' n' (hist ++ []) { s with ring, producer := p, consumer := c } :=
  hi.step_ring hspec hpushed.symm hpopped.symm (by simp) (by simp [howed, hpushed])
    (by simp [hheld, hpopped]) (fun hc => ⟨hwoken hc, hpopped⟩) (by simpa [hpopped] using hreserved)

theorem Inv.post_item (hi : Inv q N items n hist s) (hp : s.producer = .posting) :
    Inv q N items n (hist ++ []) { s.post q.producer with producer := .idle } := by
  rw [List.append_nil]
  have htokens := hi.tokens
  rw [hp] at htokens
  exact
    { hi with
      flag := hi.flag.post q.producer
      sem_known := hi.sem_known.sup (hi.ring.mem.thread_known _)
      posts := by
        have hseen := hi.ring.mem.producer_seen
        exact hseen.ge.trans le_sup_right
      tokens := by
        intro hno
        have hbalance := htokens hno
        simp only [State.post, Enqueue.owed] at hbalance ⊢
        omega
      woken := fun hc => (hi.woken hc).imp_right fun h => ⟨(Nat.le_add_right _ _).trans h.1, h.2⟩
      room := (Nat.le_add_right _ _).trans hi.room }

theorem Inv.post_stop {t : ι} (hi : Inv q N items n hist s) (hs : s.stopper = .posting t) :
    Inv q N items n (hist ++ []) { s.post t with stopper := .returned } := by
  rw [List.append_nil]
  have htokens := hi.tokens
  have hflag := hi.flag
  rw [hs] at htokens hflag
  exact
    { hi with
      flag := hflag.returned
      sem_known := hi.sem_known.sup (hi.ring.mem.thread_known _)
      posts := hi.posts.trans (Nat.add_le_add_right le_sup_left _)
      tokens := by
        intro hno
        have hbalance := htokens hno
        simp only [State.post, Stop.posted] at hbalance ⊢
        omega }

variable [DecidableEq ι]

/-- A wait learns of the item or of the stop whose token it takes. -/
theorem Inv.wait (hi : Inv q N items n hist s) (hc : s.consumer = .waiting) (hsem : s.sem ≠ 0) :
    Inv q N items n (hist ++ [])
      { s.setMem (s.ring.mem.learn q.consumer s.semView) with
        sem := s.sem - 1, consumer := .woken } := by
  rw [List.append_nil]
  have hmem := hi.ring.mem.learn q.consumer hi.sem_known
  have hviews : ∀ t, s.ring.mem.views t ≤ (s.ring.mem.learn q.consumer s.semView).views t := by
    intro t
    rw [State.learn, State.views_setView]
    split_ifs with ht
    · subst ht
      exact le_sup_left
    · exact le_rfl
  have hlearned : s.semView ≤ (s.ring.mem.learn q.consumer s.semView).views q.consumer := by
    rw [State.learn, State.views_setView, if_pos rfl]
    exact le_sup_right
  have htokens := hi.tokens
  rw [hc] at htokens
  exact
    { hi with
      ring := ⟨hmem, hi.ring.producer.mono (hviews _ _) rfl rfl,
        hi.ring.consumer.mono (hviews _ _) rfl rfl⟩
      flag := hi.flag.learn q.consumer
      tokens := by
        intro hno
        have hbalance := htokens hno
        simp only [State.setMem, Dequeue.held] at hbalance ⊢
        omega
      gave_up := fun hmem => (hi.gave_up hmem).trans (hviews _ _)
      woken := by
        intro _
        by_cases hgave : .dequeue none ∈ hist
        · exact .inl ((hi.gave_up hgave).trans (hviews _ _))
        · have hbalance := htokens hgave
          by_cases hstop : s.stopper.posted = 0
          · right
            have hposts := hi.posts
            simp only [Dequeue.held] at hbalance
            have hitem : n.popped + 1 ≤ s.semView (.inl q.write) := by omega
            refine ⟨?_, hitem.trans (hlearned _)⟩
            change n.popped + 1 + s.producer.owed ≤ n.pushed
            omega
          · left
            have hposted := hi.flag.posted
            exact (Nat.one_le_iff_ne_zero.mpr hstop).trans (hposted.trans (hlearned _))
      room := by
        have hroom := hi.room
        rwa [hc] at hroom
      reserved := by
        have hbefore := hi.reserved
        rw [hc] at hbefore
        exact hbefore.trans (hviews _ _) }

variable [DecidableEq L]

theorem Inv.store_stopped (hi : Inv q N items n hist s) (hs : s.stopper = .notCalled) (t : ι) :
    Inv q N items n (hist ++ [])
      { s.setMem (s.ring.mem.store t q.stopped 1) with stopper := .posting t } := by
  rw [List.append_nil]
  have hflag := hi.flag
  rw [hs] at hflag
  have hlast : s.ring.mem.views t (.inl q.stopped) ≤
      (s.ring.mem.messages q.stopped).length := by
    have hbound := hflag.bounded.thread t
    exact hbound.trans (by simp [Stop.called])
  have hrest := State.extends_store hlast 1 (fun l => l ≠ q.stopped) (by simp)
  have htokens := hi.tokens
  rw [hs] at htokens
  exact
    { hi with
      ring := ⟨hi.ring.mem.store_other t 1 q.write_ne q.read_ne,
        hi.ring.producer.mono (hrest.views _ _) rfl rfl,
        hi.ring.consumer.mono (hrest.views _ _) rfl rfl⟩
      flag := hflag.stop t
      tokens := htokens
      gave_up := fun hmem => (hi.gave_up hmem).trans (hrest.views _ _)
      woken := fun hc => (hi.woken hc).imp (·.trans (hrest.views _ _)) fun h =>
        ⟨h.1, h.2.trans (hrest.views _ _)⟩
      reserved := hi.reserved.trans (hrest.views _ _) }

/-- A consumer that finds the flag unset knows of an item; one that gives up knows of the
stop. -/
theorem Inv.check_stopped (hi : Inv q N items n hist s) (hc : s.consumer = .woken) {stopped : ℕ}
    {mem : Mem ι L α} (hload : s.ring.mem.load true q.consumer q.stopped message =
      some (stopped, mem)) :
    (stopped ≠ 0 → Inv q N items n (hist ++ [.dequeue none])
      { s.setMem mem with consumer := .idle }) ∧
    (stopped = 0 → Inv q N items n (hist ++ []) { s.setMem mem with consumer := .checked }) := by
  obtain ⟨hring, hrest⟩ := hi.ring.acquire hload s.ring.observers
  obtain ⟨-, ⟨msg, hmsg, rfl⟩, hle, hseen, -⟩ := hi.ring.mem.acquire hload
  have hflag := hi.flag.of_extends (hrest fun _ => True) trivial
  have hviews := (hrest fun _ => True).views
  have hvalue := hi.flag.value message msg hmsg
  have hreserved := hi.reserved
  have hroom := hi.room
  rw [hc] at hreserved hroom
  refine ⟨fun hset => ?_, fun hunset => ?_⟩
  · exact
      { hi with
        ring := hring
        flag := hflag
        enqueued := by simpa [WorkQueue.enqueued] using hi.enqueued
        dequeued := by simpa [WorkQueue.dequeued] using hi.dequeued
        tokens := fun hno => absurd (List.mem_append_right _ List.mem_cons_self) hno
        gave_up := by
          intro _
          change 1 ≤ mem.views q.consumer (.inl q.stopped)
          rw [hseen]
          omega
        woken := by rintro ⟨⟩
        room := hroom
        reserved := hreserved.trans (hviews _ _) }
  · obtain ⟨hposted, hitem⟩ := (hi.woken hc).resolve_left (by omega)
    have htokens := hi.tokens
    rw [hc] at htokens
    rw [List.append_nil]
    exact
      { hi with
        ring := hring
        flag := hflag
        tokens := htokens
        gave_up := fun hmem => (hi.gave_up hmem).trans (hviews _ _)
        woken := by rintro ⟨⟩
        room := hposted
        reserved := hitem.trans (hviews _ _) }

variable [Fintype ι]

theorem producerStep_inv (hi : Inv q (2 ^ k) items n hist s)
    (h : producerStep q (2 ^ k) s message = some (s', ret)) :
    ∃ items' n', Inv q (2 ^ k) items' n' (hist ++ ret) s' := by
  unfold producerStep at h
  split at h
  · cases h
  · next hp =>
    split at h
    · next ring hring =>
      cases h
      obtain ⟨items', n', hspec⟩ := Relaxed.step_spec hi.ring hring
      exact ⟨items', n', hi.step_quiet hspec rfl rfl rfl rfl id le_rfl⟩
    · next ring item hring =>
      cases h
      obtain ⟨items', n', hspec⟩ := Relaxed.step_spec hi.ring hring
      exact ⟨items', n', hi.step_ring hspec rfl rfl (by simp) (by rw [hp]; rfl) rfl
        (fun hc => ⟨hc, rfl⟩) le_rfl⟩
    · next ring item hring =>
      cases h
      obtain ⟨items', n', hspec⟩ := Relaxed.step_spec hi.ring hring
      exact ⟨items', n', hi.step_ring hspec rfl rfl (by simp) (by rw [hp]; rfl) rfl
        (fun hc => ⟨hc, rfl⟩) le_rfl⟩
    · cases h
  · next hp =>
    cases h
    exact ⟨items, n, hi.post_item hp⟩

theorem consumerStep_inv (hi : Inv q (2 ^ k) items n hist s)
    (h : consumerStep q (2 ^ k) s message = some (s', ret)) :
    ∃ items' n', Inv q (2 ^ k) items' n' (hist ++ ret) s' := by
  unfold consumerStep at h
  split at h
  · cases h
  · next hc =>
    split_ifs at h with hsem
    cases h
    exact ⟨items, n, hi.wait hc hsem⟩
  · next hc =>
    split at h
    · cases h
    · next stopped mem hload =>
      obtain ⟨hset, hunset⟩ := hi.check_stopped hc hload
      split_ifs at h with hstop
      · cases h
        exact ⟨items, n, hset hstop⟩
      · cases h
        exact ⟨items, n, hunset (not_ne_iff.mp hstop)⟩
  · next hc =>
    split at h
    · next ring out hring =>
      cases h
      obtain rfl := Relaxed.call_silent hring (.inr ⟨message, rfl⟩)
      obtain ⟨items', n', hspec⟩ := Relaxed.step_spec hi.ring hring
      exact ⟨items', n', hi.step_quiet hspec rfl rfl rfl (by rw [hc]; rfl) (by rintro ⟨⟩)
        (by rw [hc]; exact le_rfl)⟩
    · cases h
  · next hc =>
    split at h
    · next ring hring =>
      cases h
      obtain ⟨items', n', hspec⟩ := Relaxed.step_spec hi.ring hring
      exact ⟨items', n', hi.step_quiet hspec rfl rfl rfl rfl id le_rfl⟩
    · next ring out hring =>
      cases h
      obtain ⟨items', n', hspec⟩ := Relaxed.step_spec hi.ring hring
      cases out with
      | none =>
        -- the item the consumer knows of is still there
        have hnone := hspec.pop_none List.mem_cons_self
        have hseen := hi.reserved.trans (hspec.rest.views q.consumer (.inl q.write))
        rw [← hnone, hc, Dequeue.reserved] at hseen
        omega
      | some item =>
        exact ⟨items', n', hi.step_ring hspec rfl rfl (by simp) rfl (by rw [hc]; rfl)
          (by rintro ⟨⟩) (by rw [hc]; exact le_rfl)⟩
    · cases h

theorem step_inv {a : Action ι α} (hi : Inv q (2 ^ k) items n hist s)
    (h : step q (2 ^ k) s a = some (s', ret)) :
    ∃ items' n', Inv q (2 ^ k) items' n' (hist ++ ret) s' := by
  cases a with
  | enqueue item message =>
    simp only [step] at h
    split at h
    · next ring out hp hring =>
      cases h
      obtain rfl := Relaxed.call_silent hring (.inl ⟨item, message, rfl⟩)
      obtain ⟨items', n', hspec⟩ := Relaxed.step_spec hi.ring hring
      exact ⟨items', n', hi.step_quiet hspec rfl rfl (by rw [hp]; rfl) rfl id le_rfl⟩
    · cases h
  | producer message => exact producerStep_inv hi h
  | dequeue =>
    simp only [step] at h
    split at h
    · next hc =>
      cases h
      have htokens := hi.tokens
      have hroom := hi.room
      have hreserved := hi.reserved
      rw [hc] at htokens hroom hreserved
      rw [List.append_nil]
      exact ⟨items, n, { hi with
        tokens := htokens
        woken := by rintro ⟨⟩
        room := hroom
        reserved := hreserved }⟩
    · cases h
  | consumer message => exact consumerStep_inv hi h
  | stop t =>
    simp only [step] at h
    split at h
    · next hs =>
      cases h
      exact ⟨items, n, hi.store_stopped hs t⟩
    · cases h
  | stopper =>
    simp only [step] at h
    split at h
    · next t hs =>
      cases h
      exact ⟨items, n, hi.post_stop hs⟩
    · cases h
  | empty t message =>
    obtain ⟨⟨ring, out⟩, hring, heq⟩ := Option.map_eq_some_iff.mp h
    cases heq
    obtain ⟨hpushed, hpopped⟩ := Relaxed.observe_silent hring (.inl ⟨t, message, rfl⟩)
    obtain ⟨items', n', hspec⟩ := Relaxed.step_spec hi.ring hring
    exact ⟨items', n', hi.step_quiet hspec hpushed hpopped rfl rfl id le_rfl⟩
  | observer t message =>
    obtain ⟨⟨ring, out⟩, hring, heq⟩ := Option.map_eq_some_iff.mp h
    cases heq
    obtain ⟨hpushed, hpopped⟩ := Relaxed.observe_silent hring (.inr ⟨t, message, rfl⟩)
    obtain ⟨items', n', hspec⟩ := Relaxed.step_spec hi.ring hring
    exact ⟨items', n', hi.step_quiet hspec hpushed hpopped rfl rfl id le_rfl⟩

theorem reaches_inv (run : (machine q (2 ^ k) α).Reaches s hist) :
    ∃ items n, Inv q (2 ^ k) items n hist s := by
  refine run.invariant (I := fun hist s => ∃ items n, Inv q (2 ^ k) items n hist s) ?_ ?_
  · rintro s ⟨⟨hfresh, hp, hc, -⟩, hflag, hsem, hview, hprod, hcons, hstop⟩
    refine ⟨[], ⟨0, 0, 0, 0⟩, ⟨hfresh.memInv, by rw [hp]; rfl, by rw [hc]; rfl⟩, rfl, rfl, ?_,
      known_zero hview, Nat.zero_le _, ?_, by simp, by simp [hcons], ?_, ?_⟩
    · refine ⟨by simp [hflag, hstop, Stop.called], ?_, hfresh.bounded _ _, ?_, by simp [hstop],
        by simp [hstop, Stop.posted]⟩
      · intro k msg hmsg
        obtain ⟨rfl, -⟩ := hfresh.message hmsg
        simp only [hflag, List.getElem?_cons_zero, Option.some.injEq] at hmsg
        rw [← hmsg]
      · rw [hview]
        exact Nat.zero_le _
    · simp [hsem, hcons, hprod, hstop, Dequeue.held, Enqueue.owed, Stop.posted]
    · simp [hcons, hprod, Dequeue.reserved, Enqueue.owed]
    · simp [hcons, Dequeue.reserved]
  · rintro hist s a s' out ⟨items, n, hi⟩ hstep
    exact step_inv hi hstep

/-! ## What the callers may rely on -/

structure Guarantee (q : Layout ι L) (N : ℕ) (s : State ι L α) (hist : List (Return α)) :
    Prop where
  raceFree : RaceFree q.toLayout N s.ring
  /-- Items are delivered in order, each once. -/
  ordered : dequeued hist <+: enqueued hist
  bounded : (enqueued hist).length ≤ (dequeued hist).length + (N - 1)
  /-- A `dequeue` that returns nothing has seen the stop. -/
  stopped : .dequeue none ∈ hist → s.stopper ≠ .notCalled
  /-- A consumer none of whose calls has failed is blocked only before `stop` has returned, and
  only when it has every item but the one whose post is still owed. -/
  awake : .dequeue none ∉ hist → s.consumer = .waiting → s.sem = 0 →
    s.stopper ≠ .returned ∧
      (enqueued hist).length = (dequeued hist).length + s.producer.owed

/-- Whatever the loads of the queue return, the calls keep their contract. -/
theorem late_loads_guarantee (q : Layout ι L) (k : ℕ) {s : State ι L α} {hist : List (Return α)}
    (run : (machine q (2 ^ k) α).Reaches s hist) : Guarantee q (2 ^ k) s hist := by
  obtain ⟨items, n, hi⟩ := reaches_inv run
  have hmem := hi.ring.mem
  have hpush : (enqueued hist).length = n.pushed := by rw [hi.enqueued, hi.ring.length_pushed]
  have hpop : (dequeued hist).length = n.popped := by rw [hi.dequeued, hi.ring.length_popped]
  refine ⟨hi.ring.raceFree, hi.ordered, ?_, fun hgave hnot => ?_, fun hno hwait hsem => ?_⟩
  · have hroom := hmem.room
    have hread := (hmem.thread_known q.producer).read_le
    have hle := hmem.pushed_le
    omega
  · have hseen := (hi.gave_up hgave).trans (hi.flag.bounded.thread q.consumer)
    rw [hnot, Stop.called] at hseen
    omega
  · have hbalance := hi.tokens hno
    have hroom := hi.room
    simp only [hsem, hwait, Dequeue.held, Dequeue.reserved] at hbalance hroom
    have hposted : s.stopper.posted = 0 := by omega
    refine ⟨fun hret => ?_, by omega⟩
    rw [hret, Stop.posted] at hposted
    cases hposted

/-- Two threads; the ring's indices and the flag are the three locations. -/
def flaggedThreads : Layout Bool (Option Bool) where
  toLayout := Relaxed.twoThreadsWithFlag
  stopped := none
  write_ne := Option.some_ne_none _
  read_ne := Option.some_ne_none _

def emptyQueue : State Bool (Option Bool) ℕ where
  ring :=
    { mem := ⟨fun _ => [⟨0, fun _ => 0⟩], fun _ => ⟨0, false, 0, fun _ => 0⟩, fun _ _ => 0⟩
      producer := .idle
      consumer := .idle
      observers := fun _ => none }
  sem := 0
  semView := fun _ => 0
  producer := .idle
  consumer := .idle
  stopper := .notCalled

/-- One item, then a stop by the producer that the next `dequeue` sees. -/
theorem late_loads_guarantee_two_cells : ∃ s hist,
    (machine flaggedThreads (2 ^ 1) ℕ).Reaches s hist ∧
      hist = [.enqueue 5 true, .dequeue (some 5), .dequeue none] ∧
      Guarantee flaggedThreads (2 ^ 1) s hist := by
  have run := Machine.reaches_exec (M := machine flaggedThreads (2 ^ 1) ℕ) (s := emptyQueue)
    [.dequeue, .enqueue 5 0, .producer 0, .producer 0, .producer 0, .producer 0, .consumer 0,
      .consumer 0, .consumer 0, .consumer 1, .consumer 0, .consumer 0, .stop false, .stopper,
      .dequeue, .consumer 0, .consumer 1]
    ⟨⟨⟨fun _ => ⟨0, rfl⟩, rfl, rfl, fun _ => rfl, fun _ _ => rfl, fun _ _ => rfl⟩, rfl, rfl,
      fun _ => rfl⟩, rfl, rfl, fun _ => rfl, rfl, rfl, rfl⟩ rfl
  exact ⟨_, _, run, rfl, late_loads_guarantee flaggedThreads 1 run⟩

end Proofs
end CapyJs.Queue.RelaxedWorkQueue
