import CapyJs.Queue.SpscQueue

/-!
# The blocking work queue: ring, semaphore and stop flag

`enqueue` is the accesses of a ring push followed by a semaphore post, `dequeue`
is a semaphore wait, a load of the stop flag and the accesses of a ring pop, and
`stop` is a store followed by a post. All of these interleave. The semaphore
count tracks the ring up to the posts still owed and the token the consumer
holds; that balance is lost only when a `dequeue` gives up on the stop flag.
-/
namespace CapyJs.Queue.WorkQueue
open BoundedFifo Transition

variable {α : Type*} {N k : ℕ}

/-- `enqueue` pushes, and owes a post once the push has gone through. -/
inductive Enqueue
  | idle
  | pushing
  | posting
  deriving DecidableEq, Repr

/-- `dequeue` waits, loads the flag, then pops. -/
inductive Dequeue
  | idle
  | waiting
  | woken
  | checked
  | popping
  deriving DecidableEq, Repr

inductive Stop
  | notCalled
  | posting
  | returned
  deriving DecidableEq, Repr

structure State (α : Type*) (N : ℕ) where
  ring : SPSCQueue.State α N
  sem : ℕ
  stopped : Bool
  producer : Enqueue
  consumer : Dequeue
  stopper : Stop

inductive Action (α : Type*)
  | enqueue (item : α)
  | producer
  | dequeue
  | consumer
  | stop
  | stopper
  deriving Repr

/-- The answer of `enqueue` is settled when the ring push is; that of `dequeue`
when it returns. -/
inductive Return (α : Type*)
  | enqueue (item : α) (ok : Bool)
  | dequeue (out : Option α)
  deriving DecidableEq, Repr

def producerStep (s : State α N) : Option (State α N × List (Return α)) :=
  match s.producer with
  | .idle => none
  | .pushing =>
    match SPSCQueue.step s.ring .producer with
    | some (ring, []) => some ({ s with ring }, [])
    | some (ring, [.push item true]) =>
      some ({ s with ring, producer := .posting }, [.enqueue item true])
    | some (ring, [.push item false]) =>
      some ({ s with ring, producer := .idle }, [.enqueue item false])
    | _ => none
  | .posting => some ({ s with sem := s.sem + 1, producer := .idle }, [])

def consumerStep (s : State α N) : Option (State α N × List (Return α)) :=
  match s.consumer with
  | .idle => none
  | .waiting => if s.sem = 0 then none else some ({ s with sem := s.sem - 1, consumer := .woken }, [])
  | .woken =>
    if s.stopped then some ({ s with consumer := .idle }, [.dequeue none])
    else some ({ s with consumer := .checked }, [])
  | .checked =>
    match SPSCQueue.step s.ring .pop with
    | some (ring, _) => some ({ s with ring, consumer := .popping }, [])
    | none => none
  | .popping =>
    match SPSCQueue.step s.ring .consumer with
    | some (ring, []) => some ({ s with ring }, [])
    | some (ring, [.pop out]) => some ({ s with ring, consumer := .idle }, [.dequeue out])
    | _ => none

def step (s : State α N) : Action α → Option (State α N × List (Return α))
  | .enqueue item =>
    match s.producer, SPSCQueue.step s.ring (.push item) with
    | .idle, some (ring, _) => some ({ s with ring, producer := .pushing }, [])
    | _, _ => none
  | .producer => producerStep s
  | .dequeue =>
    match s.consumer with
    | .idle => some ({ s with consumer := .waiting }, [])
    | _ => none
  | .consumer => consumerStep s
  | .stop =>
    match s.stopper with
    | .notCalled => some ({ s with stopped := true, stopper := .posting }, [])
    | _ => none
  | .stopper =>
    match s.stopper with
    | .posting => some ({ s with sem := s.sem + 1, stopper := .returned }, [])
    | _ => none

def machine (α : Type*) (N : ℕ) : Machine (State α N) (Action α) (Return α) where
  init s := (SPSCQueue.machine α N).init s.ring ∧ s.sem = 0 ∧ s.stopped = false ∧
    s.producer = .idle ∧ s.consumer = .idle ∧ s.stopper = .notCalled
  step := step

/-- `while (queue_.pop(item)) fn(item)`, run alone, with a bound on the rounds. -/
def drain : ℕ → SPSCQueue α N → List α
  | 0, _ => []
  | fuel + 1, m =>
    match m.pop with
    | none => []
    | some (item, m') => item :: drain fuel m'

def enqueued (hist : List (Return α)) : List α :=
  hist.filterMap fun
    | .enqueue item true => some item
    | _ => none

def dequeued (hist : List (Return α)) : List α :=
  hist.filterMap fun
    | .dequeue (some item) => some item
    | _ => none

@[simp] theorem enqueued_append (hist out : List (Return α)) :
    enqueued (hist ++ out) = enqueued hist ++ enqueued out := List.filterMap_append

@[simp] theorem dequeued_append (hist out : List (Return α)) :
    dequeued (hist ++ out) = dequeued hist ++ dequeued out := List.filterMap_append

theorem drain_eq_contents (fuel : ℕ) (m : SPSCQueue α (2 ^ k)) (h : m.occupancy ≤ fuel) :
    drain fuel m = m.contents := by
  induction fuel generalizing m with
  | zero =>
    have hnil : m.contents.length = 0 := by rw [SPSCQueue.contents_length]; omega
    simp [drain, List.length_eq_zero_iff.mp hnil]
  | succ fuel ih =>
    by_cases he : m.read = m.write
    · simp [drain, SPSCQueue.pop, he, (SPSCQueue.contents_eq_nil m).mpr he]
    · have hpos : 0 < m.occupancy :=
        Nat.pos_of_ne_zero fun h => he ((SPSCQueue.occupancy_eq_zero m).mp h)
      have hocc := SPSCQueue.occupancy_store_read m hpos
      rw [SPSCQueue.contents_store_read m hpos]
      simp only [drain, SPSCQueue.pop, he, ite_false]
      rw [ih _ (by omega)]

/-! ## The balance between the semaphore and the ring -/

/-- A post that the producer still owes for an item already in the ring. -/
def Enqueue.owed : Enqueue → ℕ
  | .posting => 1
  | _ => 0

/-- The token taken by a wait and not yet spent on an item. -/
def Dequeue.held : Dequeue → ℕ
  | .woken | .checked | .popping => 1
  | _ => 0

/-- The item that a consumer past the flag check is about to take. -/
def Dequeue.reserved : Dequeue → ℕ
  | .checked | .popping => 1
  | _ => 0

def Stop.posted : Stop → ℕ
  | .returned => 1
  | _ => 0

structure Inv (hist : List (Return α)) (s : State α (2 ^ k)) : Prop where
  ring : s.ring.Inv
  conserved : dequeued hist ++ s.ring.mem.contents = enqueued hist
  /-- Until a `dequeue` gives up, every token is an unclaimed item or the stop. -/
  tokens : .dequeue none ∉ hist →
    s.sem + s.consumer.held + s.producer.owed = s.ring.mem.contents.length + s.stopper.posted
  room : s.producer.owed + s.consumer.reserved ≤ s.ring.mem.contents.length
  flag : s.stopper ≠ .notCalled → s.stopped = true
  gaveUp : .dequeue none ∈ hist → s.stopped = true

/-- A step that returns nothing to a caller and leaves the occupied cells alone
only has to keep the balance. -/
theorem Inv.quiet {hist : List (Return α)} {s s' : State α (2 ^ k)} (hi : Inv hist s)
    (hring : s'.ring.Inv) (hsame : s'.ring.mem.contents = s.ring.mem.contents)
    (hbalance : s'.sem + s'.consumer.held + s'.producer.owed + s.stopper.posted =
      s.sem + s.consumer.held + s.producer.owed + s'.stopper.posted)
    (hroom : s'.producer.owed + s'.consumer.reserved ≤ s.ring.mem.contents.length)
    (hflag : s'.stopper ≠ .notCalled → s'.stopped = true)
    (hstop : s.stopped = true → s'.stopped = true) : Inv (hist ++ []) s' := by
  rw [List.append_nil]
  refine ⟨hring, ?_, fun hno => ?_, ?_, hflag, fun hmem => hstop (hi.gaveUp hmem)⟩
  · rw [hsame, hi.conserved]
  · have := hi.tokens hno
    rw [hsame]
    omega
  · rw [hsame]
    exact hroom

theorem mem_append_enqueue {hist : List (Return α)} {item : α} {ok : Bool} :
    .dequeue none ∈ hist ++ [Return.enqueue item ok] ↔ .dequeue none ∈ hist := by
  simp

theorem producerStep_inv (hk : 0 < k) {hist out : List (Return α)} {s s' : State α (2 ^ k)}
    (hi : Inv hist s) (h : producerStep s = some (s', out)) : Inv (hist ++ out) s' := by
  have htokens := hi.tokens
  have hroom := hi.room
  cases hp : s.producer with
  | idle => simp [producerStep, hp] at h
  | pushing =>
    simp only [hp, Enqueue.owed] at htokens hroom
    simp only [producerStep, hp] at h
    split at h
    · next ring hring =>
      cases h
      have hspec := SPSCQueue.step_spec hk hi.ring hring
      exact hi.quiet hspec.1 hspec.2.eq_of_nil (by simp [hp]) (by simpa [hp] using hi.room) hi.flag id
    · next ring item hring =>
      cases h
      have hspec := SPSCQueue.step_spec hk hi.ring hring
      have hnew : ring.mem.contents = s.ring.mem.contents ++ [item] :=
        hspec.2.of_singleton.eq_of_push
      refine ⟨hspec.1, ?_, fun hno => ?_, ?_, hi.flag, ?_⟩
      · rw [dequeued_append, enqueued_append, ← hi.conserved, hnew]
        simp [enqueued, dequeued]
      · have := htokens (mt mem_append_enqueue.mpr hno)
        simp only [hnew, Enqueue.owed, List.length_append, List.length_singleton]
        omega
      · simp only [hnew, Enqueue.owed, List.length_append, List.length_singleton]
        omega
      · exact fun hmem => hi.gaveUp (mem_append_enqueue.mp hmem)
    · next ring item hring =>
      cases h
      have hspec := SPSCQueue.step_spec hk hi.ring hring
      have hsame : ring.mem.contents = s.ring.mem.contents := hspec.2.of_singleton.eq_of_push
      refine ⟨hspec.1, ?_, fun hno => ?_, ?_, hi.flag, ?_⟩
      · rw [dequeued_append, enqueued_append, ← hi.conserved, hsame]
        simp [enqueued, dequeued]
      · have := htokens (mt mem_append_enqueue.mpr hno)
        simpa only [hsame, Enqueue.owed] using this
      · simpa only [hsame, Enqueue.owed] using hroom
      · exact fun hmem => hi.gaveUp (mem_append_enqueue.mp hmem)
    · cases h
  | posting =>
    simp only [producerStep, hp, Option.some.injEq, Prod.mk.injEq] at h
    obtain ⟨rfl, rfl⟩ := h
    simp only [hp, Enqueue.owed] at hroom
    exact hi.quiet hi.ring rfl (by simp only [hp, Enqueue.owed]; omega)
      (by simp only [Enqueue.owed]; omega) hi.flag id

/-- The consumer keeps the invariant. Past the flag check the reserved item makes
the ring non-empty, so the pop itself never fails. -/
theorem consumerStep_inv (hk : 0 < k) {hist out : List (Return α)} {s s' : State α (2 ^ k)}
    (hi : Inv hist s) (h : consumerStep s = some (s', out)) : Inv (hist ++ out) s' := by
  have htokens := hi.tokens
  have hroom := hi.room
  cases hc : s.consumer with
  | idle => simp [consumerStep, hc] at h
  | waiting =>
    simp only [hc, Dequeue.reserved] at hroom
    simp only [consumerStep, hc] at h
    split_ifs at h with hzero
    cases h
    exact hi.quiet hi.ring rfl (by simp only [hc, Dequeue.held]; omega) hroom hi.flag id
  | woken =>
    simp only [hc, Dequeue.held, Dequeue.reserved] at htokens hroom
    simp only [consumerStep, hc] at h
    split_ifs at h with hstop
    · cases h
      refine ⟨hi.ring, ?_, fun hno => ?_, hroom, hi.flag, fun _ => hstop⟩
      · simpa [enqueued, dequeued] using hi.conserved
      · simp at hno
    · cases h
      -- the flag is still clear, so neither the stop nor an earlier failure took a token
      have hno : Return.dequeue none ∉ hist := fun hmem => hstop (hi.gaveUp hmem)
      have hposted : s.stopper.posted = 0 := by
        cases hst : s.stopper with
        | notCalled => rfl
        | posting => exact absurd (hi.flag (by simp [hst])) hstop
        | returned => exact absurd (hi.flag (by simp [hst])) hstop
      have hcount := htokens hno
      exact hi.quiet hi.ring rfl (by simp [hc, Dequeue.held])
        (by simp only [Dequeue.reserved]; omega) hi.flag id
  | checked =>
    simp only [hc, Dequeue.reserved] at hroom
    simp only [consumerStep, hc] at h
    split at h
    · next ring out' hring =>
      cases h
      have hspec := SPSCQueue.step_spec hk hi.ring hring
      rw [SPSCQueue.pop_call_silent hring] at hspec
      exact hi.quiet hspec.1 hspec.2.eq_of_nil (by simp [hc, Dequeue.held]) hroom hi.flag id
    · cases h
  | popping =>
    simp only [hc, Dequeue.held, Dequeue.reserved] at htokens hroom
    simp only [consumerStep, hc] at h
    split at h
    · next ring hring =>
      cases h
      have hspec := SPSCQueue.step_spec hk hi.ring hring
      exact hi.quiet hspec.1 hspec.2.eq_of_nil (by simp [hc, Dequeue.held]) hroom hi.flag id
    · next ring out' hring =>
      cases h
      have hspec := SPSCQueue.step_spec hk hi.ring hring
      cases out' with
      | none =>
        have hnil := hspec.2.of_singleton.eq_nil_of_pop_none
        simp [hnil] at hroom
      | some item =>
        have hold := hspec.2.of_singleton.eq_of_pop_some
        rw [hold, List.length_cons] at htokens hroom
        refine ⟨hspec.1, ?_, fun hno => ?_, ?_, hi.flag, ?_⟩
        · have hitems := hi.conserved
          rw [hold] at hitems
          simpa [enqueued, dequeued] using hitems
        · have := htokens (fun hmem => hno (by simp [hmem]))
          simp only [Dequeue.held]
          omega
        · simp only [Dequeue.reserved]
          omega
        · intro hmem
          exact hi.gaveUp (by simpa using hmem)
    · cases h

theorem step_inv (hk : 0 < k) {hist out : List (Return α)} {s s' : State α (2 ^ k)} {a : Action α}
    (hi : Inv hist s) (h : step s a = some (s', out)) : Inv (hist ++ out) s' := by
  have hroom := hi.room
  cases a with
  | producer => exact producerStep_inv hk hi h
  | consumer => exact consumerStep_inv hk hi h
  | enqueue item =>
    simp only [step] at h
    split at h
    · next ring out' hp hring =>
      cases h
      simp only [hp, Enqueue.owed] at hroom
      have hspec := SPSCQueue.step_spec hk hi.ring hring
      rw [SPSCQueue.push_call_silent hring] at hspec
      exact hi.quiet hspec.1 hspec.2.eq_of_nil (by simp [hp, Enqueue.owed]) hroom hi.flag id
    · cases h
  | dequeue =>
    simp only [step] at h
    split at h
    · next hc =>
      cases h
      simp only [hc, Dequeue.reserved] at hroom
      exact hi.quiet hi.ring rfl (by simp [hc, Dequeue.held]) hroom hi.flag id
    · cases h
  | stop =>
    simp only [step] at h
    split at h
    · next hst =>
      cases h
      exact hi.quiet hi.ring rfl (by simp [hst, Stop.posted]) hroom (fun _ => rfl) (fun _ => rfl)
    · cases h
  | stopper =>
    simp only [step] at h
    split at h
    · next hst =>
      cases h
      exact hi.quiet hi.ring rfl (by simp only [hst, Stop.posted]; omega) hroom
        (fun _ => hi.flag (by simp [hst])) id
    · cases h

theorem reaches_inv (hk : 0 < k) {hist : List (Return α)} {s : State α (2 ^ k)}
    (run : (machine α (2 ^ k)).Reaches s hist) : Inv hist s := by
  apply run.invariant
  · rintro s ⟨⟨hw, hr, hp, hc⟩, hsem, hflag, hprod, hcons, hstop⟩
    have hnil : s.ring.mem.contents = [] :=
      (SPSCQueue.contents_eq_nil s.ring.mem).mpr (Fin.ext (by rw [hw, hr]))
    refine ⟨⟨by rw [hp]; trivial, by rw [hc]; trivial⟩, ?_, ?_, ?_, ?_, ?_⟩
    · simp [hnil, enqueued, dequeued]
    · simp [hsem, hprod, hcons, hstop, hnil, Dequeue.held, Enqueue.owed, Stop.posted]
    · simp [hprod, hcons, Dequeue.reserved, Enqueue.owed]
    · simp [hstop]
    · simp
  · intro hist s a s' out hi h
    exact step_inv hk hi h

/-! ## What the callers may rely on -/

structure Contract (s : State α (2 ^ k)) (hist : List (Return α)) : Prop where
  /-- `dequeue` returns false only once the flag has been set. -/
  dequeue_false : ∀ a s', step s a = some (s', [.dequeue none]) → s.stopped = true
  /-- Delivered items and occupied cells are the enqueued items, in order. -/
  conserved : dequeued hist ++ s.ring.mem.contents = enqueued hist
  /-- A drain after the last `dequeue` delivers the rest, each item once. -/
  drained : dequeued hist ++ drain (2 ^ k) s.ring.mem = enqueued hist
  /-- A consumer none of whose calls has failed is never left blocked behind an
  item whose `enqueue` completed, nor behind a `stop` that returned. -/
  awake : .dequeue none ∉ hist → s.consumer = .waiting →
    s.producer.owed < s.ring.mem.contents.length ∨ s.stopper = .returned → 0 < s.sem

/-- The flag is stored by `stop` alone, never by a step that returns to a caller. -/
theorem stopped_of_return {s s' : State α N} {a : Action α} {out : List (Return α)}
    (h : step s a = some (s', out)) (hout : out ≠ []) : s'.stopped = s.stopped := by
  cases a <;> simp only [step, producerStep, consumerStep] at h <;> (repeat' split at h) <;>
    cases h <;> first | rfl | exact absurd rfl hout

theorem contract (k : ℕ) {hist : List (Return α)} {s : State α (2 ^ (k + 1))}
    (run : (machine α (2 ^ (k + 1))).Reaches s hist) : Contract s hist := by
  have hi := reaches_inv (Nat.succ_pos k) run
  refine ⟨fun a s' h => ?_, hi.conserved, ?_, fun hno hwait hcause => ?_⟩
  · rw [← stopped_of_return h (by simp)]
    exact (step_inv (Nat.succ_pos k) hi h).gaveUp (by simp)
  · rw [drain_eq_contents _ _ (Nat.le_of_lt s.ring.mem.occupancy_lt), hi.conserved]
  · have htokens := hi.tokens hno
    have hroom := hi.room
    simp only [hwait, Dequeue.held, Dequeue.reserved] at htokens hroom
    rcases hcause with hitem | hstop
    · omega
    · simp only [hstop, Stop.posted] at htokens
      omega

/-- Two items through a ring of four cells, then a `stop` that the consumer sees. -/
theorem contract_four_cells : ∃ (s : State ℕ (2 ^ (1 + 1))) (hist : List (Return ℕ)),
    (machine ℕ (2 ^ (1 + 1))).Reaches s hist ∧
      hist = [.enqueue 5 true, .enqueue 6 true, .dequeue (some 5), .dequeue none] ∧
      drain (2 ^ (1 + 1)) s.ring.mem = [6] ∧ Contract s hist := by
  have run := Machine.reaches_exec (M := machine ℕ (2 ^ (1 + 1)))
    (s := ⟨⟨⟨fun _ => 0, 0, 0⟩, .idle, .idle⟩, 0, false, .idle, .idle, .notCalled⟩)
    [.enqueue 5, .producer, .producer, .producer, .producer,
      .enqueue 6, .producer, .producer, .producer, .producer,
      .dequeue, .consumer, .consumer, .consumer, .consumer, .consumer, .consumer,
      .stop, .stopper, .dequeue, .consumer, .consumer]
    ⟨⟨rfl, rfl, rfl, rfl⟩, rfl, rfl, rfl, rfl, rfl⟩ rfl
  exact ⟨_, _, run, rfl, rfl, contract 1 run⟩

/-- `stop` posts once. A consumer that calls `dequeue` again after the call that
returned false spends that post and blocks although `stop` has returned. -/
theorem blocked_after_second_dequeue : ∃ (s : State ℕ (2 ^ (0 + 1))) (hist : List (Return ℕ)),
    (machine ℕ (2 ^ (0 + 1))).Reaches s hist ∧
      s.consumer = .waiting ∧ s.stopper = .returned ∧ s.sem = 0 := by
  have run := Machine.reaches_exec (M := machine ℕ (2 ^ (0 + 1)))
    (s := ⟨⟨⟨fun _ => 0, 0, 0⟩, .idle, .idle⟩, 0, false, .idle, .idle, .notCalled⟩)
    [.stop, .stopper, .dequeue, .consumer, .consumer, .dequeue]
    ⟨⟨rfl, rfl, rfl, rfl⟩, rfl, rfl, rfl, rfl, rfl⟩ rfl
  exact ⟨_, _, run, rfl, rfl, rfl⟩

end CapyJs.Queue.WorkQueue
