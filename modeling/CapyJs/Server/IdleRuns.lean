import CapyJs.Server.IdleInvariant

/-!
# Connections are closed when they are idle

A connection is closed by its timer when it has been silent for `IDLE_TIMEOUT_MS` and not before,
whatever other connections and other owners of timers do. No callback finds a slot that has gone
back to the pool.
-/
namespace CapyJs.Server.Idle
open Transition Libuv Timer

variable {σ ι : Type*} [DecidableEq σ] [DecidableEq ι] [Fintype σ] [Fintype ι]

theorem toNat_due (last : UInt64) :
    (due last).toNat = min (last.toNat + 60000) (2 ^ 64 - 1) := by
  have hlast := last.toNat_lt
  have hms : idleTimeoutMs.toNat = 60000 := rfl
  have hsum : (last + idleTimeoutMs).toNat = (last.toNat + 60000) % 2 ^ 64 := by
    rw [UInt64.toNat_add, hms]
  simp only [due, UvTimer.start, UInt64.lt_iff_toNat_lt, hsum, hms]
  split_ifs with hwraps
  · rw [show (-1 : UInt64).toNat = 2 ^ 64 - 1 from rfl]
    omega
  · rw [hsum]
    omega

variable [Inhabited σ] {s s' : State σ ι} {hist : List (Event σ)}

theorem inv_of_reaches (hcard : Fintype.card (σ ⊕ ι) < 2 ^ 32)
    (run : (idleTimers σ ι).Reaches s hist) : Inv s ∧ ∀ e ∈ hist, due e.last ≤ e.time := by
  induction run with
  | start h =>
    obtain ⟨hloop, hconn⟩ := h
    have hidle := (toAgenda_of_init hloop).2
    have : Inhabited (σ ⊕ ι) := ⟨.inl default⟩
    exact ⟨⟨keeps_of_init hloop, fun x _ => hidle _, by simp [hconn]⟩, by simp⟩
  | next _ hstep ih =>
    obtain ⟨hinv, hhist⟩ := ih
    obtain ⟨hinv', hout⟩ := hinv.step hcard hstep
    refine ⟨hinv', fun e he => ?_⟩
    obtain he | he := List.mem_append.mp he
    · exact hhist e he
    · exact hout e he

/-- A connection is closed by its timer only after 60 seconds without data. Until then the timer
is armed for that time, and a slot that is not in use has no armed timer. -/
theorem idle_timeouts_due (hcard : Fintype.card (σ ⊕ ι) < 2 ^ 32)
    (run : (idleTimers σ ι).Reaches s hist) :
    (∀ e ∈ hist, min (e.last.toNat + 60000) (2 ^ 64 - 1) ≤ e.time.toNat) ∧
      (∀ x last, s.conn x = some ⟨.connected, last⟩ → s.loop.Armed (.inl x) ∧
        (s.loop.handle (.inl x)).timeout.toNat = min (last.toNat + 60000) (2 ^ 64 - 1)) ∧
      ∀ x, s.conn x = none → ¬s.loop.Armed (.inl x) := by
  obtain ⟨hinv, hhist⟩ := inv_of_reaches hcard run
  refine ⟨fun e he => ?_, fun x last hx => ?_, fun x hx => ?_⟩
  · rw [← toNat_due]
    exact UInt64.le_iff_toNat_le.mp (hhist e he)
  · obtain ⟨hactive, htimeout⟩ := (hinv.timed x _ hx).armed rfl
    refine ⟨by simpa [TimerLoop.Armed, TimerLoop.toAgenda] using hactive, ?_⟩
    rw [← toNat_due]
    exact congrArg UInt64.toNat htimeout
  · have hidle := hinv.unused x hx
    simpa [TimerLoop.Armed, TimerLoop.toAgenda] using hidle

/-- Two slots, and no other owner of timers. -/
def newIdle : State Bool Unit :=
  ⟨⟨0, 0, ⟨none, 0, fun _ => ⟨none, none, none⟩⟩, fun _ => ⟨⟨0, 0, false⟩, 0, none, false⟩, [],
    false⟩, fun _ => none⟩

/-- One of two peers sends data. -/
def twoPeers : List (Label Bool Unit) :=
  [.peerConnected false, .peerConnected true, .updateTime 50000, .data true, .updateTime 60000]

theorem idle_timeouts_due_two_peers : ∃ s hist, (idleTimers Bool Unit).Reaches s hist ∧
    hist.map Event.slot = [false] ∧
    (∀ e ∈ hist, min (e.last.toNat + 60000) (2 ^ 64 - 1) ≤ e.time.toNat) ∧
    s.loop.Armed (.inl true) := by
  have run := Machine.reaches_exec (M := idleTimers Bool Unit) (s := newIdle)
    (twoPeers ++ [.runTimers, .round, .round])
    ⟨⟨rfl, rfl, rfl, rfl, rfl, fun _ => rfl⟩, fun _ => rfl⟩ rfl
  have hdue := idle_timeouts_due (by decide) run
  exact ⟨_, _, run, rfl, hdue.1, (hdue.2.1 true 50000 rfl).1⟩

/-- Nothing that may happen uses a slot that is not in use or closes a timer twice. -/
theorem idle_steps_return (hcard : Fintype.card (σ ⊕ ι) < 2 ^ 32)
    (run : (idleTimers σ ι).Reaches s hist) (hcount : s.loop.timerCounter ≠ -1) (l : Label σ ι) :
    ((idleTimers σ ι).step s l).isSome = true ↔ s.Permits l := by
  obtain ⟨hinv, -⟩ := inv_of_reaches hcard run
  constructor
  · intro hsome
    obtain ⟨⟨s', out⟩, hstep⟩ := Option.isSome_iff_exists.mp hsome
    exact State.permits_of_step hstep
  · intro hl
    obtain ⟨s', out, hstep⟩ := hinv.exists_step hcard hcount hl
    exact Option.isSome_iff_exists.mpr ⟨_, hstep⟩

/-- The timer that has fired is closed after the socket. -/
theorem idle_steps_return_clientClosed : ∃ s hist, (idleTimers Bool Unit).Reaches s hist ∧
    s.Permits (.clientClosed false) ∧
    ((idleTimers Bool Unit).step s (.clientClosed false)).isSome = true := by
  have run := Machine.reaches_exec (M := idleTimers Bool Unit) (s := newIdle)
    (twoPeers ++ [.runTimers, .round, .round])
    ⟨⟨rfl, rfl, rfl, rfl, rfl, fun _ => rfl⟩, fun _ => rfl⟩ rfl
  have hreturns := idle_steps_return (by decide) run (by decide) (.clientClosed false)
  exact ⟨_, _, run, rfl, hreturns.mpr rfl⟩

/-- A pass over the timers closes every connection that has been silent for 60 seconds, unless
its socket is closed for another reason first. -/
theorem idle_connections_closed (hcard : Fintype.card (σ ⊕ ι) < 2 ^ 32)
    (run : (idleTimers σ ι).Reaches s hist) {x : σ} {last : UInt64}
    (hx : s.conn x = some ⟨.connected, last⟩) (hsilent : last.toNat + 60000 ≤ s.loop.time.toNat)
    {labels : List (Label σ ι)} (hl : .closeSocket x ∉ labels) {out : List (Event σ)}
    (hexec : (idleTimers σ ι).exec s (.runTimers :: labels) = some (s', out))
    (hended : s'.loop.running = false) : ∃ e ∈ out, e.slot = x := by
  obtain ⟨hinv, -⟩ := inv_of_reaches hcard run
  obtain ⟨s₁, out₁, out₂, hstep, hrest, rfl⟩ := Machine.of_exec_cons hexec
  obtain ⟨hinv₁, -⟩ := hinv.step hcard hstep
  obtain ⟨-, loop, loopOut, hpass, hreact⟩ := State.of_step hstep
  cases hreact
  obtain ⟨-, hcollect⟩ := TimerLoop.of_exec_one hpass
  obtain ⟨hactive, htimeout⟩ := (hinv.timed x _ hx).armed rfl
  -- no pass is on before this one, so the timer is in the heap
  have hheap : (s.loop.handle (.inl x)).active = true := by
    simpa [TimerLoop.toAgenda, hinv.keeps.ended (TimerLoop.permits_of_step hcollect)] using hactive
  have hdue : (s.loop.handle (.inl x)).timeout ≤ s.loop.time := by
    rw [show (s.loop.handle (.inl x)).timeout = due last from htimeout, UInt64.le_iff_toNat_le,
      toNat_due]
    omega
  obtain ⟨hready, -⟩ := hinv.keeps.collects hheap hdue hcollect
  obtain hwaits | ⟨e, he, hex⟩ := hinv₁.waits hcard hx hready hl hrest
  · obtain ⟨hinv', -⟩ := inv_of_reaches hcard (run.exec hexec)
    rw [hinv'.keeps.ended hended] at hwaits
    cases hwaits
  · exact ⟨e, List.mem_append_right _ he, hex⟩

theorem idle_connections_closed_one_of_two : ∃ s s' hist out,
    (idleTimers Bool Unit).Reaches s hist ∧
    (idleTimers Bool Unit).exec s [.runTimers, .round, .round] = some (s', out) ∧
    s'.conn true = some ⟨.connected, 50000⟩ ∧ ∃ e ∈ out, e.slot = false := by
  have run := Machine.reaches_exec (M := idleTimers Bool Unit) (s := newIdle) twoPeers
    ⟨⟨rfl, rfl, rfl, rfl, rfl, fun _ => rfl⟩, fun _ => rfl⟩ rfl
  refine ⟨_, _, _, _, run, rfl, rfl, ?_⟩
  exact idle_connections_closed (x := false) (by decide) run rfl (by decide) (by simp)
    (show (idleTimers Bool Unit).exec _ (.runTimers :: [.round, .round]) = some (_, _) from rfl)
    (by rfl)

end CapyJs.Server.Idle
