import CapyJs.Transition.Machine
import Mathlib.Data.Int.Notation
import Mathlib.Data.Nat.Notation
import Mathlib.Tactic.Common

/-!
# The signal handle that the servers share

A server takes a reference to the handle for `SIGINT` in `run` and gives one back in its
destructor. Neither call looks whether the other has been made: a server that never ran gives
back a reference of another server, and one that ran twice keeps a reference after its end.
-/
namespace CapyJs.Signal
open Transition

/-- A handle is closed from the call of `uv_close` on. -/
inductive Phase
  | uninit
  | active
  | closed
  deriving DecidableEq, Repr

structure SigEntry where
  handle : Phase
  refcount : ℤ
  active : Bool
  deriving DecidableEq, Repr

structure Server where
  ran : Bool
  destroyed : Bool
  deriving DecidableEq, Repr

/-- The servers that a script has constructed, in order, and the one entry of `signals` that
they use. -/
structure State where
  servers : List Server
  sigint : Option SigEntry
  /-- how often the loop's list of closing handles has the handle -/
  closingHandles : ℕ
  /-- `uv_stop` has been called -/
  stopFlag : Bool
  deriving DecidableEq, Repr

inductive Label
  | construct
  | run (server : ℕ)
  | destroy (server : ℕ)
  | sigint
  | finishClose
  deriving DecidableEq, Repr

inductive Output
  | run (server : ℕ)
  | destroyed (server : ℕ)
  | sigint
  deriving DecidableEq, Repr

/-- The range of an `int`. -/
def fitsInt (n : ℤ) : Bool := -2147483648 ≤ n && n ≤ 2147483647

namespace State

/-- No state when the count overflows. A handle that is still closing is initialised like any
other, so that it is active again and on the list of closing handles. -/
def registerDaemon (s : State) : Option State :=
  -- the subscript inserts an entry for a new key
  let entry := s.sigint.getD ⟨.uninit, 0, false⟩
  if fitsInt (entry.refcount + 1) then
    if entry.refcount + 1 = 1 then some { s with sigint := some ⟨.active, 1, true⟩ }
    else some { s with sigint := some { entry with refcount := entry.refcount + 1 } }
  else none

def deregisterDaemon (s : State) : Option State :=
  match s.sigint with
  | none => some s
  | some entry =>
    if fitsInt (entry.refcount - 1) then
      if entry.refcount - 1 = 0 ∧ entry.active = true then
        some { s with
          sigint := some ⟨.closed, 0, false⟩
          closingHandles := s.closingHandles + 1 }
      else some { s with sigint := some { entry with refcount := entry.refcount - 1 } }
    else none

/-- Without an active handle the signal ends the process. -/
def onSignalCb (s : State) : Option State :=
  match s.sigint with
  | some ⟨.active, refcount, _⟩ =>
    some { s with
      sigint := some ⟨.closed, refcount, false⟩
      closingHandles := s.closingHandles + 1
      stopFlag := true }
  | _ => none

/-- `uv__finish_close` asserts that the handle is closing and has not been finished before. -/
def finishClose (s : State) : Option State :=
  if s.closingHandles = 1 ∧ s.sigint.any (·.handle = .closed) then
    some { s with closingHandles := 0 }
  else none

/-- The calls of `Server` that a script makes for a server that exists. -/
def withServer (s : State) (k : ℕ) (call : Server → Option State) : Option State :=
  match s.servers[k]? with
  | some server => if server.destroyed then none else call server
  | none => none

def step (s : State) : Label → Option (State × List Output)
  | .construct => some ({ s with servers := s.servers ++ [⟨false, false⟩] }, [])
  | .run k =>
    s.withServer k (fun server =>
      { s with servers := s.servers.set k { server with ran := true } }.registerDaemon)
      |>.map (·, [.run k])
  | .destroy k =>
    s.withServer k (fun server =>
      { s with servers := s.servers.set k { server with destroyed := true } }.deregisterDaemon)
      |>.map (·, [.destroyed k])
  | .sigint => s.onSignalCb.map (·, [.sigint])
  | .finishClose => s.finishClose.map (·, [])

/-- A server runs once, not while the handle is still closing, and only a server that ran is
destroyed. A destructor does nothing before the first `run` of any server, and once the signal is
delivered the count may be too large. -/
def paired (s : State) : Label → Bool
  | .run k => s.closingHandles == 0 && (s.stopFlag || !s.servers[k]?.any Server.ran)
  | .destroy k => s.sigint.isNone || s.servers[k]?.any Server.ran
  | _ => true

def running (s : State) : ℕ := s.servers.countP fun server => server.ran && !server.destroyed

end State

def daemon : Machine State Label Output where
  init s := s = ⟨[], none, 0, false⟩
  step := State.step

/-- Until the signal is delivered the handle is active exactly while a server that ran
exists. -/
structure LivesAsNeeded (hist : List Output) (s : State) : Prop where
  active : .sigint ∉ hist →
    ((∃ entry, s.sigint = some entry ∧ entry.handle = .active ∧ entry.active = true) ↔
      ∃ k, .run k ∈ hist ∧ .destroyed k ∉ hist)
  refcount : ∀ entry, s.sigint = some entry → 0 ≤ entry.refcount

/-! ## The count of references -/

/-- The entry for a number of running servers. -/
def Balanced (stopFlag : Bool) (running : ℕ) : Option SigEntry → Prop
  | none => running = 0
  | some entry => running ≤ entry.refcount ∧ (stopFlag = false → entry.refcount = running ∧
      (entry.active = true ↔ 0 < running) ∧ (entry.handle = .active ↔ 0 < running))

theorem Balanced.of_stopped {running running' : ℕ} {entry : SigEntry}
    (h : Balanced true running (some entry)) (hle : running' ≤ running) :
    Balanced true running' (some entry) := by
  refine ⟨?_, nofun⟩
  have hcount := h.1
  omega

/-- The entry that a subscript inserts is that of no server. -/
theorem Balanced.getD {stopFlag : Bool} {running : ℕ} {entry : Option SigEntry}
    (h : Balanced stopFlag running entry) :
    Balanced stopFlag running (some (entry.getD ⟨.uninit, 0, false⟩)) := by
  cases entry with
  | some => exact h
  | none =>
    obtain rfl : running = 0 := h
    simp [Balanced]

theorem registerDaemon_balanced {s s' : State} {running : ℕ} (hcall : s.registerDaemon = some s')
    (h : Balanced s.stopFlag running s.sigint) :
    ∃ entry, s' = { s with sigint := some entry } ∧
      Balanced s.stopFlag (running + 1) (some entry) := by
  simp only [State.registerDaemon, Option.ite_none_right_eq_some] at hcall
  obtain ⟨hcount, hexact⟩ := h.getD
  obtain ⟨-, hcall⟩ := hcall
  generalize s.sigint.getD ⟨.uninit, 0, false⟩ = entry at hcall hcount hexact
  split at hcall
  · next hfirst =>
    cases hcall
    obtain rfl : running = 0 := by omega
    exact ⟨_, rfl, by simp [Balanced]⟩
  · next hlater =>
    cases hcall
    refine ⟨_, rfl, ?_, fun hstop => ?_⟩
    · push_cast
      omega
    · obtain ⟨hrefs, hactive, hhandle⟩ := hexact hstop
      have hpos : 0 < running := by omega
      exact ⟨by push_cast; omega, by simpa [hpos] using hactive, by simpa [hpos] using hhandle⟩

theorem deregisterDaemon_balanced {s s' : State} {running : ℕ} (hcall : s.deregisterDaemon = some s')
    (h : Balanced s.stopFlag (running + 1) s.sigint) :
    ∃ entry closingHandles, s' = { s with sigint := some entry, closingHandles := closingHandles } ∧
      Balanced s.stopFlag running (some entry) := by
  simp only [State.deregisterDaemon] at hcall
  split at hcall
  · next hnone =>
    rw [hnone] at h
    cases h
  · next entry hentry =>
    rw [hentry] at h
    obtain ⟨hcount, hexact⟩ := h
    push_cast at hcount hexact
    rw [Option.ite_none_right_eq_some] at hcall
    obtain ⟨-, hcall⟩ := hcall
    split at hcall
    · next hlast =>
      cases hcall
      obtain rfl : running = 0 := by omega
      exact ⟨_, _, rfl, by simp [Balanced]⟩
    · next hlast =>
      cases hcall
      refine ⟨_, s.closingHandles, rfl, by simp; omega, fun hstop => ?_⟩
      obtain ⟨hrefs, hactive, hhandle⟩ := hexact hstop
      have hentryActive : entry.active = true := hactive.mpr (Nat.succ_pos running)
      have hpos : 0 < running := by
        by_contra hzero
        exact hlast ⟨by omega, hentryActive⟩
      exact ⟨by simp; omega, by simpa [hpos] using hactive, by simpa [hpos] using hhandle⟩

theorem onSignalCb_balanced {s s' : State} {running : ℕ} (hcall : s.onSignalCb = some s')
    (h : Balanced s.stopFlag running s.sigint) :
    ∃ entry closingHandles,
      s' = { s with sigint := some entry, closingHandles := closingHandles, stopFlag := true } ∧
      Balanced true running (some entry) := by
  simp only [State.onSignalCb] at hcall
  split at hcall
  · next refcount active hentry =>
    cases hcall
    rw [hentry] at h
    exact ⟨_, _, rfl, h.1, nofun⟩
  · cases hcall

/-! ## The servers along a run -/

theorem withServer_eq_some {s s' : State} {k : ℕ} {call : Server → Option State} :
    s.withServer k call = some s' ↔
      ∃ server, s.servers[k]? = some server ∧ server.destroyed = false ∧ call server = some s' := by
  unfold State.withServer
  split
  · next server hk => simp [hk]
  · next hk => simp [hk]

/-- What a step can do. -/
inductive Moves (s : State) : Label → State → List Output → Prop
  | construct : Moves s .construct { s with servers := s.servers ++ [⟨false, false⟩] } []
  | run {k : ℕ} {server : Server} {s' : State} (hk : s.servers[k]? = some server)
      (halive : server.destroyed = false)
      (hcall : { s with servers := s.servers.set k { server with ran := true } }.registerDaemon =
        some s') : Moves s (.run k) s' [.run k]
  | destroy {k : ℕ} {server : Server} {s' : State} (hk : s.servers[k]? = some server)
      (halive : server.destroyed = false)
      (hcall : { s with servers := s.servers.set k { server with destroyed := true }
        }.deregisterDaemon = some s') : Moves s (.destroy k) s' [.destroyed k]
  | sigint {s' : State} (hcall : s.onSignalCb = some s') : Moves s .sigint s' [.sigint]
  | finishClose : Moves s .finishClose { s with closingHandles := 0 } []

theorem moves_of_step {s s' : State} {a : Label} {out : List Output}
    (hstep : daemon.step s a = some (s', out)) : Moves s a s' out := by
  cases a with
  | construct =>
    cases hstep
    exact .construct
  | run k =>
    obtain ⟨s₁, hcall, hsame⟩ := Option.map_eq_some_iff.mp hstep
    cases hsame
    obtain ⟨server, hk, halive, hcall⟩ := withServer_eq_some.mp hcall
    exact .run hk halive hcall
  | destroy k =>
    obtain ⟨s₁, hcall, hsame⟩ := Option.map_eq_some_iff.mp hstep
    cases hsame
    obtain ⟨server, hk, halive, hcall⟩ := withServer_eq_some.mp hcall
    exact .destroy hk halive hcall
  | sigint =>
    obtain ⟨s₁, hcall, hsame⟩ := Option.map_eq_some_iff.mp hstep
    cases hsame
    exact .sigint hcall
  | finishClose =>
    obtain ⟨s₁, hcall, hsame⟩ := Option.map_eq_some_iff.mp hstep
    cases hsame
    simp only [State.finishClose, Option.ite_none_right_eq_some, Option.some.injEq] at hcall
    obtain ⟨-, rfl⟩ := hcall
    exact .finishClose

/-- How many servers count as running when one of them changes. -/
theorem running_set {s : State} {k : ℕ} {server : Server} (hk : s.servers[k]? = some server)
    (server' : Server) :
    { s with servers := s.servers.set k server' }.running +
        (if server.ran && !server.destroyed then 1 else 0) =
      s.running + if server'.ran && !server'.destroyed then 1 else 0 := by
  obtain ⟨hlt, rfl⟩ := List.getElem?_eq_some_iff.mp hk
  have hone : (if s.servers[k].ran && !s.servers[k].destroyed then 1 else 0) ≤
      s.servers.countP fun server => server.ran && !server.destroyed := by
    split_ifs with hcounted
    · exact List.countP_pos_iff.mpr ⟨_, List.getElem_mem hlt, hcounted⟩
    · exact Nat.zero_le _
  simp only [State.running, List.countP_set hlt]
  omega

theorem running_run {s : State} {k : ℕ} {server : Server} (hk : s.servers[k]? = some server)
    (halive : server.destroyed = false) :
    { s with servers := s.servers.set k { server with ran := true } }.running =
      if server.ran then s.running else s.running + 1 := by
  have hset := running_set hk { server with ran := true }
  cases hran : server.ran <;> simp [hran, halive] at hset ⊢ <;> omega

theorem running_destroy {s : State} {k : ℕ} {server : Server} (hk : s.servers[k]? = some server)
    (halive : server.destroyed = false) :
    s.running = if server.ran then
      { s with servers := s.servers.set k { server with destroyed := true } }.running + 1
    else { s with servers := s.servers.set k { server with destroyed := true } }.running := by
  have hset := running_set hk { server with destroyed := true }
  cases hran : server.ran <;> simp [hran, halive] at hset ⊢ <;> omega

structure Tracked (hist : List Output) (s : State) : Prop where
  ran : ∀ k, .run k ∈ hist ↔ s.servers[k]?.any Server.ran = true
  destroyed : ∀ k, .destroyed k ∈ hist ↔ s.servers[k]?.any Server.destroyed = true
  delivered : .sigint ∈ hist ↔ s.stopFlag = true
  balanced : Balanced s.stopFlag s.running s.sigint

namespace Tracked
variable {hist : List Output} {s : State}

theorem needed_iff (h : Tracked hist s) :
    (∃ k, .run k ∈ hist ∧ .destroyed k ∉ hist) ↔ 0 < s.running := by
  simp only [h.ran, h.destroyed, State.running, List.countP_pos_iff, List.mem_iff_getElem?]
  constructor
  · rintro ⟨k, hran, hdestroyed⟩
    obtain ⟨server, hk, hran⟩ := (Option.any_eq_true _ _).mp hran
    refine ⟨server, ⟨k, hk⟩, ?_⟩
    simpa [hk, hran] using hdestroyed
  · rintro ⟨server, ⟨k, hk⟩, hserver⟩
    refine ⟨k, ?_⟩
    simpa [hk] using hserver

theorem livesAsNeeded (h : Tracked hist s) : LivesAsNeeded hist s where
  active hsigint := by
    have hstop : s.stopFlag = false := by
      rwa [h.delivered, Bool.not_eq_true] at hsigint
    have hbalanced := h.balanced
    rw [h.needed_iff]
    cases hentry : s.sigint with
    | none =>
      rw [hentry] at hbalanced
      have hzero : s.running = 0 := hbalanced
      simp [hzero]
    | some entry =>
      rw [hentry] at hbalanced
      obtain ⟨-, hactive, hhandle⟩ := hbalanced.2 hstop
      simp [hactive, hhandle]
  refcount entry hentry := by
    have hbalanced := h.balanced
    rw [hentry] at hbalanced
    have hcount := hbalanced.1
    omega

theorem construct (h : Tracked hist s) :
    Tracked hist { s with servers := s.servers ++ [⟨false, false⟩] } := by
  have hget (k : ℕ) (p : Server → Bool) (hp : p ⟨false, false⟩ = false) :
      (s.servers ++ [⟨false, false⟩])[k]?.any p = s.servers[k]?.any p := by
    grind
  constructor
  · intro k
    rw [h.ran, hget k Server.ran rfl]
  · intro k
    rw [h.destroyed, hget k Server.destroyed rfl]
  · exact h.delivered
  · simpa [State.running, List.countP_append] using h.balanced

theorem run (h : Tracked hist s) {s' : State} {k : ℕ} {server : Server}
    (hk : s.servers[k]? = some server) (halive : server.destroyed = false)
    (hcall : { s with servers := s.servers.set k { server with ran := true } }.registerDaemon =
      some s')
    (hpaired : s.paired (.run k) = true) : Tracked (hist ++ [Output.run k]) s' := by
  obtain ⟨entry, rfl, hbalanced⟩ := registerDaemon_balanced hcall h.balanced
  constructor
  · intro j
    simp only [List.mem_append, h.ran, List.mem_singleton, Output.run.injEq]
    grind
  · intro j
    simp only [List.mem_append, h.destroyed, List.mem_singleton, reduceCtorEq, or_false]
    grind
  · simpa using h.delivered
  · show Balanced s.stopFlag
      { s with servers := s.servers.set k { server with ran := true } }.running (some entry)
    rw [running_run hk halive]
    split
    · next hran =>
      simp only [State.paired, Bool.and_eq_true] at hpaired
      have hstop : s.stopFlag = true := by simpa [hk, hran] using hpaired.2
      rw [hstop] at hbalanced ⊢
      exact hbalanced.of_stopped (Nat.le_succ _)
    · exact hbalanced

theorem destroy (h : Tracked hist s) {s' : State} {k : ℕ} {server : Server}
    (hk : s.servers[k]? = some server) (halive : server.destroyed = false)
    (hcall : { s with servers := s.servers.set k { server with destroyed := true }
      }.deregisterDaemon = some s')
    (hpaired : s.paired (.destroy k) = true) : Tracked (hist ++ [Output.destroyed k]) s' := by
  -- the destructor leaves the servers and the stop flag as they are
  have hbalance : s'.servers = s.servers.set k { server with destroyed := true } ∧
      s'.stopFlag = s.stopFlag ∧ Balanced s'.stopFlag s'.running s'.sigint := by
    have hbalanced := h.balanced
    rw [running_destroy hk halive] at hbalanced
    split at hbalanced
    · obtain ⟨entry, closingHandles, rfl, hafter⟩ := deregisterDaemon_balanced hcall hbalanced
      exact ⟨rfl, rfl, hafter⟩
    · next hran =>
      have hnone : s.sigint = none := by simpa [State.paired, hk, hran] using hpaired
      simp only [State.deregisterDaemon, hnone, Option.some.injEq] at hcall
      subst hcall
      rw [hnone] at hbalanced
      exact ⟨rfl, rfl, hbalanced⟩
  obtain ⟨hservers, hstop, hbalanced⟩ := hbalance
  constructor
  · intro j
    simp only [List.mem_append, h.ran, List.mem_singleton, reduceCtorEq, or_false, hservers]
    grind
  · intro j
    simp only [List.mem_append, h.destroyed, List.mem_singleton, Output.destroyed.injEq, hservers]
    grind
  · simpa [hstop] using h.delivered
  · exact hbalanced

theorem step (h : Tracked hist s) {a : Label} {s' : State} {out : List Output}
    (hmoves : Moves s a s' out) (hpaired : s.paired a = true) : Tracked (hist ++ out) s' := by
  cases hmoves with
  | construct =>
    rw [List.append_nil]
    exact h.construct
  | run hk halive hcall => exact h.run hk halive hcall hpaired
  | destroy hk halive hcall => exact h.destroy hk halive hcall hpaired
  | sigint hcall =>
    obtain ⟨entry, closingHandles, rfl, hbalanced⟩ := onSignalCb_balanced hcall h.balanced
    exact ⟨by simpa using h.ran, by simpa using h.destroyed, by simp, hbalanced⟩
  | finishClose =>
    rw [List.append_nil]
    exact ⟨h.ran, h.destroyed, h.delivered, h.balanced⟩

end Tracked

/-! ## The end of the handle -/

/-- A handle on the list of closing handles is there once, and nothing takes it for active. -/
def ClosesOnce (s : State) : Prop :=
  s.closingHandles = 0 ∨
    s.closingHandles = 1 ∧ ∃ entry, s.sigint = some entry ∧ entry.handle = .closed ∧
      entry.active = false

namespace ClosesOnce
variable {s : State}

theorem finishClose (h : ClosesOnce s) (hclosing : s.closingHandles ≠ 0) :
    (s.step .finishClose).isSome = true := by
  rcases h with hnone | ⟨hone, entry, hentry, hclosed, -⟩
  · exact absurd hnone hclosing
  · simp [State.step, State.finishClose, hone, hentry, hclosed]

theorem register (h : s.closingHandles = 0) {s' : State} (hcall : s.registerDaemon = some s') :
    ClosesOnce s' := by
  simp only [State.registerDaemon, Option.ite_none_right_eq_some] at hcall
  obtain ⟨-, hcall⟩ := hcall
  split at hcall <;> cases hcall <;> exact .inl h

theorem deregister (h : ClosesOnce s) {s' : State} (hcall : s.deregisterDaemon = some s') :
    ClosesOnce s' := by
  simp only [State.deregisterDaemon] at hcall
  split at hcall
  · cases hcall
    exact h
  · next entry hentry =>
    rw [Option.ite_none_right_eq_some] at hcall
    obtain ⟨-, hcall⟩ := hcall
    rcases h with hnone | ⟨hone, _, hentry', hclosed, hactive⟩
    · split at hcall <;> cases hcall
      · exact .inr ⟨by simp [hnone], _, rfl, rfl, rfl⟩
      · exact .inl hnone
    · cases hentry.symm.trans hentry'
      simp only [hactive, Bool.false_eq_true, and_false, if_false] at hcall
      cases hcall
      exact .inr ⟨hone, _, rfl, hclosed, rfl⟩

theorem signal (h : ClosesOnce s) {s' : State} (hcall : s.onSignalCb = some s') :
    ClosesOnce s' := by
  simp only [State.onSignalCb] at hcall
  split at hcall
  · next refcount active hentry =>
    cases hcall
    rcases h with hnone | ⟨-, _, hentry', hclosed, -⟩
    · exact .inr ⟨by simp [hnone], _, rfl, rfl, rfl⟩
    · cases hentry.symm.trans hentry'
      cases hclosed
  · cases hcall

theorem step (h : ClosesOnce s) {a : Label} {s' : State} {out : List Output}
    (hmoves : Moves s a s' out) (hpaired : s.paired a = true) : ClosesOnce s' := by
  cases hmoves with
  | construct => exact h
  | run _ _ hcall =>
    simp only [State.paired, Bool.and_eq_true, beq_iff_eq] at hpaired
    refine register ?_ hcall
    exact hpaired.1
  | destroy _ _ hcall =>
    refine deregister ?_ hcall
    exact h
  | sigint hcall => exact h.signal hcall
  | finishClose => exact .inl rfl

end ClosesOnce

/-- When each server runs at most once, none while the handle is still closing, and only servers
that ran are destroyed, the handle is active exactly as long as a server needs it, and the loop
finishes its close without a failed assertion. -/
theorem daemon_livesAsNeeded {s : State} {hist : List Output}
    (run : (daemon.guarded fun s a => s.paired a = true).Reaches s hist) :
    LivesAsNeeded hist s ∧
      (s.closingHandles ≠ 0 → (daemon.step s .finishClose).isSome = true) := by
  have hinv : Tracked hist s ∧ ClosesOnce s := by
    refine run.invariant (I := fun hist s => Tracked hist s ∧ ClosesOnce s) ?_ ?_
    · rintro s rfl
      exact ⟨⟨by simp, by simp, by simp, rfl⟩, .inl rfl⟩
    · intro hist s a s' out h hstep
      obtain ⟨hpaired, hstep⟩ := Machine.guarded_step.mp hstep
      have hmoves := moves_of_step hstep
      exact ⟨h.1.step hmoves hpaired, h.2.step hmoves hpaired⟩
  exact ⟨hinv.1.livesAsNeeded, hinv.2.finishClose⟩

/-- Two servers share the handle, and a third one runs after it has been closed. -/
theorem daemon_livesAsNeeded_three_servers : ∃ s,
    LivesAsNeeded [.run 0, .run 1, .destroyed 0, .destroyed 1, .run 2] s ∧
      s.sigint = some ⟨.active, 1, true⟩ := by
  have run := Machine.reaches_exec (M := daemon.guarded fun s a => s.paired a = true)
    [.construct, .construct, .construct, .run 0, .run 1, .destroy 0, .destroy 1, .finishClose,
      .run 2] rfl rfl
  exact ⟨_, (daemon_livesAsNeeded run).1, rfl⟩

/-- The end of a server that never ran closes the handle of the one that runs, and with none
running takes the count below zero; a server that ran twice leaves the handle active. -/
theorem daemon_not_livesAsNeeded :
    (∃ s, daemon.Reaches s [.run 0, .destroyed 1] ∧ ¬ LivesAsNeeded [.run 0, .destroyed 1] s) ∧
    (∃ s, daemon.Reaches s [.run 0, .destroyed 0, .destroyed 1] ∧
      ¬ LivesAsNeeded [.run 0, .destroyed 0, .destroyed 1] s) ∧
    ∃ s, daemon.Reaches s [.run 0, .run 0, .destroyed 0] ∧
      ¬ LivesAsNeeded [.run 0, .run 0, .destroyed 0] s := by
  refine ⟨⟨⟨[⟨true, false⟩, ⟨false, true⟩], some ⟨.closed, 0, false⟩, 1, false⟩, ?_, ?_⟩,
    ⟨⟨[⟨true, true⟩, ⟨false, true⟩], some ⟨.closed, -1, false⟩, 1, false⟩, ?_, ?_⟩,
    ⟨⟨[⟨true, true⟩], some ⟨.active, 1, true⟩, 0, false⟩, ?_, ?_⟩⟩
  · exact Machine.reaches_exec [.construct, .construct, .run 0, .destroy 1] rfl rfl
  · intro h
    have hactive := h.active
    simp at hactive
  · exact Machine.reaches_exec [.construct, .construct, .run 0, .destroy 0, .destroy 1] rfl rfl
  · intro h
    have hrefcount := h.refcount _ rfl
    simp at hrefcount
  · exact Machine.reaches_exec [.construct, .run 0, .run 0, .destroy 0] rfl rfl
  · intro h
    have hactive := h.active
    simp at hactive

end CapyJs.Signal
