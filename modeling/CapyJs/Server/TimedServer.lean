import CapyJs.Server.IdleRuns
import CapyJs.Server.SlotPhase
import Mathlib.Data.List.FinRange

/-!
# The server with its timers

The server and the idle timers of its slots run together. The timers are shown what each step of
the server does to the slots, and the timer of a slot that fires is an `idleTimeout` of the server.
Both then have every slot in the same phase, and neither keeps the other from a step.
-/
namespace CapyJs.Server

open CapyJs.Http CapyJs.Pool CapyJs.Transition

/-! ## The timers' side -/

namespace Idle
variable {σ ι : Type*}

/-- What has happened to a slot between two phases. -/
def moves (x : σ) : Option Phase → Option Phase → List (Label σ ι)
  | none, some _ => [.peerConnected x]
  | some .connected, some .socketClosing => [.closeSocket x]
  | some .socketClosing, some .timerClosing => [.clientClosed x]
  | some .timerClosing, none => [.idleTimerClosed x]
  | _, _ => []

/-- What a step of the server does to a slot. `on_read_cb` starts the timer before it looks at the
data. -/
def seen (x : σ) (data : Bool) (before after : Option Phase) : List (Label σ ι) :=
  if data then .data x :: moves x before after else moves x before after

/-- The slot of a label, and the phase the slot then has. -/
def Label.target : Label σ ι → Option (σ × Option Phase)
  | .peerConnected x | .data x => some (x, some .connected)
  | .closeSocket x => some (x, some .socketClosing)
  | .clientClosed x => some (x, some .timerClosing)
  | .idleTimerClosed x => some (x, none)
  | .others _ | .updateTime _ | .runTimers | .round => none

variable [DecidableEq σ] [DecidableEq ι] {t t' : State σ ι} {x : σ} {a : Server.Label}
  {q : Option Phase} {out : List (Event σ)}

/-- A slot has come to a phase, and nothing else has happened. -/
structure State.Goes (t : State σ ι) (x : σ) (q : Option Phase) (t' : State σ ι)
    (out : List (Event σ)) : Prop where
  quiet : out = []
  phase : t'.phase = Function.update t.phase x q
  running : t'.loop.running = t.loop.running

theorem State.of_step_target {l : Label σ ι} (hl : l.target = some (x, q))
    (hstep : (idleTimers σ ι).step t l = some (t', out)) : t.Goes x q t' out := by
  obtain ⟨hallows, loop, loopOut, hexec, hreact⟩ := State.of_step hstep
  have hrunning : loop.running = t.loop.running := by
    refine Libuv.TimerLoop.running_of_exec ?_ hexec
    cases l <;> simp [Label.calls, Label.target] at hl ⊢
  have hconn : ∀ c, (({ t with loop } : State σ ι).setConn x c).phase =
      Function.update t.phase x (c.map Conn.phase) := by
    intro c
    funext y
    by_cases hy : y = x
    · subst hy
      simp [State.phase, State.setConn]
    · simp [State.phase, State.setConn, hy]
  cases l with
  | peerConnected y | data y =>
    cases hl
    cases hreact
    exact ⟨rfl, hconn _, hrunning⟩
  | closeSocket y =>
    cases hl
    cases hreact
    obtain ⟨last, hlast⟩ := State.conn_of_phase (of_decide_eq_true hallows)
    refine ⟨rfl, ?_, hrunning⟩
    rw [State.setPhase, hconn, hlast]
    rfl
  | clientClosed y =>
    cases hl
    cases hreact
    obtain ⟨last, hlast⟩ := State.conn_of_allows hallows
    refine ⟨rfl, ?_, hrunning⟩
    rw [State.setPhase, hconn, hlast]
    rfl
  | idleTimerClosed y =>
    cases hl
    cases hreact
    exact ⟨rfl, hconn _, hrunning⟩
  | others | updateTime | runTimers | round => cases hl

theorem exec_one {l : Label σ ι} (hl : l.target = some (x, q))
    (hexec : (idleTimers σ ι).exec t [l] = some (t', out)) : t.Goes x q t' out := by
  obtain ⟨t₁, out₁, out₂, hstep, hnil, rfl⟩ := Machine.of_exec_cons hexec
  cases hnil
  rw [List.append_nil]
  exact State.of_step_target hl hstep

omit [DecidableEq σ] [DecidableEq ι] in
theorem moves_self (x : σ) (p : Option Phase) : (moves x p p : List (Label σ ι)) = [] := by
  rcases p with _ | _ | _ | _ <;> rfl

/-- The timers follow a slot. -/
theorem exec_moves (hmove : PhaseStep a (t.phase x) q)
    (hexec : (idleTimers σ ι).exec t (moves x (t.phase x) q) = some (t', out)) :
    t.Goes x q t' out := by
  generalize hp : t.phase x = p at hmove hexec
  cases hmove with
  | same =>
    rw [moves_self] at hexec
    cases hexec
    exact ⟨rfl, by rw [← hp, Function.update_eq_self], rfl⟩
  | peerConnected | closeSocket | clientClosed | idleTimerClosed => exact exec_one rfl hexec

theorem exec_seen {data : Bool} (hdata : data = true → t.phase x = some .connected)
    (hmove : PhaseStep a (t.phase x) q)
    (hexec : (idleTimers σ ι).exec t (seen x data (t.phase x) q) = some (t', out)) :
    t.Goes x q t' out := by
  cases data with
  | false => exact exec_moves hmove hexec
  | true =>
    obtain ⟨t₁, out₁, out₂, hstep, hrest, rfl⟩ := Machine.of_exec_cons hexec
    obtain ⟨rfl, hphase, hrunning⟩ := State.of_step_target rfl hstep
    have hsame : t₁.phase = t.phase := by rw [hphase, ← hdata rfl, Function.update_eq_self]
    rw [← hsame] at hmove hrest
    obtain ⟨rfl, hphase', hrunning'⟩ := exec_moves hmove hrest
    exact ⟨rfl, hsame ▸ hphase', hrunning'.trans hrunning⟩

omit [DecidableEq ι] in
/-- The other slots are still where they were. -/
theorem State.Goes.others (h : t.Goes x q t' out) {xs : List σ} (hx : x ∉ xs)
    {before : σ → Option Phase} (hbefore : ∀ y ∈ x :: xs, t.phase y = before y) :
    ∀ y ∈ xs, t'.phase y = before y := by
  intro y hy
  have hne : y ≠ x := fun heq => hx (heq ▸ hy)
  rw [h.phase, Function.update_of_ne hne]
  exact hbefore y (List.mem_cons_of_mem x hy)

/-- The timers follow all slots, one after the other. -/
theorem exec_slots {xs : List σ} (hnodup : xs.Nodup) {data : σ → Bool}
    {before after : σ → Option Phase} (hbefore : ∀ x ∈ xs, t.phase x = before x)
    (hdata : ∀ x ∈ xs, data x = true → before x = some .connected)
    (hmoves : ∀ x ∈ xs, PhaseStep a (before x) (after x))
    (hexec : (idleTimers σ ι).exec t (xs.flatMap fun x => seen x (data x) (before x) (after x)) =
      some (t', out)) :
    out = [] ∧ ∀ x, t'.phase x = if x ∈ xs then after x else t.phase x := by
  induction xs generalizing t out with
  | nil =>
    cases hexec
    exact ⟨rfl, by simp⟩
  | cons x xs ih =>
    obtain ⟨hx, hnodup⟩ := List.nodup_cons.mp hnodup
    rw [List.flatMap_cons] at hexec
    obtain ⟨t₁, out₁, out₂, hfirst, hrest, rfl⟩ := Machine.of_exec_append hexec
    have hhead := hbefore x List.mem_cons_self
    rw [← hhead] at hfirst
    have hgoes := exec_seen (fun h => hhead.trans (hdata x List.mem_cons_self h))
      (hhead ▸ hmoves x List.mem_cons_self) hfirst
    obtain ⟨rfl, hafter⟩ := ih hnodup (hgoes.others hx hbefore)
      (fun y hy => hdata y (List.mem_cons_of_mem x hy))
      (fun y hy => hmoves y (List.mem_cons_of_mem x hy)) hrest
    refine ⟨by simp [hgoes.quiet], fun y => ?_⟩
    rw [hafter, hgoes.phase]
    by_cases hy : y = x
    · subst hy
      simp [hx]
    · simp [hy]

/-- The other labels close at most one socket. -/
theorem State.of_step_other {l : Label σ ι} (hl : l.target = none)
    (hstep : (idleTimers σ ι).step t l = some (t', out)) :
    out = [] ∧ t'.phase = t.phase ∨
      l = .round ∧ ∃ e, out = [e] ∧ t.phase e.slot = some .connected ∧
        t'.phase = Function.update t.phase e.slot (some .socketClosing) := by
  obtain ⟨-, loop, loopOut, -, hreact⟩ := State.of_step hstep
  cases l with
  | peerConnected | data | closeSocket | clientClosed | idleTimerClosed => cases hl
  | others | updateTime | runTimers =>
    cases hreact
    exact .inl ⟨rfl, rfl⟩
  | round =>
    have hround : ({ t with loop } : State σ ι).afterRound loopOut = some (t', out) := hreact
    unfold State.afterRound at hround
    split at hround
    · next x _ _ _ time =>
      unfold State.onIdleTimeout at hround
      split at hround
      · next last hconn =>
        have hconn : t.conn x = some ⟨.connected, last⟩ := hconn
        cases hround
        refine .inr ⟨rfl, _, rfl, by simp [State.phase, hconn], ?_⟩
        funext y
        by_cases hy : y = x
        · subst hy
          simp [State.phase, State.setPhase, State.setConn, hconn]
        · simp [State.phase, State.setPhase, State.setConn, hy]
      · cases hround
        exact .inl ⟨rfl, rfl⟩
      · cases hround
      · cases hround
    · cases hround
      exact .inl ⟨rfl, rfl⟩

section
variable [Fintype σ] [Fintype ι]

theorem exists_exec_one (h : Inv t) (hcard : Fintype.card (σ ⊕ ι) < 2 ^ 32)
    (hcount : t.loop.timerCounter ≠ -1) {l : Label σ ι} (hl : t.Permits l) :
    ∃ r, (idleTimers σ ι).exec t [l] = some r := by
  obtain ⟨t', out, hstep⟩ := h.exists_step hcard hcount hl
  exact ⟨_, Machine.exec_cons hstep rfl⟩

/-- The timers are not in the way of what happens to a slot. To close a socket takes no call. -/
theorem exists_exec_moves (h : Inv t) (hcard : Fintype.card (σ ⊕ ι) < 2 ^ 32)
    (hmove : PhaseStep a (t.phase x) q) (hloop : a.fromJs = false → t.loop.running = false)
    (hcount : t.phase x = some .connected ∨ t.loop.timerCounter ≠ -1) :
    ∃ r, (idleTimers σ ι).exec t (moves x (t.phase x) q) = some r := by
  generalize hp : t.phase x = p at hmove hcount
  cases hmove with
  | same =>
    rw [moves_self]
    exact ⟨_, rfl⟩
  | closeSocket =>
    have hstep : (idleTimers σ ι).step t (.closeSocket x) =
        some (t.setPhase x .socketClosing, []) := by
      simp [idleTimers, State.step, State.allows, hp, Label.calls, Machine.exec, State.react]
    exact ⟨_, Machine.exec_cons hstep rfl⟩
  | peerConnected ha | clientClosed ha | idleTimerClosed ha =>
    refine exists_exec_one h hcard (hcount.resolve_left (by simp)) ?_
    simp [State.Permits, State.allows, hp, hloop ha]

theorem exists_exec_seen (h : Inv t) (hcard : Fintype.card (σ ⊕ ι) < 2 ^ 32) {data : Bool}
    (hdata : data = true → t.phase x = some .connected ∧ a.fromJs = false)
    (hmove : PhaseStep a (t.phase x) q) (hloop : a.fromJs = false → t.loop.running = false)
    (hcount : t.loop.timerCounter ≠ -1) :
    ∃ r, (idleTimers σ ι).exec t (seen x data (t.phase x) q) = some r := by
  cases data with
  | false => exact exists_exec_moves h hcard hmove hloop (.inr hcount)
  | true =>
    obtain ⟨hopen, ha⟩ := hdata rfl
    have hpermits : t.Permits (.data x) := by
      simp [State.Permits, State.allows, hopen, hloop ha]
    obtain ⟨t₁, out₁, hstep⟩ := h.exists_step hcard hcount hpermits
    obtain ⟨-, hphase, hrunning⟩ := State.of_step_target rfl hstep
    have hsame : t₁.phase = t.phase := by rw [hphase, ← hopen, Function.update_eq_self]
    rw [← hsame] at hmove hopen ⊢
    obtain ⟨r, hrest⟩ := exists_exec_moves (h.step hcard hstep).1 hcard hmove
      (fun ha => hrunning.trans (hloop ha)) (.inl hopen)
    exact ⟨_, Machine.exec_cons hstep hrest⟩

/-- The number of the starts of timers does not fit before all labels are taken. -/
def Wraps (t : State σ ι) (labels : List (Label σ ι)) : Prop :=
  ∃ taken t₁ out, taken <+: labels ∧ (idleTimers σ ι).exec t taken = some (t₁, out) ∧
    t₁.loop.timerCounter = -1

theorem exists_exec_slots (h : Inv t) (hcard : Fintype.card (σ ⊕ ι) < 2 ^ 32) {xs : List σ}
    (hnodup : xs.Nodup) {data : σ → Bool} {before after : σ → Option Phase}
    (hbefore : ∀ x ∈ xs, t.phase x = before x)
    (hdata : ∀ x ∈ xs, data x = true → before x = some .connected ∧ a.fromJs = false)
    (hmoves : ∀ x ∈ xs, PhaseStep a (before x) (after x))
    (hloop : a.fromJs = false → t.loop.running = false) :
    (∃ r, (idleTimers σ ι).exec t
      (xs.flatMap fun x => seen x (data x) (before x) (after x)) = some r) ∨
      Wraps t (xs.flatMap fun x => seen x (data x) (before x) (after x)) := by
  induction xs generalizing t with
  | nil => exact .inl ⟨_, rfl⟩
  | cons x xs ih =>
    obtain ⟨hx, hnodup⟩ := List.nodup_cons.mp hnodup
    have hhead := hbefore x List.mem_cons_self
    have hmove := hmoves x List.mem_cons_self
    have hdatum := hdata x List.mem_cons_self
    rw [List.flatMap_cons]
    rw [← hhead] at hmove hdatum ⊢
    by_cases hcount : t.loop.timerCounter = -1
    · exact .inr ⟨[], t, [], List.nil_prefix, rfl, hcount⟩
    · obtain ⟨⟨t₁, out₁⟩, hfirst⟩ := exists_exec_seen h hcard hdatum hmove hloop hcount
      have hgoes := exec_seen (fun hd => (hdatum hd).1) hmove hfirst
      have hinv : Inv t₁ := Machine.exec_invariant (I := Inv)
        (fun _ _ _ _ h hstep => (h.step hcard hstep).1) hfirst h
      rcases ih hinv hnodup (hgoes.others hx hbefore)
        (fun y hy => hdata y (List.mem_cons_of_mem x hy))
        (fun y hy => hmoves y (List.mem_cons_of_mem x hy))
        (fun ha => hgoes.running.trans (hloop ha))
        with ⟨r, hrest⟩ | ⟨taken, t₂, out₂, htaken, hrest, hwraps⟩
      · exact .inl ⟨_, Machine.exec_trans hfirst hrest⟩
      · exact .inr ⟨_, t₂, _, (List.prefix_append_right_inj _).mpr htaken,
          Machine.exec_trans hfirst hrest, hwraps⟩

end
end Idle

/-! ## Both together -/

/-- `on_read_cb` has data for the connection in a slot. -/
def State.receives (s : State) (i : ℕ) : Label → Bool
  | .read (.data _) _ _ => s.handed.any (·.client == i)
  | _ => false

structure TimedState (m : ℕ) (ι : Type*) where
  server : State
  timers : Idle.State (Fin m) ι

inductive TimedLabel (m : ℕ) (ι : Type*)
  | server (a : Label)
  | timers (l : Idle.Label (Fin m) ι)

inductive TimedOutput (m : ℕ)
  | server (o : Output)
  | timeout (e : Idle.Event (Fin m))

def TimedOutput.ofServer {m : ℕ} : TimedOutput m → Option Output
  | .server o => some o
  | .timeout _ => none

def TimedOutput.ofTimers {m : ℕ} : TimedOutput m → Option (Idle.Event (Fin m))
  | .server _ => none
  | .timeout e => some e

namespace TimedState
variable {m : ℕ} {ι : Type*}

/-- What the timers see of a step of the server. -/
def shown (s : State) (a : Label) (s' : State) : List (Idle.Label (Fin m) ι) :=
  (List.finRange m).flatMap fun x =>
    Idle.seen x (s.receives x a) (s.idlePhase x) (s'.idlePhase x)

/-- Idle timeouts are left to the timers. While a pass over the timers is on, only JS code that is
called from another timer uses the server. -/
def admits (p : TimedState m ι) : Label → Bool
  | .idleTimeout _ => false
  | a => a.fromJs || !p.timers.loop.running

/-- JS code uses its own timers at any time, and the loop looks at the timers between events. -/
def admitsTimers (p : TimedState m ι) : Idle.Label (Fin m) ι → Bool
  | .others _ => true
  | .updateTime _ | .runTimers | .round => decide p.server.Idle
  | _ => false

variable [DecidableEq ι]

def step (parse : Text → PhrResult) (p : TimedState m ι) :
    TimedLabel m ι → Option (TimedState m ι × List (TimedOutput m))
  | .server a =>
    if p.admits a then
      (p.server.step parse a).bind fun r =>
        ((Idle.idleTimers (Fin m) ι).exec p.timers (shown p.server a r.1)).map fun q =>
          (⟨r.1, q.1⟩, r.2.map TimedOutput.server ++ q.2.map TimedOutput.timeout)
    else none
  | .timers l =>
    if p.admitsTimers l then
      ((Idle.idleTimers (Fin m) ι).step p.timers l).bind fun r =>
        ((machine parse).exec p.server (r.2.map fun e => .idleTimeout e.slot)).map fun q =>
          (⟨q.1, r.1⟩, q.2.map TimedOutput.server ++ r.2.map TimedOutput.timeout)
    else none

end TimedState

/-- A server with `m` slots, and the timers of other owners. -/
def timedServer (parse : Text → PhrResult) (m : ℕ) (ι : Type*) [DecidableEq ι] :
    Machine (TimedState m ι) (TimedLabel m ι) (TimedOutput m) where
  init p := p.server.Initial ∧ p.server.clients.capacity = m ∧
    (Idle.idleTimers (Fin m) ι).init p.timers
  step := TimedState.step parse

namespace TimedState
variable {parse : Text → PhrResult} {m : ℕ} {ι : Type*} [DecidableEq ι] {p p' : TimedState m ι}
  {hist out : List (TimedOutput m)} {a : Label} {l : Idle.Label (Fin m) ι}

/-- Each of the two is on a run of its own, and they agree about the slots. -/
structure Follows (parse : Text → PhrResult) (hist : List (TimedOutput m)) (p : TimedState m ι) :
    Prop where
  server : (machine parse).Reaches p.server (hist.filterMap TimedOutput.ofServer)
  timers : (Idle.idleTimers (Fin m) ι).Reaches p.timers (hist.filterMap TimedOutput.ofTimers)
  phase : ∀ x : Fin m, p.timers.phase x = p.server.idlePhase x
  capacity : p.server.clients.capacity = m

theorem ofServer_map (out : List Output) (events : List (Idle.Event (Fin m))) :
    (out.map TimedOutput.server ++ events.map TimedOutput.timeout).filterMap
      TimedOutput.ofServer = out := by
  simp [List.filterMap_map, Function.comp_def, TimedOutput.ofServer]

theorem ofTimers_map (out : List Output) (events : List (Idle.Event (Fin m))) :
    (out.map TimedOutput.server ++ events.map TimedOutput.timeout).filterMap
      TimedOutput.ofTimers = events := by
  simp [List.filterMap_map, Function.comp_def, TimedOutput.ofTimers]

theorem receives_spec {hist : List Output} {s : State} {i : ℕ} (hi : Settled hist s)
    (h : s.receives i a = true) : s.idlePhase i = some .connected ∧ a.fromJs = false := by
  unfold State.receives at h
  split at h
  · obtain ⟨handed, hh, hclient⟩ := (Option.any_eq_true _ _).mp h
    obtain rfl : handed.client = i := beq_iff_eq.mp hclient
    exact ⟨hi.idlePhase_of_handed hh, rfl⟩
  · cases h

namespace Follows

theorem of_init (h : (timedServer parse m ι).init p) : Follows parse [] p := by
  obtain ⟨hserver, hcapacity, htimers⟩ := h
  refine ⟨.start hserver, .start htimers, fun x => ?_, hcapacity⟩
  obtain ⟨_, clientJunk, _, _, hclients, -, -⟩ := hserver.pools
  simp [Idle.State.phase, htimers.2 x, State.idlePhase, MemPool.live_new hclients]

theorem server_step (h : Follows parse hist p)
    (hs : p.step parse (.server a) = some (p', out)) : Follows parse (hist ++ out) p' := by
  obtain ⟨-, hs⟩ := Option.ite_none_right_eq_some.mp hs
  obtain ⟨⟨s', serverOut⟩, hserver, hs⟩ := Option.bind_eq_some_iff.mp hs
  obtain ⟨⟨t', timersOut⟩, htimers, heq⟩ := Option.map_eq_some_iff.mp hs
  cases heq
  obtain ⟨hi, hreads⟩ := reaches_handedReads h.server
  obtain ⟨-, hphase⟩ := Idle.exec_slots (List.nodup_finRange m) (fun x _ => h.phase x)
    (fun x _ hx => (receives_spec hi hx).1) (fun x _ => hi.phaseStep hreads hserver x) htimers
  constructor
  · rw [List.filterMap_append, ofServer_map]
    exact h.server.next hserver
  · rw [List.filterMap_append, ofTimers_map]
    exact h.timers.exec htimers
  · intro x
    simpa using hphase x
  · exact (State.place_step hi.inv.clients.wf hserver).1.trans h.capacity

theorem timers_step (h : Follows parse hist p)
    (hs : p.step parse (.timers l) = some (p', out)) : Follows parse (hist ++ out) p' := by
  obtain ⟨hadmits, hs⟩ := Option.ite_none_right_eq_some.mp hs
  obtain ⟨⟨t', timersOut⟩, htimers, hs⟩ := Option.bind_eq_some_iff.mp hs
  obtain ⟨⟨s', serverOut⟩, hserver, heq⟩ := Option.map_eq_some_iff.mp hs
  cases heq
  have hother : l.target = none := by cases l <;> first | rfl | cases hadmits
  have hslots : (∀ x : Fin m, t'.phase x = s'.idlePhase x) ∧ s'.clients.capacity = m := by
    rcases Idle.State.of_step_other hother htimers with ⟨rfl, hphase⟩ | ⟨-, e, rfl, -, hphase⟩
    · cases hserver
      exact ⟨hphase ▸ h.phase, h.capacity⟩
    · obtain ⟨s₁, out₁, out₂, hstep, hnil, -⟩ := Machine.of_exec_cons hserver
      cases hnil
      have hstep : p.server.step parse (.idleTimeout e.slot) = some (s', out₁) := hstep
      have hwf := (reaches_settled h.server).inv.clients.wf
      refine ⟨fun x => ?_, (State.place_step hwf hstep).1.trans h.capacity⟩
      rw [State.idlePhase_idleTimeout hwf hstep, hphase]
      by_cases hx : x = e.slot
      · subst hx
        simp
      · rw [Function.update_of_ne hx, if_neg (Fin.val_ne_of_ne hx)]
        exact h.phase x
  refine ⟨?_, ?_, hslots.1, hslots.2⟩
  · rw [List.filterMap_append, ofServer_map]
    exact h.server.exec hserver
  · rw [List.filterMap_append, ofTimers_map]
    exact h.timers.next htimers

theorem of_reaches (run : (timedServer parse m ι).Reaches p hist) : Follows parse hist p := by
  refine run.invariant (fun p => of_init) ?_
  intro hist p l p' out h hs
  cases l with
  | server a => exact h.server_step hs
  | timers l => exact h.timers_step hs

/-- The timers are in the way of no step of the server. -/
theorem exists_server_step [Fintype ι] [NeZero m] (h : Follows parse hist p)
    (hcard : Fintype.card (Fin m ⊕ ι) < 2 ^ 32) (ha : p.admits a = true)
    {r : State × List Output} (hserver : (machine parse).step p.server a = some r) :
    (p.step parse (.server a)).isSome = true ∨ Idle.Wraps p.timers (shown p.server a r.1) := by
  obtain ⟨hi, hreads⟩ := reaches_handedReads h.server
  obtain ⟨hinv, -⟩ := Idle.inv_of_reaches hcard h.timers
  have hloop : a.fromJs = false → p.timers.loop.running = false := by
    intro hjs
    cases a <;> simp_all [admits, Label.fromJs]
  rcases Idle.exists_exec_slots hinv hcard (List.nodup_finRange m) (fun x _ => h.phase x)
    (fun x _ hx => receives_spec hi hx) (fun x _ => hi.phaseStep hreads hserver x) hloop
    with ⟨q, hexec⟩ | hwraps
  · left
    have hserver : p.server.step parse a = some r := hserver
    have hexec : (Idle.idleTimers (Fin m) ι).exec p.timers (shown p.server a r.1) = some q := hexec
    simp [step, ha, hserver, hexec]
  · exact .inr hwraps

/-- The server is in the way of no step of the timers. -/
theorem exists_timers_step (h : Follows parse hist p) (hl : p.admitsTimers l = true)
    {r : Idle.State (Fin m) ι × List (Idle.Event (Fin m))}
    (htimers : (Idle.idleTimers (Fin m) ι).step p.timers l = some r) :
    (p.step parse (.timers l)).isSome = true := by
  obtain ⟨t', events⟩ := r
  have hother : l.target = none := by cases l <;> first | rfl | cases hl
  suffices hexec : ∃ q, (machine parse).exec p.server
      (events.map fun e => .idleTimeout e.slot) = some q by
    obtain ⟨q, hexec⟩ := hexec
    simp [step, hl, htimers, hexec]
  rcases Idle.State.of_step_other hother htimers with ⟨rfl, -⟩ | ⟨rfl, e, rfl, hopen, -⟩
  · exact ⟨_, rfl⟩
  · have hidle : p.server.Idle := of_decide_eq_true hl
    rw [h.phase] at hopen
    obtain ⟨s', hstep⟩ := (reaches_settled h.server).exists_idleTimeout hidle hopen
    exact ⟨_, Machine.exec_cons (M := machine parse) hstep rfl⟩

end Follows

end TimedState

/-- The server and its timers are each on a run of their own and have every slot in the same
phase, so that the timer of every open connection is armed. Neither keeps the other from a step,
as long as the number of the starts of timers fits. -/
theorem timedServer_follows {parse : Text → PhrResult} {m : ℕ} [NeZero m] {ι : Type*}
    [DecidableEq ι] [Fintype ι] (hcard : Fintype.card (Fin m ⊕ ι) < 2 ^ 32) {p : TimedState m ι}
    {hist : List (TimedOutput m)} (run : (timedServer parse m ι).Reaches p hist) :
    p.Follows parse hist ∧
      (∀ i c, p.server.clients.live i = some c → c.socket.phase = .active →
        ∃ x : Fin m, x.val = i ∧ p.timers.loop.Armed (.inl x)) ∧
      (∀ a r, p.admits a = true → (machine parse).step p.server a = some r →
        ((timedServer parse m ι).step p (.server a)).isSome = true ∨
          Idle.Wraps p.timers (TimedState.shown p.server a r.1)) ∧
      ∀ l r, p.admitsTimers l = true → (Idle.idleTimers (Fin m) ι).step p.timers l = some r →
        ((timedServer parse m ι).step p (.timers l)).isSome = true := by
  have h := TimedState.Follows.of_reaches run
  refine ⟨h, fun i c hlive hactive => ?_, fun a r ha hs => h.exists_server_step hcard ha hs,
    fun l r hl hs => h.exists_timers_step hl hs⟩
  have hlt := MemPool.lt_capacity_of_live (reaches_settled h.server).inv.clients.wf hlive
  obtain ⟨x, rfl⟩ : ∃ x : Fin m, x.val = i := ⟨⟨i, h.capacity ▸ hlt⟩, rfl⟩
  have hphase : p.timers.phase x = some .connected := by
    rw [h.phase, State.idlePhase, hlive, Option.map_some, ClientState.idlePhase_of_active hactive]
  obtain ⟨last, hconn⟩ := Idle.State.conn_of_phase hphase
  obtain ⟨hinv, -⟩ := Idle.inv_of_reaches hcard h.timers
  obtain ⟨harmed, -⟩ := (hinv.timed x _ hconn).armed rfl
  exact ⟨x, rfl, by simpa [Libuv.TimerLoop.Armed, Libuv.TimerLoop.toAgenda] using harmed⟩

/-- Two slots, and no other owner of timers. -/
def twoTimers : Idle.State (Fin 2) Unit :=
  ⟨⟨0, 0, ⟨none, 0, fun _ => ⟨none, none, none⟩⟩, fun _ => ⟨⟨0, 0, false⟩, 0, none, false⟩, [],
    false⟩, fun _ => none⟩

/-- One of two peers sends a request. -/
def oneSilentPeer : List (TimedLabel 2 Unit) :=
  [.server (.peerConnected true true), .server (.peerConnected true true),
    .timers (.updateTime 50000), .server (.allocBuffer 1),
    .server (.read (.data getRoot) true true), .timers (.updateTime 60000), .timers .runTimers,
    .timers .round, .timers .round]

theorem timedServer_follows_oneSilentPeer : ∃ p hist,
    (timedServer parseGetRoot 2 Unit).Reaches p hist ∧
    (hist.filterMap TimedOutput.ofTimers).map (fun e => e.slot.val) = [0] ∧
    p.server.idlePhase 0 = some .socketClosing ∧ p.server.idlePhase 1 = some .connected ∧
    (∃ x : Fin 2, x.val = 1 ∧ p.timers.loop.Armed (.inl x)) ∧ p.Follows parseGetRoot hist := by
  have run := Machine.reaches_exec (M := timedServer parseGetRoot 2 Unit)
    (s := ⟨twoConnections, twoTimers⟩) oneSilentPeer
    ⟨twoConnections_initial, rfl, ⟨rfl, rfl, rfl, rfl, rfl, fun _ => rfl⟩, fun _ => rfl⟩ rfl
  have hfollows := timedServer_follows (by decide) run
  exact ⟨_, _, run, rfl, rfl, rfl, hfollows.2.1 1 _ rfl rfl, hfollows.1⟩

end CapyJs.Server
