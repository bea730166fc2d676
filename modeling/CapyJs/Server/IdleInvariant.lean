import CapyJs.Libuv.TimerSteps
import CapyJs.Server.IdleTimer
import Mathlib.Data.Fintype.Sum

/-!
# The timer of an open connection is armed

It is armed for the time when the connection will have been silent for `IDLE_TIMEOUT_MS`. It stays
started while the socket closes, and is stopped before the slot goes back to the pool.
-/
namespace CapyJs.Server.Idle
open Transition Libuv Timer

/-! ## The timer of a connection -/

/-- When a timer that was started at that time is due. -/
def due (last : UInt64) : UInt64 := (UvTimer.start last idleTimeoutMs idleTimeoutMs).timeout

/-- The timer is what the phase of its connection makes it. While the socket closes it may still
fire, and is then armed again. -/
structure Timed (c : Conn) (h : TimerHandle) : Prop where
  started : c.phase ≠ .timerClosing →
    h.callback = some onIdleTimeoutCb ∧ h.repeatMs = idleTimeoutMs ∧ h.closing = false
  armed : c.phase = .connected → h.active = true ∧ h.timeout = due c.last
  stopped : c.phase = .timerClosing → h.active = false

theorem Timed.of_start {h : TimerHandle} (hopen : h.closing = false) (time counter : UInt64) :
    Timed ⟨.connected, time⟩
      (h.start time counter onIdleTimeoutCb idleTimeoutMs idleTimeoutMs) := by
  refine ⟨fun _ => ?_, fun _ => ?_, by simp⟩
  · simp [TimerHandle.start, UvTimer.start, hopen]
  · simp [TimerHandle.start, UvTimer.start, due]

theorem Timed.socketClosing {last : UInt64} {h : TimerHandle} (ht : Timed ⟨.connected, last⟩ h) :
    Timed ⟨.socketClosing, last⟩ h :=
  ⟨fun _ => ht.started (by simp), by simp, by simp⟩

variable {σ ι : Type*} [DecidableEq σ] [DecidableEq ι] [Fintype σ] [Fintype ι]

structure Inv (s : State σ ι) : Prop where
  keeps : s.loop.Keeps
  unused : ∀ x, s.conn x = none → (s.loop.toAgenda.handle (.inl x)).active = false
  timed : ∀ x c, s.conn x = some c → Timed c (s.loop.toAgenda.handle (.inl x))

namespace Inv
variable {s s' : State σ ι} {loop : TimerLoop (σ ⊕ ι)} {x : σ}

theorem setLoop (h : Inv s) (hkeeps : loop.Keeps)
    (hsame : ∀ x, loop.toAgenda.handle (.inl x) = s.loop.toAgenda.handle (.inl x)) :
    Inv { s with loop } := by
  refine ⟨hkeeps, fun x hx => ?_, fun x c hx => ?_⟩
  · rw [hsame]
    exact h.unused x hx
  · rw [hsame]
    exact h.timed x c hx

/-- One connection changes, and its timer with it. -/
theorem setConn (h : Inv s) (hkeeps : loop.Keeps)
    (hother : ∀ y, y ≠ x → loop.toAgenda.handle (.inl y) = s.loop.toAgenda.handle (.inl y))
    {c : Option Conn} (hunused : c = none → (loop.toAgenda.handle (.inl x)).active = false)
    (htimed : ∀ d, c = some d → Timed d (loop.toAgenda.handle (.inl x))) :
    Inv (({ s with loop } : State σ ι).setConn x c) := by
  refine ⟨hkeeps, fun y hy => ?_, fun y d hy => ?_⟩
  · by_cases hyx : y = x
    · subst hyx
      exact hunused (by simpa [State.setConn] using hy)
    · change (loop.toAgenda.handle (.inl y)).active = false
      rw [hother y hyx]
      exact h.unused y (by simpa [State.setConn, hyx] using hy)
  · by_cases hyx : y = x
    · subst hyx
      exact htimed d (by simpa [State.setConn] using hy)
    · change Timed d (loop.toAgenda.handle (.inl y))
      rw [hother y hyx]
      exact h.timed y d (by simpa [State.setConn, hyx] using hy)

end Inv

omit [Fintype σ] [Fintype ι] in
theorem State.of_step {s s' : State σ ι} {l : Label σ ι} {out : List (Event σ)}
    (hstep : (idleTimers σ ι).step s l = some (s', out)) :
    s.allows l = true ∧ ∃ loop loopOut,
      (countedTimers (σ ⊕ ι)).exec s.loop l.calls = some (loop, loopOut) ∧
      ({ s with loop } : State σ ι).react loopOut l = some (s', out) := by
  obtain ⟨hallows, hstep⟩ := Option.ite_none_right_eq_some.mp hstep
  obtain ⟨⟨loop, loopOut⟩, hexec, hreact⟩ := Option.bind_eq_some_iff.mp hstep
  exact ⟨hallows, loop, loopOut, hexec, hreact⟩

/-- What a label needs to be taken. -/
def State.Permits (s : State σ ι) : Label σ ι → Prop
  | .others l => foreign l = true ∧ s.loop.Permits l
  | .updateTime time => s.loop.Permits (.updateTime time)
  | .runTimers => s.loop.Permits .runTimers
  | .round => s.loop.Permits .round
  | l => s.allows l = true

omit [Fintype σ] [Fintype ι] in
theorem State.permits_of_step {s s' : State σ ι} {l : Label σ ι} {out : List (Event σ)}
    (hstep : (idleTimers σ ι).step s l = some (s', out)) : s.Permits l := by
  obtain ⟨hallows, loop, loopOut, hexec, -⟩ := State.of_step hstep
  have hone : ∀ {call}, (countedTimers (σ ⊕ ι)).exec s.loop [call] = some (loop, loopOut) →
      s.loop.Permits call := by
    intro call hexec
    exact TimerLoop.permits_of_step (TimerLoop.of_exec_one hexec).2
  cases l with
  | others l => exact ⟨hallows, hone hexec⟩
  | updateTime | runTimers | round => exact hone hexec
  | _ => exact hallows

/-! ## Steps -/

section
variable {loop loop' : TimerLoop (σ ⊕ ι)} {loopOut : List (TimerEvent (σ ⊕ ι))} {x : σ}

theorem exec_peerConnected (h : loop.Keeps) (hcard : Fintype.card (σ ⊕ ι) < 2 ^ 32)
    (hexec : (countedTimers (σ ⊕ ι)).exec loop (Label.calls (.peerConnected x)) =
      some (loop', loopOut)) :
    Timed ⟨.connected, loop'.time⟩ (loop'.toAgenda.handle (.inl x)) := by
  obtain ⟨loop₁, _, _, hinit, hrest, rfl⟩ := Machine.of_exec_cons hexec
  obtain ⟨hcount, hinit⟩ := Machine.guarded_step.mp hinit
  obtain ⟨hcount₁, hstart⟩ := TimerLoop.of_exec_one hrest
  have h₁ := h.of_step hcount hcard hinit
  obtain ⟨-, hinit⟩ := Option.ite_none_left_eq_some.mp hinit
  cases hinit
  obtain ⟨loop₃, code, hstart₃, hframe, -, hagenda⟩ :=
    h₁.start hcount₁ hcard (.inl x) (some onIdleTimeoutCb) idleTimeoutMs idleTimeoutMs
  obtain ⟨_, hstart₄, heq⟩ := Option.map_eq_some_iff.mp hstart
  cases hstart₃.symm.trans hstart₄
  cases heq
  have hopen : ((loop.setHandle (.inl x) (loop.handle (.inl x)).init).toAgenda.handle
      (.inl x)).closing = false := by
    simp [TimerLoop.toAgenda, TimerLoop.setHandle, TimerHandle.init]
  change Timed ⟨.connected, loop₃.time⟩ (loop₃.toAgenda.handle (.inl x))
  rw [show loop₃.toAgenda = _ from congrArg Prod.fst hagenda, Agenda.handle_start_self hopen,
    hframe.time]
  exact .of_start hopen ..

theorem exec_data (h : loop.Keeps) (hcard : Fintype.card (σ ⊕ ι) < 2 ^ 32) {last : UInt64}
    (htimed : Timed ⟨.connected, last⟩ (loop.toAgenda.handle (.inl x)))
    (hexec : (countedTimers (σ ⊕ ι)).exec loop (Label.calls (.data x)) = some (loop', loopOut)) :
    Timed ⟨.connected, loop'.time⟩ (loop'.toAgenda.handle (.inl x)) := by
  obtain ⟨hcount, hagain⟩ := TimerLoop.of_exec_one hexec
  obtain ⟨loop₂, code, hagain₂, hframe, -, hagenda⟩ := h.again hcount hcard (.inl x)
  obtain ⟨_, hagain₃, heq⟩ := Option.map_eq_some_iff.mp hagain
  cases hagain₂.symm.trans hagain₃
  cases heq
  obtain ⟨hcallback, hrepeat, hopen⟩ := htimed.started (by simp)
  change Timed ⟨.connected, loop₂.time⟩ (loop₂.toAgenda.handle (.inl x))
  rw [show loop₂.toAgenda = _ from congrArg Prod.fst hagenda,
    Agenda.handle_again_self hcallback (by rw [hrepeat]; decide) hopen, hrepeat, hframe.time]
  exact .of_start hopen ..

theorem exec_clientClosed (h : loop.Keeps) (hcard : Fintype.card (σ ⊕ ι) < 2 ^ 32)
    (hexec : (countedTimers (σ ⊕ ι)).exec loop (Label.calls (.clientClosed x)) =
      some (loop', loopOut)) : (loop'.toAgenda.handle (.inl x)).active = false := by
  obtain ⟨loop₁, _, _, hstop, hrest, rfl⟩ := Machine.of_exec_cons hexec
  obtain ⟨hcount, hstop⟩ := Machine.guarded_step.mp hstop
  obtain ⟨-, hclose⟩ := TimerLoop.of_exec_one hrest
  have h₁ := h.of_step hcount hcard hstop
  obtain ⟨loop₃, hclose₃, -, -, hagenda⟩ := h₁.close (TimerLoop.permits_of_step hclose)
  obtain ⟨_, hclose₄, heq⟩ := Option.map_eq_some_iff.mp hclose
  cases hclose₃.symm.trans hclose₄
  cases heq
  rw [hagenda]
  simp [Agenda.close, Agenda.setHandle, TimerHandle.setClosing, TimerHandle.stop]

end

/-- The timer of a connection that fires is started again, by its `repeat`. -/
theorem Timed.fired {κ : Type*} [DecidableEq κ] {a : Agenda κ} {x : κ} {c : Conn}
    (h : Timed c (a.handle x)) (hphase : c.phase ≠ .timerClosing) :
    Timed ⟨.socketClosing, c.last⟩ (((a.stop x).again x).1.handle x) := by
  obtain ⟨hcallback, hrepeat, hopen⟩ := h.started hphase
  have hself : (a.stop x).handle x = (a.handle x).stop := Function.update_self ..
  have hagain := Agenda.handle_again_self (a := a.stop x) (x := x)
    (by rw [hself]; exact hcallback) (by rw [hself, TimerHandle.stop, hrepeat]; decide)
    (by rw [hself]; exact hopen)
  rw [hagain, hself]
  exact ⟨fun _ => ⟨rfl, hrepeat, hopen⟩, by simp, by simp⟩

omit [DecidableEq σ] [DecidableEq ι] [Fintype σ] [Fintype ι] in
theorem foreign_untouched {l : TimerLabel (σ ⊕ ι)} (hl : foreign l = true) (x : σ) :
    ¬l.Touches (.inl x) ∧ l ≠ .round := by
  cases l with
  | timerInit y | timerStart y | timerStop y | timerAgain y | close y =>
    cases y with
    | inl y => cases hl
    | inr y => simp [TimerLabel.Touches]
  | updateTime | runTimers | round => cases hl

omit [DecidableEq σ] [DecidableEq ι] [Fintype σ] [Fintype ι] in
theorem State.conn_of_phase {s : State σ ι} {x : σ} {phase : Phase}
    (h : s.phase x = some phase) : ∃ last, s.conn x = some ⟨phase, last⟩ := by
  obtain ⟨⟨_, last⟩, hconn, rfl⟩ := Option.map_eq_some_iff.mp h
  exact ⟨last, hconn⟩

omit [DecidableEq σ] [DecidableEq ι] [Fintype σ] [Fintype ι] in
theorem State.conn_of_allows {s : State σ ι} {x : σ} {phase : Phase} {outside : Bool}
    (h : (decide (s.phase x = some phase) && outside) = true) :
    ∃ last, s.conn x = some ⟨phase, last⟩ :=
  conn_of_phase (of_decide_eq_true (Bool.and_eq_true_iff.mp h).1)

omit [Fintype σ] [Fintype ι] [DecidableEq ι] in
theorem State.setPhase_self {s : State σ ι} {x : σ} {phase : Phase} {last : UInt64}
    (h : s.conn x = some ⟨phase, last⟩) : s.setPhase x phase = s := by
  have hself : (s.conn x).map (fun c => (⟨phase, c.last⟩ : Conn)) = s.conn x := by simp [h]
  rw [setPhase, hself, setConn, Function.update_eq_self]

namespace Inv
variable {s s' : State σ ι} {out : List (Event σ)}

theorem setPhase (h : Inv s) {loop : TimerLoop (σ ⊕ ι)} (hkeeps : loop.Keeps) {x : σ}
    (hother : ∀ y, y ≠ x → loop.toAgenda.handle (.inl y) = s.loop.toAgenda.handle (.inl y))
    {c : Conn} (hc : s.conn x = some c) {phase : Phase}
    (htimed : Timed ⟨phase, c.last⟩ (loop.toAgenda.handle (.inl x))) :
    Inv (({ s with loop } : State σ ι).setPhase x phase) := by
  refine h.setConn hkeeps hother (by simp [hc]) fun d hd => ?_
  simp only [hc, Option.map_some, Option.some.injEq] at hd
  exact hd ▸ htimed

/-- A timer that fires belongs to a connection whose timer is not closed. -/
theorem conn_of_active (h : Inv s) {x : σ}
    (hactive : (s.loop.toAgenda.handle (.inl x)).active = true) :
    ∃ c, s.conn x = some c ∧ c.phase ≠ .timerClosing := by
  cases hconn : s.conn x with
  | none =>
    rw [h.unused x hconn] at hactive
    cases hactive
  | some c =>
    refine ⟨c, rfl, fun hclosing => ?_⟩
    rw [(h.timed x c hconn).stopped hclosing] at hactive
    cases hactive

/-- A round of a pass: only the timer of a connection that has been silent fires. -/
theorem round (h : Inv s) (hcard : Fintype.card (σ ⊕ ι) < 2 ^ 32) {loop : TimerLoop (σ ⊕ ι)}
    {loopOut : List (TimerEvent (σ ⊕ ι))}
    (hexec : (countedTimers (σ ⊕ ι)).exec s.loop [.round] = some (loop, loopOut))
    (hreact : ({ s with loop } : State σ ι).afterRound loopOut = some (s', out)) :
    Inv s' ∧ ∀ e ∈ out, due e.last ≤ e.time := by
  have hkeeps := h.keeps.exec hcard hexec
  obtain ⟨hcount, hround⟩ := TimerLoop.of_exec_one hexec
  obtain ⟨-, hagenda, rfl⟩ | ⟨z, callback, hnext, rfl, hagenda, hother⟩ :=
    h.keeps.round_cases hcount hcard hround
  · cases hreact
    exact ⟨h.setLoop hkeeps fun x => by rw [hagenda], by simp⟩
  · cases z with
    | inr y =>
      cases hreact
      exact ⟨h.setLoop hkeeps fun x => (hother _ (by simp)).1, by simp⟩
    | inl x =>
      have hsame : ∀ y, y ≠ x →
          loop.toAgenda.handle (.inl y) = s.loop.toAgenda.handle (.inl y) := fun y hy =>
        (hother _ (by simpa using hy)).1
      have hreact : ({ s with loop } : State σ ι).onIdleTimeout x s.loop.time = some (s', out) :=
        hreact
      obtain ⟨⟨phase, last⟩, hconn, hopen⟩ := h.conn_of_active hnext.1
      have htimed := h.timed x _ hconn
      have hfired := htimed.fired hopen
      rw [← hagenda] at hfired
      have hinv := h.setPhase hkeeps hsame hconn hfired
      simp only [State.onIdleTimeout, hconn] at hreact
      cases phase with
      | connected =>
        cases hreact
        refine ⟨hinv, fun e he => ?_⟩
        rw [List.mem_singleton.mp he, ← (htimed.armed rfl).2]
        exact hnext.2.1
      | socketClosing =>
        cases hreact
        rw [State.setPhase_self (s := ⟨loop, s.conn⟩) hconn] at hinv
        exact ⟨hinv, by simp⟩
      | timerClosing => cases hreact

/-- Every step keeps the timers of the connections, and closes none of them too early. -/
theorem step (h : Inv s) (hcard : Fintype.card (σ ⊕ ι) < 2 ^ 32) {l : Label σ ι}
    (hstep : (idleTimers σ ι).step s l = some (s', out)) :
    Inv s' ∧ ∀ e ∈ out, due e.last ≤ e.time := by
  obtain ⟨hallows, loop, loopOut, hexec, hreact⟩ := State.of_step hstep
  have hkeeps := h.keeps.exec hcard hexec
  cases l with
  | peerConnected x =>
    cases hreact
    refine ⟨h.setConn hkeeps (fun y hy => ?_) (by simp) ?_, by simp⟩
    · exact (h.keeps.handle_of_exec hcard
        (by simp [Label.calls, TimerLabel.Touches, hy.symm]) hexec).1
    · rintro d ⟨⟩
      exact exec_peerConnected h.keeps hcard hexec
  | data x =>
    cases hreact
    obtain ⟨last, hconn⟩ := State.conn_of_allows hallows
    refine ⟨h.setConn hkeeps (fun y hy => ?_) (by simp) ?_, by simp⟩
    · exact (h.keeps.handle_of_exec hcard
        (by simp [Label.calls, TimerLabel.Touches, hy.symm]) hexec).1
    · rintro d ⟨⟩
      exact exec_data h.keeps hcard (h.timed x _ hconn) hexec
  | closeSocket x =>
    cases hexec
    cases hreact
    obtain ⟨last, hconn⟩ := State.conn_of_phase (of_decide_eq_true hallows)
    refine ⟨h.setPhase h.keeps (fun _ _ => rfl) hconn ?_, by simp⟩
    exact (h.timed x _ hconn).socketClosing
  | clientClosed x =>
    cases hreact
    obtain ⟨last, hconn⟩ := State.conn_of_allows hallows
    refine ⟨h.setPhase hkeeps (fun y hy => ?_) hconn ⟨by simp, by simp, fun _ => ?_⟩, by simp⟩
    · exact (h.keeps.handle_of_exec hcard
        (by simp [Label.calls, TimerLabel.Touches, hy.symm]) hexec).1
    · exact exec_clientClosed h.keeps hcard hexec
  | idleTimerClosed x =>
    cases hexec
    cases hreact
    obtain ⟨last, hconn⟩ := State.conn_of_allows hallows
    refine ⟨h.setConn h.keeps (fun _ _ => rfl) (fun _ => ?_) (by simp), by simp⟩
    exact (h.timed x _ hconn).stopped rfl
  | others l =>
    cases hreact
    refine ⟨h.setLoop hkeeps fun x => (h.keeps.handle_of_exec hcard ?_ hexec).1, by simp⟩
    simpa [Label.calls] using foreign_untouched hallows x
  | updateTime | runTimers =>
    cases hreact
    refine ⟨h.setLoop hkeeps fun x => (h.keeps.handle_of_exec hcard ?_ hexec).1, by simp⟩
    simp [Label.calls, TimerLabel.Touches]
  | round => exact h.round hcard hexec hreact

/-- The timer of a connection that waits in the queue of a pass is called, unless the socket is
closed before. -/
theorem wait_step (h : Inv s) (hcard : Fintype.card (σ ⊕ ι) < 2 ^ 32) {x : σ} {last : UInt64}
    (hx : s.conn x = some ⟨.connected, last⟩) (hready : .inl x ∈ s.loop.ready) {l : Label σ ι}
    (hl : l ≠ .closeSocket x) (hstep : (idleTimers σ ι).step s l = some (s', out)) :
    .inl x ∈ s'.loop.ready ∧ s'.conn x = some ⟨.connected, last⟩ ∨ ∃ e ∈ out, e.slot = x := by
  obtain ⟨hallows, loop, loopOut, hexec, hreact⟩ := State.of_step hstep
  have hrunning : s.loop.running = true := by
    refine Bool.eq_true_of_not_eq_false fun hended => ?_
    rw [h.keeps.ended hended] at hready
    cases hready
  cases l with
  | peerConnected | data | clientClosed | idleTimerClosed =>
    simp [State.allows, hrunning] at hallows
  | closeSocket y =>
    cases hexec
    cases hreact
    have hne : x ≠ y := by
      rintro rfl
      exact hl rfl
    exact .inl ⟨hready, by simpa [State.setPhase, State.setConn, hne] using hx⟩
  | others l =>
    cases hreact
    refine .inl ⟨(h.keeps.handle_of_exec hcard ?_ hexec).2 hready, hx⟩
    simpa [Label.calls] using foreign_untouched hallows x
  | updateTime | runTimers =>
    cases hreact
    refine .inl ⟨(h.keeps.handle_of_exec hcard ?_ hexec).2 hready, hx⟩
    simp [Label.calls, TimerLabel.Touches]
  | round =>
    obtain ⟨hcount, hround⟩ := TimerLoop.of_exec_one hexec
    obtain ⟨hempty, -⟩ | ⟨z, callback, -, rfl, -, hother⟩ :=
      h.keeps.round_cases hcount hcard hround
    · rw [hempty] at hready
      cases hready
    · cases z with
      | inr y =>
        cases hreact
        exact .inl ⟨(hother _ (by simp)).2 hready, hx⟩
      | inl y =>
        have hreact : ({ s with loop } : State σ ι).onIdleTimeout y s.loop.time =
            some (s', out) := hreact
        by_cases hyx : y = x
        · subst hyx
          simp only [State.onIdleTimeout, hx] at hreact
          cases hreact
          exact .inr ⟨_, List.mem_singleton.mpr rfl, rfl⟩
        · have hstays := (hother (.inl x) (by simpa using Ne.symm hyx)).2 hready
          refine .inl ?_
          simp only [State.onIdleTimeout] at hreact
          split at hreact
          · cases hreact
            exact ⟨hstays, by simpa [State.setPhase, State.setConn, Ne.symm hyx] using hx⟩
          · cases hreact
            exact ⟨hstays, hx⟩
          · cases hreact
          · cases hreact

theorem waits (h : Inv s) (hcard : Fintype.card (σ ⊕ ι) < 2 ^ 32) {x : σ} {last : UInt64}
    (hx : s.conn x = some ⟨.connected, last⟩) (hready : .inl x ∈ s.loop.ready)
    {labels : List (Label σ ι)} (hl : .closeSocket x ∉ labels)
    (hexec : (idleTimers σ ι).exec s labels = some (s', out)) :
    .inl x ∈ s'.loop.ready ∨ ∃ e ∈ out, e.slot = x := by
  induction labels generalizing s out with
  | nil =>
    cases hexec
    exact .inl hready
  | cons l labels ih =>
    obtain ⟨s₁, out₁, out₂, hstep, hrest, rfl⟩ := Machine.of_exec_cons hexec
    obtain ⟨hfirst, hlater⟩ := not_or.mp (mt List.mem_cons.mpr hl)
    obtain ⟨hready₁, hx₁⟩ | ⟨e, he, hex⟩ := h.wait_step hcard hx hready (Ne.symm hfirst) hstep
    · obtain hready₂ | ⟨e, he, hex⟩ := ih (h.step hcard hstep).1 hx₁ hready₁ hlater hrest
      · exact .inl hready₂
      · exact .inr ⟨e, List.mem_append_right _ he, hex⟩
    · exact .inr ⟨e, List.mem_append_left _ he, hex⟩

/-- The calls that a callback makes return. -/
theorem exec_calls (h : Inv s) (hcard : Fintype.card (σ ⊕ ι) < 2 ^ 32)
    (hcount : s.loop.timerCounter ≠ -1) {l : Label σ ι} (hl : s.Permits l) :
    s.allows l = true ∧
      ∃ loop loopOut, (countedTimers (σ ⊕ ι)).exec s.loop l.calls = some (loop, loopOut) := by
  have hone : ∀ {call}, s.loop.Permits call →
      ∃ loop loopOut, (countedTimers (σ ⊕ ι)).exec s.loop [call] = some (loop, loopOut) := by
    intro call hcall
    obtain ⟨loop, out, hstep, -⟩ := h.keeps.step hcount hcard call hcall
    exact ⟨loop, out ++ [], Machine.exec_cons (Machine.guarded_step.mpr ⟨hcount, hstep⟩) rfl⟩
  cases l with
  | peerConnected x =>
    have hunused : ¬s.loop.Armed (.inl x) := by
      have hnone : s.conn x = none :=
        Option.map_eq_none_iff.mp (of_decide_eq_true (Bool.and_eq_true_iff.mp hl).1)
      simpa [TimerLoop.Armed, TimerLoop.toAgenda] using h.unused x hnone
    obtain ⟨loop₁, out₁, hinit, hkeeps₁, -⟩ :=
      h.keeps.step hcount hcard (.timerInit (.inl x)) hunused
    have hcount₁ : loop₁.timerCounter ≠ -1 := by
      obtain ⟨-, heq⟩ := Option.ite_none_left_eq_some.mp hinit
      cases heq
      exact hcount
    obtain ⟨loop₂, out₂, hstart, -⟩ := hkeeps₁.step hcount₁ hcard
      (.timerStart (.inl x) (some onIdleTimeoutCb) idleTimeoutMs idleTimeoutMs) trivial
    exact ⟨hl, loop₂, out₁ ++ (out₂ ++ []),
      Machine.exec_cons (Machine.guarded_step.mpr ⟨hcount, hinit⟩)
        (Machine.exec_cons (Machine.guarded_step.mpr ⟨hcount₁, hstart⟩) rfl)⟩
  | data x => exact ⟨hl, hone trivial⟩
  | closeSocket x | idleTimerClosed x => exact ⟨hl, _, _, rfl⟩
  | clientClosed x =>
    obtain ⟨last, hconn⟩ := State.conn_of_allows hl
    obtain ⟨-, -, hopen⟩ := (h.timed x _ hconn).started (by simp)
    obtain ⟨loop₁, out₁, hstop, hkeeps₁, -⟩ :=
      h.keeps.step hcount hcard (.timerStop (.inl x)) trivial
    obtain ⟨loop₂, hstop₂, hstopped, -⟩ := h.keeps.stop (.inl x)
    obtain ⟨_, hstop₃, heq⟩ := Option.map_eq_some_iff.mp hstop
    cases hstop₂.symm.trans hstop₃
    cases heq
    have hcount₁ : loop₁.timerCounter ≠ -1 := by rwa [hstopped.timerCounter]
    have hopen₁ : (loop₁.handle (.inl x)).closing = false := by
      rw [hstopped.handle, Function.update_self]
      exact hopen
    obtain ⟨loop₃, out₃, hclose, -⟩ := hkeeps₁.step hcount₁ hcard (.close (.inl x)) hopen₁
    exact ⟨hl, loop₃, _, Machine.exec_cons (Machine.guarded_step.mpr ⟨hcount, hstop⟩)
      (Machine.exec_cons (Machine.guarded_step.mpr ⟨hcount₁, hclose⟩) rfl)⟩
  | others l => exact ⟨hl.1, hone hl.2⟩
  | updateTime | runTimers | round => exact ⟨rfl, hone hl⟩

/-- A callback finds the slot of its timer in use. -/
theorem react (h : Inv s) (hcard : Fintype.card (σ ⊕ ι) < 2 ^ 32) {l : Label σ ι}
    {loop : TimerLoop (σ ⊕ ι)} {loopOut : List (TimerEvent (σ ⊕ ι))}
    (hexec : (countedTimers (σ ⊕ ι)).exec s.loop l.calls = some (loop, loopOut)) :
    ∃ s' out, ({ s with loop } : State σ ι).react loopOut l = some (s', out) := by
  cases l with
  | round =>
    obtain ⟨hcount, hround⟩ := TimerLoop.of_exec_one hexec
    obtain ⟨-, -, rfl⟩ | ⟨z, callback, hnext, rfl, -⟩ := h.keeps.round_cases hcount hcard hround
    · exact ⟨_, _, rfl⟩
    · cases z with
      | inr y => exact ⟨_, _, rfl⟩
      | inl x =>
        obtain ⟨⟨phase, last⟩, hconn, hopen⟩ := h.conn_of_active hnext.1
        change ∃ s' out, ({ s with loop } : State σ ι).onIdleTimeout x s.loop.time = some (s', out)
        simp only [State.onIdleTimeout, hconn]
        cases phase with
        | connected | socketClosing => exact ⟨_, _, rfl⟩
        | timerClosing => exact absurd rfl hopen
  | _ => exact ⟨_, _, rfl⟩

theorem exists_step (h : Inv s) (hcard : Fintype.card (σ ⊕ ι) < 2 ^ 32)
    (hcount : s.loop.timerCounter ≠ -1) {l : Label σ ι} (hl : s.Permits l) :
    ∃ s' out, (idleTimers σ ι).step s l = some (s', out) := by
  obtain ⟨hallows, loop, loopOut, hexec⟩ := h.exec_calls hcard hcount hl
  obtain ⟨s', out, hreact⟩ := h.react hcard hexec
  refine ⟨s', out, ?_⟩
  change s.step l = some (s', out)
  rw [State.step, if_pos hallows, hexec]
  exact hreact

end Inv

end CapyJs.Server.Idle
