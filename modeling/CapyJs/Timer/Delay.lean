import CapyJs.Timer.Interval
import Mathlib.Algebra.Group.Int.Defs
import Mathlib.Algebra.Group.Nat.Defs

/-!
# When timers fire

A delay is a signed 32-bit number, and libuv takes the timeout and the repeat of a timer as
unsigned 64-bit ones. A negative delay becomes a timeout that is never reached, and an interval
with a delay of zero has no repeat, so that it fires once.
-/
namespace CapyJs.Timer
open Transition

/-! ## libuv timers -/

/-- `uv_timer_t`; `timeout` is a time of the loop. -/
structure UvTimer where
  timeout : UInt64
  repeatMs : UInt64
  active : Bool
  deriving DecidableEq, Repr

namespace UvTimer

/-- `uv_timer_start`, on a loop with the time `time`. -/
def start (time timeout repeatMs : UInt64) : UvTimer :=
  let clampedTimeout := time + timeout
  ⟨if clampedTimeout < timeout then -1 else clampedTimeout, repeatMs, true⟩

/-- `uv_timer_stop` -/
def stop (t : UvTimer) : UvTimer := { t with active := false }

/-- `uv_timer_again` -/
def again (time : UInt64) (t : UvTimer) : UvTimer :=
  if t.repeatMs = 0 then t else start time t.repeatMs t.repeatMs

/-- `uv__run_timers` on a timer that is due, before the callback. -/
def fire (time : UInt64) (t : UvTimer) : UvTimer := t.stop.again time

def due (time : UInt64) (t : UvTimer) : Bool := t.active && decide (t.timeout ≤ time)

end UvTimer

/-! ## The loop -/

/-- The event loop with the timers of `setTimeout`, in the order of their creation, and those of
the intervals, by the number of their handle. -/
structure LoopState where
  time : UInt64
  timeouts : List UvTimer
  intervals : State
  timer : ℕ → UvTimer

inductive LoopLabel
  /-- with the 32 bits that `JS_ToInt32` gives -/
  | setTimeout (delay : Int32)
  | setInterval (delay : Int32) (timerId : ℤ) (address : ℕ)
  | clearInterval (timerId : ℤ)
  | onClose (handle : ℕ)
  | updateTime (time : UInt64)
  | runTimeout (k : ℕ)
  | runInterval (k : ℕ)
  deriving DecidableEq, Repr

inductive Firing
  | timeout (k : ℕ)
  | interval (k : ℕ)
  deriving DecidableEq, Repr

namespace LoopState

/-- The conversion of a delay to a parameter of `uv_timer_start`. -/
def milliseconds (delay : Int32) : UInt64 := delay.toInt64.toUInt64

def setTimeOutFunc (s : LoopState) (delay : Int32) : LoopState :=
  { s with timeouts := s.timeouts ++ [.start s.time (milliseconds delay) 0] }

/-- The timer of the new handle is started before the handle is put into the table. -/
def setIntervalFunc (s : LoopState) (delay : Int32) (intervals : State) : LoopState :=
  { s with
    intervals
    timer := Function.update s.timer s.intervals.handles.length
      (.start s.time (milliseconds delay) (milliseconds delay)) }

/-- Closing a handle stops its timer. -/
def clearIntervalFunc (s : LoopState) (timerId : ℤ) (intervals : State) : LoopState :=
  match s.intervals.target timerId with
  | .handle k => { s with intervals, timer := Function.update s.timer k (s.timer k).stop }
  | _ => { s with intervals }

def step (s : LoopState) : LoopLabel → Option (LoopState × List Firing)
  | .setTimeout delay => if s.intervals.aborted then none else some (s.setTimeOutFunc delay, [])
  | .setInterval delay timerId address =>
    (timers.step s.intervals (.setInterval timerId address)).map fun r =>
      (s.setIntervalFunc delay r.1, [])
  | .clearInterval timerId =>
    (timers.step s.intervals (.clearInterval timerId)).map fun r =>
      (s.clearIntervalFunc timerId r.1, [])
  | .onClose k =>
    (timers.step s.intervals (.onClose k)).map fun r => ({ s with intervals := r.1 }, [])
  | .updateTime time =>
    if s.intervals.aborted = false ∧ s.time ≤ time then some ({ s with time }, []) else none
  | .runTimeout k =>
    -- the callback closes the handle
    match s.timeouts[k]? with
    | some t =>
      if s.intervals.aborted = false ∧ t.due s.time then
        some ({ s with timeouts := s.timeouts.set k (t.fire s.time).stop }, [.timeout k])
      else none
    | none => none
  | .runInterval k =>
    if s.intervals.aborted = false ∧ (s.timer k).due s.time then
      some ({ s with timer := Function.update s.timer k ((s.timer k).fire s.time) }, [.interval k])
    else none

end LoopState

def eventLoop : Machine LoopState LoopLabel Firing where
  init s := s.timeouts = [] ∧ timers.init s.intervals ∧ ∀ k, (s.timer k).active = false
  step := LoopState.step

/-! ## What is asked of the delays -/

/-- A timer fires once the loop's time has come to `time` and a delay, or to the largest time
there is. -/
def ArmedAfter (time : UInt64) (delay : Int32) (t : UvTimer) : Prop :=
  t.active = true ∧
    (t.timeout.toNat : ℤ) = min (time.toNat + max delay.toInt 0) (2 ^ 64 - 1)

/-- Interval `k` has been created and not been cleared. -/
def LoopState.Uncleared (s : LoopState) (k : ℕ) : Prop :=
  ∃ h, s.intervals.handles[k]? = some h ∧ h.phase = .opened

/-- Whatever happens from `s` on, any number of firings included, interval `k` is armed until
it is cleared. -/
def StaysArmed (s : LoopState) (k : ℕ) : Prop :=
  ∀ labels s' out, eventLoop.exec s labels = some (s', out) → s'.Uncleared k →
    (s'.timer k).active = true

def TimeoutHonoured (s s' : LoopState) (delay : Int32) : Prop :=
  ∃ t, s'.timeouts = s.timeouts ++ [t] ∧ ArmedAfter s.time delay t

def IntervalHonoured (s s' : LoopState) (delay : Int32) : Prop :=
  ArmedAfter s.time delay (s'.timer s.intervals.handles.length) ∧
    StaysArmed s' s.intervals.handles.length

/-! ## Delays as timeouts -/

theorem toNat_milliseconds (delay : Int32) :
    ((LoopState.milliseconds delay).toNat : ℤ) = delay.toInt % 2 ^ 64 := by
  have hbits := delay.toInt64.toBitVec.isLt
  have hsigned : delay.toInt64.toBitVec.toInt = delay.toInt := Int32.toInt_toInt64 delay
  have hunsigned : (LoopState.milliseconds delay).toNat = delay.toInt64.toBitVec.toNat := rfl
  rw [← hsigned, hunsigned, BitVec.toInt_eq_toNat_cond]
  split_ifs <;> omega

theorem toNat_timeout_start (time timeout repeatMs : UInt64) :
    (UvTimer.start time timeout repeatMs).timeout.toNat =
      min (time.toNat + timeout.toNat) (2 ^ 64 - 1) := by
  have htime := time.toNat_lt
  have htimeout := timeout.toNat_lt
  have hsum := UInt64.toNat_add time timeout
  simp only [UvTimer.start, UInt64.lt_iff_toNat_lt]
  split_ifs with hwraps
  · have hlast : (-1 : UInt64).toNat = 2 ^ 64 - 1 := rfl
    rw [hlast]
    omega
  · omega

/-- A delay that is not negative is kept; a negative one becomes a timeout of almost 2^64, which
is right only for a loop whose time has come to its end. -/
theorem armedAfter_start_iff (time repeatMs : UInt64) (delay : Int32) :
    ArmedAfter time delay (.start time (LoopState.milliseconds delay) repeatMs) ↔
      0 ≤ delay.toInt ∨ time.toNat = 2 ^ 64 - 1 := by
  have htime := time.toNat_lt
  have hdelay := toNat_milliseconds delay
  have hlow := delay.le_toInt
  have hhigh := delay.toInt_lt
  have hactive : (UvTimer.start time (LoopState.milliseconds delay) repeatMs).active = true := rfl
  simp only [ArmedAfter, hactive, true_and, toNat_timeout_start]
  omega

theorem milliseconds_eq_zero_iff (delay : Int32) :
    LoopState.milliseconds delay = 0 ↔ delay.toInt = 0 := by
  have hdelay := toNat_milliseconds delay
  have hlow := delay.le_toInt
  have hhigh := delay.toInt_lt
  rw [← UInt64.toNat_inj, UInt64.toNat_zero]
  omega

/-! ## Intervals along a run -/

theorem State.length_handles_uvClose (s : State) (target : Target) :
    (s.uvClose target).handles.length = s.handles.length := by
  unfold uvClose
  split
  · split
    · split_ifs <;> simp
    · rfl
  · rfl

/-- A handle that is open after `uv_close` was open before and is not the one it was called
with. -/
theorem State.opened_of_uvClose {s : State} {target : Target} {k : ℕ} {hd : Handle}
    (hget : (s.uvClose target).handles[k]? = some hd) (hphase : hd.phase = .opened) :
    s.handles[k]? = some hd ∧ target ≠ .handle k := by
  cases target with
  | null | dangling => exact ⟨hget, nofun⟩
  | handle k' =>
    simp only [uvClose] at hget
    split at hget
    · next h hk' =>
      by_cases hk : k' = k
      · subst hk
        split_ifs at hget with hopen
        · rw [List.getElem?_set_self (List.getElem?_eq_some_iff.mp hk').1] at hget
          cases hget
          cases hphase
        · cases hk'.symm.trans hget
          exact absurd hphase hopen
      · split_ifs at hget
        · rw [List.getElem?_set_ne hk] at hget
          exact ⟨hget, fun heq => hk (Target.handle.inj heq)⟩
        · exact ⟨hget, fun heq => hk (Target.handle.inj heq)⟩
    · next hnone =>
      refine ⟨hget, ?_⟩
      rintro ⟨⟩
      cases hnone.symm.trans hget

theorem UvTimer.fire_eq {t : UvTimer} (h : t.repeatMs ≠ 0) (time : UInt64) :
    t.fire time = start time t.repeatMs t.repeatMs := if_neg h

/-- An interval with a repeat that is armed unless it has been cleared. -/
structure Repeats (k : ℕ) (s : LoopState) : Prop where
  created : k < s.intervals.handles.length
  nonzero : (s.timer k).repeatMs ≠ 0
  armed : s.Uncleared k → (s.timer k).active = true

namespace Repeats
variable {k : ℕ} {s s' : LoopState} {out : List Firing}

/-- Steps that leave the timer alone and open no closed handle. -/
theorem still (h : Repeats k s) (hlength : s.intervals.handles.length ≤ s'.intervals.handles.length)
    (htimer : s'.timer k = s.timer k) (hopen : s'.Uncleared k → s.Uncleared k) : Repeats k s' := by
  refine ⟨Nat.lt_of_lt_of_le h.created hlength, ?_, ?_⟩
  · rw [htimer]
    exact h.nonzero
  · intro huncleared
    rw [htimer]
    exact h.armed (hopen huncleared)

theorem setInterval (h : Repeats k s) (delay : Int32) (timerId : ℤ) (address : ℕ) :
    Repeats k (s.setIntervalFunc delay (s.intervals.setIntervalFunc timerId address)) := by
  have hlt := h.created
  apply h.still
  · simp [LoopState.setIntervalFunc, State.setIntervalFunc]
  · exact Function.update_of_ne (Nat.ne_of_lt hlt) _ _
  · rintro ⟨hd, hget, hphase⟩
    have hbefore : (s.intervals.handles ++ [⟨address, timerId, .opened⟩])[k]? =
        s.intervals.handles[k]? := List.getElem?_append_left hlt
    exact ⟨hd, hbefore.symm.trans hget, hphase⟩

theorem clearInterval (h : Repeats k s) (timerId : ℤ) :
    Repeats k (s.clearIntervalFunc timerId (s.intervals.clearIntervalFunc timerId)) := by
  have hintervals :
      (s.clearIntervalFunc timerId (s.intervals.clearIntervalFunc timerId)).intervals =
        s.intervals.clearIntervalFunc timerId := by
    unfold LoopState.clearIntervalFunc
    split <;> rfl
  refine ⟨?_, ?_, ?_⟩
  · rw [hintervals, State.clearIntervalFunc, State.length_handles_uvClose]
    exact h.created
  · unfold LoopState.clearIntervalFunc
    split
    · next k' _ =>
      by_cases hk : k = k'
      · subst hk
        simpa [UvTimer.stop] using h.nonzero
      · simpa [hk] using h.nonzero
    · exact h.nonzero
  · -- the timer that is stopped is that of a handle which is no longer open
    rintro ⟨hd, hget, hphase⟩
    rw [hintervals, State.clearIntervalFunc] at hget
    obtain ⟨hbefore, hother⟩ := State.opened_of_uvClose hget hphase
    have harmed := h.armed ⟨hd, hbefore, hphase⟩
    unfold LoopState.clearIntervalFunc
    split
    · next k' htarget =>
      have hk : k ≠ k' := fun heq => hother (heq ▸ htarget)
      simpa [hk] using harmed
    · exact harmed

theorem onClose (h : Repeats k s) {k' : ℕ} {hd : Handle} {phase : Phase}
    (hphase : phase ≠ .opened) : Repeats k { s with intervals :=
      { s.intervals with handles := s.intervals.handles.set k' { hd with phase := phase } } } := by
  apply h.still
  · simp
  · rfl
  · rintro ⟨hd', hget, hopen⟩
    by_cases hk : k' = k
    · subst hk
      rw [List.getElem?_set_self h.created] at hget
      cases hget
      exact absurd hopen hphase
    · rw [List.getElem?_set_ne hk] at hget
      exact ⟨hd', hget, hopen⟩

theorem runInterval (h : Repeats k s) (k' : ℕ) :
    Repeats k { s with timer := Function.update s.timer k' ((s.timer k').fire s.time) } := by
  by_cases hk : k = k'
  · subst hk
    have hfire := UvTimer.fire_eq h.nonzero s.time
    refine ⟨h.created, ?_, ?_⟩
    · simp only [Function.update_self, hfire]
      exact h.nonzero
    · intro _
      simp only [Function.update_self, hfire]
      rfl
  · exact h.still (Nat.le_refl _) (Function.update_of_ne hk _ _) id

theorem step (h : Repeats k s) {a : LoopLabel} (hstep : eventLoop.step s a = some (s', out)) :
    Repeats k s' := by
  cases a with
  | setTimeout delay =>
    obtain ⟨-, hstep⟩ := Option.ite_none_left_eq_some.mp hstep
    cases hstep
    exact h.still (Nat.le_refl _) rfl id
  | setInterval delay timerId address =>
    obtain ⟨⟨intervals, _⟩, hset, heq⟩ := Option.map_eq_some_iff.mp hstep
    obtain ⟨-, rfl, -⟩ := of_step_setInterval hset
    cases heq
    exact h.setInterval delay timerId address
  | clearInterval timerId =>
    obtain ⟨⟨intervals, _⟩, hclear, heq⟩ := Option.map_eq_some_iff.mp hstep
    obtain ⟨rfl, -⟩ := of_step_clearInterval hclear
    cases heq
    exact h.clearInterval timerId
  | onClose k' =>
    obtain ⟨⟨intervals, _⟩, hclose, heq⟩ := Option.map_eq_some_iff.mp hstep
    cases heq
    simp only [timers, State.step] at hclose
    split at hclose
    · split_ifs at hclose
      cases hclose
      exact h.onClose (by simp)
    · cases hclose
  | updateTime time =>
    obtain ⟨-, hstep⟩ := Option.ite_none_right_eq_some.mp hstep
    cases hstep
    exact h.still (Nat.le_refl _) rfl id
  | runTimeout k' =>
    simp only [eventLoop, LoopState.step] at hstep
    split at hstep
    · split_ifs at hstep
      cases hstep
      exact h.still (Nat.le_refl _) rfl id
    · cases hstep
  | runInterval k' =>
    obtain ⟨-, hstep⟩ := Option.ite_none_right_eq_some.mp hstep
    cases hstep
    exact h.runInterval k'

theorem staysArmed (h : Repeats k s) : StaysArmed s k := by
  intro labels s' out hexec huncleared
  have hlater := Machine.exec_invariant (fun _ _ _ _ hrepeats hstep => hrepeats.step hstep) hexec h
  exact hlater.armed huncleared

end Repeats

/-! ## Which delays are honoured -/

theorem of_step_setTimeout {s s' : LoopState} {delay : Int32} {out : List Firing}
    (h : eventLoop.step s (.setTimeout delay) = some (s', out)) : s' = s.setTimeOutFunc delay := by
  obtain ⟨-, hstep⟩ := Option.ite_none_left_eq_some.mp h
  cases hstep
  rfl

theorem timeoutHonoured_iff {s s' : LoopState} {delay : Int32} {out : List Firing}
    (h : eventLoop.step s (.setTimeout delay) = some (s', out)) :
    TimeoutHonoured s s' delay ↔ 0 ≤ delay.toInt ∨ s.time.toNat = 2 ^ 64 - 1 := by
  obtain rfl := of_step_setTimeout h
  simp [TimeoutHonoured, LoopState.setTimeOutFunc, armedAfter_start_iff]

theorem LoopState.of_step_setInterval {s s' : LoopState} {delay : Int32} {timerId : ℤ}
    {address : ℕ} {out : List Firing}
    (h : eventLoop.step s (.setInterval delay timerId address) = some (s', out)) :
    s.intervals.aborted = false ∧
      s' = s.setIntervalFunc delay (s.intervals.setIntervalFunc timerId address) := by
  obtain ⟨⟨intervals, _⟩, hset, heq⟩ := Option.map_eq_some_iff.mp h
  obtain ⟨hguard, hset⟩ := Option.ite_none_right_eq_some.mp hset
  cases hset
  cases heq
  exact ⟨hguard.1, rfl⟩

section
variable {s s' : LoopState} {delay : Int32} {timerId : ℤ} {address : ℕ} {out : List Firing}
  (h : eventLoop.step s (.setInterval delay timerId address) = some (s', out))
include h

theorem timer_of_step_setInterval : s'.timer s.intervals.handles.length =
    .start s.time (LoopState.milliseconds delay) (LoopState.milliseconds delay) := by
  obtain ⟨-, rfl⟩ := LoopState.of_step_setInterval h
  exact Function.update_self _ _ _

theorem uncleared_of_step_setInterval : s'.Uncleared s.intervals.handles.length := by
  obtain ⟨-, rfl⟩ := LoopState.of_step_setInterval h
  exact ⟨⟨address, timerId, .opened⟩, List.getElem?_concat_length, rfl⟩

/-- An interval without a repeat is due at once, and fires for the only time. -/
theorem not_staysArmed_of_zero (hzero : delay.toInt = 0) :
    ¬StaysArmed s' s.intervals.handles.length := by
  have htimer := timer_of_step_setInterval h
  rw [(milliseconds_eq_zero_iff delay).mpr hzero] at htimer
  have huncleared := uncleared_of_step_setInterval h
  obtain ⟨halive, hs'⟩ := LoopState.of_step_setInterval h
  have htime : s'.time = s.time := by rw [hs']; rfl
  have halive' : s'.intervals.aborted = false := by rw [hs']; exact halive
  have hdue : (s'.timer s.intervals.handles.length).due s'.time = true := by
    simp [htimer, htime, UvTimer.due, UvTimer.start]
  have hfires : eventLoop.step s' (.runInterval s.intervals.handles.length) =
      some (_, [.interval s.intervals.handles.length]) := if_pos ⟨halive', hdue⟩
  have hrun := Machine.exec_cons hfires (rfl : eventLoop.exec _ [] = some (_, []))
  intro harmed
  have hactive := harmed _ _ _ hrun huncleared
  simp [htimer, UvTimer.fire, UvTimer.again, UvTimer.stop, UvTimer.start] at hactive

theorem staysArmed_of_ne_zero (hne : delay.toInt ≠ 0) :
    StaysArmed s' s.intervals.handles.length := by
  have htimer := timer_of_step_setInterval h
  obtain ⟨-, rfl⟩ := LoopState.of_step_setInterval h
  apply Repeats.staysArmed
  refine ⟨?_, ?_, ?_⟩
  · simp [LoopState.setIntervalFunc, State.setIntervalFunc]
  · rw [htimer]
    exact fun hzero => hne ((milliseconds_eq_zero_iff delay).mp hzero)
  · intro _
    rw [htimer]
    rfl

theorem intervalHonoured_iff : IntervalHonoured s s' delay ↔
    0 < delay.toInt ∨ delay.toInt < 0 ∧ s.time.toNat = 2 ^ 64 - 1 := by
  have hstays : StaysArmed s' s.intervals.handles.length ↔ delay.toInt ≠ 0 :=
    ⟨fun harmed hzero => not_staysArmed_of_zero h hzero harmed, staysArmed_of_ne_zero h⟩
  rw [IntervalHonoured, timer_of_step_setInterval h, armedAfter_start_iff, hstays]
  omega

end

/-- `setTimeout` is armed for its delay when that is not negative, and `setInterval` is so and
goes on firing when it is positive; a negative delay is honoured only at the end of time. -/
theorem delays_honoured_iff {s s₁ s₂ : LoopState} {delay : Int32} {timerId : ℤ} {address : ℕ}
    {out₁ out₂ : List Firing}
    (htimeout : eventLoop.step s (.setTimeout delay) = some (s₁, out₁))
    (hinterval : eventLoop.step s (.setInterval delay timerId address) = some (s₂, out₂)) :
    (TimeoutHonoured s s₁ delay ↔ 0 ≤ delay.toInt ∨ s.time.toNat = 2 ^ 64 - 1) ∧
      (IntervalHonoured s s₂ delay ↔
        0 < delay.toInt ∨ delay.toInt < 0 ∧ s.time.toNat = 2 ^ 64 - 1) :=
  ⟨timeoutHonoured_iff htimeout, intervalHonoured_iff hinterval⟩

/-- A loop that has just been started. -/
def startedLoop : LoopState := ⟨0, [], ⟨[], fun _ => none, false⟩, fun _ => ⟨0, 0, false⟩⟩

def afterSetTimeout (delay : Int32) : LoopState := startedLoop.setTimeOutFunc delay

def afterSetInterval (delay : Int32) : LoopState :=
  startedLoop.setIntervalFunc delay (startedLoop.intervals.setIntervalFunc 1234567 0)

theorem delays_honoured_iff_five :
    TimeoutHonoured startedLoop (afterSetTimeout 5) 5 ∧
      IntervalHonoured startedLoop (afterSetInterval 5) 5 := by
  have htimeout : eventLoop.step startedLoop (.setTimeout 5) = some (afterSetTimeout 5, []) := rfl
  have hinterval : eventLoop.step startedLoop (.setInterval 5 1234567 0) =
      some (afterSetInterval 5, []) := rfl
  obtain ⟨honoured, honoured'⟩ := delays_honoured_iff htimeout hinterval
  exact ⟨honoured.mpr (.inl (by decide)), honoured'.mpr (.inl (by decide))⟩

/-- `setTimeout(cb, -1)`, `setInterval(cb, -1)` and `setInterval(cb, 0)`. -/
theorem delays_not_honoured :
    ¬TimeoutHonoured startedLoop (afterSetTimeout (-1)) (-1) ∧
      ¬IntervalHonoured startedLoop (afterSetInterval (-1)) (-1) ∧
      ¬IntervalHonoured startedLoop (afterSetInterval 0) 0 := by
  have htimeout : eventLoop.step startedLoop (.setTimeout (-1)) =
      some (afterSetTimeout (-1), []) := rfl
  have hinterval (delay : Int32) : eventLoop.step startedLoop (.setInterval delay 1234567 0) =
      some (afterSetInterval delay, []) := rfl
  rw [timeoutHonoured_iff htimeout, intervalHonoured_iff (hinterval (-1)),
    intervalHonoured_iff (hinterval 0)]
  decide

end CapyJs.Timer
