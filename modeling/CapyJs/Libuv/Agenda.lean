import CapyJs.Libuv.Timers
import Mathlib.Data.Fintype.Defs
import Mathlib.Data.Prod.Lex

/-!
# The agenda of a loop

What the timers of a loop are for: a set of armed timers, the first of which fires once it is
due. Timers fire in the order of their keys, over the whole run and not only within a pass.
-/
namespace CapyJs.Libuv
open Transition Timer

/-- The place of a timer in the order of firing. -/
def timerKey (timeout startId : UInt64) : ℕ ×ₗ ℕ := toLex (timeout.toNat, startId.toNat)

def TimerHandle.key (h : TimerHandle) : ℕ ×ₗ ℕ := timerKey h.timeout h.startId

/-- The armed timers are those that are active. -/
structure Agenda (ι : Type*) where
  time : UInt64
  timerCounter : UInt64
  handle : ι → TimerHandle

inductive AgendaLabel (ι : Type*)
  | updateTime (time : UInt64)
  | timerInit (x : ι)
  | timerStart (x : ι) (callback : Option ℕ) (timeout repeatMs : UInt64)
  | timerStop (x : ι)
  | timerAgain (x : ι)
  | close (x : ι)
  | fire (x : ι)

namespace Agenda
variable {ι : Type*} [DecidableEq ι]

def setHandle (a : Agenda ι) (x : ι) (h : TimerHandle) : Agenda ι :=
  { a with handle := Function.update a.handle x h }

theorem handle_setHandle_of_ne {x y : ι} (hne : y ≠ x) (a : Agenda ι) (h : TimerHandle) :
    (a.setHandle x h).handle y = a.handle y := Function.update_of_ne hne ..

def stop (a : Agenda ι) (x : ι) : Agenda ι := a.setHandle x (a.handle x).stop

def arm (a : Agenda ι) (x : ι) (callback : ℕ) (timeout repeatMs : UInt64) : Agenda ι :=
  { a.setHandle x ((a.handle x).start a.time a.timerCounter callback timeout repeatMs) with
    timerCounter := a.timerCounter + 1 }

def start (a : Agenda ι) (x : ι) (callback : Option ℕ) (timeout repeatMs : UInt64) :
    Agenda ι × ℤ :=
  match callback with
  | none => (a, uvEinval)
  | some callback =>
    if (a.handle x).closing then (a, uvEinval) else (a.arm x callback timeout repeatMs, 0)

def again (a : Agenda ι) (x : ι) : Agenda ι × ℤ :=
  if (a.handle x).callback = none then (a, uvEinval)
  else if (a.handle x).repeatMs = 0 then (a, 0)
  else (((a.stop x).start x (a.handle x).callback (a.handle x).repeatMs (a.handle x).repeatMs).1, 0)

def close (a : Agenda ι) (x : ι) : Agenda ι :=
  a.setHandle x (a.handle x).stop.setClosing

/-- The timer is armed and due, and no armed timer comes before it. -/
def Next (a : Agenda ι) (x : ι) : Prop :=
  (a.handle x).active = true ∧ (a.handle x).timeout ≤ a.time ∧
    ∀ y, (a.handle y).active = true → (a.handle x).key ≤ (a.handle y).key

instance decidableNext [Fintype ι] (a : Agenda ι) (x : ι) : Decidable (a.Next x) :=
  inferInstanceAs (Decidable (_ ∧ _))

def step [Fintype ι] (a : Agenda ι) : AgendaLabel ι → Option (Agenda ι × List (TimerEvent ι))
  | .updateTime time => if a.time ≤ time then some ({ a with time }, []) else none
  | .timerInit x =>
    if (a.handle x).active then none else some (a.setHandle x (a.handle x).init, [])
  | .timerStart x callback timeout repeatMs =>
    let (a, code) := a.start x callback timeout repeatMs
    some (a, [.returned code])
  | .timerStop x => some (a.stop x, [.returned 0])
  | .timerAgain x =>
    let (a, code) := a.again x
    some (a, [.returned code])
  | .close x => if (a.handle x).closing then none else some (a.close x, [])
  | .fire x =>
    if a.Next x then
      (a.handle x).callback.map fun callback =>
        (((a.stop x).again x).1,
          [.fired x callback (a.handle x).timeout (a.handle x).startId a.time])
    else none

end Agenda

def agenda (ι : Type*) [DecidableEq ι] [Fintype ι] :
    Machine (Agenda ι) (AgendaLabel ι) (TimerEvent ι) where
  init a := a.timerCounter = 0 ∧ ∀ x, (a.handle x).active = false
  step := Agenda.step

/-! ## The order of firing -/

namespace TimerEvent
variable {ι : Type*}

/-- The key of a timer that fired. -/
def firedKey : TimerEvent ι → Option (ℕ ×ₗ ℕ)
  | returned _ => none
  | fired _ _ timeout startId _ => some (timerKey timeout startId)

/-- A timer that fired was due. -/
def OnTime : TimerEvent ι → Prop
  | returned _ => True
  | fired _ _ timeout _ time => timeout ≤ time

end TimerEvent

def firedKeys {ι : Type*} (hist : List (TimerEvent ι)) : List (ℕ ×ₗ ℕ) :=
  hist.filterMap TimerEvent.firedKey

theorem toNat_add_one_of_ne {n : UInt64} (h : n ≠ -1) : (n + 1).toNat = n.toNat + 1 := by
  have hlast : n.toNat ≠ 2 ^ 64 - 1 := fun heq => h (UInt64.toNat_inj.mp heq)
  have hlt := n.toNat_lt
  rw [UInt64.toNat_add, UInt64.toNat_one]
  omega

theorem le_timeout_start (time timeout repeatMs : UInt64) :
    time.toNat ≤ (UvTimer.start time timeout repeatMs).timeout.toNat := by
  have htime := time.toNat_lt
  rw [toNat_timeout_start]
  omega

/-- What has fired comes before what is armed, and what is armed was started by its number. -/
structure InOrder {ι : Type*} (hist : List (TimerEvent ι)) (a : Agenda ι) : Prop where
  sorted : (firedKeys hist).Pairwise (· < ·)
  onTime : ∀ e ∈ hist, e.OnTime
  past : ∀ k ∈ firedKeys hist, (ofLex k).1 ≤ a.time.toNat ∧ (ofLex k).2 < a.timerCounter.toNat
  before : ∀ k ∈ firedKeys hist, ∀ y, (a.handle y).active = true → k < (a.handle y).key
  started : ∀ x, (a.handle x).active = true → (a.handle x).startId < a.timerCounter
  distinct : ∀ x y, (a.handle x).active = true → (a.handle y).active = true →
    (a.handle x).startId = (a.handle y).startId → x = y

namespace InOrder
variable {ι : Type*} [DecidableEq ι] {hist : List (TimerEvent ι)} {a a' : Agenda ι}

omit [DecidableEq ι] in
/-- No timer is armed, and time goes on. -/
theorem weaken (h : InOrder hist a) (htime : a.time ≤ a'.time)
    (hcounter : a'.timerCounter = a.timerCounter)
    (harmed : ∀ x, (a'.handle x).active = true → (a.handle x).active = true ∧
      (a'.handle x).timeout = (a.handle x).timeout ∧
      (a'.handle x).startId = (a.handle x).startId) : InOrder hist a' where
  sorted := h.sorted
  onTime := h.onTime
  past k hk := by
    obtain ⟨hdue, hstart⟩ := h.past k hk
    rw [hcounter]
    exact ⟨hdue.trans (UInt64.le_iff_toNat_le.mp htime), hstart⟩
  before k hk y hy := by
    obtain ⟨hactive, htimeout, hstart⟩ := harmed y hy
    rw [TimerHandle.key, htimeout, hstart]
    exact h.before k hk y hactive
  started x hx := by
    obtain ⟨hactive, -, hstart⟩ := harmed x hx
    rw [hstart, hcounter]
    exact h.started x hactive
  distinct x y hx hy heq := by
    obtain ⟨hx', -, hstart⟩ := harmed x hx
    obtain ⟨hy', -, hstart'⟩ := harmed y hy
    rw [hstart, hstart'] at heq
    exact h.distinct x y hx' hy' heq

/-- A handle that is not armed by it changes. -/
theorem setHandle (h : InOrder hist a) (x : ι) {new : TimerHandle} (hnew : new.active = false) :
    InOrder hist (a.setHandle x new) := by
  refine h.weaken (UInt64.le_refl _) rfl fun y hy => ?_
  by_cases hyx : y = x
  · subst hyx
    simp [Agenda.setHandle, hnew] at hy
  · rw [Agenda.handle_setHandle_of_ne hyx] at hy ⊢
    exact ⟨hy, rfl, rfl⟩

theorem stop (h : InOrder hist a) (x : ι) : InOrder hist (a.stop x) := h.setHandle x rfl

/-- What is armed now is due no earlier than now, and after all that were started. -/
theorem arm (h : InOrder hist a) (hcount : a.timerCounter ≠ -1) (x : ι) (callback : ℕ)
    (timeout repeatMs : UInt64) : InOrder hist (a.arm x callback timeout repeatMs) := by
  have hnext := toNat_add_one_of_ne hcount
  have hself : (a.arm x callback timeout repeatMs).handle x =
      (a.handle x).start a.time a.timerCounter callback timeout repeatMs := Function.update_self ..
  have hother : ∀ y, y ≠ x → (a.arm x callback timeout repeatMs).handle y = a.handle y :=
    fun y hy => Function.update_of_ne hy ..
  have hfresh : ∀ y, (a.handle y).active = true → (a.handle y).startId ≠ a.timerCounter :=
    fun y hy => UInt64.ne_of_lt (h.started y hy)
  refine ⟨h.sorted, h.onTime, fun k hk => ?_, fun k hk y hy => ?_, fun y hy => ?_, ?_⟩
  · obtain ⟨hdue, hstart⟩ := h.past k hk
    exact ⟨hdue, hstart.trans_le (by simp only [Agenda.arm, hnext]; omega)⟩
  · by_cases hyx : y = x
    · obtain ⟨hdue, hstart⟩ := h.past k hk
      have hlater := le_timeout_start a.time timeout repeatMs
      rw [hyx, hself, TimerHandle.key, timerKey, Prod.Lex.lt_iff]
      simp only [ofLex_toLex, TimerHandle.start]
      omega
    · rw [hother y hyx] at hy ⊢
      exact h.before k hk y hy
  · by_cases hyx : y = x
    · rw [hyx, hself, UInt64.lt_iff_toNat_lt]
      simp only [TimerHandle.start, Agenda.arm, hnext]
      omega
    · rw [hother y hyx] at hy ⊢
      have hstart := UInt64.lt_iff_toNat_lt.mp (h.started y hy)
      rw [UInt64.lt_iff_toNat_lt]
      simp only [Agenda.arm, hnext]
      omega
  · intro y z hy hz heq
    by_cases hyx : y = x
    · by_cases hzx : z = x
      · rw [hyx, hzx]
      · rw [hother z hzx] at hz
        rw [hother z hzx, hyx, hself] at heq
        exact absurd heq.symm (hfresh z hz)
    · rw [hother y hyx] at hy
      by_cases hzx : z = x
      · rw [hother y hyx, hzx, hself] at heq
        exact absurd heq (hfresh y hy)
      · rw [hother z hzx] at hz
        rw [hother y hyx, hother z hzx] at heq
        exact h.distinct y z hy hz heq

theorem start (h : InOrder hist a) (hcount : a.timerCounter ≠ -1) (x : ι) (callback : Option ℕ)
    (timeout repeatMs : UInt64) : InOrder hist (a.start x callback timeout repeatMs).1 := by
  cases callback with
  | none => exact h
  | some callback =>
    simp only [Agenda.start]
    split_ifs
    · exact h
    · exact h.arm hcount x callback timeout repeatMs

theorem again (h : InOrder hist a) (hcount : a.timerCounter ≠ -1) (x : ι) :
    InOrder hist (a.again x).1 := by
  unfold Agenda.again
  split_ifs
  · exact h
  · exact h
  · exact (h.stop x).start hcount x _ _ _

omit [DecidableEq ι] in
theorem returned (h : InOrder hist a) (code : ℤ) : InOrder (hist ++ [.returned code]) a := by
  have hkeys : firedKeys (hist ++ [.returned code]) = firedKeys hist := by
    simp [firedKeys, TimerEvent.firedKey]
  refine ⟨?_, ?_, ?_, ?_, h.started, h.distinct⟩
  · rw [hkeys]
    exact h.sorted
  · intro e he
    obtain he | he := List.mem_append.mp he
    · exact h.onTime e he
    · rw [List.mem_singleton.mp he]
      trivial
  · rw [hkeys]
    exact h.past
  · rw [hkeys]
    exact h.before

/-- The first of the armed timers fires, and is no longer armed. -/
theorem fire (h : InOrder hist a) {x : ι} (hnext : a.Next x) (callback : ℕ) :
    InOrder (hist ++ [.fired x callback (a.handle x).timeout (a.handle x).startId a.time])
      (a.stop x) := by
  obtain ⟨hactive, hdue, hfirst⟩ := hnext
  have hkeys : firedKeys (hist ++
      [.fired x callback (a.handle x).timeout (a.handle x).startId a.time]) =
      firedKeys hist ++ [(a.handle x).key] := by
    simp [firedKeys, TimerEvent.firedKey, TimerHandle.key]
  have hstop := h.stop x
  refine ⟨?_, ?_, ?_, ?_, hstop.started, hstop.distinct⟩
  · rw [hkeys, List.pairwise_append]
    refine ⟨h.sorted, List.pairwise_singleton .., fun k hk k' hk' => ?_⟩
    rw [List.mem_singleton.mp hk']
    exact h.before k hk x hactive
  · intro e he
    obtain he | he := List.mem_append.mp he
    · exact h.onTime e he
    · rw [List.mem_singleton.mp he]
      exact hdue
  · intro k hk
    rw [hkeys] at hk
    obtain hk | hk := List.mem_append.mp hk
    · exact h.past k hk
    · rw [List.mem_singleton.mp hk]
      exact ⟨UInt64.le_iff_toNat_le.mp hdue, UInt64.lt_iff_toNat_lt.mp (h.started x hactive)⟩
  · intro k hk y hy
    rw [hkeys] at hk
    obtain hk | hk := List.mem_append.mp hk
    · exact hstop.before k hk y hy
    · rw [List.mem_singleton.mp hk]
      have hyx : y ≠ x := by
        rintro rfl
        simp [Agenda.stop, Agenda.setHandle, TimerHandle.stop] at hy
      have hsame : (a.stop x).handle y = a.handle y := Agenda.handle_setHandle_of_ne hyx ..
      rw [hsame] at hy ⊢
      refine lt_of_le_of_ne (hfirst y hy) fun heq => hyx ?_
      have hstart : (a.handle x).startId.toNat = (a.handle y).startId.toNat :=
        congrArg (fun k => (ofLex k).2) heq
      exact (h.distinct x y hactive hy (UInt64.toNat_inj.mp hstart)).symm

theorem step [Fintype ι] (h : InOrder hist a) (hcount : a.timerCounter ≠ -1) {l : AgendaLabel ι}
    {out : List (TimerEvent ι)} (hstep : (agenda ι).step a l = some (a', out)) :
    InOrder (hist ++ out) a' := by
  cases l with
  | updateTime time =>
    obtain ⟨hle, hstep⟩ := Option.ite_none_right_eq_some.mp hstep
    cases hstep
    rw [List.append_nil]
    exact h.weaken hle rfl fun x hx => ⟨hx, rfl, rfl⟩
  | timerInit x =>
    obtain ⟨-, hstep⟩ := Option.ite_none_left_eq_some.mp hstep
    cases hstep
    rw [List.append_nil]
    exact h.setHandle x rfl
  | timerStart x callback timeout repeatMs =>
    cases hstep
    exact (h.start hcount x callback timeout repeatMs).returned _
  | timerStop x =>
    cases hstep
    exact (h.stop x).returned _
  | timerAgain x =>
    cases hstep
    exact (h.again hcount x).returned _
  | close x =>
    obtain ⟨-, hstep⟩ := Option.ite_none_left_eq_some.mp hstep
    cases hstep
    rw [List.append_nil]
    exact h.setHandle x rfl
  | fire x =>
    obtain ⟨hnext, hstep⟩ := Option.ite_none_right_eq_some.mp hstep
    obtain ⟨callback, -, heq⟩ := Option.map_eq_some_iff.mp hstep
    cases heq
    exact (h.fire hnext callback).again hcount x

end InOrder

/-- As long as the number of the starts fits, timers fire in the order of their keys, and none
before it is due. -/
theorem agenda_inOrder {ι : Type*} [DecidableEq ι] [Fintype ι] {a : Agenda ι}
    {hist : List (TimerEvent ι)}
    (run : ((agenda ι).guarded fun a _ => a.timerCounter ≠ -1).Reaches a hist) :
    InOrder hist a := by
  induction run with
  | start h =>
    refine ⟨List.Pairwise.nil, ?_, ?_, ?_, ?_, ?_⟩
    · simp
    · simp [firedKeys]
    · simp [firedKeys]
    · intro x hx
      simp [h.2 x] at hx
    · intro x y hx
      simp [h.2 x] at hx
  | next run h ih =>
    obtain ⟨hcount, hstep⟩ := Machine.guarded_step.mp h
    exact ih.step hcount hstep

end CapyJs.Libuv
