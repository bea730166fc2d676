import CapyJs.Libuv.Agenda
import CapyJs.Libuv.HeapCorrect
import Mathlib.Data.Fintype.Card

/-!
# A loop keeps its agenda

A timer is on the agenda while it is in the heap or waits in the queue of a pass. The timers in
the queue come before those in the heap, so the head of the queue is the first of the agenda.
-/
namespace CapyJs.Libuv
open Transition Timer

theorem timerLessThan_eq (a b : TimerHandle) : timerLessThan a b = decide (a.key < b.key) := by
  have hlt : a.key < b.key ↔ a.timeout.toNat < b.timeout.toNat ∨
      a.timeout.toNat = b.timeout.toNat ∧ a.startId.toNat < b.startId.toNat :=
    Prod.Lex.lt_iff
  simp only [timerLessThan, UInt64.lt_iff_toNat_lt, hlt]
  split_ifs with hless hgreater
  · simp [hless]
  · simp only [false_eq_decide_iff]
    omega
  · simp only [decide_eq_decide]
    omega

theorem TimerHandle.timeout_le_of_key_le {a b : TimerHandle} (h : a.key ≤ b.key) :
    a.timeout ≤ b.timeout := by
  have hle : a.timeout.toNat < b.timeout.toNat ∨
      a.timeout.toNat = b.timeout.toNat ∧ a.startId.toNat ≤ b.startId.toNat := Prod.Lex.le_iff.mp h
  rw [UInt64.le_iff_toNat_le]
  omega

theorem TimerHandle.stop_of_inactive {h : TimerHandle} (hidle : h.active = false) :
    h.stop = h := by
  obtain ⟨⟨timeout, repeatMs, active⟩, startId, callback, closing⟩ := h
  cases hidle
  rfl

theorem Agenda.arm_stop {ι : Type*} [DecidableEq ι] (a : Agenda ι) (x : ι) (callback : ℕ)
    (timeout repeatMs : UInt64) :
    (a.stop x).arm x callback timeout repeatMs = a.arm x callback timeout repeatMs := by
  simp [arm, stop, setHandle, TimerHandle.start, TimerHandle.stop]

theorem Agenda.callback_again {ι : Type*} [DecidableEq ι] (a : Agenda ι) (x : ι) :
    ((a.again x).1.handle x).callback = (a.handle x).callback := by
  unfold again
  split_ifs with hnull honce
  · rfl
  · rfl
  · obtain ⟨callback, hcallback⟩ := Option.ne_none_iff_exists'.mp hnull
    simp only [hcallback, start]
    split_ifs <;> simp [arm, stop, setHandle, TimerHandle.start, TimerHandle.stop, hcallback]

namespace TimerLoop
section
variable {ι : Type*}

def key (s : TimerLoop ι) (x : ι) : ℕ ×ₗ ℕ := (s.handle x).key

theorem lessThan_eq (s : TimerLoop ι) : s.lessThan = Heap.byKey s.key := by
  funext x y
  exact timerLessThan_eq ..

theorem uvNextTimeout_of_min {s : TimerLoop ι} {x : ι} (hmin : s.heap.min = some x) :
    s.uvNextTimeout = min (max 0 ((s.handle x).timeout.toNat - s.time.toNat : ℤ)) (2 ^ 31 - 1) := by
  simp only [uvNextTimeout, hmin]
  split_ifs with hdue
  · have hle := UInt64.le_iff_toNat_le.mp hdue
    omega
  · have hlt := UInt64.lt_iff_toNat_lt.mp (UInt64.not_le.mp hdue)
    rw [UInt64.toNat_sub_of_le _ _ (UInt64.le_iff_toNat_le.mpr hlt.le)]
    omega

/-- The timer is in the heap or in the queue of a pass. -/
def Armed (s : TimerLoop ι) (x : ι) : Prop := (s.handle x).active = true ∨ x ∈ s.ready

def inHeap [Fintype ι] (s : TimerLoop ι) : Finset ι :=
  Finset.univ.filter fun x => (s.handle x).active = true

theorem mem_inHeap [Fintype ι] {s : TimerLoop ι} {x : ι} :
    x ∈ s.inHeap ↔ (s.handle x).active = true := by simp [inHeap]

end

variable {ι : Type*} [DecidableEq ι]

def toAgenda (s : TimerLoop ι) : Agenda ι where
  time := s.time
  timerCounter := s.timerCounter
  handle x := { s.handle x with active := (s.handle x).active || decide (x ∈ s.ready) }

structure Sound [Fintype ι] (s : TimerLoop ι) : Prop where
  holds : s.heap.Holds s.key s.inHeap
  nodup : s.ready.Nodup
  idle : ∀ x ∈ s.ready, (s.handle x).active = false
  due : ∀ x ∈ s.ready, (s.handle x).timeout ≤ s.time
  sorted : s.ready.Pairwise fun x y => s.key x ≤ s.key y
  before : ∀ x ∈ s.ready, ∀ y ∈ s.inHeap, s.key x ≤ s.key y
  started : ∀ x, s.Armed x → (s.handle x).startId < s.timerCounter
  callback : ∀ x, s.Armed x → (s.handle x).callback ≠ none

variable [Fintype ι] {s s' : TimerLoop ι}

/-- Fewer timers are armed, and those that are have not changed. -/
theorem Sound.weaken (h : Sound s) (hholds : s'.heap.Holds s'.key s'.inHeap)
    (hready : s'.ready.Sublist s.ready) (htime : s.time ≤ s'.time)
    (hcounter : s'.timerCounter = s.timerCounter)
    (hsame : ∀ x, s'.Armed x → (s'.handle x).toUvTimer = (s.handle x).toUvTimer ∧
      (s'.handle x).startId = (s.handle x).startId ∧
      (s'.handle x).callback = (s.handle x).callback) : Sound s' := by
  have hkey : ∀ x, s'.Armed x → s'.key x = s.key x := by
    intro x hx
    obtain ⟨htimer, hstart, -⟩ := hsame x hx
    simp only [key, TimerHandle.key, htimer, hstart]
  have hactive : ∀ x, s'.Armed x → (s'.handle x).active = (s.handle x).active := by
    intro x hx
    rw [(hsame x hx).1]
  have harmed : ∀ x, s'.Armed x → s.Armed x := by
    intro x hx
    cases hx with
    | inl hx =>
      rw [hactive x (.inl hx)] at hx
      exact .inl hx
    | inr hx => exact .inr (hready.subset hx)
  refine ⟨hholds, h.nodup.sublist hready, fun x hx => ?_, fun x hx => ?_, ?_, fun x hx y hy => ?_,
    fun x hx => ?_, fun x hx => ?_⟩
  · rw [hactive x (.inr hx)]
    exact h.idle x (hready.subset hx)
  · rw [(hsame x (.inr hx)).1]
    exact UInt64.le_trans (h.due x (hready.subset hx)) htime
  · refine (h.sorted.sublist hready).imp_of_mem fun hx hy hle => ?_
    rw [hkey _ (.inr hx), hkey _ (.inr hy)]
    exact hle
  · have hy' := mem_inHeap.mp hy
    rw [hkey x (.inr hx), hkey y (.inl hy')]
    rw [hactive y (.inl hy')] at hy'
    exact h.before x (hready.subset hx) y (mem_inHeap.mpr hy')
  · rw [(hsame x hx).2.1, hcounter]
    exact h.started x (harmed x hx)
  · rw [(hsame x hx).2.2]
    exact h.callback x (harmed x hx)

/-- What `uv_timer_stop` has done. -/
structure Stopped (s : TimerLoop ι) (x : ι) (s' : TimerLoop ι) : Prop where
  handle : s'.handle = Function.update s.handle x (s.handle x).stop
  ready : s'.ready = s.ready.erase x
  time : s'.time = s.time
  timerCounter : s'.timerCounter = s.timerCounter
  running : s'.running = s.running

namespace Stopped
variable {x : ι}

theorem inHeap_eq (h : Stopped s x s') : s'.inHeap = s.inHeap.erase x := by
  ext y
  rw [Finset.mem_erase, mem_inHeap, mem_inHeap, h.handle]
  by_cases hy : y = x
  · subst hy
    simp [TimerHandle.stop]
  · simp [hy]

omit [Fintype ι] in
theorem key_eq (h : Stopped s x s') : s'.key = s.key := by
  funext y
  rw [key, key, h.handle]
  by_cases hy : y = x
  · subst hy
    simp [TimerHandle.stop, TimerHandle.key]
  · simp [hy]

omit [Fintype ι] in
theorem toAgenda_eq (h : Stopped s x s') (hnodup : s.ready.Nodup) :
    s'.toAgenda = s.toAgenda.stop x := by
  simp only [toAgenda, Agenda.stop, Agenda.setHandle, h.time, h.timerCounter, h.handle, h.ready]
  congr 1
  funext y
  by_cases hy : y = x
  · subst hy
    simp [TimerHandle.stop, hnodup.not_mem_erase]
  · simp [hy, List.mem_erase_of_ne hy]

omit [Fintype ι] in
theorem not_armed (h : Stopped s x s') (hnodup : s.ready.Nodup) : ¬s'.Armed x := by
  rw [Armed, h.handle, h.ready]
  simp [TimerHandle.stop, hnodup.not_mem_erase]

theorem sound (h : Stopped s x s') (hs : Sound s)
    (hholds : s'.heap.Holds s.key (s.inHeap.erase x)) : Sound s' := by
  refine hs.weaken ?_ ?_ (by rw [h.time]; exact UInt64.le_refl _) h.timerCounter fun y hy => ?_
  · rw [h.key_eq, h.inHeap_eq]
    exact hholds
  · rw [h.ready]
    exact List.erase_sublist
  · have hyx : y ≠ x := by
      rintro rfl
      exact h.not_armed hs.nodup hy
    rw [h.handle, Function.update_of_ne hyx]
    exact ⟨rfl, rfl, rfl⟩

end Stopped

/-- `uv_timer_stop` returns. -/
theorem Sound.stop (h : Sound s) (x : ι) :
    ∃ s', s.uvTimerStop x = some s' ∧ Stopped s x s' ∧ Sound s' := by
  unfold uvTimerStop
  by_cases hactive : (s.handle x).active = true
  · obtain ⟨heap, hremove, hholds⟩ := h.holds.remove (mem_inHeap.mpr hactive)
    have hoff : x ∉ s.ready := fun hx => by simp [h.idle x hx] at hactive
    have hstopped : Stopped s x ({ s with heap }.setHandle x (s.handle x).stop) :=
      ⟨rfl, (List.erase_of_not_mem hoff).symm, rfl, rfl, rfl⟩
    rw [if_pos hactive, lessThan_eq, hremove]
    exact ⟨_, rfl, hstopped, hstopped.sound h hholds⟩
  · have hsame := TimerHandle.stop_of_inactive (Bool.not_eq_true _ ▸ hactive)
    have hstopped : Stopped s x { s with ready := s.ready.erase x } :=
      ⟨by rw [hsame, Function.update_eq_self], rfl, rfl, rfl, rfl⟩
    rw [if_neg hactive]
    refine ⟨_, rfl, hstopped, hstopped.sound h ?_⟩
    rw [Finset.erase_eq_of_notMem (mt mem_inHeap.mp hactive)]
    exact h.holds

/-- A call for the timer `x` leaves the others alone. -/
structure Frame (s : TimerLoop ι) (x : ι) (s' : TimerLoop ι) : Prop where
  handle : ∀ y, y ≠ x → s'.handle y = s.handle y
  time : s'.time = s.time
  running : s'.running = s.running
  ready : s'.ready ⊆ s.ready
  others : ∀ y ∈ s.ready, y ≠ x → y ∈ s'.ready

omit [DecidableEq ι] [Fintype ι] in
theorem Frame.refl (s : TimerLoop ι) (x : ι) : Frame s x s :=
  ⟨fun _ _ => rfl, rfl, rfl, List.Subset.refl _, fun _ hy _ => hy⟩

omit [DecidableEq ι] [Fintype ι] in
theorem Frame.trans {s'' : TimerLoop ι} {x : ι} (h : Frame s x s') (h' : Frame s' x s'') :
    Frame s x s'' :=
  ⟨fun y hy => (h'.handle y hy).trans (h.handle y hy), h'.time.trans h.time,
    h'.running.trans h.running, List.Subset.trans h'.ready h.ready,
    fun y hy hyx => h'.others y (h.others y hy hyx) hyx⟩

omit [Fintype ι] in
theorem Stopped.frame {x : ι} (h : Stopped s x s') : Frame s x s' where
  handle y hy := by rw [h.handle, Function.update_of_ne hy]
  time := h.time
  running := h.running
  ready := by
    rw [h.ready]
    exact List.erase_subset
  others y hy hyx := by
    rw [h.ready]
    exact (List.mem_erase_of_ne hyx).mpr hy

section Arm
variable {x : ι} {callback : ℕ} {timeout repeatMs : UInt64}

/-- What is armed now comes after all that waits in the queue. -/
theorem Sound.key_le_start (h : Sound s) {y : ι} (hy : y ∈ s.ready) :
    s.key y ≤ ((s.handle x).start s.time s.timerCounter callback timeout repeatMs).key := by
  have hdue := UInt64.le_iff_toNat_le.mp (h.due y hy)
  have hstart := UInt64.lt_iff_toNat_lt.mp (h.started y (.inr hy))
  have hlater := le_timeout_start s.time timeout repeatMs
  rw [key, TimerHandle.key, TimerHandle.key, timerKey, timerKey, Prod.Lex.le_iff]
  simp only [ofLex_toLex, TimerHandle.start]
  omega

/-- What arming a timer has done, but for the heap. -/
structure Started (s : TimerLoop ι) (x : ι) (new : TimerHandle) (s' : TimerLoop ι) : Prop where
  handle : s'.handle = Function.update s.handle x new
  ready : s'.ready = s.ready
  time : s'.time = s.time
  timerCounter : s'.timerCounter = s.timerCounter + 1
  running : s'.running = s.running

namespace Started
variable {new : TimerHandle}

omit [Fintype ι] in
theorem frame (h : Started s x new s') : Frame s x s' where
  handle y hy := by rw [h.handle, Function.update_of_ne hy]
  time := h.time
  running := h.running
  ready := by
    rw [h.ready]
    exact List.Subset.refl _
  others y hy _ := by rwa [h.ready]

omit [Fintype ι] in
theorem key_self (h : Started s x new s') : s'.key x = new.key := by
  rw [key, h.handle, Function.update_self]

omit [Fintype ι] in
theorem handle_of_ne (h : Started s x new s') {y : ι} (hy : y ≠ x) :
    s'.handle y = s.handle y := by
  rw [h.handle, Function.update_of_ne hy]

omit [Fintype ι] in
theorem key_of_ne (h : Started s x new s') {y : ι} (hy : y ≠ x) : s'.key y = s.key y := by
  rw [key, h.handle_of_ne hy, key]

theorem inHeap_eq (h : Started s x new s') (hactive : new.active = true) :
    s'.inHeap = insert x s.inHeap := by
  ext y
  rw [Finset.mem_insert, mem_inHeap, mem_inHeap, h.handle]
  by_cases hy : y = x
  · subst hy
    simp [hactive]
  · simp [hy]

theorem sound (h : Started s x ((s.handle x).start s.time s.timerCounter callback timeout repeatMs)
      s') (hs : Sound s) (hx : ¬s.Armed x) (hcount : s.timerCounter ≠ -1)
    (hholds : s'.heap.Holds s'.key (insert x s.inHeap)) : Sound s' := by
  obtain ⟨-, hoff⟩ := not_or.mp hx
  have hne : ∀ y ∈ s.ready, y ≠ x := fun y hy heq => hoff (heq ▸ hy)
  have hnext := toNat_add_one_of_ne hcount
  have hself := congrFun h.handle x
  rw [Function.update_self] at hself
  refine ⟨?_, ?_, ?_, ?_, ?_, ?_, ?_, ?_⟩
  · rw [h.inHeap_eq rfl]
    exact hholds
  · rw [h.ready]
    exact hs.nodup
  · rw [h.ready]
    intro y hy
    rw [h.handle_of_ne (hne y hy)]
    exact hs.idle y hy
  · rw [h.ready, h.time]
    intro y hy
    rw [h.handle_of_ne (hne y hy)]
    exact hs.due y hy
  · rw [h.ready]
    refine hs.sorted.imp_of_mem fun hy hz hle => ?_
    rw [h.key_of_ne (hne _ hy), h.key_of_ne (hne _ hz)]
    exact hle
  · rw [h.ready, h.inHeap_eq rfl]
    intro y hy z hz
    rw [h.key_of_ne (hne y hy)]
    by_cases hzx : z = x
    · rw [hzx, h.key_self]
      exact hs.key_le_start hy
    · rw [h.key_of_ne hzx]
      exact hs.before y hy z (Finset.mem_of_mem_insert_of_ne hz hzx)
  · intro y hy
    rw [h.timerCounter, UInt64.lt_iff_toNat_lt, hnext]
    by_cases hyx : y = x
    · rw [hyx, hself]
      exact Nat.lt_succ_self _
    · rw [Armed, h.handle_of_ne hyx, h.ready] at hy
      rw [h.handle_of_ne hyx]
      exact Nat.lt_succ_of_lt (UInt64.lt_iff_toNat_lt.mp (hs.started y hy))
  · intro y hy
    by_cases hyx : y = x
    · rw [hyx, hself]
      simp [TimerHandle.start]
    · rw [Armed, h.handle_of_ne hyx, h.ready] at hy
      rw [h.handle_of_ne hyx]
      exact hs.callback y hy

omit [Fintype ι] in
theorem toAgenda_eq
    (h : Started s x ((s.handle x).start s.time s.timerCounter callback timeout repeatMs) s') :
    s'.toAgenda = s.toAgenda.arm x callback timeout repeatMs := by
  simp only [toAgenda, Agenda.arm, Agenda.setHandle, h.time, h.timerCounter, h.handle, h.ready]
  congr 1
  funext y
  by_cases hy : y = x
  · subst hy
    simp [TimerHandle.start, UvTimer.start]
  · simp [hy]

end Started

/-- A timer that is not armed is armed. -/
theorem Sound.arm (h : Sound s) (hx : ¬s.Armed x) (hcount : s.timerCounter ≠ -1)
    (hcard : Fintype.card ι < 2 ^ 32) (callback : ℕ) (timeout repeatMs : UInt64) :
    ∃ s', s.arm x callback timeout repeatMs = some s' ∧ Frame s x s' ∧ Sound s' ∧
      s'.toAgenda = s.toAgenda.arm x callback timeout repeatMs := by
  have hout : x ∉ s.inHeap := mt mem_inHeap.mp (not_or.mp hx).1
  have hsize : s.inHeap.card + 1 < 2 ^ 32 := by
    have hlt := Finset.card_lt_univ_of_notMem hout
    omega
  have hkey : ∀ y ∈ s.inHeap, (s.setHandle x ((s.handle x).start s.time s.timerCounter callback
      timeout repeatMs)).key y = s.key y := by
    intro y hy
    have hyx : y ≠ x := fun heq => hout (heq ▸ hy)
    simp [key, setHandle, hyx]
  obtain ⟨heap, hinsert, hholds⟩ := (h.holds.congr hkey).insert hout hsize
  have hstarted : Started s x ((s.handle x).start s.time s.timerCounter callback timeout repeatMs)
      { s.setHandle x ((s.handle x).start s.time s.timerCounter callback timeout repeatMs) with
        heap, timerCounter := s.timerCounter + 1 } := ⟨rfl, rfl, rfl, rfl, rfl⟩
  refine ⟨_, ?_, hstarted.frame, hstarted.sound h hx hcount hholds, hstarted.toAgenda_eq⟩
  simp only [TimerLoop.arm, lessThan_eq]
  rw [show (s.setHandle x _).heap = s.heap from rfl, hinsert]
  rfl

end Arm

/-- `uv_timer_start` returns. -/
theorem Sound.start (h : Sound s) (hcount : s.timerCounter ≠ -1) (hcard : Fintype.card ι < 2 ^ 32)
    (x : ι) (callback : Option ℕ) (timeout repeatMs : UInt64) :
    ∃ s' code, s.uvTimerStart x callback timeout repeatMs = some (s', code) ∧ Frame s x s' ∧
      Sound s' ∧ (s'.toAgenda, code) = s.toAgenda.start x callback timeout repeatMs := by
  cases callback with
  | none => exact ⟨s, uvEinval, rfl, .refl s x, h, rfl⟩
  | some callback =>
    by_cases hclosing : (s.handle x).closing = true
    · refine ⟨s, uvEinval, if_pos hclosing, .refl s x, h, ?_⟩
      simp only [Agenda.start]
      rw [if_pos (show (s.toAgenda.handle x).closing = true from hclosing)]
    · obtain ⟨s₁, hstop, hstopped, hs₁⟩ := h.stop x
      obtain ⟨s₂, harm, hframe, hs₂, hagenda⟩ :=
        hs₁.arm (hstopped.not_armed h.nodup) (by rwa [hstopped.timerCounter]) hcard callback
          timeout repeatMs
      refine ⟨s₂, 0, ?_, hstopped.frame.trans hframe, hs₂, ?_⟩
      · simp [uvTimerStart, hclosing, hstop, harm]
      · simp only [Agenda.start]
        rw [if_neg (show ¬(s.toAgenda.handle x).closing = true from hclosing), hagenda,
          hstopped.toAgenda_eq h.nodup, Agenda.arm_stop]

/-- `uv_timer_again` returns. -/
theorem Sound.again (h : Sound s) (hcount : s.timerCounter ≠ -1) (hcard : Fintype.card ι < 2 ^ 32)
    (x : ι) :
    ∃ s' code, s.uvTimerAgain x = some (s', code) ∧ Frame s x s' ∧ Sound s' ∧
      (s'.toAgenda, code) = s.toAgenda.again x := by
  unfold uvTimerAgain Agenda.again
  rw [show (s.toAgenda.handle x).callback = (s.handle x).callback from rfl,
    show (s.toAgenda.handle x).repeatMs = (s.handle x).repeatMs from rfl]
  split_ifs with hnull honce
  · exact ⟨s, uvEinval, rfl, .refl s x, h, rfl⟩
  · exact ⟨s, 0, rfl, .refl s x, h, rfl⟩
  · obtain ⟨s₁, hstop, hstopped, hs₁⟩ := h.stop x
    have hself : s₁.handle x = (s.handle x).stop := by rw [hstopped.handle, Function.update_self]
    obtain ⟨s₂, code, hstart, hframe, hs₂, hagenda⟩ :=
      hs₁.start (by rwa [hstopped.timerCounter]) hcard x (s.handle x).callback
        (s.handle x).repeatMs (s.handle x).repeatMs
    refine ⟨s₂, 0, ?_, hstopped.frame.trans hframe, hs₂, ?_⟩
    · have hstart' : s₁.uvTimerStart x (s₁.handle x).callback (s₁.handle x).repeatMs
          (s₁.handle x).repeatMs = some (s₂, code) := by rw [hself]; exact hstart
      simp [hstop, hstart']
    · rw [← hstopped.toAgenda_eq h.nodup, ← hagenda]

/-- A handle that is in no queue may change. -/
theorem Sound.setHandle (h : Sound s) {x : ι} (hx : ¬s.Armed x) {new : TimerHandle}
    (hnew : new.active = false) : Sound (s.setHandle x new) := by
  have hother : ∀ y, y ≠ x → (s.setHandle x new).handle y = s.handle y := fun y hy =>
    Function.update_of_ne hy ..
  have hself : (s.setHandle x new).handle x = new := Function.update_self ..
  have hidle := (not_or.mp hx).1
  have hheap : (s.setHandle x new).inHeap = s.inHeap := by
    ext y
    rw [mem_inHeap, mem_inHeap]
    by_cases hy : y = x
    · rw [hy, hself, hnew]
      simp [hidle]
    · rw [hother y hy]
  refine h.weaken ?_ (List.Sublist.refl _) (UInt64.le_refl _) rfl fun y hy => ?_
  · rw [hheap]
    refine h.holds.congr fun y hy => ?_
    have hyx : y ≠ x := fun heq => hidle (heq ▸ mem_inHeap.mp hy)
    rw [key, hother y hyx, key]
  · have hyx : y ≠ x := by
      rintro rfl
      obtain hy | hy := hy
      · rw [hself, hnew] at hy
        cases hy
      · exact hx (.inr hy)
    rw [hother y hyx]
    exact ⟨rfl, rfl, rfl⟩

/-- Marking a handle as closing leaves its timer alone. -/
theorem Sound.setClosing (h : Sound s) (x : ι) :
    Sound (s.setHandle x (s.handle x).setClosing) := by
  have hsame : ∀ y, ((s.setHandle x (s.handle x).setClosing).handle y).toUvTimer =
      (s.handle y).toUvTimer ∧
      ((s.setHandle x (s.handle x).setClosing).handle y).startId =
        (s.handle y).startId ∧
      ((s.setHandle x (s.handle x).setClosing).handle y).callback =
        (s.handle y).callback := by
    intro y
    by_cases hy : y = x
    · subst hy
      simp [TimerLoop.setHandle, TimerHandle.setClosing]
    · simp [TimerLoop.setHandle, hy]
  have hkey : (s.setHandle x (s.handle x).setClosing).key = s.key := by
    funext y
    simp only [key, TimerHandle.key, hsame]
  have hheap : (s.setHandle x (s.handle x).setClosing).inHeap = s.inHeap := by
    simp only [inHeap, hsame]
  refine h.weaken ?_ (List.Sublist.refl _) (UInt64.le_refl _) rfl fun y _ => hsame y
  rw [hkey, hheap]
  exact h.holds

/-- `uv_close` returns if the handle is not closing. -/
theorem Sound.close (h : Sound s) {x : ι} (hopen : (s.handle x).closing = false) :
    ∃ s', s.uvClose x = some s' ∧ Frame s x s' ∧ Sound s' ∧
      s'.toAgenda = s.toAgenda.close x := by
  obtain ⟨s', hstop, hstopped, hs'⟩ := (h.setClosing x).stop x
  have hmark : (s.setHandle x (s.handle x).setClosing).toAgenda =
      s.toAgenda.setHandle x (s.toAgenda.handle x).setClosing := by
    simp only [toAgenda, Agenda.setHandle, TimerLoop.setHandle]
    congr 1
    funext y
    by_cases hy : y = x
    · subst hy
      rw [Function.update_self, Function.update_self]
      rfl
    · rw [Function.update_of_ne hy, Function.update_of_ne hy]
      rfl
  have hframe : Frame s x (s.setHandle x (s.handle x).setClosing) :=
    ⟨fun y hy => Function.update_of_ne hy .., rfl, rfl, List.Subset.refl _, fun _ hy _ => hy⟩
  refine ⟨s', ?_, hframe.trans hstopped.frame, hs', ?_⟩
  · simp [uvClose, hopen, hstop]
  · rw [hstopped.toAgenda_eq h.nodup, hmark]
    simp [Agenda.stop, Agenda.close, Agenda.setHandle, TimerHandle.stop, TimerHandle.setClosing]

/-- The first timer of the heap, which is due, goes to the end of the queue. -/
theorem Sound.collectOne (h : Sound s) {x : ι} (hmin : s.heap.min = some x)
    (hdue : (s.handle x).timeout ≤ s.time) :
    ∃ s', s.uvTimerStop x = some s' ∧ Sound { s' with ready := s'.ready ++ [x] } ∧
      s'.inHeap = s.inHeap.erase x ∧ s'.ready = s.ready ∧ s'.time = s.time ∧
      s'.running = s.running ∧ { s' with ready := s'.ready ++ [x] }.toAgenda = s.toAgenda := by
  obtain ⟨hmem, hfirst⟩ := h.holds.min.2 x hmin
  have hactive := mem_inHeap.mp hmem
  have hoff : x ∉ s.ready := fun hx => by simp [h.idle x hx] at hactive
  obtain ⟨s', hstop, hstopped, hs'⟩ := h.stop x
  have hready : s'.ready = s.ready := by rw [hstopped.ready, List.erase_of_not_mem hoff]
  have hself : s'.handle x = (s.handle x).stop := by rw [hstopped.handle, Function.update_self]
  have harmed : ∀ y, Armed { s' with ready := s'.ready ++ [x] } y → s'.Armed y ∨ y = x := by
    intro y hy
    obtain hy | hy := hy
    · exact .inl (.inl hy)
    · obtain hy | hy := List.mem_append.mp hy
      · exact .inl (.inr hy)
      · exact .inr (List.mem_singleton.mp hy)
  refine ⟨s', hstop, ⟨hs'.holds, ?_, ?_, ?_, ?_, ?_, ?_, ?_⟩, hstopped.inHeap_eq, hready,
    hstopped.time, hstopped.running, ?_⟩
  · change (s'.ready ++ [x]).Nodup
    rw [hready, ← List.concat_eq_append]
    exact h.nodup.concat hoff
  · intro y hy
    obtain hy | hy := List.mem_append.mp hy
    · exact hs'.idle y hy
    · rw [List.mem_singleton.mp hy, hself]
      rfl
  · intro y hy
    obtain hy | hy := List.mem_append.mp hy
    · exact hs'.due y hy
    · rw [List.mem_singleton.mp hy, hself, hstopped.time]
      exact hdue
  · refine List.pairwise_append.mpr ⟨hs'.sorted, List.pairwise_singleton .., fun y hy z hz => ?_⟩
    rw [hready] at hy
    rw [List.mem_singleton.mp hz]
    change s'.key y ≤ s'.key x
    rw [hstopped.key_eq]
    exact h.before y hy x hmem
  · intro y hy z hz
    obtain hy | hy := List.mem_append.mp hy
    · exact hs'.before y hy z hz
    · have hz' : z ∈ s.inHeap.erase x := hstopped.inHeap_eq ▸ hz
      rw [List.mem_singleton.mp hy]
      change s'.key x ≤ s'.key z
      rw [hstopped.key_eq]
      exact hfirst z (Finset.mem_of_mem_erase hz')
  · intro y hy
    obtain hy | rfl := harmed y hy
    · exact hs'.started y hy
    · rw [hself, hstopped.timerCounter]
      exact h.started y (.inl hactive)
  · intro y hy
    obtain hy | rfl := harmed y hy
    · exact hs'.callback y hy
    · rw [hself]
      exact h.callback y (.inl hactive)
  · simp only [toAgenda, hstopped.time, hstopped.timerCounter, hstopped.handle, hready]
    congr 1
    funext y
    by_cases hy : y = x
    · subst hy
      simp [TimerHandle.stop, hactive]
    · simp [hy]

/-- The first loop of `uv__run_timers` ends, and what is left in the heap is not due. -/
theorem Sound.collect (fuel : ℕ) (h : Sound s) (hfuel : s.inHeap.card < fuel) :
    ∃ s', collect fuel s = some s' ∧ Sound s' ∧ s'.time = s.time ∧ s'.running = s.running ∧
      (∀ x ∈ s'.inHeap, s.time < (s'.handle x).timeout) ∧ s'.toAgenda = s.toAgenda := by
  induction fuel generalizing s with
  | zero => omega
  | succ fuel ih =>
    rw [TimerLoop.collect]
    cases hmin : s.heap.min with
    | none =>
      have hempty := h.holds.min.1.mp hmin
      exact ⟨s, rfl, h, rfl, rfl, by simp [hempty], rfl⟩
    | some x =>
      obtain ⟨hmem, hfirst⟩ := h.holds.min.2 x hmin
      by_cases hlater : s.time < (s.handle x).timeout
      · refine ⟨s, if_pos hlater, h, rfl, rfl, fun y hy => ?_, rfl⟩
        exact UInt64.lt_of_lt_of_le hlater (TimerHandle.timeout_le_of_key_le (hfirst y hy))
      · obtain ⟨s₁, hstop, hs₁, hheap, -, htime, hrunning, hagenda⟩ :=
          h.collectOne hmin (UInt64.not_lt.mp hlater)
        have hcard : s₁.inHeap.card < fuel := by
          rw [hheap, Finset.card_erase_of_mem hmem]
          have hpos := Finset.card_pos.mpr ⟨x, hmem⟩
          omega
        obtain ⟨s₂, hcollect, hs₂, htime₂, hrunning₂, hdue, hagenda₂⟩ := ih hs₁ hcard
        refine ⟨s₂, ?_, hs₂, htime₂.trans htime, hrunning₂.trans hrunning, ?_,
          hagenda₂.trans hagenda⟩
        · simp only [if_neg hlater, hstop, Option.bind_eq_bind, Option.bind_some]
          exact hcollect
        · rw [← htime]
          exact hdue

section Round
variable {x : ι} {ready : List ι}

/-- The head of the queue is the next of the agenda. -/
theorem Sound.next (h : Sound s) (hready : s.ready = x :: ready) : s.toAgenda.Next x := by
  have hx : x ∈ s.ready := by rw [hready]; exact List.mem_cons_self
  have hactive : (s.toAgenda.handle x).active = true := by simp [toAgenda, hx]
  refine ⟨hactive, h.due x hx, fun y hy => ?_⟩
  change s.key x ≤ s.key y
  obtain hy | hy : (s.handle y).active = true ∨ y ∈ s.ready := by simpa [toAgenda] using hy
  · exact h.before x hx y (mem_inHeap.mpr hy)
  · have hsorted := h.sorted
    rw [hready] at hy hsorted
    obtain rfl | hy := List.mem_cons.mp hy
    · exact le_rfl
    · exact List.rel_of_pairwise_cons hsorted hy

/-- The head of the queue is taken off. -/
theorem Sound.tail (h : Sound s) (hready : s.ready = x :: ready) : Sound { s with ready } := by
  refine h.weaken h.holds ?_ (UInt64.le_refl _) rfl fun y _ => ⟨rfl, rfl, rfl⟩
  rw [hready]
  exact List.sublist_cons_self x ready

theorem Sound.toAgenda_tail (h : Sound s) (hready : s.ready = x :: ready) :
    { s with ready }.toAgenda = s.toAgenda.stop x := by
  have hnodup := h.nodup
  have hidle := h.idle x (by rw [hready]; exact List.mem_cons_self)
  rw [hready] at hnodup
  simp only [toAgenda, Agenda.stop, Agenda.setHandle, hready]
  congr 1
  funext y
  by_cases hy : y = x
  · subst hy
    simp [TimerHandle.stop, hidle, (List.nodup_cons.mp hnodup).1]
  · simp [hy]

end Round

omit [Fintype ι] in
theorem round_nil (hready : s.ready = []) : s.round = some ({ s with running := false }, []) := by
  simp [TimerLoop.round, hready]

theorem Sound.setRunning (h : Sound s) (running : Bool) : Sound { s with running } :=
  ⟨h.holds, h.nodup, h.idle, h.due, h.sorted, h.before, h.started, h.callback⟩

/-- The second loop of `uv__run_timers` goes round: the callback it calls is that of the next
timer of the agenda. -/
theorem Sound.round (h : Sound s) (hcount : s.timerCounter ≠ -1)
    (hcard : Fintype.card ι < 2 ^ 32) :
    ∃ s' out, s.round = some (s', out) ∧ Sound s' ∧
      (s.ready = [] ∧ s' = { s with running := false } ∧ out = [] ∨
        ∃ x ready callback, s.ready = x :: ready ∧ (s.handle x).callback = some callback ∧
          Frame { s with ready } x s' ∧
          out = [.fired x callback (s.handle x).timeout (s.handle x).startId s.time] ∧
          Agenda.step s.toAgenda (.fire x) = some (s'.toAgenda, out)) := by
  cases hready : s.ready with
  | nil => exact ⟨_, _, round_nil hready, h.setRunning false, .inl ⟨rfl, by rw [hready], rfl⟩⟩
  | cons x ready =>
    obtain ⟨s₁, code, hagain, hframe, hs₁, hagenda⟩ := (h.tail hready).again hcount hcard x
    rw [h.toAgenda_tail hready] at hagenda
    have hx : x ∈ s.ready := by rw [hready]; exact List.mem_cons_self
    obtain ⟨callback, hcallback⟩ := Option.ne_none_iff_exists'.mp (h.callback x (.inr hx))
    have hkept : (s₁.handle x).callback = some callback := by
      have hsame := Agenda.callback_again (s.toAgenda.stop x) x
      have hstop : ((s.toAgenda.stop x).handle x).callback = some callback := by
        simp [Agenda.stop, Agenda.setHandle, TimerHandle.stop, toAgenda, hcallback]
      rw [← hagenda, hstop] at hsame
      exact hsame
    have hfire : Agenda.step s.toAgenda (.fire x) = some (s₁.toAgenda,
        [.fired x callback (s.handle x).timeout (s.handle x).startId s.time]) := by
      simp only [Agenda.step]
      rw [if_pos (h.next hready), ← hagenda, show (s.toAgenda.handle x).callback = some callback
        from hcallback]
      rfl
    refine ⟨s₁, _, ?_, hs₁, .inr ⟨x, ready, callback, rfl, hcallback, hframe, rfl, hfire⟩⟩
    simp [TimerLoop.round, hready, hagain, hkept, show s₁.time = s.time from hframe.time]

/-- A pass that has ended has called all that were in its queue. -/
structure Keeps (s : TimerLoop ι) : Prop extends Sound s where
  ended : s.running = false → s.ready = []

theorem Keeps.of_frame (h : Keeps s) {x : ι} (hframe : Frame s x s') (hs' : Sound s') :
    Keeps s' := by
  refine ⟨hs', fun hstill => ?_⟩
  have hempty := h.ended (hframe.running.symm.trans hstill)
  exact List.eq_nil_of_subset_nil (hempty ▸ hframe.ready)

omit [Fintype ι] in
theorem toAgenda_init {x : ι} (hx : ¬s.Armed x) :
    (s.setHandle x (s.handle x).init).toAgenda =
      s.toAgenda.setHandle x (s.toAgenda.handle x).init := by
  simp only [toAgenda, Agenda.setHandle, TimerLoop.setHandle]
  congr 1
  funext y
  by_cases hy : y = x
  · subst hy
    simp [TimerHandle.init, (not_or.mp hx).2]
  · rw [Function.update_of_ne hy, Function.update_of_ne hy]
    rfl

/-- What a label needs to be taken; the other labels are always possible. -/
def Permits (s : TimerLoop ι) : TimerLabel ι → Prop
  | .updateTime time => s.running = false ∧ s.time ≤ time
  | .timerInit x => ¬s.Armed x
  | .close x => (s.handle x).closing = false
  | .runTimers => s.running = false
  | .round => s.running = true
  | _ => True

/-- `uv__run_timers` leaves no timer in the heap that is due. -/
theorem Keeps.runTimers (h : Keeps s) (hidle : s.running = false) :
    ∃ s', (timers ι).step s .runTimers = some (s', []) ∧ Keeps s' ∧
      (∀ x ∈ s'.inHeap, s.time < (s'.handle x).timeout) ∧ s'.toAgenda = s.toAgenda := by
  have hfuel : s.inHeap.card < s.heap.nelts + 1 := by
    rw [h.holds.card]
    exact Nat.lt_succ_self _
  obtain ⟨s', hcollect, hs', -, -, hlater, hagenda⟩ := h.collect _ hfuel
  refine ⟨{ s' with running := true }, ?_, ⟨hs'.setRunning true, by simp⟩, hlater, hagenda⟩
  simp [timers, TimerLoop.step, hidle, hcollect]

/-- A step that is permitted returns, and is a step of the agenda or none. -/
theorem Keeps.step (h : Keeps s) (hcount : s.timerCounter ≠ -1) (hcard : Fintype.card ι < 2 ^ 32)
    (l : TimerLabel ι) (hl : s.Permits l) :
    ∃ s' out, (timers ι).step s l = some (s', out) ∧ Keeps s' ∧
      (s'.toAgenda = s.toAgenda ∧ out = [] ∨
        ∃ l', (agenda ι).step s.toAgenda l' = some (s'.toAgenda, out)) := by
  cases l with
  | updateTime time =>
    have hs' : Sound { s with time } :=
      h.toSound.weaken h.holds (List.Sublist.refl _) hl.2 rfl fun x _ => ⟨rfl, rfl, rfl⟩
    refine ⟨{ s with time }, [], if_pos hl, ⟨hs', h.ended⟩, .inr ⟨.updateTime time, ?_⟩⟩
    exact if_pos hl.2
  | timerInit x =>
    have hidle : ¬(s.toAgenda.handle x).active = true := by simpa [toAgenda] using not_or.mp hl
    refine ⟨s.setHandle x (s.handle x).init, [], if_neg hl, ⟨h.setHandle hl rfl, h.ended⟩,
      .inr ⟨.timerInit x, ?_⟩⟩
    simp only [agenda, Agenda.step]
    rw [if_neg hidle, toAgenda_init hl]
  | timerStart x callback timeout repeatMs =>
    obtain ⟨s', code, hstart, hframe, hs', hagenda⟩ :=
      h.start hcount hcard x callback timeout repeatMs
    refine ⟨s', [.returned code], ?_, h.of_frame hframe hs',
      .inr ⟨.timerStart x callback timeout repeatMs, ?_⟩⟩
    · simp [timers, TimerLoop.step, hstart]
    · simp [agenda, Agenda.step, ← hagenda]
  | timerStop x =>
    obtain ⟨s', hstop, hstopped, hs'⟩ := h.stop x
    refine ⟨s', [.returned 0], ?_, h.of_frame hstopped.frame hs', .inr ⟨.timerStop x, ?_⟩⟩
    · simp [timers, TimerLoop.step, hstop]
    · simp [agenda, Agenda.step, hstopped.toAgenda_eq h.nodup]
  | timerAgain x =>
    obtain ⟨s', code, hagain, hframe, hs', hagenda⟩ := h.again hcount hcard x
    refine ⟨s', [.returned code], ?_, h.of_frame hframe hs', .inr ⟨.timerAgain x, ?_⟩⟩
    · simp [timers, TimerLoop.step, hagain]
    · simp [agenda, Agenda.step, ← hagenda]
  | close x =>
    obtain ⟨s', hclose, hframe, hs', hagenda⟩ := h.close hl
    refine ⟨s', [], ?_, h.of_frame hframe hs', .inr ⟨.close x, ?_⟩⟩
    · simp [timers, TimerLoop.step, hclose]
    · have hopen : (s.toAgenda.handle x).closing = false := hl
      simp [agenda, Agenda.step, hagenda, hopen]
  | runTimers =>
    obtain ⟨s', hrun, hkeeps, -, hagenda⟩ := h.runTimers hl
    exact ⟨s', [], hrun, hkeeps, .inl ⟨hagenda, rfl⟩⟩
  | round =>
    have hrunning : s.running = true := hl
    obtain ⟨s', out, hround, hs', hcase⟩ := h.round hcount hcard
    have hstep : (timers ι).step s .round = some (s', out) := (if_pos hrunning).trans hround
    obtain ⟨hready, rfl, rfl⟩ | ⟨x, ready, callback, hready, -, hframe, -, hfire⟩ := hcase
    · exact ⟨_, _, hstep, ⟨hs', fun _ => hready⟩, .inl ⟨rfl, rfl⟩⟩
    · refine ⟨s', out, hstep, ⟨hs', fun hstill => ?_⟩, .inr ⟨.fire x, hfire⟩⟩
      rw [hframe.running, hrunning] at hstill
      cases hstill

omit [Fintype ι] in
theorem permits_of_step {l : TimerLabel ι} {out : List (TimerEvent ι)}
    (h : (timers ι).step s l = some (s', out)) : s.Permits l := by
  cases l with
  | updateTime time => exact (Option.ite_none_right_eq_some.mp h).1
  | timerInit x => exact (Option.ite_none_left_eq_some.mp h).1
  | timerStart | timerStop | timerAgain => trivial
  | close x =>
    obtain ⟨_, hclose, -⟩ := Option.map_eq_some_iff.mp h
    exact Bool.eq_false_of_not_eq_true (Option.ite_none_left_eq_some.mp hclose).1
  | runTimers => exact Bool.eq_false_of_not_eq_true (Option.ite_none_left_eq_some.mp h).1
  | round => exact (Option.ite_none_right_eq_some.mp h).1

theorem Keeps.of_step (h : Keeps s) (hcount : s.timerCounter ≠ -1)
    (hcard : Fintype.card ι < 2 ^ 32) {l : TimerLabel ι} {out : List (TimerEvent ι)}
    (hstep : (timers ι).step s l = some (s', out)) : Keeps s' := by
  obtain ⟨s₁, out₁, hstep₁, hkeeps, -⟩ := h.step hcount hcard l (permits_of_step hstep)
  cases hstep.symm.trans hstep₁
  exact hkeeps

end TimerLoop

end CapyJs.Libuv
