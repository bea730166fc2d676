import CapyJs.Libuv.TimerRuns

/-!
# What a step of the loop does to one timer

An owner of some of the timers follows each of them through the calls of all owners: a call for
another timer leaves it as it is, its own calls start it with the time of the loop, and a pass
fires it when it comes next.
-/
namespace CapyJs.Libuv
open Transition Timer

namespace Agenda
variable {ι : Type*} [DecidableEq ι] {a : Agenda ι} {x : ι}

theorem handle_start_self (hopen : (a.handle x).closing = false) (callback : ℕ)
    (timeout repeatMs : UInt64) :
    (a.start x (some callback) timeout repeatMs).1.handle x =
      (a.handle x).start a.time a.timerCounter callback timeout repeatMs := by
  simp [start, hopen, arm, setHandle]

theorem handle_again_self {callback : ℕ} (hcallback : (a.handle x).callback = some callback)
    (hrepeat : (a.handle x).repeatMs ≠ 0) (hopen : (a.handle x).closing = false) :
    (a.again x).1.handle x = (a.handle x).start a.time a.timerCounter callback
      (a.handle x).repeatMs (a.handle x).repeatMs := by
  have hstop : ((a.stop x).handle x).closing = false := by
    simp [stop, setHandle, TimerHandle.stop, hopen]
  rw [again, if_neg (by simp [hcallback]), if_neg hrepeat, hcallback, handle_start_self hstop]
  simp [stop, setHandle, TimerHandle.stop, TimerHandle.start]

end Agenda

namespace TimerLoop
variable {ι : Type*} [DecidableEq ι] {s s' : TimerLoop ι} {x y : ι}

theorem of_exec_one {l : TimerLabel ι} {out : List (TimerEvent ι)}
    (hexec : (countedTimers ι).exec s [l] = some (s', out)) :
    s.timerCounter ≠ -1 ∧ (timers ι).step s l = some (s', out) := by
  obtain ⟨s₁, out₁, out₂, hstep, hnil, rfl⟩ := Machine.of_exec_cons hexec
  cases hnil
  rw [List.append_nil]
  exact Machine.guarded_step.mp hstep

theorem Frame.handle_toAgenda (h : Frame s y s') (hx : x ≠ y) :
    s'.toAgenda.handle x = s.toAgenda.handle x := by
  have hready : x ∈ s'.ready ↔ x ∈ s.ready := ⟨fun hm => h.ready hm, fun hm => h.others x hm hx⟩
  simp [toAgenda, h.handle x hx, hready]

theorem running_uvTimerStop (h : s.uvTimerStop x = some s') : s'.running = s.running := by
  unfold uvTimerStop at h
  split_ifs at h
  · obtain ⟨heap, -, h⟩ := Option.bind_eq_some_iff.mp h
    cases h
    rfl
  · cases h
    rfl

theorem running_uvTimerStart {callback : Option ℕ} {timeout repeatMs : UInt64} {code : ℤ}
    (h : s.uvTimerStart x callback timeout repeatMs = some (s', code)) :
    s'.running = s.running := by
  unfold uvTimerStart at h
  split at h
  · cases h
    rfl
  · split_ifs at h
    · cases h
      rfl
    · obtain ⟨s₁, hstop, h⟩ := Option.bind_eq_some_iff.mp h
      obtain ⟨s₂, harm, h⟩ := Option.bind_eq_some_iff.mp h
      cases h
      obtain ⟨heap, -, harm⟩ := Option.bind_eq_some_iff.mp harm
      cases harm
      have hsame : s₁.running = s.running := running_uvTimerStop hstop
      exact hsame

theorem running_uvTimerAgain {code : ℤ} (h : s.uvTimerAgain x = some (s', code)) :
    s'.running = s.running := by
  unfold uvTimerAgain at h
  split_ifs at h
  · cases h
    rfl
  · cases h
    rfl
  · obtain ⟨s₁, hstop, h⟩ := Option.bind_eq_some_iff.mp h
    obtain ⟨⟨s₂, _⟩, hstart, h⟩ := Option.bind_eq_some_iff.mp h
    cases h
    exact (running_uvTimerStart hstart).trans (running_uvTimerStop hstop)

/-- A pass over the timers begins and ends with its own labels. -/
theorem running_of_step {l : TimerLabel ι} (hrun : l ≠ .runTimers) (hround : l ≠ .round)
    {out : List (TimerEvent ι)} (hstep : (timers ι).step s l = some (s', out)) :
    s'.running = s.running := by
  cases l with
  | updateTime time =>
    obtain ⟨-, h⟩ := Option.ite_none_right_eq_some.mp hstep
    cases h
    rfl
  | timerInit x =>
    obtain ⟨-, h⟩ := Option.ite_none_left_eq_some.mp hstep
    cases h
    rfl
  | timerStart x callback timeout repeatMs =>
    obtain ⟨⟨s₁, code⟩, hstart, h⟩ := Option.map_eq_some_iff.mp hstep
    cases h
    exact running_uvTimerStart hstart
  | timerStop x =>
    obtain ⟨s₁, hstop, h⟩ := Option.map_eq_some_iff.mp hstep
    cases h
    exact running_uvTimerStop hstop
  | timerAgain x =>
    obtain ⟨⟨s₁, code⟩, hagain, h⟩ := Option.map_eq_some_iff.mp hstep
    cases h
    exact running_uvTimerAgain hagain
  | close x =>
    obtain ⟨s₁, hclose, h⟩ := Option.map_eq_some_iff.mp hstep
    cases h
    obtain ⟨-, hstop⟩ := Option.ite_none_left_eq_some.mp hclose
    exact (running_uvTimerStop hstop).trans rfl
  | runTimers => exact absurd rfl hrun
  | round => exact absurd rfl hround

theorem running_of_exec {labels : List (TimerLabel ι)}
    (hl : ∀ l ∈ labels, l ≠ .runTimers ∧ l ≠ .round) {out : List (TimerEvent ι)}
    (hexec : (countedTimers ι).exec s labels = some (s', out)) : s'.running = s.running := by
  induction labels generalizing s out with
  | nil =>
    cases hexec
    rfl
  | cons l labels ih =>
    obtain ⟨s₁, out₁, out₂, hstep, hrest, rfl⟩ := Machine.of_exec_cons hexec
    obtain ⟨-, hstep⟩ := Machine.guarded_step.mp hstep
    obtain ⟨hrun, hround⟩ := hl l List.mem_cons_self
    exact (ih (fun l hmem => hl l (List.mem_cons_of_mem _ hmem)) hrest).trans
      (running_of_step hrun hround hstep)

variable [Fintype ι]

/-- Another timer's calls, and all but the callbacks of a pass, leave a timer as it is. -/
theorem Keeps.handle_of_step (h : s.Keeps) (hcount : s.timerCounter ≠ -1)
    (hcard : Fintype.card ι < 2 ^ 32) {l : TimerLabel ι} (hl : ¬l.Touches x) (hround : l ≠ .round)
    {out : List (TimerEvent ι)} (hstep : (timers ι).step s l = some (s', out)) :
    s'.toAgenda.handle x = s.toAgenda.handle x ∧ (x ∈ s.ready → x ∈ s'.ready) := by
  rcases eq_or_ne l .runTimers with rfl | hrun
  · have hidle := permits_of_step hstep
    obtain ⟨s₁, hrun, -, -, hagenda⟩ := h.runTimers hidle
    cases hrun.symm.trans hstep
    rw [hagenda, h.ended hidle]
    exact ⟨rfl, fun hx => absurd hx List.not_mem_nil⟩
  · obtain ⟨hsame, hready⟩ := h.frame_of_step hcount hcard hl hrun hround hstep
    exact ⟨by simp [toAgenda, hsame, hready], hready.mpr⟩

theorem Keeps.handle_of_exec (h : s.Keeps) (hcard : Fintype.card ι < 2 ^ 32)
    {labels : List (TimerLabel ι)} (hl : ∀ l ∈ labels, ¬l.Touches x ∧ l ≠ .round)
    {out : List (TimerEvent ι)} (hexec : (countedTimers ι).exec s labels = some (s', out)) :
    s'.toAgenda.handle x = s.toAgenda.handle x ∧ (x ∈ s.ready → x ∈ s'.ready) := by
  induction labels generalizing s out with
  | nil =>
    cases hexec
    exact ⟨rfl, id⟩
  | cons l labels ih =>
    obtain ⟨s₁, out₁, out₂, hstep, hrest, rfl⟩ := Machine.of_exec_cons hexec
    obtain ⟨hcount, hstep⟩ := Machine.guarded_step.mp hstep
    obtain ⟨htouches, hround⟩ := hl l List.mem_cons_self
    obtain ⟨hfirst, hready⟩ := h.handle_of_step hcount hcard htouches hround hstep
    obtain ⟨hlater, hready'⟩ :=
      ih (h.of_step hcount hcard hstep) (fun l hmem => hl l (List.mem_cons_of_mem _ hmem)) hrest
    exact ⟨hlater.trans hfirst, fun hx => hready' (hready hx)⟩

/-- A round of a pass ends it, or fires the timer that comes next. -/
theorem Keeps.round_cases (h : s.Keeps) (hcount : s.timerCounter ≠ -1)
    (hcard : Fintype.card ι < 2 ^ 32) {out : List (TimerEvent ι)}
    (hstep : (timers ι).step s .round = some (s', out)) :
    s.ready = [] ∧ s'.toAgenda = s.toAgenda ∧ out = [] ∨
      ∃ x callback, s.toAgenda.Next x ∧
        out = [.fired x callback (s.handle x).timeout (s.handle x).startId s.time] ∧
        s'.toAgenda = ((s.toAgenda.stop x).again x).1 ∧
        ∀ y, y ≠ x → s'.toAgenda.handle y = s.toAgenda.handle y ∧ (y ∈ s.ready → y ∈ s'.ready) := by
  obtain ⟨s₁, out₁, hround, -, hcase⟩ := h.round hcount hcard
  cases hround.symm.trans (Option.ite_none_right_eq_some.mp hstep).2
  obtain ⟨hready, rfl, rfl⟩ | ⟨x, ready, callback, hready, -, hframe, rfl, hfire⟩ := hcase
  · exact .inl ⟨hready, rfl, rfl⟩
  · obtain ⟨hnext, hfire⟩ := Option.ite_none_right_eq_some.mp hfire
    refine .inr ⟨x, callback, hnext, rfl, ?_, fun y hy => ⟨?_, fun hmem => ?_⟩⟩
    · obtain ⟨_, -, heq⟩ := Option.map_eq_some_iff.mp hfire
      exact (Prod.mk.inj heq).1.symm
    · rw [hframe.handle_toAgenda hy, h.toAgenda_tail hready]
      exact Agenda.handle_setHandle_of_ne hy ..
    · rw [hready] at hmem
      exact hframe.others y (List.mem_of_ne_of_mem hy hmem) hy

end TimerLoop
end CapyJs.Libuv
