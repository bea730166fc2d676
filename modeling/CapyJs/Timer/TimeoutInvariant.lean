import CapyJs.Libuv.TimerRuns
import CapyJs.Timer.Timeouts

/-!
# The calls of `setTimeout` and their handles

A call whose function has not been called is armed on the loop, and no other owner has its
handle; a handle is closed once, after the call, and its memory is freed after that.
-/
namespace CapyJs.Timer
open Transition Libuv

/-! ## What a call for one handle does to the others -/

/-- A handle that `setTimeout` has left behind is not armed, and will not be by `uv_timer_again`. -/
def Stale (h : TimerHandle) : Prop :=
  h.callback = some timerLibuvCb → h.active = false ∧ h.repeatMs = 0

theorem Stale.stop {h : TimerHandle} (hstale : Stale h) : Stale h.stop := fun hcallback =>
  ⟨rfl, (hstale hcallback).2⟩

/-- Only the handle `y` changes, and it is armed for no call of `setTimeout`. -/
structure OnlyAt {ι : Type*} (a : Agenda ι) (y : ι) (a' : Agenda ι) : Prop where
  handle : ∀ x, x ≠ y → a'.handle x = a.handle x
  stale : Stale (a.handle y) → Stale (a'.handle y)
  timerCounter : a.timerCounter.toNat ≤ a'.timerCounter.toNat

namespace OnlyAt
variable {ι : Type*} {a : Agenda ι} {y : ι}

theorem refl (a : Agenda ι) (y : ι) : OnlyAt a y a := ⟨fun _ _ => rfl, id, Nat.le_refl _⟩

theorem trans {a' a'' : Agenda ι} (h : OnlyAt a y a') (h' : OnlyAt a' y a'') : OnlyAt a y a'' :=
  ⟨fun x hx => (h'.handle x hx).trans (h.handle x hx), fun hstale => h'.stale (h.stale hstale),
    h.timerCounter.trans h'.timerCounter⟩

variable [DecidableEq ι]

theorem setHandle {new : TimerHandle} (hnew : Stale (a.handle y) → Stale new) :
    OnlyAt a y (a.setHandle y new) := by
  refine ⟨fun x hx => Agenda.handle_setHandle_of_ne hx .., fun hstale => ?_, Nat.le_refl _⟩
  have hself : (a.setHandle y new).handle y = new := Function.update_self ..
  rw [hself]
  exact hnew hstale

theorem stop : OnlyAt a y (a.stop y) := setHandle Stale.stop

theorem close : OnlyAt a y (a.close y) := setHandle fun hstale => hstale.stop

theorem init : OnlyAt a y (a.setHandle y (a.handle y).init) :=
  setHandle fun _ hcallback => by cases hcallback

theorem start (hcount : a.timerCounter ≠ -1) {callback : Option ℕ}
    (hcallback : callback ≠ some timerLibuvCb) (timeout repeatMs : UInt64) :
    OnlyAt a y (a.start y callback timeout repeatMs).1 := by
  cases callback with
  | none => exact refl a y
  | some callback =>
    simp only [Agenda.start]
    split_ifs
    · exact refl a y
    · refine ⟨fun x hx => Function.update_of_ne hx .., fun _ hself => ?_, ?_⟩
      · have hnew : ((a.arm y callback timeout repeatMs).handle y).callback = some callback := by
          simp [Agenda.arm, Agenda.setHandle, TimerHandle.start]
        exact absurd (hnew.symm.trans hself) hcallback
      · have hnext := toNat_add_one_of_ne hcount
        simp only [Agenda.arm, hnext]
        omega

theorem again (hcount : a.timerCounter ≠ -1) (hstale : Stale (a.handle y)) :
    OnlyAt a y (a.again y).1 := by
  unfold Agenda.again
  split_ifs with hnull honce
  · exact refl a y
  · exact refl a y
  · have hcallback : (a.handle y).callback ≠ some timerLibuvCb := fun hself =>
      honce (hstale hself).2
    exact stop.trans (start (a := a.stop y) hcount hcallback _ _)

end OnlyAt

/-! ## Steps of the loop -/

namespace Timeouts
variable {ι : Type*} [DecidableEq ι] [Fintype ι] {s : Timeouts ι}

/-- Another owner's call returns, and leaves the handles of `setTimeout` alone. -/
theorem foreign_step (hkeeps : s.loop.Keeps) (hcount : s.loop.timerCounter ≠ -1)
    (hcard : Fintype.card ι < 2 ^ 32)
    (hstale : ∀ x, s.owner x = none → Stale (s.loop.toAgenda.handle x)) {l : TimerLabel ι}
    (hl : s.foreign l = true) (hpermits : s.loop.Permits l) :
    ∃ loop out y, (Libuv.timers ι).step s.loop l = some (loop, out) ∧
      OnlyAt s.loop.toAgenda y loop.toAgenda ∧ s.owner y = none ∧ (∀ x, l.Touches x → x = y) ∧
      ∀ e ∈ out, e.firedKey = none := by
  cases l with
  | timerInit y =>
    refine ⟨_, [], y, if_neg hpermits, ?_, Option.isNone_iff_eq_none.mp hl, fun x hx => hx.symm,
      by simp⟩
    rw [TimerLoop.toAgenda_init hpermits]
    exact .init
  | timerStart y callback timeout repeatMs =>
    obtain ⟨howner, hcallback⟩ := Bool.and_eq_true_iff.mp hl
    obtain ⟨loop, code, hstart, -, -, hagenda⟩ :=
      hkeeps.start hcount hcard y callback timeout repeatMs
    have honly : OnlyAt s.loop.toAgenda y loop.toAgenda := by
      have h := OnlyAt.start (a := s.loop.toAgenda) (y := y) hcount (of_decide_eq_true hcallback)
        timeout repeatMs
      rwa [← hagenda] at h
    refine ⟨loop, [.returned code], y, ?_, honly, Option.isNone_iff_eq_none.mp howner,
      fun x hx => hx.symm, by simp [TimerEvent.firedKey]⟩
    simp [Libuv.timers, TimerLoop.step, hstart]
  | timerStop y =>
    obtain ⟨loop, hstop, hstopped, -⟩ := hkeeps.stop y
    refine ⟨loop, [.returned 0], y, ?_, ?_, Option.isNone_iff_eq_none.mp hl, fun x hx => hx.symm,
      by simp [TimerEvent.firedKey]⟩
    · simp [Libuv.timers, TimerLoop.step, hstop]
    · rw [hstopped.toAgenda_eq hkeeps.nodup]
      exact .stop
  | timerAgain y =>
    obtain ⟨loop, code, hagain, -, -, hagenda⟩ := hkeeps.again hcount hcard y
    have howner := Option.isNone_iff_eq_none.mp hl
    have honly : OnlyAt s.loop.toAgenda y loop.toAgenda := by
      have h := OnlyAt.again (a := s.loop.toAgenda) hcount (hstale y howner)
      rwa [← hagenda] at h
    refine ⟨loop, [.returned code], y, ?_, honly, howner, fun x hx => hx.symm,
      by simp [TimerEvent.firedKey]⟩
    simp [Libuv.timers, TimerLoop.step, hagain]
  | close y =>
    obtain ⟨loop, hclose, -, -, hagenda⟩ := hkeeps.close hpermits
    refine ⟨loop, [], y, ?_, ?_, Option.isNone_iff_eq_none.mp hl, fun x hx => hx.symm, by simp⟩
    · simp [Libuv.timers, TimerLoop.step, hclose]
    · rw [hagenda]
      exact .close
  | updateTime | runTimers | round => cases hl

end Timeouts

/-! ## The calls and their handles -/

/-- The handle is the one of the call. -/
structure Owned (c : TimeoutCall) (h : TimerHandle) : Prop where
  timeout : h.timeout = c.due
  startId : h.startId = c.startId
  callback : h.callback = some timerLibuvCb
  repeatMs : h.repeatMs = 0

structure Tracks {ι : Type*} [DecidableEq ι] (hist : List TimeoutEvent) (s : Timeouts ι) :
    Prop where
  owned : ∀ x k, s.owner x = some k →
    ∃ c, s.calls[k]? = some c ∧ Owned c (s.loop.toAgenda.handle x)
  stale : ∀ x, s.owner x = none → Stale (s.loop.toAgenda.handle x)
  injective : ∀ x y k, s.owner x = some k → s.owner y = some k → x = y
  pending : ∀ k, k < s.calls.length → (∀ e ∈ hist, e.call ≠ k) →
    ∃ x, s.owner x = some k ∧ (s.loop.toAgenda.handle x).active = true
  called : ∀ e ∈ hist, ∃ c, s.calls[e.call]? = some c ∧ c.due ≤ e.time
  done : ∀ e ∈ hist, ∀ x, s.owner x = some e.call → (s.loop.toAgenda.handle x).active = false
  closed : ∀ x k, s.owner x = some k → (s.loop.toAgenda.handle x).closing = true →
    ∃ e ∈ hist, e.call = k
  returns : ∀ x, s.calling = some x → (s.loop.toAgenda.handle x).closing = false ∧
    ∃ e ∈ hist, s.owner x = some e.call
  started : ∀ c ∈ s.calls, c.startId.toNat < s.loop.timerCounter.toNat
  increasing : s.calls.Pairwise fun c d => c.startId < d.startId

namespace Tracks
variable {ι : Type*} [DecidableEq ι] {hist : List TimeoutEvent} {s : Timeouts ι}
  {loop : TimerLoop ι}

/-- The handles of the calls have not changed. -/
theorem setLoop (h : Tracks hist s)
    (hsame : ∀ x k, s.owner x = some k →
      loop.toAgenda.handle x = s.loop.toAgenda.handle x)
    (hstale : ∀ x, s.owner x = none → Stale (loop.toAgenda.handle x))
    (hcounter : s.loop.timerCounter.toNat ≤ loop.timerCounter.toNat) :
    Tracks hist { s with loop } where
  owned x k hx := by
    rw [hsame x k hx]
    exact h.owned x k hx
  stale := hstale
  injective := h.injective
  pending k hk hnot := by
    obtain ⟨x, hx, hactive⟩ := h.pending k hk hnot
    exact ⟨x, hx, by rw [hsame x k hx]; exact hactive⟩
  called := h.called
  done e he x hx := by
    rw [hsame x _ hx]
    exact h.done e he x hx
  closed x k hx hclosing := by
    rw [hsame x k hx] at hclosing
    exact h.closed x k hx hclosing
  returns x hx := by
    obtain ⟨hopen, e, he, howner⟩ := h.returns x hx
    rw [hsame x _ howner]
    exact ⟨hopen, e, he, howner⟩
  started c hc := Nat.lt_of_lt_of_le (h.started c hc) hcounter
  increasing := h.increasing

/-- The handle of a call that has been called is changed, and is not armed. -/
theorem setCalled (h : Tracks hist s) {x : ι} {k : ℕ} (hx : s.owner x = some k)
    {hist' : List TimeoutEvent} (hsub : hist ⊆ hist') (hk : ∃ e ∈ hist', e.call = k)
    (hnew : ∀ e ∈ hist', e ∈ hist ∨ e.call = k)
    (hcalled : ∀ e ∈ hist', ∃ c, s.calls[e.call]? = some c ∧ c.due ≤ e.time)
    {new : TimerHandle} (hagenda : loop.toAgenda = s.loop.toAgenda.setHandle x new)
    (howned : ∀ c, Owned c (s.loop.toAgenda.handle x) → Owned c new) (hidle : new.active = false)
    {calling : Option ι} (hreturns : ∀ y, calling = some y → y = x ∧ new.closing = false) :
    Tracks hist' { s with loop, calling } := by
  have hself : loop.toAgenda.handle x = new := by
    rw [hagenda]
    exact Function.update_self ..
  have hother : ∀ y, y ≠ x → loop.toAgenda.handle y = s.loop.toAgenda.handle y := by
    intro y hy
    rw [hagenda]
    exact Agenda.handle_setHandle_of_ne hy ..
  have hcounter : loop.timerCounter = s.loop.timerCounter :=
    congrArg (fun a => a.timerCounter) hagenda
  obtain ⟨called, hmem, hcall⟩ := hk
  refine ⟨fun y j hy => ?_, fun y hy => ?_, h.injective, fun j hj hfresh => ?_, hcalled,
    fun e he y hy => ?_, fun y j hy hclosing => ?_, fun y hy => ?_, ?_, h.increasing⟩
  · obtain ⟨c, hc, howns⟩ := h.owned y j hy
    refine ⟨c, hc, ?_⟩
    by_cases hyx : y = x
    · rw [hyx] at howns
      rw [hyx, hself]
      exact howned c howns
    · rw [hother y hyx]
      exact howns
  · have hyx : y ≠ x := by
      rintro rfl
      cases hy.symm.trans hx
    rw [hother y hyx]
    exact h.stale y hy
  · obtain ⟨y, hy, hrun⟩ := h.pending j hj fun e he => hfresh e (hsub he)
    have hyx : y ≠ x := by
      rintro rfl
      cases hy.symm.trans hx
      exact hfresh called hmem hcall
    exact ⟨y, hy, by rw [hother y hyx]; exact hrun⟩
  · by_cases hyx : y = x
    · rw [hyx, hself]
      exact hidle
    · rw [hother y hyx]
      obtain he | hek := hnew e he
      · exact h.done e he y hy
      · rw [hek] at hy
        exact absurd (h.injective y x k hy hx) hyx
  · by_cases hyx : y = x
    · rw [hyx] at hy
      cases hy.symm.trans hx
      exact ⟨called, hmem, hcall⟩
    · rw [hother y hyx] at hclosing
      obtain ⟨e, he, hej⟩ := h.closed y j hy hclosing
      exact ⟨e, hsub he, hej⟩
  · obtain ⟨rfl, hopen⟩ := hreturns y hy
    rw [hself]
    exact ⟨hopen, called, hmem, by rw [hcall]; exact hx⟩
  · rw [hcounter]
    exact h.started

/-- The function of the call that has the handle is called. -/
theorem fired (h : Tracks hist s) {x : ι} {k : ℕ} (hx : s.owner x = some k)
    (hactive : (s.loop.toAgenda.handle x).active = true)
    (hdue : (s.loop.toAgenda.handle x).timeout ≤ s.loop.time)
    (hagenda : loop.toAgenda = s.loop.toAgenda.stop x) :
    Tracks (hist ++ [⟨k, s.loop.time⟩]) { s with loop, calling := some x } := by
  have hmem : ⟨k, s.loop.time⟩ ∈ hist ++ [⟨k, s.loop.time⟩] := by simp
  -- a handle that is closing belongs to a call that has been called, and is not armed
  have hopen : (s.loop.toAgenda.handle x).closing = false := by
    refine Bool.eq_false_of_not_eq_true fun hclosing => ?_
    obtain ⟨e, he, rfl⟩ := h.closed x k hx hclosing
    rw [h.done e he x hx] at hactive
    cases hactive
  refine h.setCalled hx (List.subset_append_left _ _) ⟨_, hmem, rfl⟩ (fun e he => ?_)
    (fun e he => ?_) hagenda (fun c hc => ⟨hc.timeout, hc.startId, hc.callback, hc.repeatMs⟩) rfl
    ?_
  · obtain he | he := List.mem_append.mp he
    · exact .inl he
    · rw [List.mem_singleton.mp he]
      exact .inr rfl
  · obtain he | he := List.mem_append.mp he
    · exact h.called e he
    · rw [List.mem_singleton.mp he]
      obtain ⟨c, hc, howned⟩ := h.owned x k hx
      exact ⟨c, hc, howned.timeout ▸ hdue⟩
  · rintro y ⟨⟩
    exact ⟨rfl, hopen⟩

/-- `timer_libuv_cb` closes the handle. -/
theorem callbackReturned (h : Tracks hist s) {x : ι} (hcalling : s.calling = some x)
    (hagenda : loop.toAgenda = s.loop.toAgenda.close x) :
    Tracks hist { s with loop, calling := none } := by
  obtain ⟨-, called, hcalled, hx⟩ := h.returns x hcalling
  refine h.setCalled hx (List.Subset.refl _) ⟨called, hcalled, rfl⟩ (fun e he => .inl he) h.called
    hagenda (fun c hc => ⟨hc.timeout, hc.startId, hc.callback, hc.repeatMs⟩) rfl ?_
  rintro y ⟨⟩

/-- `on_close` frees the memory of a handle that is closed. -/
theorem onClose (h : Tracks hist s) (hcalling : s.calling = none) {x : ι} {k : ℕ}
    (hx : s.owner x = some k) (hclosing : (s.loop.toAgenda.handle x).closing = true) :
    Tracks hist { s with owner := Function.update s.owner x none } := by
  obtain ⟨called, hcalled, rfl⟩ := h.closed x k hx hclosing
  have hkept : ∀ {y j}, Function.update s.owner x none y = some j → y ≠ x ∧ s.owner y = some j := by
    intro y j hy
    by_cases hyx : y = x
    · subst hyx
      simp at hy
    · rw [Function.update_of_ne hyx] at hy
      exact ⟨hyx, hy⟩
  refine ⟨fun y j hy => h.owned y j (hkept hy).2, fun y hy => ?_,
    fun y z j hy hz => h.injective y z j (hkept hy).2 (hkept hz).2, fun j hj hfresh => ?_, h.called,
    fun e he y hy => h.done e he y (hkept hy).2, fun y j hy => h.closed y j (hkept hy).2, ?_,
    h.started, h.increasing⟩
  · by_cases hyx : y = x
    · obtain ⟨c, -, howned⟩ := h.owned x _ hx
      rw [hyx]
      exact fun _ => ⟨h.done called hcalled x hx, howned.repeatMs⟩
    · exact h.stale y ((Function.update_of_ne hyx ..).symm.trans hy)
  · obtain ⟨y, hy, hrun⟩ := h.pending j hj hfresh
    have hyx : y ≠ x := by
      rintro rfl
      cases hy.symm.trans hx
      exact hfresh called hcalled rfl
    exact ⟨y, (Function.update_of_ne hyx ..).trans hy, hrun⟩
  · intro y hy
    rw [hcalling] at hy
    cases hy

/-- A new call gets a handle that no other has. -/
theorem setTimeout (h : Tracks hist s) {x : ι} (hx : s.owner x = none)
    (hcount : s.loop.timerCounter ≠ -1) (delay : Int32)
    (hagenda : loop.toAgenda = (s.loop.toAgenda.setHandle x (s.loop.toAgenda.handle x).init).arm x
      timerLibuvCb (LoopState.milliseconds delay) 0) :
    Tracks hist
      { s with
        loop
        owner := Function.update s.owner x (some s.calls.length)
        calls := s.calls ++ [⟨s.loop.time, delay, s.loop.timerCounter⟩] } := by
  have hself : loop.toAgenda.handle x = (s.loop.toAgenda.handle x).init.start s.loop.time
      s.loop.timerCounter timerLibuvCb (LoopState.milliseconds delay) 0 := by
    rw [hagenda]
    simp [Agenda.arm, Agenda.setHandle, TimerLoop.toAgenda]
  have hother : ∀ y, y ≠ x → loop.toAgenda.handle y = s.loop.toAgenda.handle y := by
    intro y hy
    rw [hagenda]
    simp [Agenda.arm, Agenda.setHandle, hy]
  have hcounter : loop.timerCounter.toNat = s.loop.timerCounter.toNat + 1 := by
    rw [← toNat_add_one_of_ne hcount]
    exact congrArg (fun a => a.timerCounter.toNat) hagenda
  have hlt : ∀ {y k}, s.owner y = some k → k < s.calls.length := by
    intro y k hy
    obtain ⟨c, hc, -⟩ := h.owned y k hy
    exact (List.getElem?_eq_some_iff.mp hc).1
  have hkept : ∀ {y k}, Function.update s.owner x (some s.calls.length) y = some k →
      y = x ∧ k = s.calls.length ∨ y ≠ x ∧ s.owner y = some k := by
    intro y k hy
    by_cases hyx : y = x
    · subst hyx
      rw [Function.update_self] at hy
      exact .inl ⟨rfl, (Option.some.inj hy).symm⟩
    · rw [Function.update_of_ne hyx] at hy
      exact .inr ⟨hyx, hy⟩
  have hne : ∀ {y k}, s.owner y = some k → y ≠ x := by
    rintro y k hy rfl
    cases hx.symm.trans hy
  refine ⟨fun y k hy => ?_, fun y hy => ?_, fun y z k hy hz => ?_, fun k hk hfresh => ?_,
    fun e he => ?_, fun e he y hy => ?_, fun y k hy hclosing => ?_, fun y hy => ?_, fun c hc => ?_,
    ?_⟩
  · obtain ⟨rfl, rfl⟩ | ⟨hyx, hy⟩ := hkept hy
    · refine ⟨_, List.getElem?_concat_length, ?_⟩
      rw [hself]
      exact ⟨rfl, rfl, rfl, rfl⟩
    · obtain ⟨c, hc, howned⟩ := h.owned y k hy
      refine ⟨c, (List.getElem?_append_left (hlt hy)).trans hc, ?_⟩
      rw [hother y hyx]
      exact howned
  · have hyx : y ≠ x := by
      rintro rfl
      simp at hy
    rw [hother y hyx]
    exact h.stale y ((Function.update_of_ne hyx ..).symm.trans hy)
  · obtain ⟨rfl, rfl⟩ | ⟨-, hy⟩ := hkept hy
    · obtain ⟨rfl, -⟩ | ⟨-, hz⟩ := hkept hz
      · rfl
      · exact absurd (hlt hz) (Nat.lt_irrefl _)
    · obtain ⟨-, rfl⟩ | ⟨-, hz⟩ := hkept hz
      · exact absurd (hlt hy) (Nat.lt_irrefl _)
      · exact h.injective y z k hy hz
  · by_cases hlast : k = s.calls.length
    · refine ⟨x, ?_, ?_⟩
      · rw [hlast]
        exact Function.update_self ..
      · rw [hself]
        rfl
    · rw [List.length_append, List.length_singleton] at hk
      obtain ⟨y, hy, hrun⟩ := h.pending k (by omega) hfresh
      exact ⟨y, (Function.update_of_ne (hne hy) ..).trans hy, by rw [hother y (hne hy)]; exact hrun⟩
  · obtain ⟨c, hc, hdue⟩ := h.called e he
    exact ⟨c, (List.getElem?_append_left (List.getElem?_eq_some_iff.mp hc).1).trans hc, hdue⟩
  · obtain ⟨-, hlast⟩ | ⟨hyx, hy⟩ := hkept hy
    · obtain ⟨c, hc, -⟩ := h.called e he
      have hbound := (List.getElem?_eq_some_iff.mp hc).1
      omega
    · rw [hother y hyx]
      exact h.done e he y hy
  · obtain ⟨rfl, -⟩ | ⟨hyx, hy⟩ := hkept hy
    · rw [hself] at hclosing
      cases hclosing
    · rw [hother y hyx] at hclosing
      exact h.closed y k hy hclosing
  · obtain ⟨hopen, e, he, howner⟩ := h.returns y hy
    rw [hother y (hne howner)]
    exact ⟨hopen, e, he, (Function.update_of_ne (hne howner) ..).trans howner⟩
  · rw [hcounter]
    obtain hc | hc := List.mem_append.mp hc
    · exact Nat.lt_succ_of_lt (h.started c hc)
    · rw [List.mem_singleton.mp hc]
      exact Nat.lt_succ_self _
  · refine List.pairwise_append.mpr ⟨h.increasing, List.pairwise_singleton .., fun c hc d hd => ?_⟩
    rw [List.mem_singleton.mp hd]
    exact UInt64.lt_iff_toNat_lt.mpr (h.started c hc)

end Tracks

/-! ## Steps -/

/-- The event is the call of the timer's callback. -/
def Fires {ι : Type*} (x : ι) : TimerEvent ι → Prop
  | .returned _ => False
  | .fired y _ _ _ _ => y = x

def TimeoutCall.key (c : TimeoutCall) : ℕ ×ₗ ℕ := timerKey c.due c.startId

/-- The keys of the timers whose functions were called. -/
def calledKeys (calls : List TimeoutCall) (hist : List TimeoutEvent) : List (ℕ ×ₗ ℕ) :=
  hist.filterMap fun e => calls[e.call]?.map TimeoutCall.key

namespace Timeouts
variable {ι : Type*} [DecidableEq ι]

/-- What a label needs to be taken. -/
def Permits (s : Timeouts ι) : TimeoutLabel ι → Prop
  | .setTimeout x _ => s.owner x = none ∧ ¬s.loop.Armed x
  | .callbackReturned => s.calling ≠ none
  | .onClose x => s.calling = none ∧ s.loop.running = false ∧ s.owner x ≠ none ∧
    (s.loop.handle x).closing = true
  | .others l => s.foreign l = true ∧ s.loop.Permits l
  | .updateTime time => s.calling = none ∧ s.loop.Permits (.updateTime time)
  | .runTimers => s.calling = none ∧ s.loop.Permits .runTimers
  | .round => s.calling = none ∧ s.loop.Permits .round

/-- The steps of the loop in a step. -/
structure LoopRun (s : Timeouts ι) (out : List TimeoutEvent) (s' : Timeouts ι)
    (labels : List (TimerLabel ι)) (loopOut : List (TimerEvent ι)) : Prop where
  exec : (countedTimers ι).exec s.loop labels = some (s'.loop, loopOut)
  untouched : ∀ x k, s.owner x = some k → (s.loop.toAgenda.handle x).active = true →
    ∀ l ∈ labels, ¬l.Touches x
  owner : ∀ x k, s.owner x = some k → (s.loop.toAgenda.handle x).active = true →
    s'.owner x = some k
  calls : s.calls <+: s'.calls
  fires : ∀ e ∈ loopOut, ∀ x k, Fires x e → s.owner x = some k → ∃ e' ∈ out, e'.call = k
  keys : (calledKeys s'.calls out).Sublist (firedKeys loopOut)

/-- A step that is one step of the loop. -/
theorem LoopRun.of_step {s : Timeouts ι} {loop : TimerLoop ι} {l : TimerLabel ι}
    {out : List TimeoutEvent} {loopOut : List (TimerEvent ι)} {calling : Option ι}
    (hcount : s.loop.timerCounter ≠ -1)
    (hstep : (Libuv.timers ι).step s.loop l = some (loop, loopOut))
    (huntouched : ∀ x k, s.owner x = some k → (s.loop.toAgenda.handle x).active = true →
      ¬l.Touches x)
    (hfires : ∀ e ∈ loopOut, ∀ x k, Fires x e → s.owner x = some k → ∃ e' ∈ out, e'.call = k)
    (hkeys : (calledKeys s.calls out).Sublist (firedKeys loopOut)) :
    LoopRun s out { s with loop, calling } [l] loopOut where
  exec := by
    have hcounted : (countedTimers ι).step s.loop l = some (loop, loopOut) :=
      Machine.guarded_step.mpr ⟨hcount, hstep⟩
    simp [Machine.exec, hcounted]
  untouched x k hx hactive l' hl' := by
    rw [List.mem_singleton.mp hl']
    exact huntouched x k hx hactive
  owner x k hx _ := hx
  calls := List.prefix_rfl
  fires := hfires
  keys := hkeys

end Timeouts
theorem again_stop_of_once {ι : Type*} [DecidableEq ι] {a : Agenda ι} {x : ι}
    (h : (a.handle x).repeatMs = 0) : ((a.stop x).again x).1 = a.stop x := by
  have hstop : ((a.stop x).handle x).repeatMs = 0 := by
    simpa [Agenda.stop, Agenda.setHandle, TimerHandle.stop] using h
  unfold Agenda.again
  split_ifs <;> rfl

theorem of_step_fire {ι : Type*} [DecidableEq ι] [Fintype ι] {a a' : Agenda ι} {x : ι}
    {out : List (TimerEvent ι)} (h : a.step (.fire x) = some (a', out)) :
    a.Next x ∧ a' = ((a.stop x).again x).1 := by
  obtain ⟨hnext, h⟩ := Option.ite_none_right_eq_some.mp h
  obtain ⟨callback, -, heq⟩ := Option.map_eq_some_iff.mp h
  exact ⟨hnext, (Prod.mk.inj heq).1.symm⟩

namespace Tracks
open Timeouts
variable {ι : Type*} [DecidableEq ι] {hist : List TimeoutEvent} {s : Timeouts ι}

theorem step_updateTime (h : Tracks hist s) (hcount : s.loop.timerCounter ≠ -1)
    (hcalling : s.calling = none) {time : UInt64} (hpermits : s.loop.Permits (.updateTime time)) :
    ∃ s' labels loopOut, (timeouts ι).step s (.updateTime time) = some (s', []) ∧
      Tracks hist s' ∧ LoopRun s [] s' labels loopOut := by
  have hstep : (Libuv.timers ι).step s.loop (.updateTime time) =
      some ({ s.loop with time }, []) := if_pos hpermits
  refine ⟨{ s with loop := { s.loop with time } }, _, _, ?_,
    h.setLoop (fun _ _ _ => rfl) h.stale (Nat.le_refl _),
    .of_step hcount hstep (fun _ _ _ _ htouch => htouch) (by simp) (List.nil_sublist _)⟩
  simp only [timeouts, Timeouts.step, hcalling, if_true]
  rw [show s.loop.step (.updateTime time) = _ from hstep]
  rfl

theorem step_onClose (h : Tracks hist s) {x : ι} (hl : s.Permits (.onClose x)) :
    ∃ s' labels loopOut, (timeouts ι).step s (.onClose x) = some (s', []) ∧
      Tracks hist s' ∧ LoopRun s [] s' labels loopOut := by
  obtain ⟨k, hx⟩ := Option.ne_none_iff_exists'.mp hl.2.2.1
  obtain ⟨called, hcalled, rfl⟩ := h.closed x k hx hl.2.2.2
  refine ⟨_, [], [], if_pos hl, h.onClose hl.1 hx hl.2.2.2, rfl, by simp, fun y k hy hactive => ?_,
    List.prefix_rfl, by simp, List.nil_sublist _⟩
  have hyx : y ≠ x := by
    rintro rfl
    rw [h.done called hcalled y hx] at hactive
    cases hactive
  exact (Function.update_of_ne hyx ..).trans hy

variable [Fintype ι]

section
variable (h : Tracks hist s) (hkeeps : s.loop.Keeps) (hcount : s.loop.timerCounter ≠ -1)
include h hkeeps hcount

theorem step_setTimeout (hcard : Fintype.card ι < 2 ^ 32) {x : ι} (delay : Int32)
    (hx : s.owner x = none) (hidle : ¬s.loop.Armed x) :
    ∃ s' labels loopOut, (timeouts ι).step s (.setTimeout x delay) = some (s', []) ∧
      Tracks hist s' ∧ LoopRun s [] s' labels loopOut := by
  have hkeeps₁ : (s.loop.setHandle x (s.loop.handle x).init).Keeps :=
    ⟨hkeeps.setHandle hidle rfl, hkeeps.ended⟩
  obtain ⟨loop, code, hstart, -, -, hagenda⟩ := hkeeps₁.start hcount hcard x (some timerLibuvCb)
    (LoopState.milliseconds delay) 0
  rw [TimerLoop.toAgenda_init hidle] at hagenda
  have hopen : ((s.loop.toAgenda.setHandle x (s.loop.toAgenda.handle x).init).handle x).closing =
      false := by
    simp [Agenda.setHandle, TimerHandle.init]
  simp only [Agenda.start, hopen, Bool.false_eq_true, if_false, Prod.mk.injEq] at hagenda
  have hinit : (countedTimers ι).step s.loop (.timerInit x) =
      some (s.loop.setHandle x (s.loop.handle x).init, []) :=
    Machine.guarded_step.mpr ⟨hcount, if_neg hidle⟩
  have harm : (countedTimers ι).step (s.loop.setHandle x (s.loop.handle x).init)
      (.timerStart x (some timerLibuvCb) (LoopState.milliseconds delay) 0) =
        some (loop, [.returned code]) :=
    Machine.guarded_step.mpr ⟨hcount, by simp [Libuv.timers, TimerLoop.step, hstart]⟩
  have hguard : ¬(s.owner x ≠ none ∨ (s.loop.handle x).active = true ∨ x ∈ s.loop.ready) := by
    simpa [hx, TimerLoop.Armed] using hidle
  have hne : ∀ y k, s.owner y = some k → y ≠ x := by
    rintro y k hy rfl
    cases hx.symm.trans hy
  refine ⟨_, [.timerInit x, .timerStart x (some timerLibuvCb) (LoopState.milliseconds delay) 0],
    [.returned code], ?_, h.setTimeout hx hcount delay hagenda.1, ?_, ?_, ?_,
    List.prefix_append .., ?_, List.nil_sublist _⟩
  · simp only [timeouts, Timeouts.step]
    rw [if_neg hguard]
    simp [Timeouts.setTimeOutFunc, hstart]
  · simp [Machine.exec, hinit, harm]
  · intro y k hy _ l hl
    simp only [List.mem_cons, List.not_mem_nil, or_false] at hl
    obtain rfl | rfl := hl
    · exact (hne y k hy).symm
    · exact (hne y k hy).symm
  · intro y k hy _
    exact (Function.update_of_ne (hne y k hy) ..).trans hy
  · intro e he y k hfires
    rw [List.mem_singleton.mp he] at hfires
    cases hfires

theorem step_callbackReturned {x : ι} (hcalling : s.calling = some x) :
    ∃ s' labels loopOut, (timeouts ι).step s .callbackReturned = some (s', []) ∧
      Tracks hist s' ∧ LoopRun s [] s' labels loopOut := by
  obtain ⟨hopen, called, hcalled, hx⟩ := h.returns x hcalling
  obtain ⟨loop, hclose, -, -, hagenda⟩ := hkeeps.close hopen
  have hstep : (Libuv.timers ι).step s.loop (.close x) = some (loop, []) := by
    simp [Libuv.timers, TimerLoop.step, hclose]
  refine ⟨{ s with loop, calling := none }, _, _, ?_, h.callbackReturned hcalling hagenda,
    .of_step hcount hstep ?_ (by simp) (List.nil_sublist _)⟩
  · simp [timeouts, Timeouts.step, hcalling, hclose]
  · rintro y k hy hactive rfl
    cases hy.symm.trans hx
    rw [h.done called hcalled x hx] at hactive
    cases hactive

theorem step_others (hcard : Fintype.card ι < 2 ^ 32) {l : TimerLabel ι}
    (hl : s.foreign l = true) (hpermits : s.loop.Permits l) :
    ∃ s' labels loopOut, (timeouts ι).step s (.others l) = some (s', []) ∧
      Tracks hist s' ∧ LoopRun s [] s' labels loopOut := by
  obtain ⟨loop, out, y, hstep, honly, hy, htouches, hout⟩ :=
    foreign_step hkeeps hcount hcard h.stale hl hpermits
  have hne : ∀ x k, s.owner x = some k → x ≠ y := by
    rintro x k hx rfl
    cases hy.symm.trans hx
  refine ⟨{ s with loop }, _, _, ?_, h.setLoop (fun x k hx => honly.handle x (hne x k hx))
    (fun x hx => ?_) honly.timerCounter, .of_step hcount hstep
    (fun x k hx _ htouch => hne x k hx (htouches x htouch)) (fun e he x k hfires => ?_)
    (List.nil_sublist _)⟩
  · simp only [timeouts, Timeouts.step, hl, if_true]
    rw [show s.loop.step l = some (loop, out) from hstep]
    rfl
  · by_cases hxy : x = y
    · rw [hxy]
      exact honly.stale (h.stale y hy)
    · rw [honly.handle x hxy]
      exact h.stale x hx
  · cases e with
    | returned => cases hfires
    | fired => cases hout _ he

theorem step_runTimers (hcalling : s.calling = none) (hpermits : s.loop.Permits .runTimers) :
    ∃ s' labels loopOut, (timeouts ι).step s .runTimers = some (s', []) ∧
      Tracks hist s' ∧ LoopRun s [] s' labels loopOut := by
  obtain ⟨loop, hstep, -, -, hagenda⟩ := hkeeps.runTimers hpermits
  have hcounter : loop.timerCounter = s.loop.timerCounter :=
    congrArg (fun a => a.timerCounter) hagenda
  refine ⟨{ s with loop }, _, _, ?_, h.setLoop (fun x _ _ => by rw [hagenda]) (fun x hx => ?_)
    (by rw [hcounter]),
    .of_step hcount hstep (fun _ _ _ _ htouch => htouch) (by simp) (List.nil_sublist _)⟩
  · simp only [timeouts, Timeouts.step, hcalling, if_true]
    rw [show s.loop.step .runTimers = _ from hstep]
    rfl
  · rw [hagenda]
    exact h.stale x hx

theorem step_round (hcard : Fintype.card ι < 2 ^ 32) (hcalling : s.calling = none)
    (hpermits : s.loop.Permits .round) :
    ∃ s' out labels loopOut, (timeouts ι).step s .round = some (s', out) ∧
      Tracks (hist ++ out) s' ∧ LoopRun s out s' labels loopOut := by
  obtain ⟨loop, loopOut, hround, -, hcase⟩ := hkeeps.round hcount hcard
  have hstep : (Libuv.timers ι).step s.loop .round = some (loop, loopOut) :=
    (if_pos (show s.loop.running = true from hpermits)).trans hround
  have hbind : (timeouts ι).step s .round = { s with loop }.afterRound loopOut := by
    simp only [timeouts, Timeouts.step, hcalling, if_true, Timeouts.round]
    rw [show s.loop.step .round = _ from hstep]
    rfl
  have huntouched : ∀ x k, s.owner x = some k → (s.loop.toAgenda.handle x).active = true →
      ¬TimerLabel.round.Touches x := fun _ _ _ _ htouch => htouch
  obtain ⟨-, rfl, rfl⟩ | ⟨x, ready, callback, -, hcallback, -, rfl, hfire⟩ := hcase
  · rw [hbind]
    refine ⟨_, _, _, _, rfl, ?_,
      .of_step hcount hstep huntouched (by simp) (List.nil_sublist _)⟩
    rw [List.append_nil]
    exact h.setLoop (fun _ _ _ => rfl) h.stale (Nat.le_refl _)
  obtain ⟨⟨hactive, hdue, -⟩, hagenda⟩ := of_step_fire hfire
  by_cases hours : callback = timerLibuvCb
  · -- an armed handle with our callback belongs to a call, and does not repeat
    subst hours
    obtain ⟨k, hx⟩ : ∃ k, s.owner x = some k := by
      refine Option.ne_none_iff_exists'.mp fun hnone => ?_
      rw [(h.stale x hnone hcallback).1] at hactive
      cases hactive
    obtain ⟨c, hc, howned⟩ := h.owned x k hx
    have honce : loop.toAgenda = s.loop.toAgenda.stop x :=
      hagenda.trans (again_stop_of_once howned.repeatMs)
    have hkey : c.key = timerKey (s.loop.handle x).timeout (s.loop.handle x).startId := by
      rw [TimeoutCall.key, ← howned.timeout, ← howned.startId]
      rfl
    refine ⟨{ s with loop, calling := some x }, [⟨k, s.loop.time⟩], [.round], _, ?_,
      h.fired hx hactive hdue honce, .of_step hcount hstep huntouched (fun e he y j hfires hy => ?_)
      ?_⟩
    · rw [hbind]
      simp [afterRound, onFired, hx]
    · rw [List.mem_singleton.mp he] at hfires
      subst hfires
      cases hy.symm.trans hx
      exact ⟨_, List.mem_singleton.mpr rfl, rfl⟩
    · simp [calledKeys, firedKeys, TimerEvent.firedKey, hc, hkey]
  · have hx : s.owner x = none := by
      refine Option.eq_none_iff_forall_ne_some.mpr fun k hk => hours ?_
      obtain ⟨c, -, howned⟩ := h.owned x k hk
      exact Option.some.inj (hcallback.symm.trans howned.callback)
    have hstale : Stale ((s.loop.toAgenda.stop x).handle x) := OnlyAt.stop.stale (h.stale x hx)
    have honly : OnlyAt s.loop.toAgenda x loop.toAgenda := by
      rw [hagenda]
      exact OnlyAt.stop.trans (.again hcount hstale)
    have hne : ∀ y k, s.owner y = some k → y ≠ x := by
      rintro y k hy rfl
      cases hx.symm.trans hy
    refine ⟨{ s with loop }, [], [.round], _, ?_, ?_,
      .of_step hcount hstep huntouched ?_ (List.nil_sublist _)⟩
    · rw [hbind]
      simp [afterRound, onFired, hours]
    · rw [List.append_nil]
      refine h.setLoop (fun y k hy => honly.handle y (hne y k hy)) (fun y hy => ?_)
        honly.timerCounter
      by_cases hyx : y = x
      · rw [hyx]
        exact honly.stale (h.stale x hx)
      · rw [honly.handle y hyx]
        exact h.stale y hy
    · intro e he y k hfires hy
      rw [List.mem_singleton.mp he] at hfires
      exact absurd hfires.symm (hne y k hy)

end

/-- A step that is permitted returns. -/
theorem step (h : Tracks hist s) (hkeeps : s.loop.Keeps) (hcount : s.loop.timerCounter ≠ -1)
    (hcard : Fintype.card ι < 2 ^ 32) (l : TimeoutLabel ι) (hl : s.Permits l) :
    ∃ s' out labels loopOut, (timeouts ι).step s l = some (s', out) ∧ Tracks (hist ++ out) s' ∧
      LoopRun s out s' labels loopOut := by
  have hquiet : (∃ s' labels loopOut, (timeouts ι).step s l = some (s', []) ∧ Tracks hist s' ∧
      LoopRun s [] s' labels loopOut) →
      ∃ s' out labels loopOut, (timeouts ι).step s l = some (s', out) ∧ Tracks (hist ++ out) s' ∧
        LoopRun s out s' labels loopOut := by
    rintro ⟨s', labels, loopOut, hstep, htracks, hrun⟩
    exact ⟨s', [], labels, loopOut, hstep, by rwa [List.append_nil], hrun⟩
  cases l with
  | setTimeout x delay => exact hquiet (h.step_setTimeout hkeeps hcount hcard delay hl.1 hl.2)
  | callbackReturned =>
    obtain ⟨x, hcalling⟩ := Option.ne_none_iff_exists'.mp hl
    exact hquiet (h.step_callbackReturned hkeeps hcount hcalling)
  | onClose x => exact hquiet (h.step_onClose hl)
  | others l => exact hquiet (h.step_others hkeeps hcount hcard hl.1 hl.2)
  | updateTime time => exact hquiet (h.step_updateTime hcount hl.1 hl.2)
  | runTimers => exact hquiet (h.step_runTimers hkeeps hcount hl.1 hl.2)
  | round => exact h.step_round hkeeps hcount hcard hl.1 hl.2

end Tracks

theorem Timeouts.permits_of_step {ι : Type*} [DecidableEq ι] {s s' : Timeouts ι}
    {l : TimeoutLabel ι} {out : List TimeoutEvent}
    (h : (timeouts ι).step s l = some (s', out)) : s.Permits l := by
  have hloop : ∀ {l : TimerLabel ι} {f : TimerLoop ι × List (TimerEvent ι) → _},
      (s.loop.step l).map f = some (s', out) → s.loop.Permits l := by
    intro l f h
    obtain ⟨⟨loop, loopOut⟩, hstep, -⟩ := Option.map_eq_some_iff.mp h
    exact TimerLoop.permits_of_step hstep
  cases l with
  | setTimeout x delay =>
    obtain ⟨hidle, -⟩ := Option.ite_none_left_eq_some.mp h
    obtain ⟨howner, hidle⟩ := not_or.mp hidle
    exact ⟨not_not.mp howner, hidle⟩
  | callbackReturned =>
    intro hnone
    simp [timeouts, Timeouts.step, hnone] at h
  | onClose x => exact (Option.ite_none_right_eq_some.mp h).1
  | others l =>
    obtain ⟨hforeign, h⟩ := Option.ite_none_right_eq_some.mp h
    exact ⟨hforeign, hloop h⟩
  | updateTime time =>
    obtain ⟨hcalling, h⟩ := Option.ite_none_right_eq_some.mp h
    exact ⟨hcalling, hloop h⟩
  | runTimers =>
    obtain ⟨hcalling, h⟩ := Option.ite_none_right_eq_some.mp h
    exact ⟨hcalling, hloop h⟩
  | round =>
    obtain ⟨hcalling, h⟩ := Option.ite_none_right_eq_some.mp h
    obtain ⟨⟨loop, loopOut⟩, hstep, -⟩ := Option.bind_eq_some_iff.mp h
    exact ⟨hcalling, TimerLoop.permits_of_step hstep⟩

end CapyJs.Timer
