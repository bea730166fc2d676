import CapyJs.Timer.TimeoutInvariant
import Mathlib.Data.Fintype.Option

/-!
# The functions of `setTimeout` are called

A function is called once, in the order of the loop, and in the first pass that begins when it is
due.
-/
namespace CapyJs.Timer
open Transition Libuv

variable {ι : Type*} [DecidableEq ι]

/-- The runs in which the number of the starts of timers fits. -/
abbrev countedTimeouts (ι : Type*) [DecidableEq ι] :
    Machine (Timeouts ι) (TimeoutLabel ι) TimeoutEvent :=
  (timeouts ι).guarded fun s _ => s.loop.timerCounter ≠ -1

def Timeouts.due (s : Timeouts ι) (k : ℕ) : UInt64 := (s.calls[k]?.map TimeoutCall.due).getD 0

theorem calledKeys_of_more_calls {calls calls' : List TimeoutCall} {hist : List TimeoutEvent}
    (hmore : calls <+: calls') (hcalled : ∀ e ∈ hist, ∃ c, calls[e.call]? = some c) :
    calledKeys calls' hist = calledKeys calls hist := by
  refine List.filterMap_congr fun e he => ?_
  obtain ⟨c, hc⟩ := hcalled e he
  obtain ⟨more, rfl⟩ := hmore
  rw [List.getElem?_append_left (List.getElem?_eq_some_iff.mp hc).1]

theorem tracks_of_init {s : Timeouts ι} (h : (timeouts ι).init s) : Tracks [] s := by
  obtain ⟨-, hcallback, howner, hcalling, hcalls⟩ := h
  refine ⟨?_, ?_, ?_, ?_, ?_, ?_, ?_, ?_, ?_, ?_⟩
  · simp [howner]
  · intro x _ hself
    exact absurd ((hcallback x).symm.trans hself) (by simp)
  all_goals simp [howner, hcalls, hcalling]

variable {s s' : Timeouts ι} {hist : List TimeoutEvent}

/-- The calls are numbered in the order of their starts. -/
theorem Tracks.call_lt (h : Tracks hist s) {j k : ℕ} {c d : TimeoutCall}
    (hc : s.calls[j]? = some c) (hd : s.calls[k]? = some d) (hlt : c.startId < d.startId) :
    j < k := by
  obtain ⟨hj, rfl⟩ := List.getElem?_eq_some_iff.mp hc
  obtain ⟨hk, rfl⟩ := List.getElem?_eq_some_iff.mp hd
  refine Nat.lt_of_not_le fun hle => ?_
  obtain hkj | rfl := Nat.lt_or_eq_of_le hle
  · have hother := List.pairwise_iff_getElem.mp h.increasing k j hk hj hkj
    exact UInt64.lt_asymm hlt hother
  · exact UInt64.lt_irrefl _ hlt

variable [Fintype ι]

/-- A call whose handle is in the queue of a pass is called before the pass ends. -/
theorem Tracks.waits (h : Tracks hist s) (hkeeps : s.loop.Keeps)
    (hcard : Fintype.card ι < 2 ^ 32) {x : ι} {k : ℕ} (hx : s.owner x = some k)
    (hready : x ∈ s.loop.ready) {labels : List (TimeoutLabel ι)} {out : List TimeoutEvent}
    (hexec : (countedTimeouts ι).exec s labels = some (s', out)) :
    x ∈ s'.loop.ready ∨ ∃ e ∈ out, e.call = k := by
  induction labels generalizing s hist out with
  | nil =>
    cases hexec
    exact .inl hready
  | cons l labels ih =>
    obtain ⟨s₁, out₁, out₂, hstep, hrest, rfl⟩ := Machine.of_exec_cons hexec
    obtain ⟨hcount, hstep⟩ := Machine.guarded_step.mp hstep
    obtain ⟨s₂, out₃, loopLabels, loopOut, hstep₂, h₁, hrun⟩ :=
      h.step hkeeps hcount hcard l (Timeouts.permits_of_step hstep)
    cases hstep.symm.trans hstep₂
    obtain ⟨c, -, howned⟩ := h.owned x k hx
    have hactive : (s.loop.toAgenda.handle x).active = true := by
      simp [TimerLoop.toAgenda, hready]
    obtain hready₁ | ⟨time, hfired⟩ := hkeeps.waits hcard hready howned.callback
      (hrun.untouched x k hx hactive) hrun.exec
    · obtain hready₂ | ⟨e, he, hek⟩ :=
        ih h₁ (hkeeps.exec hcard hrun.exec) (hrun.owner x k hx hactive) hready₁ hrest
      · exact .inl hready₂
      · exact .inr ⟨e, List.mem_append_right _ he, hek⟩
    · obtain ⟨e, he, hek⟩ := hrun.fires _ hfired x k rfl hx
      exact .inr ⟨e, List.mem_append_left _ he, hek⟩

variable [Inhabited ι]

theorem tracks_of_reaches (hcard : Fintype.card ι < 2 ^ 32)
    (run : (countedTimeouts ι).Reaches s hist) :
    Tracks hist s ∧ ∃ loopHist, (countedTimers ι).Reaches s.loop loopHist ∧
      (calledKeys s.calls hist).Sublist (firedKeys loopHist) := by
  induction run with
  | start h => exact ⟨tracks_of_init h, [], .start h.1, List.nil_sublist _⟩
  | next _ h ih =>
    obtain ⟨htracks, loopHist, hloop, hkeys⟩ := ih
    obtain ⟨hcount, hstep⟩ := Machine.guarded_step.mp h
    obtain ⟨hkeeps, -⟩ := keeps_of_reaches hcard hloop
    obtain ⟨s₁, out₁, labels, loopOut, hstep₁, htracks₁, hrun⟩ :=
      htracks.step hkeeps hcount hcard _ (Timeouts.permits_of_step hstep)
    obtain ⟨rfl, rfl⟩ := Prod.mk.inj (Option.some.inj (hstep.symm.trans hstep₁))
    refine ⟨htracks₁, loopHist ++ loopOut, hloop.exec hrun.exec, ?_⟩
    have hbefore := calledKeys_of_more_calls hrun.calls fun e he => by
      obtain ⟨c, hc, -⟩ := htracks.called e he
      exact ⟨c, hc⟩
    rw [← hbefore] at hkeys
    rw [calledKeys, List.filterMap_append, firedKeys, List.filterMap_append]
    exact hkeys.append hrun.keys

/-- The functions of `setTimeout` are called in the order of the times they are due at, and of
the calls where these are equal, each of them once and none too early; one that has not been
called is armed. -/
theorem timeouts_called_in_order (hcard : Fintype.card ι < 2 ^ 32)
    (run : (countedTimeouts ι).Reaches s hist) :
    (hist.Pairwise fun e e' => s.due e.call < s.due e'.call ∨
      s.due e.call = s.due e'.call ∧ e.call < e'.call) ∧
    (∀ e ∈ hist, s.due e.call ≤ e.time) ∧
    ∀ k, k < s.calls.length → (∃ e ∈ hist, e.call = k) ∨
      ∃ x, s.owner x = some k ∧ s.loop.Armed x ∧ (s.loop.handle x).timeout = s.due k := by
  obtain ⟨htracks, loopHist, hloop, hkeys⟩ := tracks_of_reaches hcard run
  obtain ⟨-, hagenda⟩ := keeps_of_reaches hcard hloop
  have hsorted := (agenda_inOrder hagenda).sorted.sublist hkeys
  refine ⟨?_, fun e he => ?_, fun k hk => ?_⟩
  · rw [calledKeys, List.pairwise_filterMap] at hsorted
    refine hsorted.imp_of_mem fun {e e'} he he' hlt => ?_
    obtain ⟨c, hc, -⟩ := htracks.called e he
    obtain ⟨c', hc', -⟩ := htracks.called e' he'
    have hkey : c.due.toNat < c'.due.toNat ∨
        c.due.toNat = c'.due.toNat ∧ c.startId.toNat < c'.startId.toNat :=
      Prod.Lex.lt_iff.mp (hlt c.key (by simp [hc]) c'.key (by simp [hc']))
    simp only [Timeouts.due, hc, hc', Option.map_some, Option.getD_some]
    obtain hless | ⟨hsame, hstart⟩ := hkey
    · exact .inl (UInt64.lt_iff_toNat_lt.mpr hless)
    · exact .inr ⟨UInt64.toNat_inj.mp hsame,
        htracks.call_lt hc hc' (UInt64.lt_iff_toNat_lt.mpr hstart)⟩
  · obtain ⟨c, hc, hdue⟩ := htracks.called e he
    simpa [Timeouts.due, hc] using hdue
  · by_cases hcalled : ∃ e ∈ hist, e.call = k
    · exact .inl hcalled
    · obtain ⟨x, hx, hactive⟩ := htracks.pending k hk fun e he hek => hcalled ⟨e, he, hek⟩
      obtain ⟨c, hc, howned⟩ := htracks.owned x k hx
      refine .inr ⟨x, hx, by simpa [TimerLoop.Armed, TimerLoop.toAgenda] using hactive, ?_⟩
      have htimeout : (s.loop.handle x).timeout = c.due := howned.timeout
      simpa [Timeouts.due, hc] using htimeout

/-- A loop without timers, and memory for three. -/
def newTimeouts : Timeouts (Option Bool) :=
  ⟨⟨0, 0, ⟨none, 0, fun _ => ⟨none, none, none⟩⟩, fun _ => ⟨⟨0, 0, false⟩, 0, none, false⟩, [],
    false⟩, fun _ => none, none, []⟩

/-- `setTimeout(f, 5)` and `setTimeout(g, 3)`, and an idle timer of 4 milliseconds that another
owner starts in between. -/
def twoTimeouts : List (TimeoutLabel (Option Bool)) :=
  [.setTimeout none 5, .others (.timerInit (some true)),
    .others (.timerStart (some true) (some 1) 4 4), .setTimeout (some false) 3, .updateTime 6]

theorem timeouts_called_in_order_two : ∃ s hist, (countedTimeouts (Option Bool)).Reaches s hist ∧
    hist.map TimeoutEvent.call = [1, 0] ∧
    (hist.Pairwise fun e e' => s.due e.call < s.due e'.call ∨
      s.due e.call = s.due e'.call ∧ e.call < e'.call) ∧
    (∀ e ∈ hist, s.due e.call ≤ e.time) ∧
    ∀ k, k < s.calls.length → (∃ e ∈ hist, e.call = k) ∨
      ∃ x, s.owner x = some k ∧ s.loop.Armed x ∧ (s.loop.handle x).timeout = s.due k := by
  have run := Machine.reaches_exec (M := countedTimeouts (Option Bool)) (s := newTimeouts)
    (twoTimeouts ++ [.runTimers, .round, .callbackReturned, .round, .round, .callbackReturned])
    ⟨⟨rfl, rfl, rfl, rfl, rfl, fun _ => rfl⟩, fun _ => rfl, fun _ => rfl, rfl, rfl⟩ rfl
  exact ⟨_, _, run, rfl, timeouts_called_in_order (by decide) run⟩

/-- Nothing that may happen uses memory that has been freed or closes a handle twice. -/
theorem timeouts_return (hcard : Fintype.card ι < 2 ^ 32)
    (run : (countedTimeouts ι).Reaches s hist) (hcount : s.loop.timerCounter ≠ -1)
    (l : TimeoutLabel ι) : ((timeouts ι).step s l).isSome = true ↔ s.Permits l := by
  obtain ⟨htracks, loopHist, hloop, -⟩ := tracks_of_reaches hcard run
  obtain ⟨hkeeps, -⟩ := keeps_of_reaches hcard hloop
  constructor
  · intro hsome
    obtain ⟨⟨s', out⟩, hstep⟩ := Option.isSome_iff_exists.mp hsome
    exact Timeouts.permits_of_step hstep
  · intro hl
    obtain ⟨s', out, -, -, hstep, -⟩ := htracks.step hkeeps hcount hcard l hl
    rw [hstep]
    rfl

theorem timeouts_return_closed : ∃ s hist, (countedTimeouts (Option Bool)).Reaches s hist ∧
    s.Permits (.onClose (some false)) ∧ ((timeouts (Option Bool)).step s (.onClose (some false))).isSome = true := by
  have run := Machine.reaches_exec (M := countedTimeouts (Option Bool)) (s := newTimeouts)
    (twoTimeouts ++ [.runTimers, .round, .callbackReturned, .round, .round, .callbackReturned,
      .round])
    ⟨⟨rfl, rfl, rfl, rfl, rfl, fun _ => rfl⟩, fun _ => rfl, fun _ => rfl, rfl, rfl⟩ rfl
  refine ⟨_, _, run, ⟨rfl, rfl, by decide, rfl⟩, ?_⟩
  exact (timeouts_return (by decide) run (by decide) (.onClose (some false))).mpr ⟨rfl, rfl, by decide, rfl⟩

/-- A pass calls the function of every call of `setTimeout` that was due when it began, whatever
the other callbacks do. -/
theorem due_timeouts_called (hcard : Fintype.card ι < 2 ^ 32)
    (run : (countedTimeouts ι).Reaches s hist) {k : ℕ} (hk : k < s.calls.length)
    (hdue : s.due k ≤ s.loop.time) {labels : List (TimeoutLabel ι)} {out : List TimeoutEvent}
    (hexec : (countedTimeouts ι).exec s (.runTimers :: labels) = some (s', out))
    (hended : s'.loop.running = false) : ∃ e ∈ hist ++ out, e.call = k := by
  by_cases hcalled : ∃ e ∈ hist, e.call = k
  · obtain ⟨e, he, hek⟩ := hcalled
    exact ⟨e, List.mem_append_left _ he, hek⟩
  obtain ⟨htracks, loopHist, hloop, -⟩ := tracks_of_reaches hcard run
  obtain ⟨hkeeps, -⟩ := keeps_of_reaches hcard hloop
  obtain ⟨s₁, out₁, out₂, hstep, hrest, rfl⟩ := Machine.of_exec_cons hexec
  obtain ⟨hcount, hstep⟩ := Machine.guarded_step.mp hstep
  obtain ⟨x, hx, hactive⟩ := htracks.pending k hk fun e he hek => hcalled ⟨e, he, hek⟩
  obtain ⟨c, hc, howned⟩ := htracks.owned x k hx
  have hpermits := Timeouts.permits_of_step hstep
  obtain ⟨s₂, out₃, -, -, hstep₂, htracks₁, -⟩ := htracks.step hkeeps hcount hcard _ hpermits
  cases hstep.symm.trans hstep₂
  obtain ⟨⟨loop, loopOut⟩, hrun, heq⟩ :=
    Option.map_eq_some_iff.mp (Option.ite_none_right_eq_some.mp hstep).2
  cases heq
  -- no pass is on before this one, so the timer is in the heap
  have hheap : (s.loop.handle x).active = true := by
    simpa [TimerLoop.toAgenda, hkeeps.ended hpermits.2] using hactive
  have htimeout : (s.loop.handle x).timeout ≤ s.loop.time := by
    rw [show (s.loop.handle x).timeout = c.due from howned.timeout]
    simpa [Timeouts.due, hc] using hdue
  have hcollect : (Libuv.timers ι).step s.loop .runTimers = some (loop, loopOut) := hrun
  obtain ⟨hready, -⟩ := hkeeps.collects hheap htimeout hcollect
  have hkeeps₁ : loop.Keeps := hkeeps.of_step hcount hcard hcollect
  obtain hwaits | ⟨e, he, hek⟩ := htracks₁.waits hkeeps₁ hcard hx hready hrest
  · obtain ⟨-, loopHist', hloop', -⟩ := tracks_of_reaches hcard (run.exec hexec)
    rw [(keeps_of_reaches hcard hloop').1.ended hended] at hwaits
    cases hwaits
  · exact ⟨e, List.mem_append_right _ (List.mem_append_right _ he), hek⟩

/-- The function that is called first stops the idle timer. -/
def twoCalled : List (TimeoutLabel (Option Bool)) :=
  [.round, .others (.timerStop (some true)), .callbackReturned, .round, .callbackReturned, .round]

theorem due_timeouts_called_two : ∃ s s' hist out, (countedTimeouts (Option Bool)).Reaches s hist ∧
    (countedTimeouts (Option Bool)).exec s (.runTimers :: twoCalled) = some (s', out) ∧
    ∃ e ∈ hist ++ out, e.call = 0 := by
  have run := Machine.reaches_exec (M := countedTimeouts (Option Bool)) (s := newTimeouts) twoTimeouts
    ⟨⟨rfl, rfl, rfl, rfl, rfl, fun _ => rfl⟩, fun _ => rfl, fun _ => rfl, rfl, rfl⟩ rfl
  refine ⟨_, _, _, _, run, rfl, ?_⟩
  exact due_timeouts_called (by decide) run (by decide) (by decide)
    (show (countedTimeouts (Option Bool)).exec _ (.runTimers :: twoCalled) = some (_, _) from rfl)
    (by rfl)

end CapyJs.Timer
