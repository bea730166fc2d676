import CapyJs.Libuv.TimerInvariant

/-!
# The runs of a loop's timers

The loop refines its agenda, so callbacks are called in order over the whole run. A pass calls
every timer that was due when it began, and the loop does not sleep past the first timer.
-/
namespace CapyJs.Libuv
open Transition Timer

variable {ι : Type*} [DecidableEq ι]

/-- The runs in which the number of the starts fits. -/
abbrev countedTimers (ι : Type*) [DecidableEq ι] :
    Machine (TimerLoop ι) (TimerLabel ι) (TimerEvent ι) :=
  (timers ι).guarded fun s _ => s.timerCounter ≠ -1

abbrev countedAgenda (ι : Type*) [DecidableEq ι] [Fintype ι] :
    Machine (Agenda ι) (AgendaLabel ι) (TimerEvent ι) :=
  (agenda ι).guarded fun a _ => a.timerCounter ≠ -1

variable [Fintype ι] {s s' : TimerLoop ι}

/-! ## A pass calls all that are due -/

/-- A call that its owner makes for the timer. -/
def TimerLabel.Touches (x : ι) : TimerLabel ι → Prop
  | .timerInit y | .timerStart y _ _ _ | .timerStop y | .timerAgain y | .close y => y = x
  | .updateTime _ | .runTimers | .round => False

/-- A call that is not for the timer leaves it alone. -/
theorem TimerLoop.Keeps.frame_of_step (h : s.Keeps) (hcount : s.timerCounter ≠ -1)
    (hcard : Fintype.card ι < 2 ^ 32) {x : ι} {l : TimerLabel ι} (hl : ¬l.Touches x)
    (hrun : l ≠ .runTimers) (hround : l ≠ .round) {out : List (TimerEvent ι)}
    (hstep : (timers ι).step s l = some (s', out)) :
    s'.handle x = s.handle x ∧ (x ∈ s'.ready ↔ x ∈ s.ready) := by
  have hframe : ∀ {y : ι}, y ≠ x → TimerLoop.Frame s y s' →
      s'.handle x = s.handle x ∧ (x ∈ s'.ready ↔ x ∈ s.ready) := fun hy hframe =>
    ⟨hframe.handle x hy.symm, fun hx => hframe.ready hx, fun hx => hframe.others x hx hy.symm⟩
  cases l with
  | updateTime time =>
    obtain ⟨-, hstep⟩ := Option.ite_none_right_eq_some.mp hstep
    cases hstep
    exact ⟨rfl, Iff.rfl⟩
  | timerInit y =>
    obtain ⟨-, hstep⟩ := Option.ite_none_left_eq_some.mp hstep
    cases hstep
    exact ⟨Function.update_of_ne (Ne.symm hl) .., Iff.rfl⟩
  | timerStart y callback timeout repeatMs =>
    obtain ⟨s₁, code, hstart, hframe₁, -⟩ := h.start hcount hcard y callback timeout repeatMs
    obtain ⟨_, hstart₁, heq⟩ := Option.map_eq_some_iff.mp hstep
    cases hstart.symm.trans hstart₁
    cases heq
    exact hframe hl hframe₁
  | timerStop y =>
    obtain ⟨s₁, hstop, hstopped, -⟩ := h.stop y
    obtain ⟨_, hstop₁, heq⟩ := Option.map_eq_some_iff.mp hstep
    cases hstop.symm.trans hstop₁
    cases heq
    exact hframe hl hstopped.frame
  | timerAgain y =>
    obtain ⟨s₁, code, hagain, hframe₁, -⟩ := h.again hcount hcard y
    obtain ⟨_, hagain₁, heq⟩ := Option.map_eq_some_iff.mp hstep
    cases hagain.symm.trans hagain₁
    cases heq
    exact hframe hl hframe₁
  | close y =>
    obtain ⟨s₁, hclose, hframe₁, -⟩ := h.close (permits_of_step hstep)
    obtain ⟨_, hclose₁, heq⟩ := Option.map_eq_some_iff.mp hstep
    cases hclose.symm.trans hclose₁
    cases heq
    exact hframe hl hframe₁
  | runTimers => exact absurd rfl hrun
  | round => exact absurd rfl hround

/-- A timer in the queue stays there until it is called. -/
theorem TimerLoop.Keeps.wait_step (h : s.Keeps) (hcount : s.timerCounter ≠ -1)
    (hcard : Fintype.card ι < 2 ^ 32) {x : ι} (hx : x ∈ s.ready) {callback : ℕ}
    (hcallback : (s.handle x).callback = some callback) {l : TimerLabel ι}
    (hl : ¬l.Touches x) {out : List (TimerEvent ι)} (hstep : (timers ι).step s l = some (s', out)) :
    x ∈ s'.ready ∧ s'.handle x = s.handle x ∨
      .fired x callback (s.handle x).timeout (s.handle x).startId s.time ∈ out := by
  rcases eq_or_ne l .runTimers with rfl | hrun
  · rw [h.ended (permits_of_step hstep)] at hx
    cases hx
  rcases eq_or_ne l .round with rfl | hround
  · obtain ⟨s₁, out₁, hround, -, hcase⟩ := h.round hcount hcard
    cases hround.symm.trans (Option.ite_none_right_eq_some.mp hstep).2
    obtain ⟨hready, -, -⟩ | ⟨y, ready, callback', hready, hcall, hframe, rfl, -⟩ := hcase
    · rw [hready] at hx
      cases hx
    · by_cases hyx : y = x
      · subst hyx
        cases hcall.symm.trans hcallback
        exact .inr (List.mem_singleton.mpr rfl)
      · rw [hready] at hx
        have hwaits := List.mem_of_ne_of_mem (Ne.symm hyx) hx
        exact .inl ⟨hframe.others x hwaits (Ne.symm hyx), hframe.handle x (Ne.symm hyx)⟩
  · obtain ⟨hsame, hready⟩ := h.frame_of_step hcount hcard hl hrun hround hstep
    exact .inl ⟨hready.mpr hx, hsame⟩

theorem TimerLoop.Keeps.exec (h : s.Keeps) (hcard : Fintype.card ι < 2 ^ 32)
    {labels : List (TimerLabel ι)} {out : List (TimerEvent ι)}
    (hexec : (countedTimers ι).exec s labels = some (s', out)) : s'.Keeps := by
  refine Machine.exec_invariant (fun s l s' out hkeeps hstep => ?_) hexec h
  obtain ⟨hcount, hstep⟩ := Machine.guarded_step.mp hstep
  exact hkeeps.of_step hcount hcard hstep

theorem TimerLoop.Keeps.waits (h : s.Keeps) (hcard : Fintype.card ι < 2 ^ 32) {x : ι}
    (hx : x ∈ s.ready) {callback : ℕ} (hcallback : (s.handle x).callback = some callback)
    {labels : List (TimerLabel ι)} (hl : ∀ l ∈ labels, ¬l.Touches x)
    {out : List (TimerEvent ι)} (hexec : (countedTimers ι).exec s labels = some (s', out)) :
    x ∈ s'.ready ∨
      ∃ time, .fired x callback (s.handle x).timeout (s.handle x).startId time ∈ out := by
  induction labels generalizing s out with
  | nil =>
    cases hexec
    exact .inl hx
  | cons l labels ih =>
    obtain ⟨s₁, out₁, out₂, hstep, hrest, rfl⟩ := Machine.of_exec_cons hexec
    obtain ⟨hcount, hstep⟩ := Machine.guarded_step.mp hstep
    obtain ⟨hx₁, hsame⟩ | hfired :=
      h.wait_step hcount hcard hx hcallback (hl l List.mem_cons_self) hstep
    · have hlater := ih (h.of_step hcount hcard hstep) hx₁ (by rw [hsame]; exact hcallback)
        (fun l hmem => hl l (List.mem_cons_of_mem _ hmem)) hrest
      rw [hsame] at hlater
      exact hlater.imp_right fun ⟨time, hmem⟩ => ⟨time, List.mem_append_right _ hmem⟩
    · exact .inr ⟨s.time, List.mem_append_left _ hfired⟩

/-- A pass puts a timer that is due into its queue. -/
theorem TimerLoop.Keeps.collects (h : s.Keeps) {x : ι} (hactive : (s.handle x).active = true)
    (hdue : (s.handle x).timeout ≤ s.time) {out : List (TimerEvent ι)}
    (hstep : (timers ι).step s .runTimers = some (s', out)) :
    x ∈ s'.ready ∧ (s'.handle x).timeout = (s.handle x).timeout ∧
      (s'.handle x).startId = (s.handle x).startId ∧
      (s'.handle x).callback = (s.handle x).callback := by
  obtain ⟨s₁, hrun, -, hlater, hagenda⟩ := h.runTimers (permits_of_step hstep)
  cases hrun.symm.trans hstep
  have hsame : s'.toAgenda.handle x = s.toAgenda.handle x := by rw [hagenda]
  have htimeout : (s'.handle x).timeout = (s.handle x).timeout :=
    congrArg (fun h => h.timeout) hsame
  refine ⟨?_, htimeout, congrArg (fun h => h.startId) hsame,
    congrArg (fun h => h.callback) hsame⟩
  -- it is still armed, and not in the heap, where nothing is due
  have harmed : (s'.toAgenda.handle x).active = true := by
    rw [hsame]
    simp [toAgenda, hactive]
  have hout : ¬(s'.handle x).active = true := fun hheap => by
    have hlt := hlater x (mem_inHeap.mpr hheap)
    rw [htimeout] at hlt
    exact UInt64.not_lt.mpr hdue hlt
  simpa [toAgenda, hout] using harmed

/-! ## The loop and its agenda -/

variable [Inhabited ι] {hist : List (TimerEvent ι)}

theorem keeps_of_init (h : (timers ι).init s) : s.Keeps := by
  obtain ⟨hmin, hnelts, -, hready, -, hidle⟩ := h
  have hheap : s.heap = ⟨none, 0, s.heap.node⟩ := by
    cases hs : s.heap
    simp_all
  have hempty : s.inHeap = ∅ := by simp [TimerLoop.inHeap, hidle]
  have harmed : ∀ x, ¬s.Armed x := by simp [TimerLoop.Armed, hidle, hready]
  refine ⟨⟨?_, ?_, ?_, ?_, ?_, ?_, fun x hx => absurd hx (harmed x),
    fun x hx => absurd hx (harmed x)⟩, fun _ => hready⟩
  · rw [hheap, hempty]
    exact .of_init _
  all_goals simp [hready]

omit [Inhabited ι] in
theorem toAgenda_of_init (h : (timers ι).init s) : (agenda ι).init s.toAgenda := by
  obtain ⟨-, -, hcounter, hready, -, hidle⟩ := h
  exact ⟨hcounter, by simp [TimerLoop.toAgenda, hidle, hready]⟩

/-- Along every run the loop keeps its agenda, and has made the calls of the agenda. -/
theorem keeps_of_reaches (hcard : Fintype.card ι < 2 ^ 32)
    (run : (countedTimers ι).Reaches s hist) :
    s.Keeps ∧ (countedAgenda ι).Reaches s.toAgenda hist := by
  induction run with
  | start h => exact ⟨keeps_of_init h, .start (toAgenda_of_init h)⟩
  | next _ h ih =>
    obtain ⟨hkeeps, hrun⟩ := ih
    obtain ⟨hcount, hstep⟩ := Machine.guarded_step.mp h
    obtain ⟨s₁, out₁, hstep₁, hkeeps₁, hsim⟩ :=
      hkeeps.step hcount hcard _ (TimerLoop.permits_of_step hstep)
    obtain ⟨rfl, rfl⟩ := Prod.mk.inj (Option.some.inj (hstep.symm.trans hstep₁))
    refine ⟨hkeeps₁, ?_⟩
    obtain ⟨hagenda, rfl⟩ | ⟨l, hagenda⟩ := hsim
    · rw [hagenda, List.append_nil]
      exact hrun
    · exact hrun.next (Machine.guarded_step.mpr ⟨hcount, hagenda⟩)

/-- The loop refines the agenda: it makes the calls that the agenda allows, and whatever may be
asked of it returns, without reading through a null pointer. -/
theorem timers_refine (hcard : Fintype.card ι < 2 ^ 32)
    (run : (countedTimers ι).Reaches s hist) :
    (countedAgenda ι).Reaches s.toAgenda hist ∧
      (s.timerCounter ≠ -1 → ∀ l, ((timers ι).step s l).isSome = true ↔ s.Permits l) := by
  obtain ⟨hkeeps, hrun⟩ := keeps_of_reaches hcard run
  refine ⟨hrun, fun hcount l => ⟨fun hsome => ?_, fun hl => ?_⟩⟩
  · obtain ⟨⟨s', out⟩, hstep⟩ := Option.isSome_iff_exists.mp hsome
    exact TimerLoop.permits_of_step hstep
  · obtain ⟨s', out, hstep, -⟩ := hkeeps.step hcount hcard l hl
    rw [hstep]
    rfl

/-- A loop without timers. -/
def newTimers : TimerLoop (Fin 3) :=
  ⟨0, 0, ⟨none, 0, fun _ => ⟨none, none, none⟩⟩, fun _ => ⟨⟨0, 0, false⟩, 0, none, false⟩, [],
    false⟩

/-- The timer that is started last is due first, and of two that are due together the one that
was started before the other is called first. -/
def threeTimers : List (TimerLabel (Fin 3)) :=
  [.timerInit 0, .timerInit 1, .timerInit 2, .timerStart 0 (some 10) 5 0,
    .timerStart 1 (some 11) 5 3, .timerStart 2 (some 12) 4 0, .updateTime 6]

theorem timers_refine_three : ∃ s hist, (countedTimers (Fin 3)).Reaches s hist ∧
    s.toAgenda.Next 2 ∧ (countedAgenda (Fin 3)).Reaches s.toAgenda hist ∧
    ((timers (Fin 3)).step s .runTimers).isSome = true := by
  have run := Machine.reaches_exec (M := countedTimers (Fin 3)) (s := newTimers) threeTimers
    ⟨rfl, rfl, rfl, rfl, rfl, fun _ => rfl⟩ rfl
  have hrefine := timers_refine (by decide) run
  exact ⟨_, _, run, by decide, hrefine.1, (hrefine.2 (by decide) .runTimers).mpr rfl⟩

/-- Over the whole run callbacks are called in the order of the timeouts of their timers, and of
their starts where these are equal, and none is called before its timeout. -/
theorem timers_fire_in_order (hcard : Fintype.card ι < 2 ^ 32)
    (run : (countedTimers ι).Reaches s hist) :
    (firedKeys hist).Pairwise (· < ·) ∧ ∀ e ∈ hist, e.OnTime := by
  obtain ⟨-, hrun⟩ := keeps_of_reaches hcard run
  have horder := agenda_inOrder hrun
  exact ⟨horder.sorted, horder.onTime⟩

theorem timers_fire_in_order_three : ∃ s hist, (countedTimers (Fin 3)).Reaches s hist ∧
    firedKeys hist = [toLex (4, 2), toLex (5, 0), toLex (5, 1), toLex (9, 3)] ∧
    (firedKeys hist).Pairwise (· < ·) ∧ ∀ e ∈ hist, e.OnTime := by
  have run := Machine.reaches_exec (M := countedTimers (Fin 3)) (s := newTimers)
    (threeTimers ++ [.runTimers, .round, .round, .round, .round, .updateTime 9, .runTimers, .round])
    ⟨rfl, rfl, rfl, rfl, rfl, fun _ => rfl⟩ rfl
  exact ⟨_, _, run, rfl, timers_fire_in_order (by decide) run⟩

/-- A pass over the timers calls each one that was due when it began, unless its owner has made
a call for it in between. -/
theorem due_timers_fire (hcard : Fintype.card ι < 2 ^ 32)
    (run : (countedTimers ι).Reaches s hist) {x : ι} (hactive : (s.handle x).active = true)
    (hdue : (s.handle x).timeout ≤ s.time) {labels : List (TimerLabel ι)}
    (huntouched : ∀ l ∈ labels, ¬l.Touches x) {out : List (TimerEvent ι)}
    (hexec : (countedTimers ι).exec s (.runTimers :: labels) = some (s', out))
    (hended : s'.running = false) :
    ∃ callback time, (s.handle x).callback = some callback ∧
      .fired x callback (s.handle x).timeout (s.handle x).startId time ∈ out := by
  obtain ⟨hkeeps, -⟩ := keeps_of_reaches hcard run
  obtain ⟨callback, hcallback⟩ :=
    Option.ne_none_iff_exists'.mp (hkeeps.callback x (.inl hactive))
  obtain ⟨s₁, out₁, out₂, hstep, hrest, rfl⟩ := Machine.of_exec_cons hexec
  obtain ⟨hcount, hstep⟩ := Machine.guarded_step.mp hstep
  obtain ⟨hready, htimeout, hstart, hcall⟩ := hkeeps.collects hactive hdue hstep
  have hlater := (hkeeps.of_step hcount hcard hstep).waits hcard hready
    (hcall.trans hcallback) huntouched hrest
  rw [htimeout, hstart] at hlater
  obtain hwaits | ⟨time, hfired⟩ := hlater
  · obtain ⟨hkeeps', -⟩ := keeps_of_reaches hcard (run.exec hexec)
    rw [hkeeps'.ended hended] at hwaits
    cases hwaits
  · exact ⟨callback, time, hcallback, List.mem_append_right _ hfired⟩

theorem due_timers_fire_three : ∃ s s' hist out, (countedTimers (Fin 3)).Reaches s hist ∧
    (countedTimers (Fin 3)).exec s [.runTimers, .round, .timerStop 2, .round, .round, .round] =
      some (s', out) ∧
    ∃ callback time, (s.handle 1).callback = some callback ∧
      .fired 1 callback (s.handle 1).timeout (s.handle 1).startId time ∈ out := by
  have run := Machine.reaches_exec (M := countedTimers (Fin 3)) (s := newTimers) threeTimers
    ⟨rfl, rfl, rfl, rfl, rfl, fun _ => rfl⟩ rfl
  have huntouched : ∀ l ∈ [TimerLabel.round, .timerStop 2, .round, .round, .round],
      ¬l.Touches (1 : Fin 3) := by
    simp [TimerLabel.Touches]
  refine ⟨_, _, _, _, run, rfl, ?_⟩
  exact due_timers_fire (by decide) run rfl (by decide) huntouched rfl rfl

/-- The poll of the loop ends when the first timer is due, or before, and blocks for ever only
when no timer is armed. -/
theorem uvNextTimeout_first (hcard : Fintype.card ι < 2 ^ 32)
    (run : (countedTimers ι).Reaches s hist) :
    (s.uvNextTimeout = -1 ↔ ∀ x, (s.handle x).active = false) ∧
      ∀ x, (s.handle x).active = true →
        (∀ y, (s.handle y).active = true → (s.handle x).timeout ≤ (s.handle y).timeout) →
        s.uvNextTimeout =
          min (max 0 ((s.handle x).timeout.toNat - s.time.toNat : ℤ)) (2 ^ 31 - 1) := by
  obtain ⟨hkeeps, -⟩ := keeps_of_reaches hcard run
  cases hmin : s.heap.min with
  | none =>
    have hempty := hkeeps.holds.min.1.mp hmin
    have hidle : ∀ x, (s.handle x).active = false := by
      intro x
      have hout : x ∉ s.inHeap := by simp [hempty]
      exact Bool.eq_false_of_not_eq_true (mt TimerLoop.mem_inHeap.mpr hout)
    refine ⟨⟨fun _ => hidle, fun _ => by simp [TimerLoop.uvNextTimeout, hmin]⟩, fun x hx => ?_⟩
    rw [hidle x] at hx
    cases hx
  | some z =>
    obtain ⟨hmem, hfirst⟩ := hkeeps.holds.min.2 z hmin
    have hactive := TimerLoop.mem_inHeap.mp hmem
    rw [TimerLoop.uvNextTimeout_of_min hmin]
    refine ⟨⟨fun hnever => by omega, fun hidle => by simp [hidle z] at hactive⟩, fun x hx hx' => ?_⟩
    have hle := UInt64.le_iff_toNat_le.mp (hx' z hactive)
    have hge := UInt64.le_iff_toNat_le.mp
      (TimerHandle.timeout_le_of_key_le (hfirst x (TimerLoop.mem_inHeap.mpr hx)))
    omega

theorem uvNextTimeout_first_three : ∃ s hist, (countedTimers (Fin 3)).Reaches s hist ∧
    s.uvNextTimeout = 4 ∧ s.uvNextTimeout ≠ -1 := by
  have run := Machine.reaches_exec (M := countedTimers (Fin 3)) (s := newTimers)
    (threeTimers.take 6) ⟨rfl, rfl, rfl, rfl, rfl, fun _ => rfl⟩ rfl
  have hfirst := uvNextTimeout_first (by decide) run
  refine ⟨_, _, run, (hfirst.2 2 rfl (by decide)).trans (by decide), ?_⟩
  exact fun hnever => absurd (hfirst.1.mp hnever 2) (by decide)

end CapyJs.Libuv
