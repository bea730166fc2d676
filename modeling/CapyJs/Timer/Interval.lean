import CapyJs.Transition.Machine
import Mathlib.Data.Int.Notation
import Mathlib.Data.List.Nodup
import Mathlib.Data.Nat.Notation
import Mathlib.Logic.Function.Basic
import Mathlib.Tactic.Common

/-!
# `setInterval` and `clearInterval`

The id of an interval is a random number, and the table from ids to timer handles is only
ever written. So an id can be drawn that a live interval has, whose handle is then lost; and
`clearInterval` closes whatever handle the table has for its argument: a null pointer for an
id that was never given out, and a handle that is closed or freed, or by now another timer's,
for one that has been cleared.
-/
namespace CapyJs.Timer
open Transition

/-- A handle is freed by its close callback. -/
inductive Phase
  | opened
  | closing
  | freed
  deriving DecidableEq, Repr

/-- The handle of an interval, at the address that `malloc` gave it, and the id that
`setInterval` returned for it. -/
structure Handle where
  address : ℕ
  id : ℤ
  phase : Phase
  deriving DecidableEq, Repr

/-- Handles are numbered in the order of their creation. An entry of the table is a pointer,
which can be null. -/
structure State where
  handles : List Handle
  registeredIntervalCb : ℤ → Option (Option ℕ)
  /-- `uv_close` has been called for something that is not an open handle -/
  aborted : Bool

inductive Label
  /-- with the number that `IdGenerator` draws and the address of the new handle -/
  | setInterval (timerId : ℤ) (address : ℕ)
  | clearInterval (timerId : ℤ)
  | onClose (handle : ℕ)
  deriving DecidableEq, Repr

/-- What a pointer passed to `uv_close` points to. -/
inductive Target
  | null
  | dangling
  | handle (k : ℕ)
  deriving DecidableEq, Repr

inductive Output
  | setInterval (handle : ℕ) (timerId : ℤ)
  /-- with the calls of `uv_close` -/
  | clearInterval (timerId : ℤ) (closed : List Target)
  deriving DecidableEq, Repr

namespace State

/-- The handle at an address. -/
def handleAt (s : State) (address : ℕ) : Option ℕ :=
  s.handles.findIdx? fun h => h.address == address && h.phase != .freed

/-- What `registered_interval_cb[timerId]` points to. -/
def target (s : State) (timerId : ℤ) : Target :=
  match s.registeredIntervalCb timerId with
  | some (some address) =>
    match s.handleAt address with
    | some k => .handle k
    | none => .dangling
  | _ => .null

/-- `uv_close` -/
def uvClose (s : State) : Target → State
  | .handle k =>
    match s.handles[k]? with
    | some h =>
      if h.phase = .opened then { s with handles := s.handles.set k { h with phase := .closing } }
      else { s with aborted := true }
    | none => { s with aborted := true }
  | _ => { s with aborted := true }

def setIntervalFunc (s : State) (timerId : ℤ) (address : ℕ) : State :=
  { s with
    handles := s.handles ++ [⟨address, timerId, .opened⟩]
    registeredIntervalCb := Function.update s.registeredIntervalCb timerId (some (some address)) }

/-- The subscript inserts a null pointer for a new key. -/
def clearIntervalFunc (s : State) (timerId : ℤ) : State :=
  { s with
    registeredIntervalCb := Function.update s.registeredIntervalCb timerId
      (some ((s.registeredIntervalCb timerId).getD none)) }.uvClose (s.target timerId)

def step (s : State) : Label → Option (State × List Output)
  | .setInterval timerId address =>
    -- the range of the generator; `malloc` gives out no address that is in use
    if s.aborted = false ∧ 1000000 ≤ timerId ∧ timerId ≤ 9999999 ∧ s.handleAt address = none then
      some (s.setIntervalFunc timerId address, [.setInterval s.handles.length timerId])
    else none
  | .clearInterval timerId =>
    if s.aborted then none
    else some (s.clearIntervalFunc timerId, [.clearInterval timerId [s.target timerId]])
  | .onClose k =>
    match s.handles[k]? with
    | some h =>
      if s.aborted = false ∧ h.phase = .closing then
        some ({ s with handles := s.handles.set k { h with phase := .freed } }, [])
      else none
    | none => none

/-- The id drawn is not that of a live interval, and only ids of live intervals are
cleared. -/
def knowsIds (s : State) : Label → Bool
  | .setInterval timerId _ => s.handles.all fun h => h.phase != .opened || h.id != timerId
  | .clearInterval timerId => s.handles.any fun h => h.phase == .opened && h.id == timerId
  | .onClose _ => true

end State

def timers : Machine State Label Output where
  init s := s = ⟨[], fun _ => none, false⟩
  step := State.step

/-! ## What is asked of the ids -/

/-- Handle `k` is that of an interval with the id `timerId` that has not been closed. -/
def Live (hist : List Output) (k : ℕ) (timerId : ℤ) : Prop :=
  .setInterval k timerId ∈ hist ∧
    ∀ timerId' closed, .clearInterval timerId' closed ∈ hist → .handle k ∉ closed

/-- The handles that have been passed to `uv_close`. -/
def closings (hist : List Output) : List ℕ :=
  hist.flatMap fun
    | .clearInterval _ closed => closed.filterMap fun
      | .handle k => some k
      | _ => none
    | _ => []

structure Faithful (hist : List Output) (s : State) : Prop where
  distinct : ∀ k k' timerId, Live hist k timerId → Live hist k' timerId → k = k'
  /-- a call closes the live interval with its argument for an id, or nothing when there is none -/
  clears : ∀ before timerId closed after,
    hist = before ++ Output.clearInterval timerId closed :: after →
    (∃ k, Live before k timerId ∧ closed = [.handle k]) ∨
      (∀ k, ¬ Live before k timerId) ∧ closed = []
  once : (closings hist).Nodup
  clearable : ∀ k timerId, Live hist k timerId → s.target timerId = .handle k

/-! ## The table along a run -/

theorem mem_closings {hist : List Output} {k : ℕ} :
    k ∈ closings hist ↔
      ∃ timerId closed, .clearInterval timerId closed ∈ hist ∧ .handle k ∈ closed := by
  simp only [closings, List.mem_flatMap]
  constructor
  · rintro ⟨o, ho, hk⟩
    cases o with
    | setInterval => cases hk
    | clearInterval timerId closed =>
      obtain ⟨target, htarget, heq⟩ := List.mem_filterMap.mp hk
      cases target with
      | handle k' =>
        cases heq
        exact ⟨timerId, closed, ho, htarget⟩
      | null | dangling => cases heq
  · rintro ⟨timerId, closed, ho, hk⟩
    exact ⟨_, ho, List.mem_filterMap.mpr ⟨_, hk, rfl⟩⟩

theorem live_iff_closings {hist : List Output} {k : ℕ} {timerId : ℤ} :
    Live hist k timerId ↔ .setInterval k timerId ∈ hist ∧ k ∉ closings hist := by
  simp only [Live, mem_closings, not_exists, not_and]

theorem closings_append (hist out : List Output) :
    closings (hist ++ out) = closings hist ++ closings out := by
  simp [closings]

theorem closings_setInterval (hist : List Output) (k : ℕ) (timerId : ℤ) :
    closings (hist ++ [Output.setInterval k timerId]) = closings hist := by
  rw [closings_append]
  exact List.append_nil _

theorem of_step_setInterval {s s' : State} {timerId : ℤ} {address : ℕ} {out : List Output}
    (hstep : timers.step s (.setInterval timerId address) = some (s', out)) :
    s.handleAt address = none ∧ s' = s.setIntervalFunc timerId address ∧
      out = [.setInterval s.handles.length timerId] := by
  simp only [timers, State.step, Option.ite_none_right_eq_some, Option.some.injEq,
    Prod.mk.injEq] at hstep
  obtain ⟨⟨-, -, -, hfree⟩, rfl, rfl⟩ := hstep
  exact ⟨hfree, rfl, rfl⟩

theorem of_step_clearInterval {s s' : State} {timerId : ℤ} {out : List Output}
    (hstep : timers.step s (.clearInterval timerId) = some (s', out)) :
    s' = s.clearIntervalFunc timerId ∧ out = [.clearInterval timerId [s.target timerId]] := by
  simp only [timers, State.step, Option.ite_none_left_eq_some, Option.some.injEq,
    Prod.mk.injEq] at hstep
  obtain ⟨-, rfl, rfl⟩ := hstep
  exact ⟨rfl, rfl⟩

/-- The history and the handles agree, no two handles in memory share an address, and the
table has the address of every open handle. -/
structure Tracked (hist : List Output) (s : State) : Prop where
  alive : s.aborted = false
  issued : ∀ k timerId,
    .setInterval k timerId ∈ hist ↔ ∃ h, s.handles[k]? = some h ∧ h.id = timerId
  closed : ∀ k, k ∈ closings hist ↔ ∃ h, s.handles[k]? = some h ∧ h.phase ≠ .opened
  apart : ∀ (i j : ℕ) (h h' : Handle), s.handles[i]? = some h → s.handles[j]? = some h' →
    h.phase ≠ .freed → h'.phase ≠ .freed → h.address = h'.address → i = j
  listed : ∀ (k : ℕ) (h : Handle), s.handles[k]? = some h → h.phase = .opened →
    s.registeredIntervalCb h.id = some (some h.address)
  clears : ∀ before timerId closed after,
    hist = before ++ Output.clearInterval timerId closed :: after →
    (∃ k, Live before k timerId ∧ closed = [.handle k]) ∨
      (∀ k, ¬ Live before k timerId) ∧ closed = []
  once : (closings hist).Nodup

namespace Tracked
variable {hist : List Output} {s : State}

theorem live_iff (h : Tracked hist s) {k : ℕ} {timerId : ℤ} :
    Live hist k timerId ↔ ∃ hd, s.handles[k]? = some hd ∧ hd.id = timerId ∧ hd.phase = .opened := by
  rw [live_iff_closings, h.issued, h.closed]
  constructor
  · rintro ⟨⟨hd, hget, hid⟩, hnot⟩
    refine ⟨hd, hget, hid, ?_⟩
    by_contra hphase
    exact hnot ⟨hd, hget, hphase⟩
  · rintro ⟨hd, hget, hid, hphase⟩
    refine ⟨⟨hd, hget, hid⟩, ?_⟩
    rintro ⟨hd', hget', hphase'⟩
    cases hget.symm.trans hget'
    exact hphase' hphase

theorem handleAt_eq (h : Tracked hist s) {k : ℕ} {hd : Handle} (hget : s.handles[k]? = some hd)
    (hphase : hd.phase ≠ .freed) : s.handleAt hd.address = some k := by
  obtain ⟨hk, rfl⟩ := List.getElem?_eq_some_iff.mp hget
  rw [State.handleAt, List.findIdx?_eq_some_iff_getElem]
  refine ⟨hk, by simpa using hphase, ?_⟩
  intro j hj
  by_contra hmatch
  simp only [Bool.and_eq_true, beq_iff_eq, bne_iff_ne] at hmatch
  have hsame := h.apart j k _ _ (List.getElem?_eq_getElem (by omega)) hget hmatch.2 hphase hmatch.1
  omega

/-- The table leads from the id of an open handle to that handle. -/
theorem target_eq (h : Tracked hist s) {k : ℕ} {hd : Handle} (hget : s.handles[k]? = some hd)
    (hphase : hd.phase = .opened) : s.target hd.id = .handle k := by
  have hat := h.handleAt_eq hget (by rw [hphase]; nofun)
  rw [State.target, h.listed k hd hget hphase]
  simp only [hat]

theorem faithful (h : Tracked hist s) : Faithful hist s where
  distinct k k' timerId hlive hlive' := by
    obtain ⟨hd, hget, rfl, hphase⟩ := h.live_iff.mp hlive
    obtain ⟨hd', hget', hid, hphase'⟩ := h.live_iff.mp hlive'
    have htarget := h.target_eq hget hphase
    rw [← hid, h.target_eq hget' hphase'] at htarget
    exact (Target.handle.inj htarget).symm
  clears := h.clears
  once := h.once
  clearable k timerId hlive := by
    obtain ⟨hd, hget, rfl, hphase⟩ := h.live_iff.mp hlive
    exact h.target_eq hget hphase

/-- The law of the calls so far is not touched by a later output that meets it. -/
theorem clears_append (h : Tracked hist s) {o : Output}
    (hlast : ∀ timerId closed, o = .clearInterval timerId closed →
      (∃ k, Live hist k timerId ∧ closed = [.handle k]) ∨
        (∀ k, ¬ Live hist k timerId) ∧ closed = [])
    {before after : List Output} {timerId : ℤ} {closed : List Target}
    (heq : hist ++ [o] = before ++ Output.clearInterval timerId closed :: after) :
    (∃ k, Live before k timerId ∧ closed = [.handle k]) ∨
      (∀ k, ¬ Live before k timerId) ∧ closed = [] := by
  rcases List.eq_nil_or_concat after with rfl | ⟨rest, last, rfl⟩
  · obtain ⟨rfl, hsame⟩ := List.append_inj' heq rfl
    exact hlast timerId closed (List.singleton_inj.mp hsame)
  · rw [List.concat_eq_append, ← List.cons_append, ← List.append_assoc] at heq
    exact h.clears before timerId closed rest (List.append_inj' heq rfl).1

theorem setInterval (h : Tracked hist s) {timerId : ℤ} {address : ℕ}
    (hfree : s.handleAt address = none)
    (hnew : ∀ (k : ℕ) (hd : Handle), s.handles[k]? = some hd → hd.phase = .opened →
      hd.id ≠ timerId) :
    Tracked (hist ++ [Output.setInterval s.handles.length timerId])
      (s.setIntervalFunc timerId address) := by
  have hget (k : ℕ) (hd : Handle) : (s.setIntervalFunc timerId address).handles[k]? = some hd ↔
      s.handles[k]? = some hd ∨ k = s.handles.length ∧ ⟨address, timerId, .opened⟩ = hd := by
    simp only [State.setIntervalFunc, List.getElem?_append]
    grind
  have haddress (k : ℕ) (hd : Handle) (hk : s.handles[k]? = some hd) (hphase : hd.phase ≠ .freed) :
      hd.address ≠ address := by
    rintro rfl
    rw [h.handleAt_eq hk hphase] at hfree
    cases hfree
  constructor
  · exact h.alive
  · intro k timerId'
    rw [List.mem_append, h.issued, List.mem_singleton, Output.setInterval.injEq]
    constructor
    · rintro (⟨hd, hk, hid⟩ | ⟨rfl, rfl⟩)
      · exact ⟨hd, (hget k hd).mpr (.inl hk), hid⟩
      · exact ⟨_, (hget _ _).mpr (.inr ⟨rfl, rfl⟩), rfl⟩
    · rintro ⟨hd, hk, hid⟩
      rcases (hget k hd).mp hk with hk | ⟨rfl, rfl⟩
      · exact .inl ⟨hd, hk, hid⟩
      · exact .inr ⟨rfl, hid.symm⟩
  · intro k
    rw [closings_setInterval, h.closed]
    constructor
    · rintro ⟨hd, hk, hphase⟩
      exact ⟨hd, (hget k hd).mpr (.inl hk), hphase⟩
    · rintro ⟨hd, hk, hphase⟩
      rcases (hget k hd).mp hk with hk | ⟨rfl, rfl⟩
      · exact ⟨hd, hk, hphase⟩
      · exact absurd rfl hphase
  · intro i j hd hd' hi hj hphase hphase' heq
    rcases (hget i hd).mp hi with hi | ⟨rfl, rfl⟩ <;> rcases (hget j hd').mp hj with hj | ⟨rfl, rfl⟩
    · exact h.apart i j hd hd' hi hj hphase hphase' heq
    · exact absurd heq (haddress i hd hi hphase)
    · exact absurd heq.symm (haddress j hd' hj hphase')
    · rfl
  · intro k hd hk hphase
    rcases (hget k hd).mp hk with hk | ⟨rfl, rfl⟩
    · exact (Function.update_of_ne (hnew k hd hk hphase) _ _).trans (h.listed k hd hk hphase)
    · exact Function.update_self _ _ _
  · intro before timerId' closed after heq
    exact h.clears_append (fun _ _ hsame => by cases hsame) heq
  · rw [closings_setInterval]
    exact h.once

/-- A handle moves on towards its end, and only the close of an open handle is output. -/
theorem setPhase (h : Tracked hist s) {k : ℕ} {hd : Handle} (hk : s.handles[k]? = some hd)
    (hbefore : hd.phase ≠ .freed) {phase : Phase} (hafter : phase ≠ .opened) {out : List Output}
    (hissues : ∀ j timerId, .setInterval j timerId ∉ out)
    (hcloses : ∀ j, j ∈ closings out ↔ j = k ∧ hd.phase = .opened)
    (hclears : ∀ before timerId closed after,
      hist ++ out = before ++ Output.clearInterval timerId closed :: after →
        (∃ k, Live before k timerId ∧ closed = [.handle k]) ∨
          (∀ k, ¬ Live before k timerId) ∧ closed = [])
    (honce : (closings out).Nodup) :
    Tracked (hist ++ out) { s with handles := s.handles.set k { hd with phase := phase } } := by
  have hsame : (s.handles.set k { hd with phase := phase })[k]? = some { hd with phase := phase } :=
    List.getElem?_set_self (List.getElem?_eq_some_iff.mp hk).1
  have hother {j : ℕ} (hne : j ≠ k) :
      (s.handles.set k { hd with phase := phase })[j]? = s.handles[j]? :=
    List.getElem?_set_ne hne.symm
  -- each handle after the step comes from the handle with its number before it
  have hfrom (j : ℕ) (hd' : Handle)
      (hj : (s.handles.set k { hd with phase := phase })[j]? = some hd') :
      ∃ old, s.handles[j]? = some old ∧ old.id = hd'.id ∧ old.address = hd'.address ∧
        (hd'.phase ≠ .freed → old.phase ≠ .freed) ∧ (hd'.phase = .opened → old = hd') := by
    by_cases hne : j = k
    · subst hne
      cases hsame.symm.trans hj
      exact ⟨hd, hk, rfl, rfl, fun _ => hbefore, fun hphase => absurd hphase hafter⟩
    · rw [hother hne] at hj
      exact ⟨hd', hj, rfl, rfl, id, fun _ => rfl⟩
  constructor
  · exact h.alive
  · intro j timerId
    rw [List.mem_append, or_iff_left (hissues j timerId), h.issued]
    constructor
    · rintro ⟨old, hj, hid⟩
      by_cases hne : j = k
      · subst hne
        cases hk.symm.trans hj
        exact ⟨_, hsame, hid⟩
      · exact ⟨old, (hother hne).trans hj, hid⟩
    · rintro ⟨hd', hj, hid⟩
      obtain ⟨old, hold, hids, -⟩ := hfrom j hd' hj
      exact ⟨old, hold, hids.trans hid⟩
  · intro j
    rw [closings_append, List.mem_append, h.closed, hcloses]
    by_cases hne : j = k
    · subst hne
      refine ⟨fun _ => ⟨_, hsame, hafter⟩, fun _ => ?_⟩
      by_cases hphase : hd.phase = .opened
      · exact .inr ⟨rfl, hphase⟩
      · exact .inl ⟨hd, hk, hphase⟩
    · simp only [hother hne, hne, false_and, or_false]
  · intro i j hd₁ hd₂ hi hj hphase hphase' heq
    obtain ⟨old, hold, -, haddress, hfreed, -⟩ := hfrom i hd₁ hi
    obtain ⟨old', hold', -, haddress', hfreed', -⟩ := hfrom j hd₂ hj
    exact h.apart i j old old' hold hold' (hfreed hphase) (hfreed' hphase')
      ((haddress.trans heq).trans haddress'.symm)
  · intro j hd' hj hphase
    obtain ⟨old, hold, -, -, -, hkept⟩ := hfrom j hd' hj
    obtain rfl := hkept hphase
    exact h.listed j _ hold hphase
  · exact hclears
  · rw [closings_append]
    refine List.Nodup.append h.once honce ?_
    -- an open handle has not been closed before
    intro j hclosed hnow
    obtain ⟨rfl, hphase⟩ := (hcloses j).mp hnow
    obtain ⟨old, hold, hnot⟩ := (h.closed j).mp hclosed
    cases hk.symm.trans hold
    exact hnot hphase

theorem clearIntervalFunc_eq (h : Tracked hist s) {k : ℕ} {hd : Handle}
    (hk : s.handles[k]? = some hd) (hphase : hd.phase = .opened) :
    s.clearIntervalFunc hd.id =
      { s with handles := s.handles.set k { hd with phase := .closing } } := by
  have hlisted := h.listed k hd hk hphase
  have htable : Function.update s.registeredIntervalCb hd.id
      (some ((s.registeredIntervalCb hd.id).getD none)) = s.registeredIntervalCb := by
    rw [hlisted, Option.getD_some, ← hlisted, Function.update_eq_self]
  rw [State.clearIntervalFunc, htable, h.target_eq hk hphase]
  simp only [State.uvClose, hk, hphase, if_true]

theorem clearInterval (h : Tracked hist s) {k : ℕ} {hd : Handle} (hk : s.handles[k]? = some hd)
    (hphase : hd.phase = .opened) :
    Tracked (hist ++ [Output.clearInterval hd.id [s.target hd.id]])
      (s.clearIntervalFunc hd.id) := by
  have hlive : Live hist k hd.id := h.live_iff.mpr ⟨hd, hk, rfl, hphase⟩
  rw [h.clearIntervalFunc_eq hk hphase, h.target_eq hk hphase]
  have hcloses : closings [.clearInterval hd.id [.handle k]] = [k] := rfl
  apply h.setPhase hk
  · simp [hphase]
  · nofun
  · simp
  · simp [hcloses, hphase]
  · intro before timerId closed after heq
    refine h.clears_append (fun timerId' closed' hsame => ?_) heq
    obtain ⟨rfl, rfl⟩ := Output.clearInterval.inj hsame
    exact .inl ⟨k, hlive, rfl⟩
  · exact List.nodup_singleton k

theorem onClose (h : Tracked hist s) {k : ℕ} {hd : Handle} (hk : s.handles[k]? = some hd)
    (hphase : hd.phase = .closing) :
    Tracked (hist ++ []) { s with handles := s.handles.set k { hd with phase := .freed } } := by
  apply h.setPhase hk
  · simp [hphase]
  · nofun
  · simp
  · simp [closings, hphase]
  · rw [List.append_nil]
    exact h.clears
  · exact List.nodup_nil

theorem knowsIds_clearInterval (h : Tracked hist s) {timerId : ℤ} :
    s.knowsIds (.clearInterval timerId) = true ↔ ∃ k, Live hist k timerId := by
  simp only [State.knowsIds, List.any_eq_true, Bool.and_eq_true, beq_iff_eq, h.live_iff,
    List.mem_iff_getElem?]
  constructor
  · rintro ⟨hd, ⟨k, hk⟩, hphase, hid⟩
    exact ⟨k, hd, hk, hid, hphase⟩
  · rintro ⟨k, hd, hk, hid, hphase⟩
    exact ⟨hd, ⟨k, hk⟩, hphase, hid⟩

theorem knowsIds_setInterval (h : Tracked hist s) {timerId : ℤ} {address : ℕ} :
    s.knowsIds (.setInterval timerId address) = true ↔ ∀ k, ¬ Live hist k timerId := by
  have hnegates : s.knowsIds (.setInterval timerId address) =
      !s.knowsIds (.clearInterval timerId) := by
    simp only [State.knowsIds, List.not_any_eq_all_not, Bool.not_and]
    rfl
  rw [hnegates, Bool.not_eq_true', ← Bool.not_eq_true, h.knowsIds_clearInterval, not_exists]

theorem step (h : Tracked hist s) {a : Label} {s' : State} {out : List Output}
    (hstep : timers.step s a = some (s', out)) (hids : s.knowsIds a = true) :
    Tracked (hist ++ out) s' := by
  cases a with
  | setInterval timerId address =>
    obtain ⟨hfree, rfl, rfl⟩ := of_step_setInterval hstep
    refine h.setInterval hfree ?_
    intro k hd hk hphase hid
    exact h.knowsIds_setInterval.mp hids k (h.live_iff.mpr ⟨hd, hk, hid, hphase⟩)
  | clearInterval timerId =>
    obtain ⟨rfl, rfl⟩ := of_step_clearInterval hstep
    obtain ⟨k, hlive⟩ := h.knowsIds_clearInterval.mp hids
    obtain ⟨hd, hk, rfl, hphase⟩ := h.live_iff.mp hlive
    exact h.clearInterval hk hphase
  | onClose k =>
    simp only [timers, State.step] at hstep
    split at hstep
    · next hd hk =>
      simp only [Option.ite_none_right_eq_some, Option.some.injEq, Prod.mk.injEq] at hstep
      obtain ⟨⟨-, hphase⟩, rfl, rfl⟩ := hstep
      exact h.onClose hk hphase
    · cases hstep

/-- A drawn id that is in use makes two live intervals with it, and the call for an id that
no live interval has is not a no-op. -/
theorem knowsIds_of_faithful (h : Tracked hist s) {a : Label} {s' : State} {out : List Output}
    (hstep : timers.step s a = some (s', out)) (hfaithful : Faithful (hist ++ out) s') :
    s.knowsIds a = true := by
  cases a with
  | setInterval timerId address =>
    obtain ⟨-, rfl, rfl⟩ := of_step_setInterval hstep
    rw [h.knowsIds_setInterval]
    intro k hlive
    obtain ⟨hd, hk, -⟩ := h.live_iff.mp hlive
    have hkept : Live (hist ++ [Output.setInterval s.handles.length timerId]) k timerId := by
      rw [live_iff_closings, closings_setInterval]
      exact (live_iff_closings.mp hlive).imp_left (List.mem_append_left _)
    have hnew :
        Live (hist ++ [Output.setInterval s.handles.length timerId]) s.handles.length timerId := by
      rw [live_iff_closings, closings_setInterval, h.closed]
      simp
    have hsame := hfaithful.distinct k s.handles.length timerId hkept hnew
    have hlt := (List.getElem?_eq_some_iff.mp hk).1
    omega
  | clearInterval timerId =>
    obtain ⟨rfl, rfl⟩ := of_step_clearInterval hstep
    rw [h.knowsIds_clearInterval]
    rcases hfaithful.clears hist timerId _ [] rfl with ⟨k, hlive, -⟩ | ⟨-, hnothing⟩
    · exact ⟨k, hlive⟩
    · cases hnothing
  | onClose => rfl

end Tracked

theorem reaches_tracked {s : State} {hist : List Output}
    (run : (timers.guarded fun s a => s.knowsIds a = true).Reaches s hist) : Tracked hist s := by
  refine run.invariant ?_ ?_
  · rintro s rfl
    constructor <;> simp [closings]
  · intro hist s a s' out h hstep
    obtain ⟨hids, hstep⟩ := Machine.guarded_step.mp hstep
    exact h.step hstep hids

/-- The ids are faithful as long as no id is drawn that a live interval has and none is cleared
that no live interval has, and each other step breaks them. -/
theorem intervals_faithful_iff {s : State} {hist : List Output}
    (run : (timers.guarded fun s a => s.knowsIds a = true).Reaches s hist) :
    Faithful hist s ∧ ∀ a s' out, timers.step s a = some (s', out) →
      (Faithful (hist ++ out) s' ↔ s.knowsIds a = true) := by
  have htracked := reaches_tracked run
  refine ⟨htracked.faithful, ?_⟩
  intro a s' out hstep
  exact ⟨htracked.knowsIds_of_faithful hstep, fun hids => (htracked.step hstep hids).faithful⟩

theorem intervals_faithful_reused_id : ∃ s,
    Faithful [.setInterval 0 1234567, .clearInterval 1234567 [.handle 0], .setInterval 1 1234567]
      s ∧ s.target 1234567 = .handle 1 := by
  have run := Machine.reaches_exec (M := timers.guarded fun s a => s.knowsIds a = true)
    [.setInterval 1234567 0, .clearInterval 1234567, .onClose 0, .setInterval 1234567 0] rfl rfl
  exact ⟨_, (intervals_faithful_iff run).1, rfl⟩

/-- Two intervals get the same number, and an interval is cleared twice before its close
callback. -/
theorem intervals_unfaithful :
    (∃ s, timers.Reaches s [.setInterval 0 1234567, .setInterval 1 1234567] ∧
      ¬ Faithful [.setInterval 0 1234567, .setInterval 1 1234567] s) ∧
    ∃ s, timers.Reaches s [.setInterval 0 1234567, .clearInterval 1234567 [.handle 0],
        .clearInterval 1234567 [.handle 0]] ∧
      ¬ Faithful [.setInterval 0 1234567, .clearInterval 1234567 [.handle 0],
        .clearInterval 1234567 [.handle 0]] s := by
  constructor
  · refine ⟨_, Machine.reaches_exec [.setInterval 1234567 0, .setInterval 1234567 1] rfl rfl, ?_⟩
    intro h
    have hsame := h.distinct 0 1 1234567
    simp [Live] at hsame
  · refine ⟨_, Machine.reaches_exec [.setInterval 1234567 0, .clearInterval 1234567,
      .clearInterval 1234567] rfl rfl, ?_⟩
    intro h
    have honce := h.once
    simp [closings] at honce

end CapyJs.Timer
