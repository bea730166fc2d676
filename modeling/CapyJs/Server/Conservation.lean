import CapyJs.Server.ConnectionInvariant
import CapyJs.Server.Machine
import Mathlib.Data.Finset.Card

/-!
# Who owns the slots of the three pools

Four laws tie the pools to the connections, the responses and the history: read
buffers stand in receive chains, guard references belong to connections and
responses, connections have their rights to answer within budget, and the history
tells which connections exist. Inside a callback some buffers, references and
rights are in nobody's hands but the callback's; the laws take them as lists, and
each operation of the server moves them in or out.
-/
namespace CapyJs.Server

open CapyJs.Http CapyJs.Pool ClientState

/-! ## Read buffers -/

/-- Every outstanding read buffer stands in exactly one receive chain or is in hand. -/
structure BufferInv (clients : MemPool ClientState) (readBuffers : MemPool Unit)
    (inHand : List ℕ) : Prop where
  wf : readBuffers.WF
  owned : ∀ f : ℕ → ℕ, readBuffers.total (fun b _ => f b) =
    clients.total (fun _ c => weigh f c.recv) + (inHand.map f).sum

namespace BufferInv
variable {clients clients' : MemPool ClientState} {readBuffers readBuffers' : MemPool Unit}
  {inHand : List ℕ}

theorem acquire (hi : BufferInv clients readBuffers inHand) {b : ℕ}
    (h : readBuffers.acquire = some (some b, readBuffers')) :
    BufferInv clients readBuffers' (b :: inHand) := by
  obtain ⟨hr, hwf, -⟩ := MemPool.acquire_spec hi.wf h
  refine ⟨hwf, fun f => ?_⟩
  have htotal := hr.total_eq fun b _ => f b
  have howned := hi.owned f
  simp only [Option.elim_none, Option.elim_some, List.map_cons, List.sum_cons] at htotal ⊢
  omega

/-- A buffer in hand is outstanding. -/
theorem live_of_inHand (hi : BufferInv clients readBuffers inHand) {b : ℕ} (hb : b ∈ inHand) :
    readBuffers.live b = some () := by
  have howned := hi.owned fun j => if j = b then 1 else 0
  have hone : 1 ≤ (inHand.map fun j => if j = b then 1 else 0).sum :=
    List.le_sum_of_mem (List.mem_map.mpr ⟨b, hb, if_pos rfl⟩)
  obtain ⟨j, x, hlive, hpos⟩ := MemPool.exists_live_of_total_pos
    (p := readBuffers) (f := fun j _ => if j = b then 1 else 0) (by omega)
  split_ifs at hpos with hj
  · subst hj
    exact hlive
  · omega

theorem release {b : ℕ} (hi : BufferInv clients readBuffers (b :: inHand)) :
    ∃ p, readBuffers.release b = some p ∧ BufferInv clients p inHand := by
  have hlive := hi.live_of_inHand List.mem_cons_self
  obtain ⟨p, hp, hr, hwf⟩ := MemPool.release_spec hi.wf hlive
  refine ⟨p, hp, hwf, fun f => ?_⟩
  have htotal := hr.total_eq fun b _ => f b
  have howned := hi.owned f
  simp only [Option.elim_none, Option.elim_some, List.map_cons, List.sum_cons] at htotal howned
  omega

theorem releaseAll {l : List ReadBuffer}
    (hi : BufferInv clients readBuffers (l.map ReadBuffer.slot ++ inHand)) :
    ∃ p, Server.releaseAll readBuffers l = some p ∧ BufferInv clients p inHand := by
  induction l generalizing readBuffers with
  | nil => exact ⟨readBuffers, rfl, hi⟩
  | cons rb l ih =>
    obtain ⟨p, hp, hi'⟩ := BufferInv.release hi
    obtain ⟨p', hp', hi''⟩ := ih hi'
    refine ⟨p', ?_, hi''⟩
    simp only [Server.releaseAll, hp, hp']

/-- A change of one connection that keeps account of its buffers. -/
theorem onClient {i : ℕ} {old new : Option ClientState} {inHand' : List ℕ}
    (hi : BufferInv clients readBuffers inHand)
    (hr : MemPool.Replaces clients clients' i old new)
    (hrecv : ∀ f : ℕ → ℕ, new.elim 0 (fun c => weigh f c.recv) + (inHand'.map f).sum =
      old.elim 0 (fun c => weigh f c.recv) + (inHand.map f).sum) :
    BufferInv clients' readBuffers inHand' := by
  refine ⟨hi.wf, fun f => ?_⟩
  have htotal := hr.total_eq fun _ c => weigh f c.recv
  have howned := hi.owned f
  have hmove := hrecv f
  omega

end BufferInv

/-! ## Guards -/

theorem countP_eraseIdx {α : Type*} (p : α → Bool) {l : List α} {k : ℕ} {x : α}
    (h : l[k]? = some x) : (l.eraseIdx k).countP p + (if p x then 1 else 0) = l.countP p := by
  obtain ⟨hk, rfl⟩ := List.getElem?_eq_some_iff.mp h
  rw [← (List.getElem_cons_eraseIdx_perm hk).countP_eq, List.countP_cons]

/-- The connections that hold guard `g`. -/
def holders (clients : MemPool ClientState) (g : ℕ) : ℕ :=
  clients.total fun _ c => if c.guard = some g then 1 else 0

/-- The live responses that hold guard `g`. -/
def responseRefs (responses : List ResponseObject) (g : ℕ) : ℕ :=
  responses.countP fun r => r.guard == g

/-- A guard is held by its connection exactly while it is alive, counts its references,
and is outstanding exactly while there are any. -/
def GuardLaw (clients : MemPool ClientState) (responses : List ResponseObject)
    (inHand : List ℕ) (g : ℕ) : Option ConnGuard → Prop
  | none => holders clients g = 0 ∧ responseRefs responses g = 0 ∧ inHand.count g = 0
  | some gd => holders clients g = (if gd.alive then 1 else 0) ∧
      gd.refCount = (holders clients g + responseRefs responses g + inHand.count g : ℕ) ∧
      0 < gd.refCount

/-- Only the sums count. -/
theorem GuardLaw.congr {clients clients' : MemPool ClientState}
    {responses responses' : List ResponseObject} {inHand inHand' : List ℕ} {g : ℕ}
    {o : Option ConnGuard} (h : GuardLaw clients responses inHand g o)
    (hholders : holders clients' g = holders clients g)
    (hrefs : responseRefs responses' g + inHand'.count g =
      responseRefs responses g + inHand.count g) :
    GuardLaw clients' responses' inHand' g o := by
  cases o with
  | none =>
    obtain ⟨h1, h2, h3⟩ := h
    refine ⟨?_, ?_, ?_⟩ <;> omega
  | some gd =>
    obtain ⟨h1, h2, h3⟩ := h
    refine ⟨hholders.trans h1, ?_, h3⟩
    rw [h2]
    omega

structure GuardInv (clients : MemPool ClientState) (guards : MemPool ConnGuard)
    (responses : List ResponseObject) (inHand : List ℕ) : Prop where
  wf : guards.WF
  law : ∀ g, GuardLaw clients responses inHand g (guards.live g)
  client : ∀ i c g gd, clients.live i = some c → c.guard = some g → guards.live g = some gd →
    gd.conn = c.conn
  response : ∀ r ∈ responses, ∀ gd, guards.live r.guard = some gd → gd.conn = r.conn ∧
    (gd.alive = true → ∃ c, clients.live r.cli = some c ∧ c.guard = some r.guard)

namespace GuardInv
variable {clients clients' : MemPool ClientState} {guards guards' : MemPool ConnGuard}
  {responses : List ResponseObject} {inHand : List ℕ}

theorem exists_live_of_ref (hi : GuardInv clients guards responses inHand) {g : ℕ}
    (h : 0 < holders clients g + responseRefs responses g + inHand.count g) :
    ∃ gd, guards.live g = some gd := by
  have hlaw := hi.law g
  cases hg : guards.live g with
  | none =>
    rw [hg] at hlaw
    obtain ⟨h1, h2, h3⟩ := hlaw
    omega
  | some gd => exact ⟨gd, rfl⟩

theorem holders_pos {i : ℕ} {c : ClientState} {g : ℕ} (hlive : clients.live i = some c)
    (hg : c.guard = some g) : 0 < holders clients g := by
  have hle := MemPool.le_total hlive fun _ c => if c.guard = some g then 1 else 0
  rw [if_pos hg] at hle
  exact hle

theorem responseRefs_pos {r : ResponseObject} (hr : r ∈ responses) :
    0 < responseRefs responses r.guard :=
  List.countP_pos_iff.mpr ⟨r, hr, by simp⟩

/-- A connection's guard is outstanding, alive and its own. -/
theorem of_client (hi : GuardInv clients guards responses inHand) {i : ℕ} {c : ClientState}
    {g : ℕ} (hlive : clients.live i = some c) (hg : c.guard = some g) :
    ∃ gd, guards.live g = some gd ∧ gd.alive = true ∧ gd.conn = c.conn := by
  have hpos := holders_pos hlive hg
  obtain ⟨gd, hgd⟩ := hi.exists_live_of_ref (g := g) (by omega)
  have hlaw := hi.law g
  rw [hgd] at hlaw
  refine ⟨gd, hgd, ?_, hi.client i c g gd hlive hg hgd⟩
  by_contra hdead
  have hzero := hlaw.1
  rw [if_neg hdead] at hzero
  omega

/-- A guard that is alive is held by a connection. -/
theorem exists_client (hi : GuardInv clients guards responses inHand) {g : ℕ} {gd : ConnGuard}
    (hgd : guards.live g = some gd) (halive : gd.alive = true) :
    ∃ i c, clients.live i = some c ∧ c.guard = some g := by
  have hlaw := hi.law g
  rw [hgd] at hlaw
  have hholders := hlaw.1
  rw [if_pos halive] at hholders
  obtain ⟨i, c, hc, hpos⟩ := MemPool.exists_live_of_total_pos
    (p := clients) (f := fun _ c => if c.guard = some g then 1 else 0)
    (by unfold holders at hholders; omega)
  split_ifs at hpos with hg
  · exact ⟨i, c, hc, hg⟩
  · omega

/-- A response's guard is outstanding. -/
theorem of_response (hi : GuardInv clients guards responses inHand) {r : ResponseObject}
    (hr : r ∈ responses) : ∃ gd, guards.live r.guard = some gd :=
  hi.exists_live_of_ref (by have := responseRefs_pos hr; omega)

/-- A change of one outstanding guard that leaves its connection number alone. -/
theorem modify (hi : GuardInv clients guards responses inHand) {g : ℕ} {gd : ConnGuard}
    (hgd : guards.live g = some gd) {f : ConnGuard → ConnGuard} {inHand' : List ℕ}
    (hconn : (f gd).conn = gd.conn) (halive : (f gd).alive = gd.alive)
    (hcount : (f gd).refCount - gd.refCount = (inHand'.count g : ℤ) - inHand.count g)
    (hpos : 0 < (f gd).refCount) (hother : ∀ j, j ≠ g → inHand'.count j = inHand.count j) :
    GuardInv clients (guards.modify g f) responses inHand' := by
  obtain ⟨hr, hwf⟩ := MemPool.modify_spec hi.wf hgd f
  refine ⟨hwf, ?_, ?_, ?_⟩
  · intro j
    have hlaw := hi.law j
    rw [hr.live_eq]
    by_cases hj : j = g
    · subst hj
      rw [hgd] at hlaw
      obtain ⟨howner, hrefs, -⟩ := hlaw
      rw [if_pos rfl]
      refine ⟨by rw [halive]; exact howner, ?_, hpos⟩
      push_cast at hrefs ⊢
      omega
    · rw [if_neg hj]
      exact hlaw.congr rfl (by rw [hother j hj])
  · intro i c j gd' hlive hj hlive'
    rw [hr.live_eq] at hlive'
    split_ifs at hlive' with heq
    · subst heq
      cases hlive'
      exact hconn.trans (hi.client i c j gd hlive hj hgd)
    · exact hi.client i c j gd' hlive hj hlive'
  · intro r hr' gd' hlive'
    rw [hr.live_eq] at hlive'
    split_ifs at hlive' with heq
    · cases hlive'
      have hresp := hi.response r hr' gd (heq ▸ hgd)
      rw [hconn, halive]
      exact hresp
    · exact hi.response r hr' gd' hlive'

/-- Every outstanding guard of the second pool was outstanding in the first, for the same
connection and as much alive. -/
def Survives (guards guards' : MemPool ConnGuard) : Prop :=
  ∀ g gd', guards'.live g = some gd' → ∃ gd, guards.live g = some gd ∧
    gd.alive = gd'.alive ∧ gd.conn = gd'.conn

theorem survives_modify (hwf : guards.WF) {g : ℕ} {gd : ConnGuard}
    (hgd : guards.live g = some gd) (f : ℤ → ℤ) :
    Survives guards (guards.modify g fun gd => { gd with refCount := f gd.refCount }) := by
  obtain ⟨hr, -⟩ := MemPool.modify_spec hwf hgd fun gd => { gd with refCount := f gd.refCount }
  intro j gd' hgd'
  rw [hr.live_eq] at hgd'
  split_ifs at hgd' with hj
  · cases hgd'
    exact ⟨gd, hj ▸ hgd, rfl, rfl⟩
  · exact ⟨gd', hgd', rfl, rfl⟩

theorem acquire (hi : GuardInv clients guards responses inHand) {g : ℕ} {gd : ConnGuard}
    (hgd : guards.live g = some gd) :
    GuardInv clients (ConnGuard.acquire guards g) responses (g :: inHand) := by
  have hlaw := hi.law g
  rw [hgd] at hlaw
  have hpos := hlaw.2.2
  apply hi.modify hgd rfl rfl
  · simp
  · simp only
    omega
  · intro j hj
    exact List.count_cons_of_ne (Ne.symm hj)

/-- Giving up a reference in hand is always possible, and frees the guard exactly when
it was the last one. -/
theorem release {g : ℕ} (hi : GuardInv clients guards responses (g :: inHand)) :
    ∃ p, ConnGuard.release guards g = some p ∧ GuardInv clients p responses inHand ∧
      Survives guards p := by
  obtain ⟨gd, hgd⟩ := hi.exists_live_of_ref (g := g) (by simp)
  have hlaw := hi.law g
  rw [hgd] at hlaw
  obtain ⟨howner, hrefs, hpos⟩ := hlaw
  rw [List.count_cons_self] at hrefs
  simp only [ConnGuard.release, MemPool.deref_of_live hgd]
  by_cases hlast : gd.refCount - 1 = 0
  · rw [if_pos hlast]
    obtain ⟨hr, hwf⟩ := MemPool.modify_spec hi.wf hgd
      fun gd => { gd with refCount := gd.refCount - 1 }
    have hlive := hr.live_eq g
    rw [if_pos rfl] at hlive
    obtain ⟨p, hp, hr', hwf'⟩ := MemPool.release_spec hwf hlive
    have hlive' : ∀ j, p.live j = if j = g then none else guards.live j := by
      intro j
      rw [hr'.live_eq, hr.live_eq]
      split_ifs <;> rfl
    refine ⟨p, hp, ⟨hwf', ?_, ?_, ?_⟩, ?_⟩
    · intro j
      rw [hlive']
      by_cases hj : j = g
      · subst hj
        rw [if_pos rfl]
        refine ⟨?_, ?_, ?_⟩ <;> omega
      · rw [if_neg hj]
        exact (hi.law j).congr rfl (by rw [List.count_cons_of_ne (Ne.symm hj)])
    · intro i c j gd' hc hj hgd'
      rw [hlive'] at hgd'
      split_ifs at hgd'
      exact hi.client i c j gd' hc hj hgd'
    · intro r hr gd' hgd'
      rw [hlive'] at hgd'
      split_ifs at hgd'
      exact hi.response r hr gd' hgd'
    · intro j gd' hgd'
      rw [hlive'] at hgd'
      split_ifs at hgd'
      exact ⟨gd', hgd', rfl, rfl⟩
  · rw [if_neg hlast]
    refine ⟨_, rfl, hi.modify hgd rfl rfl ?_ ?_ ?_, survives_modify hi.wf hgd (· - 1)⟩
    · simp
    · simp only
      omega
    · intro j hj
      exact (List.count_cons_of_ne (Ne.symm hj)).symm

/-- A reference in hand goes to a new response of the guard's connection. -/
theorem addResponse {r : ResponseObject}
    (hi : GuardInv clients guards responses (r.guard :: inHand)) {c : ClientState}
    (hlive : clients.live r.cli = some c) (hguard : c.guard = some r.guard)
    (hconn : c.conn = r.conn) : GuardInv clients guards (responses ++ [r]) inHand := by
  have hcount : ∀ g, responseRefs (responses ++ [r]) g + inHand.count g =
      responseRefs responses g + (r.guard :: inHand).count g := by
    intro g
    simp only [responseRefs, List.countP_append, List.countP_singleton, List.count_cons]
    omega
  refine ⟨hi.wf, ?_, hi.client, ?_⟩
  · intro g
    exact (hi.law g).congr rfl (hcount g)
  · intro r' hr' gd hgd
    rcases List.mem_append.mp hr' with hold | hnew
    · exact hi.response r' hold gd hgd
    · obtain rfl := List.mem_singleton.mp hnew
      exact ⟨(hi.client _ c _ gd hlive hguard hgd).trans hconn, fun _ => ⟨c, hlive, hguard⟩⟩

/-- The reference of a response that ends comes to hand. -/
theorem eraseResponse (hi : GuardInv clients guards responses inHand) {k : ℕ}
    {r : ResponseObject} (hk : responses[k]? = some r) :
    GuardInv clients guards (responses.eraseIdx k) (r.guard :: inHand) := by
  have hcount : ∀ g, responseRefs (responses.eraseIdx k) g + (r.guard :: inHand).count g =
      responseRefs responses g + inHand.count g := by
    intro g
    have herase := countP_eraseIdx (fun r => r.guard == g) hk
    simp only [responseRefs, List.count_cons]
    omega
  refine ⟨hi.wf, ?_, hi.client, ?_⟩
  · intro g
    exact (hi.law g).congr rfl (hcount g)
  · intro r' hr' gd hgd
    exact hi.response r' (List.mem_of_mem_eraseIdx hr') gd hgd

theorem elim_guard (o : Option ClientState) (g : ℕ) :
    (o.elim 0 fun c => if c.guard = some g then 1 else 0) =
      if o.bind ClientState.guard = some g then 1 else 0 := by
  cases o <;> simp

/-- The holders of a guard after slot `i` has changed. -/
theorem holders_replaces {i : ℕ} {old new : Option ClientState}
    (hr : MemPool.Replaces clients clients' i old new) (g : ℕ) :
    holders clients' g + (if old.bind ClientState.guard = some g then 1 else 0) =
      holders clients g + if new.bind ClientState.guard = some g then 1 else 0 := by
  rw [← elim_guard, ← elim_guard]
  exact hr.total_eq fun _ c => if c.guard = some g then 1 else 0

/-- A connection in slot `i` is replaced by one with the same guard, if any. -/
theorem onClient {i : ℕ} {old new : Option ClientState}
    (hi : GuardInv clients guards responses inHand)
    (hr : MemPool.Replaces clients clients' i old new)
    (hguard : new.bind ClientState.guard = old.bind ClientState.guard)
    (hconn : ∀ c ∈ old, ∀ c' ∈ new, c'.conn = c.conn) :
    GuardInv clients' guards responses inHand := by
  have hholders : ∀ g, holders clients' g = holders clients g := by
    intro g
    have htotal := holders_replaces hr g
    rw [hguard] at htotal
    omega
  refine ⟨hi.wf, fun g => (hi.law g).congr (hholders g) rfl, ?_, ?_⟩
  · intro j c' g gd hlive hg hgd
    rw [hr.live_eq] at hlive
    split_ifs at hlive with hj
    · -- the slot that changed held the same guard before
      rw [hlive, Option.bind_some, hg] at hguard
      obtain ⟨c, hold, hg'⟩ := Option.bind_eq_some_iff.mp hguard.symm
      rw [hconn c hold c' hlive]
      exact hi.client i c g gd (hr.before.trans hold) hg' hgd
    · exact hi.client j c' g gd hlive hg hgd
  · intro r hr' gd hgd
    obtain ⟨hconn', hcli⟩ := hi.response r hr' gd hgd
    refine ⟨hconn', fun halive => ?_⟩
    obtain ⟨c, hlive, hg⟩ := hcli halive
    rw [hr.live_eq]
    split_ifs with hj
    · rw [hj, hr.before] at hlive
      rw [hlive, Option.bind_some, hg] at hguard
      exact Option.bind_eq_some_iff.mp hguard
    · exact ⟨c, hlive, hg⟩

/-- A new connection takes a new guard. -/
theorem newClient {i g : ℕ} {c : ClientState} (hi : GuardInv clients guards responses inHand)
    (hr : MemPool.Replaces clients clients' i none (some c))
    (hacq : guards.acquire = some (some g, guards')) (hguard : c.guard = some g) :
    GuardInv clients' (guards'.modify g fun _ => ⟨true, 1, c.conn⟩) responses inHand := by
  obtain ⟨hrg, hwf, -⟩ := MemPool.acquire_spec hi.wf hacq
  have hzeroed := hrg.live_eq g
  rw [if_pos rfl] at hzeroed
  obtain ⟨hrm, hwf'⟩ := MemPool.modify_spec hwf hzeroed fun _ => ⟨true, 1, c.conn⟩
  have hlive : ∀ j, (guards'.modify g fun _ => ⟨true, 1, c.conn⟩).live j =
      if j = g then some ⟨true, 1, c.conn⟩ else guards.live j := by
    intro j
    rw [hrm.live_eq, hrg.live_eq]
    split_ifs <;> rfl
  have hfree := hi.law g
  rw [hrg.before] at hfree
  obtain ⟨hfree1, hfree2, hfree3⟩ := hfree
  have hholders : ∀ j, holders clients' j = holders clients j + if j = g then 1 else 0 := by
    intro j
    have htotal := holders_replaces hr j
    simp only [Option.bind_none, reduceCtorEq, if_false, Option.bind_some, hguard,
      Option.some.injEq, Nat.add_zero] at htotal
    rw [htotal, if_congr eq_comm rfl rfl]
  refine ⟨hwf', ?_, ?_, ?_⟩
  · intro j
    rw [hlive]
    have hh := hholders j
    by_cases hj : j = g
    · subst hj
      rw [if_pos rfl] at hh ⊢
      refine ⟨?_, ?_, Int.one_pos⟩
      · simp only [if_true]
        omega
      · simp only
        omega
    · rw [if_neg hj] at hh ⊢
      exact (hi.law j).congr hh rfl
  · intro j c' g' gd hc' hg' hgd
    rw [hr.live_eq] at hc'
    rw [hlive] at hgd
    split_ifs at hc' with hj
    · cases hc'
      rw [hguard, Option.some.injEq] at hg'
      rw [if_pos hg'.symm] at hgd
      cases hgd
      rfl
    · split_ifs at hgd with hg
      · -- nobody held the new guard before
        have hpos := holders_pos hc' (hg ▸ hg')
        omega
      · exact hi.client j c' g' gd hc' hg' hgd
  · intro r hr' gd hgd
    rw [hlive] at hgd
    split_ifs at hgd with hg
    · have hpos := responseRefs_pos hr'
      rw [hg] at hpos
      omega
    · obtain ⟨hconn, hcli⟩ := hi.response r hr' gd hgd
      refine ⟨hconn, fun halive => ?_⟩
      obtain ⟨c', hc', hg'⟩ := hcli halive
      refine ⟨c', ?_, hg'⟩
      rw [hr.live_eq, if_neg, hc']
      intro hcli
      rw [hcli, hr.before] at hc'
      cases hc'

/-- The end of the close callback: the guard is invalidated and its connection's
reference comes to hand. -/
theorem detach {i g : ℕ} {c c' : ClientState} (hi : GuardInv clients guards responses inHand)
    (hr : MemPool.Replaces clients clients' i (some c) (some c')) (hguard : c.guard = some g)
    (hguard' : c'.guard = none) :
    GuardInv clients' (ConnGuard.invalidate guards g) responses (g :: inHand) := by
  obtain ⟨gd, hgd, halive, hgconn⟩ := hi.of_client hr.before hguard
  obtain ⟨hrm, hwf⟩ := MemPool.modify_spec hi.wf hgd fun gd => { gd with alive := false }
  have hholders : ∀ j, holders clients' j + (if j = g then 1 else 0) = holders clients j := by
    intro j
    have htotal := holders_replaces hr j
    simp only [Option.bind_some, hguard, hguard', Option.some.injEq, reduceCtorEq, if_false,
      Nat.add_zero] at htotal
    rw [← htotal, if_congr eq_comm rfl rfl]
  have hlive : ∀ j, (ConnGuard.invalidate guards g).live j =
      if j = g then some { gd with alive := false } else guards.live j := hrm.live_eq
  refine ⟨hwf, ?_, ?_, ?_⟩
  · intro j
    rw [hlive]
    have hh := hholders j
    have hlaw := hi.law j
    by_cases hj : j = g
    · subst hj
      rw [hgd] at hlaw
      obtain ⟨h1, h2, h3⟩ := hlaw
      rw [if_pos rfl] at hh ⊢
      rw [if_pos halive] at h1
      refine ⟨?_, ?_, h3⟩
      · simp only [Bool.false_eq_true, if_false]
        omega
      · rw [List.count_cons_self]
        simp only [h2]
        omega
    · rw [if_neg hj] at hh ⊢
      exact hlaw.congr hh (by rw [List.count_cons_of_ne (Ne.symm hj)])
  · intro j d g' gd' hd hg' hgd'
    rw [hr.live_eq] at hd
    rw [hlive] at hgd'
    split_ifs at hd with hj
    · cases hd
      rw [hguard'] at hg'
      cases hg'
    · split_ifs at hgd' with hg
      · cases hgd'
        exact hi.client j d g' gd hd hg' (hg ▸ hgd)
      · exact hi.client j d g' gd' hd hg' hgd'
  · intro r hr' gd' hgd'
    rw [hlive] at hgd'
    split_ifs at hgd' with hg
    · cases hgd'
      exact ⟨(hi.response r hr' gd (hg ▸ hgd)).1, nofun⟩
    · obtain ⟨hconn, hcli⟩ := hi.response r hr' gd' hgd'
      refine ⟨hconn, fun halive' => ?_⟩
      obtain ⟨d, hd, hg'⟩ := hcli halive'
      refine ⟨d, ?_, hg'⟩
      rw [hr.live_eq, if_neg, hd]
      intro hcli
      rw [hcli, hr.before] at hd
      cases hd
      rw [hguard, Option.some.injEq] at hg'
      exact hg hg'.symm

end GuardInv

/-! ## Connections -/

/-- The live responses to requests of connection `n`. -/
def answers (responses : List ResponseObject) (n : ℕ) : ℕ := responses.countP fun r => r.conn == n

/-- Connections are well formed, have numbers of their own and keep within their budget
of rights to answer. `closer` is the slot whose close callback has begun and not ended. -/
structure ClientsInv (clients : MemPool ClientState) (responses : List ResponseObject)
    (nextConn : ℕ) (rights : List ℕ) (closer : Option ℕ) : Prop where
  wf : clients.WF
  ok : ∀ i c, clients.live i = some c → c.Ok
  conn_lt : ∀ i c, clients.live i = some c → c.conn < nextConn
  response_lt : ∀ r ∈ responses, r.conn < nextConn
  rights_lt : ∀ n ∈ rights, n < nextConn
  inj : ∀ i j c d, clients.live i = some c → clients.live j = some d → c.conn = d.conn → i = j
  budget : ∀ i c, clients.live i = some c →
    c.Budget (answers responses c.conn + rights.count c.conn)
  closer_iff : ∀ i c, clients.live i = some c → c.guard ≠ none →
    (c.closing = true ↔ closer = some i)

namespace ClientsInv
variable {clients clients' : MemPool ClientState} {responses : List ResponseObject}
  {nextConn : ℕ} {rights rights' : List ℕ} {closer closer' : Option ℕ}

theorem onClient {i : ℕ} {c c' : ClientState}
    (hi : ClientsInv clients responses nextConn rights closer)
    (hr : MemPool.Replaces clients clients' i (some c) (some c')) (hwf : clients'.WF)
    (hok : c'.Ok) (hconn : c'.conn = c.conn)
    (hbudget : c'.Budget (answers responses c.conn + rights'.count c.conn))
    (hrights : ∀ n, n ≠ c.conn → rights'.count n ≤ rights.count n)
    (hcloser : c'.guard ≠ none → (c'.closing = true ↔ closer' = some i))
    (hother : ∀ j, j ≠ i → (closer' = some j ↔ closer = some j)) :
    ClientsInv clients' responses nextConn rights' closer' := by
  have hlt := hi.conn_lt i c hr.before
  refine ⟨hwf, ?_, ?_, hi.response_lt, ?_, ?_, ?_, ?_⟩
  · intro j d hd
    rw [hr.live_eq] at hd
    split_ifs at hd
    · cases hd
      exact hok
    · exact hi.ok j d hd
  · intro j d hd
    rw [hr.live_eq] at hd
    split_ifs at hd
    · cases hd
      rw [hconn]
      exact hlt
    · exact hi.conn_lt j d hd
  · intro n hn
    by_cases hnc : n = c.conn
    · rw [hnc]
      exact hlt
    · apply hi.rights_lt
      have hle := hrights n hnc
      have hpos := List.count_pos_iff.mpr hn
      exact List.count_pos_iff.mp (by omega)
  · -- the slot that changed keeps its number
    have hslot : ∀ j d, clients'.live j = some d →
        ∃ e, clients.live j = some e ∧ e.conn = d.conn := by
      intro j d hd
      rw [hr.live_eq] at hd
      split_ifs at hd with hj
      · cases hd
        exact ⟨c, hj ▸ hr.before, hconn.symm⟩
      · exact ⟨d, hd, rfl⟩
    intro j k d e hd he heq
    obtain ⟨d', hd', hdc⟩ := hslot j d hd
    obtain ⟨e', he', hec⟩ := hslot k e he
    exact hi.inj j k d' e' hd' he' (by rw [hdc, hec, heq])
  · intro j d hd
    rw [hr.live_eq] at hd
    split_ifs at hd with hj
    · cases hd
      rw [hconn]
      exact hbudget
    · have hne : d.conn ≠ c.conn := fun heq => hj (hi.inj j i d c hd hr.before heq)
      exact (hi.budget j d hd).mono (Nat.add_le_add_left (hrights _ hne) _)
  · intro j d hd hg
    rw [hr.live_eq] at hd
    split_ifs at hd with hj
    · cases hd
      rw [hj]
      exact hcloser hg
    · rw [hother j hj]
      exact hi.closer_iff j d hd hg

/-- Rights that are not used may be dropped. -/
theorem dropRights (hi : ClientsInv clients responses nextConn (rights' ++ rights) closer) :
    ClientsInv clients responses nextConn rights closer :=
  { hi with
    rights_lt := fun n hn => hi.rights_lt n (List.mem_append_right _ hn)
    budget := fun i c hc => (hi.budget i c hc).mono (by rw [List.count_append]; omega) }

theorem addResponse {r : ResponseObject}
    (hi : ClientsInv clients responses nextConn (r.conn :: rights) closer) :
    ClientsInv clients (responses ++ [r]) nextConn rights closer :=
  { hi with
    rights_lt := fun n hn => hi.rights_lt n (List.mem_cons_of_mem _ hn)
    response_lt := by
      intro r' hr'
      rcases List.mem_append.mp hr' with hold | hnew
      · exact hi.response_lt r' hold
      · obtain rfl := List.mem_singleton.mp hnew
        exact hi.rights_lt _ List.mem_cons_self
    budget := by
      intro i c hc
      apply (hi.budget i c hc).mono
      simp only [answers, List.countP_append, List.countP_singleton, List.count_cons]
      omega }

theorem eraseResponse (hi : ClientsInv clients responses nextConn rights closer) {k : ℕ}
    {r : ResponseObject} (hk : responses[k]? = some r) :
    ClientsInv clients (responses.eraseIdx k) nextConn (r.conn :: rights) closer :=
  { hi with
    rights_lt := by
      intro n hn
      rcases List.mem_cons.mp hn with rfl | hn
      · exact hi.response_lt r (List.mem_of_getElem? hk)
      · exact hi.rights_lt n hn
    response_lt := fun r' hr' => hi.response_lt r' (List.mem_of_mem_eraseIdx hr')
    budget := by
      intro i c hc
      apply (hi.budget i c hc).mono
      have herase := countP_eraseIdx (fun r => r.conn == c.conn) hk
      simp only [answers, List.count_cons]
      omega }

theorem count_eq_zero_of_lt {l : List ℕ} {n : ℕ} (h : ∀ m ∈ l, m < n) : l.count n = 0 :=
  List.count_eq_zero.mpr fun hn => Nat.lt_irrefl n (h n hn)

theorem newClient {i : ℕ} {c : ClientState}
    (hi : ClientsInv clients responses nextConn rights none)
    (hr : MemPool.Replaces clients clients' i none (some c)) (hwf : clients'.WF) (hok : c.Ok)
    (hconn : c.conn = nextConn) (hbudget : c.Budget 0) (hopen : c.closing = false) :
    ClientsInv clients' responses (nextConn + 1) rights none := by
  have hfresh : answers responses nextConn + rights.count nextConn = 0 := by
    have hrights := count_eq_zero_of_lt hi.rights_lt
    have hanswers : answers responses nextConn = 0 := by
      apply List.countP_eq_zero.mpr
      intro r hr' heq
      have hlt := hi.response_lt r hr'
      rw [beq_iff_eq] at heq
      omega
    omega
  refine ⟨hwf, ?_, ?_, ?_, ?_, ?_, ?_, ?_⟩
  · intro j d hd
    rw [hr.live_eq] at hd
    split_ifs at hd
    · cases hd
      exact hok
    · exact hi.ok j d hd
  · intro j d hd
    rw [hr.live_eq] at hd
    split_ifs at hd
    · cases hd
      omega
    · exact Nat.lt_succ_of_lt (hi.conn_lt j d hd)
  · exact fun r hr' => Nat.lt_succ_of_lt (hi.response_lt r hr')
  · exact fun n hn => Nat.lt_succ_of_lt (hi.rights_lt n hn)
  · -- the new number is larger than all others
    intro j k d e hd he heq
    rw [hr.live_eq] at hd he
    split_ifs at hd he with hj hk hk
    · rw [hj, hk]
    · cases hd
      have hlt := hi.conn_lt k e he
      omega
    · cases he
      have hlt := hi.conn_lt j d hd
      omega
    · exact hi.inj j k d e hd he heq
  · intro j d hd
    rw [hr.live_eq] at hd
    split_ifs at hd
    · cases hd
      rw [hconn, hfresh]
      exact hbudget
    · exact hi.budget j d hd
  · intro j d hd hg
    rw [hr.live_eq] at hd
    split_ifs at hd
    · cases hd
      simp [hopen]
    · exact hi.closer_iff j d hd hg

/-- A slot is given back. -/
theorem dropClient {i : ℕ} {old : Option ClientState}
    (hi : ClientsInv clients responses nextConn rights closer)
    (hr : MemPool.Replaces clients clients' i old none) (hwf : clients'.WF) :
    ClientsInv clients' responses nextConn rights closer := by
  have hlive : ∀ j d, clients'.live j = some d → clients.live j = some d := by
    intro j d hd
    rw [hr.live_eq] at hd
    split_ifs at hd
    exact hd
  exact ⟨hwf, fun j d hd => hi.ok j d (hlive j d hd),
    fun j d hd => hi.conn_lt j d (hlive j d hd), hi.response_lt, hi.rights_lt,
    fun j k d e hd he => hi.inj j k d e (hlive j d hd) (hlive k e he),
    fun j d hd => hi.budget j d (hlive j d hd),
    fun j d hd => hi.closer_iff j d (hlive j d hd)⟩

end ClientsInv

/-! ## The history -/

/-- The connection that was accepted into a slot. -/
def Output.acceptedConn : Output → Option ℕ
  | .accepted n => some n
  | _ => none

/-- The connections accepted into a slot whose timer has not been closed. -/
def openConns (hist : List Output) : Finset ℕ :=
  (hist.filterMap Output.acceptedConn).toFinset.filter fun n => .timerClosed n ∉ hist

theorem mem_openConns {hist : List Output} {n : ℕ} :
    n ∈ openConns hist ↔ .accepted n ∈ hist ∧ .timerClosed n ∉ hist := by
  have haccepted : ∀ o, Output.acceptedConn o = some n ↔ o = .accepted n := by
    intro o
    cases o <;> simp [Output.acceptedConn]
  simp [openConns, haccepted]

/-- The client slots in use are those of the open connections. -/
structure OpenInv (clients : MemPool ClientState) (nextConn : ℕ) (hist : List Output) : Prop where
  count : clients.inUseCount = (openConns hist).card
  live : ∀ i c, clients.live i = some c → c.conn ∈ openConns hist
  accepted_lt : ∀ n, .accepted n ∈ hist → n < nextConn
  timerClosed_lt : ∀ n, .timerClosed n ∈ hist → n < nextConn

namespace OpenInv
variable {clients clients' : MemPool ClientState} {nextConn : ℕ} {hist : List Output}

/-- Other outputs do not matter. -/
theorem append (hi : OpenInv clients nextConn hist) {out : List Output}
    (haccepted : ∀ n, .accepted n ∉ out) (htimer : ∀ n, .timerClosed n ∉ out) :
    OpenInv clients nextConn (hist ++ out) := by
  have hsame : openConns (hist ++ out) = openConns hist := by
    ext n
    simp [mem_openConns, haccepted, htimer]
  refine ⟨?_, ?_, ?_, ?_⟩
  · rw [hsame]
    exact hi.count
  · rw [hsame]
    exact hi.live
  · intro n hn
    exact hi.accepted_lt n ((List.mem_append.mp hn).resolve_right (haccepted n))
  · intro n hn
    exact hi.timerClosed_lt n ((List.mem_append.mp hn).resolve_right (htimer n))

theorem closed (hi : OpenInv clients nextConn hist) (n : ℕ) :
    OpenInv clients nextConn (hist ++ [Output.closed n]) :=
  hi.append (by simp) (by simp)

/-- Slots change but not the connections in them. -/
theorem onClients {i : ℕ} {old new : Option ClientState} (hi : OpenInv clients nextConn hist)
    (hr : MemPool.Replaces clients clients' i old new) (hwf : clients.WF) (hwf' : clients'.WF)
    (hconn : new.map ClientState.conn = old.map ClientState.conn) :
    OpenInv clients' nextConn hist := by
  refine ⟨?_, ?_, hi.accepted_lt, hi.timerClosed_lt⟩
  · have hcount := MemPool.inUseCount_of_replaces hwf hwf' hr
    have hold := hi.count
    cases old <;> cases new <;> simp_all
  · intro j d hd
    rw [hr.live_eq] at hd
    split_ifs at hd with hj
    · rw [hd] at hconn
      obtain ⟨c, hc, hcd⟩ := Option.map_eq_some_iff.mp hconn.symm
      rw [← hcd]
      exact hi.live i c (hr.before.trans hc)
    · exact hi.live j d hd

theorem newClient {i : ℕ} {c : ClientState} (hi : OpenInv clients nextConn hist)
    (hr : MemPool.Replaces clients clients' i none (some c)) (hwf : clients.WF)
    (hwf' : clients'.WF) (hconn : c.conn = nextConn) :
    OpenInv clients' (nextConn + 1) (hist ++ [Output.accepted nextConn]) := by
  have hfresh : .timerClosed nextConn ∉ hist :=
    fun h => Nat.lt_irrefl _ (hi.timerClosed_lt _ h)
  have hnotOpen : nextConn ∉ openConns hist :=
    fun h => Nat.lt_irrefl _ (hi.accepted_lt _ (mem_openConns.mp h).1)
  have hopen :
      openConns (hist ++ [Output.accepted nextConn]) = insert nextConn (openConns hist) := by
    ext n
    by_cases hn : n = nextConn
    · simp [mem_openConns, hn, hfresh]
    · simp [mem_openConns, hn]
  refine ⟨?_, ?_, ?_, ?_⟩
  · have hcount := MemPool.inUseCount_of_replaces hwf hwf' hr
    simp only [Option.elim_some, Option.elim_none, Nat.add_zero] at hcount
    rw [hopen, Finset.card_insert_of_notMem hnotOpen, hcount, hi.count]
  · intro j d hd
    rw [hopen, Finset.mem_insert]
    rw [hr.live_eq] at hd
    split_ifs at hd
    · cases hd
      exact .inl hconn
    · exact .inr (hi.live j d hd)
  · intro n hn
    rcases List.mem_append.mp hn with h | h
    · exact Nat.lt_succ_of_lt (hi.accepted_lt n h)
    · cases List.mem_singleton.mp h
      exact Nat.lt_succ_self _
  · intro n hn
    apply Nat.lt_succ_of_lt
    apply hi.timerClosed_lt n
    simpa using hn

theorem dropClient {i : ℕ} {c : ClientState} (hi : OpenInv clients nextConn hist)
    (hr : MemPool.Replaces clients clients' i (some c) none) (hwf : clients.WF)
    (hwf' : clients'.WF)
    (hother : ∀ j d, clients.live j = some d → d.conn = c.conn → j = i) :
    OpenInv clients' nextConn (hist ++ [Output.timerClosed c.conn]) := by
  have hmem := hi.live i c hr.before
  have hopen : openConns (hist ++ [Output.timerClosed c.conn]) = (openConns hist).erase c.conn := by
    ext n
    simp only [mem_openConns, Finset.mem_erase, List.mem_append, List.mem_singleton,
      Output.timerClosed.injEq, reduceCtorEq, or_false, not_or]
    constructor
    · exact fun h => ⟨h.2.2, h.1, h.2.1⟩
    · exact fun h => ⟨h.2.1, h.2.2, h.1⟩
  refine ⟨?_, ?_, ?_, ?_⟩
  · have hcount := MemPool.inUseCount_of_replaces hwf hwf' hr
    simp only [Option.elim_some, Option.elim_none, Nat.add_zero] at hcount
    have hold := hi.count
    rw [hopen, Finset.card_erase_of_mem hmem]
    omega
  · intro j d hd
    rw [hr.live_eq] at hd
    split_ifs at hd with hj
    rw [hopen, Finset.mem_erase]
    exact ⟨fun heq => hj (hother j d hd heq), hi.live j d hd⟩
  · intro n hn
    apply hi.accepted_lt n
    simpa using hn
  · intro n hn
    rcases List.mem_append.mp hn with h | h
    · exact hi.timerClosed_lt n h
    · cases List.mem_singleton.mp h
      exact hi.accepted_lt _ (mem_openConns.mp hmem).1

end OpenInv

/-- Not a step in the life of a connection. -/
def Output.Quiet : Output → Prop
  | .accepted _ | .closed _ | .timerClosed _ => False
  | _ => True

/-- The history tells which connections there are, and a guard is alive as long as its
connection's close callback has not run. -/
structure HistInv (clients : MemPool ClientState) (guards : MemPool ConnGuard) (nextConn : ℕ)
    (hist : List Output) : Prop where
  opened : OpenInv clients nextConn hist
  client : ∀ i c, clients.live i = some c → (c.guard = none ↔ .closed c.conn ∈ hist)
  guard : ∀ g gd, guards.live g = some gd → (gd.alive = false ↔ .closed gd.conn ∈ hist)
  guard_lt : ∀ g gd, guards.live g = some gd → gd.conn < nextConn
  closed_lt : ∀ n, .closed n ∈ hist → n < nextConn

namespace HistInv
variable {clients clients' : MemPool ClientState} {guards guards' : MemPool ConnGuard}
  {nextConn : ℕ} {hist : List Output}

theorem quiet (hi : HistInv clients guards nextConn hist) {out : List Output}
    (hout : ∀ o ∈ out, o.Quiet) : HistInv clients guards nextConn (hist ++ out) := by
  have hmem : ∀ n, .closed n ∈ hist ++ out ↔ .closed n ∈ hist := by
    intro n
    rw [List.mem_append, or_iff_left]
    intro hn
    exact hout _ hn
  refine ⟨hi.opened.append (fun n hn => hout _ hn) (fun n hn => hout _ hn), ?_, ?_, hi.guard_lt, ?_⟩
  · intro i c hc
    rw [hmem]
    exact hi.client i c hc
  · intro g gd hgd
    rw [hmem]
    exact hi.guard g gd hgd
  · intro n hn
    exact hi.closed_lt n ((hmem n).mp hn)

/-- Connections change but keep their numbers and whether they hold a guard. -/
theorem onClient {i : ℕ} {c c' : ClientState} (hi : HistInv clients guards nextConn hist)
    (hr : MemPool.Replaces clients clients' i (some c) (some c')) (hwf : clients.WF)
    (hwf' : clients'.WF) (hconn : c'.conn = c.conn) (hguard : c'.guard = none ↔ c.guard = none) :
    HistInv clients' guards nextConn hist := by
  refine ⟨hi.opened.onClients hr hwf hwf' (congrArg some hconn), ?_, hi.guard, hi.guard_lt,
    hi.closed_lt⟩
  · intro j d hd
    rw [hr.live_eq] at hd
    split_ifs at hd with hj
    · cases hd
      rw [hguard, hconn]
      exact hi.client i c hr.before
    · exact hi.client j d hd

/-- Guards change their count or are freed. -/
theorem onGuards (hi : HistInv clients guards nextConn hist)
    (hg : GuardInv.Survives guards guards') : HistInv clients guards' nextConn hist := by
  refine ⟨hi.opened, hi.client, ?_, ?_, hi.closed_lt⟩
  · intro g gd' hgd'
    obtain ⟨gd, hgd, halive, hconn⟩ := hg g gd' hgd'
    rw [← halive, ← hconn]
    exact hi.guard g gd hgd
  · intro g gd' hgd'
    obtain ⟨gd, hgd, -, hconn⟩ := hg g gd' hgd'
    rw [← hconn]
    exact hi.guard_lt g gd hgd

theorem newClient {i g : ℕ} {c : ClientState} (hi : HistInv clients guards nextConn hist)
    (hr : MemPool.Replaces clients clients' i none (some c)) (hwf : clients.WF)
    (hwf' : clients'.WF) (hconn : c.conn = nextConn) (hguard : c.guard ≠ none)
    (hlive : ∀ j, guards'.live j = if j = g then some ⟨true, 1, nextConn⟩ else guards.live j) :
    HistInv clients' guards' (nextConn + 1) (hist ++ [Output.accepted nextConn]) := by
  have hfresh : .closed nextConn ∉ hist := fun h => Nat.lt_irrefl _ (hi.closed_lt _ h)
  have hmem : ∀ n, .closed n ∈ hist ++ [Output.accepted nextConn] ↔ .closed n ∈ hist := by simp
  refine ⟨hi.opened.newClient hr hwf hwf' hconn, ?_, ?_, ?_, ?_⟩
  · intro j d hd
    rw [hmem]
    rw [hr.live_eq] at hd
    split_ifs at hd
    · cases hd
      rw [hconn]
      exact iff_of_false hguard hfresh
    · exact hi.client j d hd
  · intro j gd hgd
    rw [hmem]
    rw [hlive] at hgd
    split_ifs at hgd
    · cases hgd
      exact iff_of_false nofun hfresh
    · exact hi.guard j gd hgd
  · intro j gd hgd
    rw [hlive] at hgd
    split_ifs at hgd
    · cases hgd
      exact Nat.lt_succ_self _
    · exact Nat.lt_succ_of_lt (hi.guard_lt j gd hgd)
  · intro n hn
    exact Nat.lt_succ_of_lt (hi.closed_lt n ((hmem n).mp hn))

/-- A slot that was acquired is given back before it became a connection. -/
theorem rejectClient {i : ℕ} (hi : HistInv clients guards nextConn hist)
    (hr : MemPool.Replaces clients clients' i none none) (hwf : clients.WF) (hwf' : clients'.WF) :
    HistInv clients' guards nextConn hist := by
  refine ⟨hi.opened.onClients hr hwf hwf' rfl, ?_, hi.guard, hi.guard_lt, hi.closed_lt⟩
  · intro j d hd
    rw [hr.live_eq] at hd
    split_ifs at hd
    exact hi.client j d hd

theorem dropClient {i : ℕ} {c : ClientState} (hi : HistInv clients guards nextConn hist)
    (hr : MemPool.Replaces clients clients' i (some c) none) (hwf : clients.WF)
    (hwf' : clients'.WF)
    (hother : ∀ j d, clients.live j = some d → d.conn = c.conn → j = i) :
    HistInv clients' guards nextConn (hist ++ [Output.timerClosed c.conn]) := by
  have hmem : ∀ n, .closed n ∈ hist ++ [Output.timerClosed c.conn] ↔ .closed n ∈ hist := by simp
  refine ⟨hi.opened.dropClient hr hwf hwf' hother, ?_, ?_, hi.guard_lt, ?_⟩
  · intro j d hd
    rw [hmem]
    rw [hr.live_eq] at hd
    split_ifs at hd
    exact hi.client j d hd
  · intro j gd hgd
    rw [hmem]
    exact hi.guard j gd hgd
  · intro n hn
    exact hi.closed_lt n ((hmem n).mp hn)

/-- The end of the close callback: no other connection and no other guard that is
alive has the number. -/
theorem detach {i g : ℕ} {c c' : ClientState} (hi : HistInv clients guards nextConn hist)
    (hr : MemPool.Replaces clients clients' i (some c) (some c')) (hwf : clients.WF)
    (hwf' : clients'.WF) (hconn : c'.conn = c.conn) (hguard' : c'.guard = none)
    (hlt : c.conn < nextConn)
    (hclients : ∀ j d, clients.live j = some d → d.conn = c.conn → j = i)
    (hguards : ∀ j gd, guards.live j = some gd → gd.conn = c.conn → gd.alive = true → j = g)
    (hlive : ∀ j gd', (ConnGuard.invalidate guards g).live j = some gd' →
      ∃ gd, guards.live j = some gd ∧ gd'.conn = gd.conn ∧
        gd'.alive = if j = g then false else gd.alive)
    (hg : ∀ gd, guards.live g = some gd → gd.conn = c.conn) :
    HistInv clients' (ConnGuard.invalidate guards g) nextConn (hist ++ [Output.closed c.conn]) := by
  have hmem : ∀ n, .closed n ∈ hist ++ [Output.closed c.conn] ↔ .closed n ∈ hist ∨ n = c.conn := by
    simp
  have hopened := hi.opened.closed c.conn
  refine ⟨hopened.onClients hr hwf hwf' (congrArg some hconn), ?_, ?_, ?_, ?_⟩
  · intro j d hd
    rw [hmem]
    rw [hr.live_eq] at hd
    split_ifs at hd with hj
    · cases hd
      exact iff_of_true hguard' (.inr hconn)
    · rw [hi.client j d hd, or_iff_left]
      exact fun heq => hj (hclients j d hd heq)
  · intro j gd' hgd'
    obtain ⟨gd, hgd, hconn', halive⟩ := hlive j gd' hgd'
    rw [hmem, halive, hconn']
    split_ifs with hj
    · rw [hj] at hgd
      exact iff_of_true rfl (.inr (hg gd hgd))
    · rw [hi.guard j gd hgd]
      constructor
      · exact .inl
      · rintro (h | heq)
        · exact h
        · by_contra hnot
          rw [← hi.guard j gd hgd, Bool.not_eq_false] at hnot
          exact hj (hguards j gd hgd heq hnot)
  · intro j gd' hgd'
    obtain ⟨gd, hgd, hconn', -⟩ := hlive j gd' hgd'
    rw [hconn']
    exact hi.guard_lt j gd hgd
  · intro n hn
    rcases (hmem n).mp hn with h | rfl
    · exact hi.closed_lt n h
    · exact hlt

end HistInv
end CapyJs.Server
