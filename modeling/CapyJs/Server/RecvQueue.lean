import CapyJs.Server.RecvChain

/-!
# The receive chains of all connections

A slot of the read-buffer pool that is in use is held for a read or stands in one chain, so an
operation on one chain leaves the others alone. From that each chain is the queue of what its
connection has received, in every state that a server reaches.
-/
namespace CapyJs.Server.RecvChain
open Transition Pool

/-! ## All chains -/

/-- A buffer in use is held for a read or stands in the chain of one connection. -/
structure Inv (s : State) (chains : ℕ → List Server.ReadBuffer) : Prop where
  wf : s.pool.WF
  heldNodup : s.held.Nodup
  fresh : ∀ b ∈ s.held, s.pool.live b = some MemSet.zeroed
  queue : ∀ c, Queue s.pool (s.clients c) (chains c)
  unheld : ∀ c, ∀ b ∈ (chains c).map Server.ReadBuffer.slot, b ∉ s.held
  apart : ∀ c c' b, b ∈ (chains c).map Server.ReadBuffer.slot →
    b ∈ (chains c').map Server.ReadBuffer.slot → c = c'

namespace Inv
variable {s : State} {chains : ℕ → List Server.ReadBuffer}

/-- One chain is replaced by another, of buffers that were its own or were held. -/
theorem update (inv : Inv s chains) {pool' : MemPool ReadBuffer} {held' : List ℕ} {c : ℕ}
    {client' : Client} {recv' : List Server.ReadBuffer} (hwf : pool'.WF)
    (hheld : held'.Sublist s.held) (hfresh : ∀ b ∈ held', pool'.live b = s.pool.live b)
    (hothers : ∀ c', c' ≠ c → ∀ b ∈ (chains c').map Server.ReadBuffer.slot,
      pool'.live b = s.pool.live b)
    (hqueue : Queue pool' client' recv')
    (hfrom : ∀ b ∈ recv'.map Server.ReadBuffer.slot, b ∉ held' ∧
      (b ∈ (chains c).map Server.ReadBuffer.slot ∨ b ∈ s.held)) :
    Inv ⟨pool', held', Function.update s.clients c client'⟩ (Function.update chains c recv') where
  wf := hwf
  heldNodup := inv.heldNodup.sublist hheld
  fresh b hb := (hfresh b hb).trans (inv.fresh b (hheld.subset hb))
  queue c' := by
    by_cases hc : c' = c
    · subst hc
      simpa using hqueue
    · simpa [hc] using (inv.queue c').congr (hothers c' hc)
  unheld c' b hb := by
    by_cases hc : c' = c
    · subst hc
      rw [Function.update_self] at hb
      exact (hfrom b hb).1
    · rw [Function.update_of_ne hc] at hb
      exact fun h => inv.unheld c' b hb (hheld.subset h)
  apart := by
    -- the new chain's buffers were in no other chain
    have hnew : ∀ c', c' ≠ c → ∀ b ∈ recv'.map Server.ReadBuffer.slot,
        b ∉ (chains c').map Server.ReadBuffer.slot := by
      intro c' hc b hb hb'
      rcases (hfrom b hb).2 with hold | hheld
      · exact hc (inv.apart c' c b hb' hold)
      · exact inv.unheld c' b hb' hheld
    intro c₁ c₂ b h₁ h₂
    by_cases hc₁ : c₁ = c <;> by_cases hc₂ : c₂ = c
    · rw [hc₁, hc₂]
    · rw [hc₁, Function.update_self] at h₁
      rw [Function.update_of_ne hc₂] at h₂
      exact absurd h₂ (hnew c₂ hc₂ b h₁)
    · rw [hc₂, Function.update_self] at h₂
      rw [Function.update_of_ne hc₁] at h₁
      exact absurd h₁ (hnew c₁ hc₁ b h₂)
    · rw [Function.update_of_ne hc₁] at h₁
      rw [Function.update_of_ne hc₂] at h₂
      exact inv.apart c₁ c₂ b h₁ h₂

/-- The chains stay when no buffer of theirs is written or held. -/
theorem frame (inv : Inv s chains) {pool' : MemPool ReadBuffer} {held' : List ℕ} (hwf : pool'.WF)
    (hnodup : held'.Nodup) (hfresh : ∀ b ∈ held', pool'.live b = some MemSet.zeroed)
    (hchains : ∀ c, ∀ b ∈ (chains c).map Server.ReadBuffer.slot,
      pool'.live b = s.pool.live b ∧ b ∉ held') :
    Inv { s with pool := pool', held := held' } chains where
  wf := hwf
  heldNodup := hnodup
  fresh := hfresh
  queue c := (inv.queue c).congr fun b hb => (hchains c b hb).1
  unheld c b hb := (hchains c b hb).2
  apart := inv.apart

theorem acquire (inv : Inv s chains) {b : ℕ} {pool' : MemPool ReadBuffer}
    (h : s.pool.acquire = some (some b, pool')) :
    Inv { s with pool := pool', held := b :: s.held } chains ∧
      pool'.capacity = s.pool.capacity := by
  obtain ⟨hr, hwf, -⟩ := MemPool.acquire_spec inv.wf h
  have hunused : b ∉ s.held := by
    intro hb
    have hlive := inv.fresh b hb
    simp [hr.before] at hlive
  refine ⟨inv.frame hwf (List.nodup_cons.mpr ⟨hunused, inv.heldNodup⟩) ?_ ?_, hr.capacity_eq⟩
  · intro i hi
    rw [hr.live_eq]
    by_cases hib : i = b
    · rw [if_pos hib]
    · rw [if_neg hib]
      exact inv.fresh i ((List.mem_cons.mp hi).resolve_left hib)
  · intro c i hi
    have hne : i ≠ b := by
      rintro rfl
      obtain ⟨x, hx⟩ := (inv.queue c).live_of_mem hi
      simp [hr.before] at hx
    refine ⟨by rw [hr.live_eq, if_neg hne], fun hmem => ?_⟩
    exact inv.unheld c i hi ((List.mem_cons.mp hmem).resolve_left hne)

theorem discard (inv : Inv s chains) {b : ℕ} {pool' : MemPool ReadBuffer} (hb : b ∈ s.held)
    (h : s.pool.release b = some pool') :
    Inv { s with pool := pool', held := s.held.erase b } chains ∧
      pool'.capacity = s.pool.capacity := by
  obtain ⟨pool₁, hrelease, hr, hwf⟩ := MemPool.release_spec inv.wf (inv.fresh b hb)
  obtain rfl : pool₁ = pool' := Option.some.inj (hrelease.symm.trans h)
  refine ⟨inv.frame hwf (inv.heldNodup.erase b) ?_ ?_, hr.capacity_eq⟩
  · intro i hi
    obtain ⟨hne, hi⟩ := inv.heldNodup.mem_erase_iff.mp hi
    rw [hr.live_eq, if_neg hne]
    exact inv.fresh i hi
  · intro c i hi
    have hne : i ≠ b := fun h => inv.unheld c i hi (h ▸ hb)
    refine ⟨by rw [hr.live_eq, if_neg hne], fun hmem => ?_⟩
    exact inv.unheld c i hi (List.mem_of_mem_erase hmem)

/-- After a read the buffer holds the bytes, and leads nowhere yet. -/
theorem fill_spec (inv : Inv s chains) {b : ℕ} (hb : b ∈ s.held) {bytes : Text}
    (hsmall : bytes.length ≤ readBufferSize) :
    (s.fill b bytes).WF ∧ (s.fill b bytes).capacity = s.pool.capacity ∧
      Filled (s.fill b bytes) ⟨b, bytes⟩ ∧ next (s.fill b bytes) b = some none ∧
      ∀ i, i ≠ b → (s.fill b bytes).live i = s.pool.live i := by
  obtain ⟨hr, hwf⟩ := MemPool.modify_spec inv.wf (inv.fresh b hb) fun rb =>
    { rb with readBuffer := bytes ++ rb.readBuffer.drop bytes.length, len := bytes.length.toUInt64 }
  have hlen : bytes.length.toUInt64.toNat = bytes.length := by
    have hfits : bytes.length < UInt64.size := Nat.lt_of_le_of_lt hsmall (by decide)
    rw [Nat.toUInt64_eq, UInt64.toNat_ofNat_of_lt' hfits]
  have hlive := (hr.live_eq b).trans (if_pos rfl)
  refine ⟨hwf, hr.capacity_eq, ⟨_, hlive, hlen, List.take_left⟩, ?_, fun i hi => ?_⟩
  · rw [next, State.fill, hlive]
    rfl
  · rw [State.fill, hr.live_eq, if_neg hi]

theorem receive (inv : Inv s chains) (c : ℕ) {b : ℕ} (hb : b ∈ s.held) {bytes : Text}
    (hsmall : bytes.length ≤ readBufferSize) : ∃ pool' client',
      recvNewBuffer (s.fill b bytes) (s.clients c) (some b) = some (pool', client') ∧
        pool'.capacity = s.pool.capacity ∧
        Inv ⟨pool', s.held.erase b, Function.update s.clients c client'⟩
          (Function.update chains c (chains c ++ [⟨b, bytes⟩])) := by
  obtain ⟨hwf, hcap, hfilled, hnull, hother⟩ := inv.fill_spec hb hsmall
  have hchain : ∀ c', ∀ i ∈ (chains c').map Server.ReadBuffer.slot, i ≠ b :=
    fun c' i hi h => inv.unheld c' i hi (h ▸ hb)
  have hqueue : Queue (s.fill b bytes) (s.clients c) (chains c) :=
    (inv.queue c).congr fun i hi => hother i (hchain c i hi)
  obtain ⟨pool', client', hrecv, hqueue', hwf', hcap', hkept⟩ :=
    hqueue.recvNewBuffer_spec hwf hfilled hnull hsmall fun h => hchain c b h rfl
  have hlive : ∀ i, i ≠ b → i ∉ (chains c).map Server.ReadBuffer.slot →
      pool'.live i = s.pool.live i := fun i hne hi => (hkept i hi).trans (hother i hne)
  refine ⟨pool', client', hrecv, hcap'.trans hcap,
    inv.update hwf' List.erase_sublist ?_ ?_ hqueue' ?_⟩
  · intro i hi
    obtain ⟨hne, hi⟩ := inv.heldNodup.mem_erase_iff.mp hi
    exact hlive i hne fun h => inv.unheld c i h hi
  · intro c' hc i hi
    exact hlive i (hchain c' i hi) fun h => hc (inv.apart c' c i hi h)
  · intro i hi
    rw [List.map_append, List.mem_append, List.map_singleton, List.mem_singleton] at hi
    rcases hi with hi | rfl
    · exact ⟨fun h => inv.unheld c i hi (List.mem_of_mem_erase h), .inl hi⟩
    · exact ⟨inv.heldNodup.not_mem_erase, .inr hb⟩

theorem exists_step_receive (inv : Inv s chains) (c : ℕ) {b : ℕ} (hb : b ∈ s.held) {bytes : Text}
    (hdata : 1 ≤ bytes.length) (hsmall : bytes.length ≤ readBufferSize) :
    ∃ s', s.step (.receive c b bytes) = some (s', [.received c b bytes]) := by
  obtain ⟨pool', client', hrecv, -⟩ := inv.receive c hb hsmall
  rw [State.step, if_pos ⟨hb, hdata, hsmall⟩, hrecv]
  exact ⟨_, rfl⟩

theorem clear (inv : Inv s chains) (c : ℕ) {fuel : ℕ} (hfuel : (s.clients c).recvCount ≤ fuel) :
    ∃ pool', clearBuffer fuel s.pool (s.clients c) = some (pool', ⟨none, none, 0, 0⟩,
        releases ((chains c).map Server.ReadBuffer.slot)) ∧
      pool'.capacity = s.pool.capacity ∧
      (∀ b, pool'.live b =
        if b ∈ (chains c).map Server.ReadBuffer.slot then none else s.pool.live b) ∧
      Inv { s with pool := pool', clients := Function.update s.clients c ⟨none, none, 0, 0⟩ }
        (Function.update chains c []) := by
  obtain ⟨pool', hclear, hwf, hcap, hlive⟩ := (inv.queue c).clearBuffer_eq inv.wf hfuel
  refine ⟨pool', hclear, hcap, hlive,
    inv.update hwf (List.Sublist.refl _) ?_ ?_ (queue_empty pool') (by simp)⟩
  · intro i hi
    rw [hlive, if_neg fun h => inv.unheld c i h hi]
  · intro c' hc i hi
    rw [hlive, if_neg fun h => hc (inv.apart c' c i hi h)]

end Inv

/-! ## Whole runs -/

/-- What the list model of a connection makes of the events. -/
def view (c : ℕ) (hist : List Output) : ClientState :=
  hist.foldl (fun client o =>
    match o with
    | .received c' buff bytes => if c' = c then client.recvNewBuffer ⟨buff, bytes⟩ else client
    | .cleared c' _ => if c' = c then client.clearBuffer else client) MemSet.zeroed

def chainsOf (hist : List Output) (c : ℕ) : List Server.ReadBuffer := (view c hist).recv

theorem chainsOf_received (hist : List Output) (c b : ℕ) (bytes : Text) :
    chainsOf (hist ++ [Output.received c b bytes]) =
      Function.update (chainsOf hist) c (chainsOf hist c ++ [⟨b, bytes⟩]) := by
  funext c'
  by_cases hc : c = c'
  · subst hc
    simp [chainsOf, view, ClientState.recvNewBuffer]
  · simp [chainsOf, view, hc, Function.update_of_ne (Ne.symm hc)]

theorem chainsOf_cleared (hist : List Output) (c : ℕ) (log : List Access) :
    chainsOf (hist ++ [Output.cleared c log]) = Function.update (chainsOf hist) c [] := by
  funext c'
  by_cases hc : c = c'
  · subst hc
    simp [chainsOf, view, ClientState.clearBuffer]
  · simp [chainsOf, view, hc, Function.update_of_ne (Ne.symm hc)]

theorem map_bytes_chainsOf (hist : List Output) (c : ℕ) :
    (chainsOf hist c).map Server.ReadBuffer.bytes = arrived c hist := by
  induction hist using List.reverseRecOn with
  | nil => rfl
  | append_singleton hist o ih =>
    cases o with
    | received c' b bytes =>
      rw [chainsOf_received]
      by_cases hc : c' = c
      · subst hc
        simp [ih, arrived]
      · simp [ih, arrived, hc, Function.update_of_ne (Ne.symm hc)]
    | cleared c' log =>
      rw [chainsOf_cleared]
      by_cases hc : c' = c
      · subst hc
        simp [arrived]
      · simp [ih, arrived, hc, Function.update_of_ne (Ne.symm hc)]

theorem Inv.step {s s' : State} {hist out : List Output} {a : Label} (inv : Inv s (chainsOf hist))
    (h : s.step a = some (s', out)) :
    Inv s' (chainsOf (hist ++ out)) ∧ s'.pool.capacity = s.pool.capacity := by
  cases a with
  | acquire =>
    simp only [State.step] at h
    split at h
    · cases h
    · next pool' hacquire =>
      cases h
      obtain ⟨rfl, -⟩ := MemPool.eq_of_acquire_none hacquire
      rw [List.append_nil]
      exact ⟨inv, rfl⟩
    · next b pool' hacquire =>
      cases h
      rw [List.append_nil]
      exact inv.acquire hacquire
  | discard b =>
    simp only [State.step] at h
    split at h
    · next hb =>
      obtain ⟨pool', hrelease, hs⟩ := Option.map_eq_some_iff.mp h
      cases hs
      rw [List.append_nil]
      exact inv.discard hb hrelease
    · cases h
  | receive c b bytes =>
    simp only [State.step] at h
    split at h
    · next hguard =>
      obtain ⟨hb, -, hsmall⟩ := hguard
      obtain ⟨pool', client', hrecv, hcap, inv'⟩ := inv.receive c hb hsmall
      rw [hrecv] at h
      cases h
      rw [chainsOf_received]
      exact ⟨inv', hcap⟩
    · cases h
  | clear c =>
    obtain ⟨pool', hclear, hcap, -, inv'⟩ := inv.clear c ((inv.queue c).recvCount_le inv.wf)
    rw [State.step, hclear] at h
    cases h
    rw [chainsOf_cleared]
    exact ⟨inv', hcap⟩

theorem reaches_inv {junk : ℕ → ReadBuffer} {capacity : ℕ} {s : State} {hist : List Output}
    (run : (receiver junk capacity).Reaches s hist) :
    Inv s (chainsOf hist) ∧ s.pool.capacity = capacity := by
  refine run.invariant (I := fun hist s => Inv s (chainsOf hist) ∧ s.pool.capacity = capacity)
    ?_ ?_
  · rintro s ⟨hpool, hheld, hclients⟩
    have hcap : s.pool.capacity = capacity := by
      rw [MemPool.new_eq] at hpool
      split_ifs at hpool
      rw [← Option.some.inj hpool]
    refine ⟨⟨MemPool.new_wf hpool, ?_, ?_, ?_, ?_, ?_⟩, hcap⟩
    · simp [hheld]
    · simp [hheld]
    · intro c
      rw [hclients c]
      exact queue_empty s.pool
    · simp [hheld]
    · intro c c' b hb
      cases hb
  · rintro hist s a s' out ⟨inv, hcap⟩ hstep
    obtain ⟨inv', hcap'⟩ := inv.step hstep
    exact ⟨inv', hcap'.trans hcap⟩

section Run
variable {junk : ℕ → ReadBuffer} {capacity : ℕ} {s : State} {hist : List Output}

theorem Inv.byteQueue (inv : Inv s (chainsOf hist)) (c : ℕ) :
    ByteQueue s c (arrived c hist) ((chainsOf hist c).map Server.ReadBuffer.slot) where
  linked := (inv.queue c).linked
  distinct := (inv.queue c).nodup
  count := by rw [List.length_map, (inv.queue c).count]
  tail := (inv.queue c).tail.symm
  flatten := by
    intro fuel hfuel buff hroom
    rw [← map_bytes_chainsOf] at hroom ⊢
    exact (inv.queue c).flattenBuffer_eq hfuel hroom
  clear := by
    intro fuel hfuel
    obtain ⟨pool', hclear, -, hlive, -⟩ := inv.clear c hfuel
    refine ⟨pool', _, _, hclear, rfl, count_release_releases (inv.queue c).nodup, ?_, hlive⟩
    intro before b after hlog
    exact readNext_notMem_after (inv.queue c).nodup hlog
  receives := by
    intro b hb bytes hpos hsmall
    obtain ⟨s', hstep⟩ := inv.exists_step_receive c hb hpos hsmall
    rw [hstep, Option.isSome_some]

theorem Inv.lenExact (inv : Inv s (chainsOf hist)) (c : ℕ)
    (hcap : s.pool.capacity * readBufferSize ≤ intMax) :
    LenExact s c (arrived c hist) ((chainsOf hist c).map Server.ReadBuffer.slot) := by
  have hlen := (inv.queue c).toInt_recvLen inv.wf hcap
  constructor
  · rw [hlen, map_lenOf (inv.queue c).filled, List.length_flatten]
  · rw [hlen, map_bytes_chainsOf]

/-- Along every run each connection's chain is the queue of the bytes that have arrived for it,
and with up to the default number of connections their number does not overflow. -/
theorem recvChain_byteQueue (run : (receiver junk capacity).Reaches s hist) (c : ℕ) :
    ∃ buffs, ByteQueue s c (arrived c hist) buffs ∧
      (capacity ≤ defaultMaxConnections * defaultReadBufferHeadroom →
        LenExact s c (arrived c hist) buffs) := by
  obtain ⟨inv, rfl⟩ := reaches_inv run
  refine ⟨_, inv.byteQueue c, fun hcap => inv.lenExact c ?_⟩
  calc s.pool.capacity * readBufferSize
      ≤ defaultMaxConnections * defaultReadBufferHeadroom * readBufferSize :=
        Nat.mul_le_mul_right _ hcap
    _ ≤ intMax := by decide

/-- A pool of two read buffers. -/
def twoBuffers : State where
  pool := ⟨[⟨MemSet.zeroed, 1, false⟩, ⟨MemSet.zeroed, sizeMax, false⟩], 0, 2, 0⟩
  held := []
  clients _ := ⟨none, none, 0, 0⟩

/-- `GET` arrives in two buffers and is cleared, and `PUT` arrives in the same buffers. -/
def reuseBuffers : List Label :=
  [.acquire, .receive 0 0 [71, 69], .acquire, .receive 0 1 [84], .clear 0,
    .acquire, .receive 0 1 [80], .acquire, .receive 0 0 [85, 84]]

def buffersReused : State × List Output :=
  ((receiver (fun _ => MemSet.zeroed) 2).exec twoBuffers reuseBuffers).get rfl

theorem buffersReused_reachable :
    (receiver (fun _ => MemSet.zeroed) 2).Reaches buffersReused.1 buffersReused.2 :=
  Machine.reaches_exec reuseBuffers (s := twoBuffers) ⟨rfl, rfl, fun _ => rfl⟩
    (Option.some_get rfl).symm

/-- The two buffers stand in the second chain the other way round. -/
theorem recvChain_byteQueue_buffersReused : ∃ buffs,
    buffersReused.2 = [.received 0 0 [71, 69], .received 0 1 [84],
      .cleared 0 [.readNext 0, .release 0, .readNext 1, .release 1],
      .received 0 1 [80], .received 0 0 [85, 84]] ∧
      buffersReused.1.clients 0 = ⟨some 1, some 0, 2, 3⟩ ∧
      ByteQueue buffersReused.1 0 [[80], [85, 84]] buffs ∧
      LenExact buffersReused.1 0 [[80], [85, 84]] buffs := by
  obtain ⟨buffs, hqueue, hlen⟩ := recvChain_byteQueue buffersReused_reachable 0
  exact ⟨buffs, rfl, rfl, hqueue, hlen (by decide)⟩

/-! ## The list model -/

theorem recvOk_view (c : ℕ) (hist : List Output) : (view c hist).RecvOk := by
  induction hist using List.reverseRecOn with
  | nil => exact ⟨rfl, rfl⟩
  | append_singleton hist o ih =>
    simp only [view, List.foldl_append, List.foldl_cons, List.foldl_nil] at ih ⊢
    cases o with
    | received c' b bytes =>
      by_cases hc : c' = c
      · simpa [hc] using ih.recvNewBuffer ⟨b, bytes⟩
      · simpa [hc] using ih
    | cleared c' log =>
      by_cases hc : c' = c
      · simpa [hc] using ClientState.recvOk_clearBuffer _
      · simpa [hc] using ih

/-- The connection of the other modules, with a list of buffers for its chain, is what the
pointers and counters in memory stand for. -/
theorem refines_view (run : (receiver junk capacity).Reaches s hist) (c : ℕ) :
    Linked (next s.pool) (s.clients c).recvHead
        ((view c hist).recv.map Server.ReadBuffer.slot) ∧
      (s.clients c).recvCount = (view c hist).recvCount ∧
      (s.clients c).recvLen = Int32.ofNat (view c hist).recvLen ∧
      ∀ buff : Text, buff.length = (view c hist).recvLen →
        flattenBuffer capacity s.pool (s.clients c) buff = some (view c hist).flattenBuffer := by
  obtain ⟨inv, rfl⟩ := reaches_inv run
  have hok := recvOk_view c hist
  have hcount : (s.clients c).recvCount = (view c hist).recvCount :=
    (inv.queue c).count.trans hok.count_eq.symm
  refine ⟨(inv.queue c).linked, hcount, ?_, fun buff hbuff => ?_⟩
  · rw [hok.len_eq]
    exact (inv.queue c).len
  · rw [hok.len_eq] at hbuff
    have hflat := (inv.queue c).flattenBuffer_eq ((inv.queue c).recvCount_le inv.wf) hbuff.ge
    have hbytes : ((chainsOf hist c).map Server.ReadBuffer.bytes).flatten =
        (view c hist).flattenBuffer := rfl
    rw [hflat, hbytes, List.drop_eq_nil_of_le hbuff.le, List.append_nil]

end Run

end CapyJs.Server.RecvChain
