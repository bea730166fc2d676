import CapyJs.Server.ClientState
import CapyJs.Transition.Machine
import Mathlib.Data.List.Nodup

/-!
# The receive chain in memory

What a connection has received is a list of read buffers, linked by pointers that `acquire` sets
to null and `release` overwrites, with its first and last buffer, its number of buffers and its
number of bytes kept beside it. The buffers are those of one pool for all connections. Lists of
buffers stand for the chains elsewhere; here is why they may.
-/
namespace CapyJs.Server.RecvChain
open Transition Pool

/-! ## The source -/

/-- `struct ReadBuffer`, with the number of a slot as pointer. -/
structure ReadBuffer where
  readBuffer : Text
  len : UInt64
  next : Option ℕ
  deriving DecidableEq, Repr

instance : MemSet ReadBuffer where
  zeroed := ⟨List.replicate readBufferSize 0, 0, none⟩
  poisoned := ⟨List.replicate readBufferSize 0xAD, 0xADADADADADADADAD, some 0xADADADADADADADAD⟩

/-- The chain's fields of `ClientState`. -/
structure Client where
  recvHead : Option ℕ
  recvTail : Option ℕ
  recvCount : ℕ
  recvLen : Int32
  deriving DecidableEq, Repr

/-- `recv_len += len`, which adds two `size_t` and keeps 32 bits of the sum. -/
def addLen (recvLen : Int32) (len : UInt64) : Int32 :=
  (recvLen.toInt64.toUInt64 + len).toUInt32.toInt32

def recvNewBuffer (pool : MemPool ReadBuffer) (client : Client) :
    Option ℕ → Option (MemPool ReadBuffer × Client)
  | none => some (pool, client)
  | some buff =>
    match pool.deref buff with
    | none => none
    | some rb =>
      let recvLen := addLen client.recvLen rb.len
      match client.recvHead, client.recvTail with
      | none, _ => some (pool, ⟨some buff, some buff, client.recvCount + 1, recvLen⟩)
      | some _, none => none
      | some _, some tail =>
        match pool.deref tail with
        | none => none
        | some _ =>
          some (pool.modify tail fun rb => { rb with next := some buff },
            ⟨client.recvHead, some buff, client.recvCount + 1, recvLen⟩)

/-- What `clear_buffer` does with the buffers of the chain. -/
inductive Access
  | readNext (buff : ℕ)
  | release (buff : ℕ)
  deriving DecidableEq, Repr

/-- The loop of `clear_buffer`, for at most `fuel` rounds. -/
def clearLoop (fuel : ℕ) (pool : MemPool ReadBuffer) (client : Client) :
    Option (MemPool ReadBuffer × Client × List Access) :=
  match client.recvHead, fuel with
  | none, _ => some (pool, client, [])
  | some _, 0 => none
  | some currHead, fuel + 1 =>
    match pool.deref currHead with
    | none => none
    | some rb =>
      match pool.release currHead with
      | none => none
      | some pool' =>
        (clearLoop fuel pool'
          { client with recvHead := rb.next, recvCount := client.recvCount - 1 }).map fun r =>
            (r.1, r.2.1, [Access.readNext currHead, Access.release currHead] ++ r.2.2)

def clearBuffer (fuel : ℕ) (pool : MemPool ReadBuffer) (client : Client) :
    Option (MemPool ReadBuffer × Client × List Access) :=
  (clearLoop fuel pool client).map fun r =>
    (r.1, { r.2.1 with recvCount := 0, recvLen := 0, recvHead := none, recvTail := none }, r.2.2)

/-- `memcpy(dest + offset, src, n)`, within the bounds of both. -/
def memcpy (dest : Text) (offset : ℕ) (src : Text) (n : ℕ) : Option Text :=
  if n ≤ src.length ∧ offset + n ≤ dest.length then
    some (dest.take offset ++ src.take n ++ dest.drop (offset + n))
  else none

/-- The loop of `flatten_buffer`, for at most `fuel` rounds. -/
def flattenLoop (pool : MemPool ReadBuffer) : ℕ → Option ℕ → ℕ → Text → Option Text
  | _, none, _, buff => some buff
  | 0, some _, _, _ => none
  | fuel + 1, some wh, offset, buff =>
    match pool.deref wh with
    | none => none
    | some rb =>
      match memcpy buff offset rb.readBuffer rb.len.toNat with
      | none => none
      | some buff' => flattenLoop pool fuel rb.next (offset + rb.len.toNat) buff'

def flattenBuffer (fuel : ℕ) (pool : MemPool ReadBuffer) (client : Client) (buff : Text) :
    Option Text := flattenLoop pool fuel client.recvHead 0 buff

/-! ## Connections that share the pool -/

/-- `held` are the buffers that were acquired for a read. -/
structure State where
  pool : MemPool ReadBuffer
  held : List ℕ
  clients : ℕ → Client

inductive Label
  /-- `on_alloc_buffer_cb` -/
  | acquire
  /-- `on_read_cb` without data -/
  | discard (buff : ℕ)
  /-- `on_read_cb` with data that was read into a buffer -/
  | receive (c buff : ℕ) (bytes : Text)
  | clear (c : ℕ)

inductive Output
  | received (c buff : ℕ) (bytes : Text)
  | cleared (c : ℕ) (log : List Access)

namespace State

/-- The bytes are read into the buffer, and their number is put down. -/
def fill (s : State) (buff : ℕ) (bytes : Text) : MemPool ReadBuffer :=
  s.pool.modify buff fun rb =>
    { rb with readBuffer := bytes ++ rb.readBuffer.drop bytes.length, len := bytes.length.toUInt64 }

def step (s : State) : Label → Option (State × List Output)
  | .acquire =>
    match s.pool.acquire with
    | none => none
    | some (none, pool) => some ({ s with pool }, [])
    | some (some buff, pool) => some ({ s with pool, held := buff :: s.held }, [])
  | .discard buff =>
    if buff ∈ s.held then
      (s.pool.release buff).map fun pool => ({ s with pool, held := s.held.erase buff }, [])
    else none
  | .receive c buff bytes =>
    if buff ∈ s.held ∧ 1 ≤ bytes.length ∧ bytes.length ≤ readBufferSize then
      (recvNewBuffer (s.fill buff bytes) (s.clients c) (some buff)).map fun r =>
        ({ pool := r.1, held := s.held.erase buff, clients := Function.update s.clients c r.2 },
          [.received c buff bytes])
    else none
  | .clear c =>
    (clearBuffer s.pool.capacity s.pool (s.clients c)).map fun r =>
      ({ s with pool := r.1, clients := Function.update s.clients c r.2.1 }, [.cleared c r.2.2])

end State

/-- A server with a read-buffer pool of a capacity. -/
def receiver (junk : ℕ → ReadBuffer) (capacity : ℕ) : Machine State Label Output where
  init s := MemPool.new junk capacity = some s.pool ∧ s.held = [] ∧
    ∀ c, s.clients c = ⟨none, none, 0, 0⟩
  step := State.step

/-! ## What is asked of a chain -/

/-- What a connection has received since its chain was last cleared. -/
def arrived (c : ℕ) (hist : List Output) : List Text :=
  hist.foldl (fun texts o =>
    match o with
    | .received c' _ bytes => if c' = c then texts ++ [bytes] else texts
    | .cleared c' _ => if c' = c then [] else texts) []

def next (pool : MemPool ReadBuffer) (buff : ℕ) : Option (Option ℕ) :=
  (pool.live buff).map ReadBuffer.next

def lenOf (pool : MemPool ReadBuffer) (buff : ℕ) : ℕ :=
  (pool.live buff).elim 0 fun rb => rb.len.toNat

/-- `clear_buffer` comes to an end with the chain empty. It has released each of the buffers
once, and has not read one that it had released. -/
structure Cleared (s : State) (client' : Client) (pool' : MemPool ReadBuffer) (buffs : List ℕ)
    (log : List Access) : Prop where
  empty : client' = ⟨none, none, 0, 0⟩
  once : ∀ b, log.count (.release b) = if b ∈ buffs then 1 else 0
  noReadAfter : ∀ before b after, log = before ++ Access.release b :: after →
    .readNext b ∉ after
  released : ∀ b, pool'.live b = if b ∈ buffs then none else s.pool.live b

/-- The chain of connection `c` consists of some buffers, which hold what has arrived. -/
structure ByteQueue (s : State) (c : ℕ) (texts : List Text) (buffs : List ℕ) : Prop where
  linked : Linked (next s.pool) (s.clients c).recvHead buffs
  distinct : buffs.Nodup
  count : buffs.length = (s.clients c).recvCount
  tail : buffs.getLast? = (s.clients c).recvTail
  flatten : ∀ fuel, (s.clients c).recvCount ≤ fuel → ∀ buff : Text,
    texts.flatten.length ≤ buff.length →
      flattenBuffer fuel s.pool (s.clients c) buff =
        some (texts.flatten ++ buff.drop texts.flatten.length)
  clear : ∀ fuel, (s.clients c).recvCount ≤ fuel → ∃ pool' client' log,
    clearBuffer fuel s.pool (s.clients c) = some (pool', client', log) ∧
      Cleared s client' pool' buffs log
  /-- a buffer that was acquired can be received -/
  receives : ∀ b ∈ s.held, ∀ bytes : Text, 1 ≤ bytes.length → bytes.length ≤ readBufferSize →
    (s.step (.receive c b bytes)).isSome = true

/-- `recv_len` is the sum of the buffers' lengths and the number of bytes that `flatten_buffer`
writes. -/
structure LenExact (s : State) (c : ℕ) (texts : List Text) (buffs : List ℕ) : Prop where
  sum : (s.clients c).recvLen.toInt = ((buffs.map (lenOf s.pool)).sum : ℕ)
  written : (s.clients c).recvLen.toInt = texts.flatten.length

/-! ## Lengths and copies -/

/-- Sums of lengths are right up to the 32 bits that are kept. -/
theorem addLen_ofNat (n : ℕ) (len : UInt64) :
    addLen (Int32.ofNat n) len = Int32.ofNat (n + len.toNat) := by
  have hkept : (Int32.ofNat n).toInt64.toUInt64.toUInt32.toInt32 = Int32.ofNat n := by
    apply Int32.toBitVec_inj.mp
    ext i hi
    simp [BitVec.getElem_signExtend, hi, show i < 64 by omega]
  have hlen : len.toUInt32.toInt32 = Int32.ofNat len.toNat :=
    Int32.toBitVec_inj.mp (BitVec.ofNat_toNat 32 len.toBitVec).symm
  calc addLen (Int32.ofNat n) len
      = (Int32.ofNat n).toInt64.toUInt64.toUInt32.toInt32 + len.toUInt32.toInt32 := by
        rw [addLen, UInt64.toUInt32_add, UInt32.toInt32_add]
    _ = Int32.ofNat n + Int32.ofNat len.toNat := by rw [hkept, hlen]
    _ = Int32.ofNat (n + len.toNat) := (Int32.ofNat_add n len.toNat).symm

theorem memcpy_eq {front text rest src : Text} (hsrc : src.take text.length = text)
    (hfits : text.length ≤ rest.length) :
    memcpy (front ++ rest) front.length src text.length =
      some (front ++ text ++ rest.drop text.length) := by
  have hread : text.length ≤ src.length := by
    rw [← hsrc, List.length_take]
    exact Nat.min_le_right _ _
  have hroom : front.length + text.length ≤ (front ++ rest).length := by
    rw [List.length_append]
    omega
  rw [memcpy, if_pos ⟨hread, hroom⟩, hsrc, List.take_left, List.drop_append]
  simp

/-! ## One chain -/

/-- A slot of the pool holds some bytes. -/
def Filled (pool : MemPool ReadBuffer) (rb : Server.ReadBuffer) : Prop :=
  ∃ x, pool.live rb.slot = some x ∧ x.len.toNat = rb.bytes.length ∧
    x.readBuffer.take rb.bytes.length = rb.bytes

/-- The chain of a connection is a list of filled buffers. -/
structure Queue (pool : MemPool ReadBuffer) (client : Client) (recv : List Server.ReadBuffer) :
    Prop where
  linked : Linked (next pool) client.recvHead (recv.map Server.ReadBuffer.slot)
  nodup : (recv.map Server.ReadBuffer.slot).Nodup
  tail : client.recvTail = (recv.map Server.ReadBuffer.slot).getLast?
  count : client.recvCount = recv.length
  len : client.recvLen = Int32.ofNat (recv.map Server.ReadBuffer.bytes).flatten.length
  filled : ∀ rb ∈ recv, Filled pool rb
  small : ∀ rb ∈ recv, rb.bytes.length ≤ readBufferSize

section Chain
variable {pool pool' : MemPool ReadBuffer} {client : Client} {recv : List Server.ReadBuffer}

theorem Filled.congr {rb : Server.ReadBuffer} (h : Filled pool rb)
    (hlive : pool'.live rb.slot = pool.live rb.slot) : Filled pool' rb := by
  obtain ⟨x, hx, hlen, htake⟩ := h
  exact ⟨x, hlive.trans hx, hlen, htake⟩

/-- A chain reads its own buffers only. -/
theorem Queue.congr (q : Queue pool client recv)
    (hlive : ∀ b ∈ recv.map Server.ReadBuffer.slot, pool'.live b = pool.live b) :
    Queue pool' client recv where
  linked := q.linked.congr fun b hb => congrArg (Option.map ReadBuffer.next) (hlive b hb)
  nodup := q.nodup
  tail := q.tail
  count := q.count
  len := q.len
  filled rb hrb := (q.filled rb hrb).congr (hlive _ (List.mem_map_of_mem hrb))
  small := q.small

theorem flattenLoop_eq (hfilled : ∀ rb ∈ recv, Filled pool rb) {p : Option ℕ} {fuel : ℕ}
    (hlinked : Linked (next pool) p (recv.map Server.ReadBuffer.slot))
    (hfuel : recv.length ≤ fuel) (front rest : Text)
    (hroom : (recv.map Server.ReadBuffer.bytes).flatten.length ≤ rest.length) :
    flattenLoop pool fuel p front.length (front ++ rest) =
      some (front ++ (recv.map Server.ReadBuffer.bytes).flatten ++
        rest.drop (recv.map Server.ReadBuffer.bytes).flatten.length) := by
  induction recv generalizing p fuel front rest with
  | nil =>
    cases hlinked
    simp [flattenLoop]
  | cons rb recv ih =>
    obtain ⟨fuel, rfl⟩ := Nat.exists_eq_add_one.mpr (Nat.lt_of_lt_of_le (Nat.succ_pos _) hfuel)
    obtain ⟨x, hlive, hlen, htake⟩ := hfilled rb List.mem_cons_self
    simp only [List.map_cons, List.flatten_cons, List.length_append] at hroom
    cases hlinked with
    | cons hnext hrest =>
      rw [next, hlive, Option.map_some, Option.some.injEq] at hnext
      have hcopy : memcpy (front ++ rest) front.length x.readBuffer rb.bytes.length =
          some (front ++ rb.bytes ++ rest.drop rb.bytes.length) := memcpy_eq htake (by omega)
      have hrec := ih (fun rb' h => hfilled rb' (List.mem_cons_of_mem rb h)) (hnext ▸ hrest)
        (Nat.le_of_succ_le_succ hfuel) (front ++ rb.bytes) (rest.drop rb.bytes.length)
        (by rw [List.length_drop]; omega)
      rw [List.length_append] at hrec
      simp only [flattenLoop, MemPool.deref_of_live hlive, hlen, hcopy, hrec]
      simp [List.drop_drop]

/-- A target with room for what was received gets it, and is not touched behind it. -/
theorem Queue.flattenBuffer_eq (q : Queue pool client recv) {fuel : ℕ}
    (hfuel : client.recvCount ≤ fuel) {buff : Text}
    (hroom : (recv.map Server.ReadBuffer.bytes).flatten.length ≤ buff.length) :
    flattenBuffer fuel pool client buff =
      some ((recv.map Server.ReadBuffer.bytes).flatten ++
        buff.drop (recv.map Server.ReadBuffer.bytes).flatten.length) := by
  rw [q.count] at hfuel
  exact flattenLoop_eq q.filled q.linked hfuel [] buff hroom

/-! ### Clearing -/

/-- What `clear_buffer` does with a chain, in order. -/
def releases (buffs : List ℕ) : List Access :=
  buffs.flatMap fun b => [Access.readNext b, Access.release b]

theorem releases_cons (b : ℕ) (buffs : List ℕ) :
    releases (b :: buffs) = [Access.readNext b, Access.release b] ++ releases buffs := rfl

theorem count_release_releases {buffs : List ℕ} (hnodup : buffs.Nodup) (b : ℕ) :
    (releases buffs).count (.release b) = if b ∈ buffs then 1 else 0 := by
  rw [← hnodup.count]
  induction buffs with
  | nil => rfl
  | cons c buffs ih =>
    rw [releases_cons, List.count_append, ih (List.nodup_cons.mp hnodup).2, List.count_cons]
    simp [List.count_cons, Nat.add_comm]

theorem readNext_mem_releases {buffs : List ℕ} {b : ℕ} (h : .readNext b ∈ releases buffs) :
    b ∈ buffs := by
  simpa [releases] using h

/-- A buffer's pointer is read before the buffer is released, and the rest of the log is about
other buffers. -/
theorem readNext_notMem_after {buffs : List ℕ} (hnodup : buffs.Nodup) {before after : List Access}
    {b : ℕ} (h : releases buffs = before ++ Access.release b :: after) : .readNext b ∉ after := by
  induction buffs generalizing before with
  | nil => simp [releases] at h
  | cons c buffs ih =>
    obtain ⟨hc, hnodup⟩ := List.nodup_cons.mp hnodup
    rw [releases_cons] at h
    match before, h with
    | [], h => simp at h
    | [_], h =>
      simp only [List.cons_append, List.nil_append, List.cons.injEq, Access.release.injEq] at h
      obtain ⟨-, rfl, rfl⟩ := h
      exact fun hread => hc (readNext_mem_releases hread)
    | _ :: _ :: before, h =>
      simp only [List.cons_append, List.nil_append, List.cons.injEq] at h
      exact ih hnodup h.2.2

/-- The loop ends behind the last buffer, with the buffers released and nothing else changed. -/
theorem clearLoop_eq (client : Client) {buffs : List ℕ} {fuel : ℕ} (hp : pool.WF)
    (hlinked : Linked (next pool) client.recvHead buffs) (hnodup : buffs.Nodup)
    (hfuel : buffs.length ≤ fuel) : ∃ pool' client',
      clearLoop fuel pool client = some (pool', client', releases buffs) ∧ pool'.WF ∧
        pool'.capacity = pool.capacity ∧
        ∀ b, pool'.live b = if b ∈ buffs then none else pool.live b := by
  induction buffs generalizing pool client fuel with
  | nil =>
    have hhead : client.recvHead = none := hlinked.head_eq
    refine ⟨pool, client, ?_, hp, rfl, fun b => by simp⟩
    simp [clearLoop, hhead, releases]
  | cons b buffs ih =>
    obtain ⟨fuel, rfl⟩ := Nat.exists_eq_add_one.mpr (Nat.lt_of_lt_of_le (Nat.succ_pos _) hfuel)
    obtain ⟨hb, hnodup⟩ := List.nodup_cons.mp hnodup
    have hhead : client.recvHead = some b := hlinked.head_eq
    obtain ⟨q, hnext, hrest⟩ := hlinked.tail
    obtain ⟨rb, hlive, rfl⟩ := Option.map_eq_some_iff.mp hnext
    obtain ⟨pool₁, hrelease, hreplaces, hwf⟩ := MemPool.release_spec hp hlive
    -- the rest of the chain does not pass through the buffer that was released
    have hlinked₁ : Linked (next pool₁) rb.next buffs := by
      apply hrest.congr
      intro i hi
      have hne : i ≠ b := fun h => hb (h ▸ hi)
      rw [next, hreplaces.live_eq, if_neg hne, next]
    obtain ⟨pool', client', hloop, hwf', hcap, hlive'⟩ :=
      ih { client with recvHead := rb.next, recvCount := client.recvCount - 1 } hwf hlinked₁ hnodup
        (Nat.le_of_succ_le_succ hfuel)
    refine ⟨pool', client', ?_, hwf', hcap.trans hreplaces.capacity_eq, fun i => ?_⟩
    · rw [clearLoop.eq_def, hhead]
      simp only [MemPool.deref_of_live hlive, hrelease, hloop, Option.map_some, releases_cons]
    · rw [hlive', hreplaces.live_eq]
      by_cases hi : i = b <;> simp [hi, hb]

theorem Queue.clearBuffer_eq (q : Queue pool client recv) (hp : pool.WF) {fuel : ℕ}
    (hfuel : client.recvCount ≤ fuel) : ∃ pool',
      clearBuffer fuel pool client =
          some (pool', ⟨none, none, 0, 0⟩, releases (recv.map Server.ReadBuffer.slot)) ∧
        pool'.WF ∧ pool'.capacity = pool.capacity ∧
        ∀ b, pool'.live b =
          if b ∈ recv.map Server.ReadBuffer.slot then none else pool.live b := by
  have hrounds : (recv.map Server.ReadBuffer.slot).length ≤ fuel := by
    rwa [List.length_map, ← q.count]
  obtain ⟨pool', client', hloop, hafter⟩ := clearLoop_eq client hp q.linked q.nodup hrounds
  refine ⟨pool', ?_, hafter⟩
  rw [clearBuffer, hloop, Option.map_some]

/-! ### Receiving -/

/-- The bytes of a buffer stay when a pointer is written. -/
theorem Filled.relink {rb : Server.ReadBuffer} {t : ℕ} {x : ReadBuffer} {q : Option ℕ}
    (h : Filled pool rb) (hr : pool.Replaces pool' t (some x) (some { x with next := q })) :
    Filled pool' rb := by
  by_cases hslot : rb.slot = t
  · obtain ⟨y, hy, hlen, htake⟩ := h
    obtain rfl : y = x := Option.some.inj (hy.symm.trans (hslot ▸ hr.before))
    exact ⟨{ y with next := q }, by rw [hr.live_eq, if_pos hslot], hlen, htake⟩
  · exact h.congr (by rw [hr.live_eq, if_neg hslot])

/-- The counters follow when a buffer is put behind the chain. -/
theorem Queue.snoc (q : Queue pool client recv) {rb : Server.ReadBuffer} {head : Option ℕ}
    {len : UInt64} (hfresh : rb.slot ∉ recv.map Server.ReadBuffer.slot)
    (hsmall : rb.bytes.length ≤ readBufferSize) (hlen : len.toNat = rb.bytes.length)
    (hlinked : Linked (next pool') head (recv.map Server.ReadBuffer.slot ++ [rb.slot]))
    (hfilled : ∀ rb' ∈ recv, Filled pool' rb') (hrb : Filled pool' rb) :
    Queue pool' ⟨head, some rb.slot, client.recvCount + 1, addLen client.recvLen len⟩
      (recv ++ [rb]) where
  linked := by rwa [List.map_append]
  nodup := by
    rw [List.map_append, List.map_singleton]
    refine List.nodup_append.mpr ⟨q.nodup, List.nodup_singleton rb.slot, ?_⟩
    intro b hb b' hb' heq
    exact hfresh (List.mem_singleton.mp hb' ▸ heq ▸ hb)
  tail := by simp
  count := by simp [q.count]
  len := by
    rw [q.len, addLen_ofNat, hlen]
    simp
  filled := by
    intro rb' h
    rcases List.mem_append.mp h with h | h
    · exact hfilled rb' h
    · rwa [List.mem_singleton.mp h]
  small := by
    intro rb' h
    rcases List.mem_append.mp h with h | h
    · exact q.small rb' h
    · rwa [List.mem_singleton.mp h]

/-- Only the last buffer's pointer is written, and it leads to the new buffer from then on. -/
theorem Queue.linked_snoc {front : List Server.ReadBuffer} {last : Server.ReadBuffer}
    {x : ReadBuffer} {b : ℕ} (q : Queue pool client (front ++ [last]))
    (hr : pool.Replaces pool' last.slot (some x) (some { x with next := some b }))
    (hnull : next pool b = some none) (hne : b ≠ last.slot) :
    Linked (next pool') client.recvHead
      ((front ++ [last]).map Server.ReadBuffer.slot ++ [b]) := by
  have hlinked := q.linked
  have hnodup := q.nodup
  rw [List.map_append, List.map_singleton] at hlinked hnodup ⊢
  have hkept : ∀ i, i ≠ last.slot → next pool' i = next pool i := by
    intro i hi
    rw [next, hr.live_eq, if_neg hi, next]
  apply hlinked.snoc
  · intro i hi
    exact hkept i ((List.nodup_append.mp hnodup).2.2 i hi _ (List.mem_singleton_self _))
  · rw [next, hr.live_eq, if_pos rfl, Option.map_some]
  · rw [hkept b hne, hnull]

/-- A filled buffer that stands in no chain yet is received. Of the buffers outside the chain
none is touched. -/
theorem Queue.recvNewBuffer_spec (q : Queue pool client recv) (hp : pool.WF)
    {rb : Server.ReadBuffer} (hrb : Filled pool rb) (hnull : next pool rb.slot = some none)
    (hsmall : rb.bytes.length ≤ readBufferSize)
    (hfresh : rb.slot ∉ recv.map Server.ReadBuffer.slot) : ∃ pool' client',
      recvNewBuffer pool client (some rb.slot) = some (pool', client') ∧
        Queue pool' client' (recv ++ [rb]) ∧ pool'.WF ∧ pool'.capacity = pool.capacity ∧
        ∀ b, b ∉ recv.map Server.ReadBuffer.slot → pool'.live b = pool.live b := by
  obtain ⟨x, hlive, hlen, -⟩ := id hrb
  rcases List.eq_nil_or_concat' recv with rfl | ⟨front, last, rfl⟩
  · have hhead : client.recvHead = none := q.linked.head_eq
    refine ⟨pool, _, ?_, q.snoc hfresh hsmall hlen (.cons hnull .nil) q.filled hrb, hp, rfl,
      fun _ _ => rfl⟩
    simp [recvNewBuffer, MemPool.deref_of_live hlive, hhead]
  · have hlast : last.slot ∈ (front ++ [last]).map Server.ReadBuffer.slot := by simp
    have hne : rb.slot ≠ last.slot := fun h => hfresh (h ▸ hlast)
    have htail : client.recvTail = some last.slot := by rw [q.tail]; simp
    obtain ⟨y, hy, -⟩ := q.filled last (by simp)
    obtain ⟨hr, hwf⟩ := MemPool.modify_spec hp hy fun rb' => { rb' with next := some rb.slot }
    have hqueue := q.snoc hfresh hsmall hlen (q.linked_snoc hr hnull hne)
      (fun rb' h => (q.filled rb' h).relink hr) (hrb.relink hr)
    refine ⟨_, _, ?_, hqueue, hwf, hr.capacity_eq, fun b hb => ?_⟩
    · obtain ⟨h, hhead⟩ : ∃ h, client.recvHead = some h := by
        rw [q.linked.head_eq]
        cases front <;> simp
      simp [recvNewBuffer, MemPool.deref_of_live hlive, hhead, htail, MemPool.deref_of_live hy]
    · have hb' : b ≠ last.slot := fun h => hb (h ▸ hlast)
      rw [hr.live_eq, if_neg hb']

theorem queue_empty (pool : MemPool ReadBuffer) : Queue pool ⟨none, none, 0, 0⟩ [] where
  linked := .nil
  nodup := List.nodup_nil
  tail := rfl
  count := rfl
  len := rfl
  filled := by simp
  small := by simp

theorem Queue.live_of_mem (q : Queue pool client recv) {b : ℕ}
    (hb : b ∈ recv.map Server.ReadBuffer.slot) : ∃ x, pool.live b = some x := by
  obtain ⟨rb, hrb, rfl⟩ := List.mem_map.mp hb
  obtain ⟨x, hx, -⟩ := q.filled rb hrb
  exact ⟨x, hx⟩

/-- A chain has no more buffers than the pool has slots. -/
theorem Queue.recvCount_le (q : Queue pool client recv) (hp : pool.WF) :
    client.recvCount ≤ pool.capacity := by
  have hsub : recv.map Server.ReadBuffer.slot ⊆ List.range pool.capacity := by
    intro b hb
    obtain ⟨x, hx⟩ := q.live_of_mem hb
    exact List.mem_range.mpr (MemPool.lt_capacity_of_live hp hx)
  have hle := (List.subperm_of_subset q.nodup hsub).length_le
  rwa [List.length_map, List.length_range, ← q.count] at hle

theorem length_flatten_le {recv : List Server.ReadBuffer}
    (hsmall : ∀ rb ∈ recv, rb.bytes.length ≤ readBufferSize) :
    (recv.map Server.ReadBuffer.bytes).flatten.length ≤ recv.length * readBufferSize := by
  induction recv with
  | nil => exact Nat.zero_le _
  | cons rb recv ih =>
    have hrb := hsmall rb List.mem_cons_self
    have hrest := ih fun rb' h => hsmall rb' (List.mem_cons_of_mem rb h)
    rw [List.map_cons, List.flatten_cons, List.length_append, List.length_cons, Nat.add_mul]
    omega

/-- Where all the bytes that fit into the pool can be counted, `recv_len` counts exactly. -/
theorem Queue.toInt_recvLen (q : Queue pool client recv) (hp : pool.WF)
    (hcap : pool.capacity * readBufferSize ≤ intMax) :
    client.recvLen.toInt = (recv.map Server.ReadBuffer.bytes).flatten.length := by
  have hbytes := length_flatten_le q.small
  have hbuffs : client.recvCount * readBufferSize ≤ pool.capacity * readBufferSize :=
    Nat.mul_le_mul_right _ (q.recvCount_le hp)
  rw [q.count] at hbuffs
  rw [q.len]
  apply Int32.toInt_ofNat_of_lt
  simp only [intMax] at hcap
  omega

theorem map_lenOf (hfilled : ∀ rb ∈ recv, Filled pool rb) :
    (recv.map Server.ReadBuffer.slot).map (lenOf pool) =
      (recv.map Server.ReadBuffer.bytes).map List.length := by
  rw [List.map_map, List.map_map]
  apply List.map_congr_left
  intro rb hrb
  obtain ⟨x, hx, hlen, -⟩ := hfilled rb hrb
  simp [lenOf, hx, hlen]

end Chain

end CapyJs.Server.RecvChain
