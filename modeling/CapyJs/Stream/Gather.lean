import Mathlib.Algebra.BigOperators.Group.List.Basic
import Mathlib.Algebra.GroupWithZero.Nat
import Mathlib.Data.List.Basic

/-!
# Gathered writes that are finished later

A write is given descriptors, not bytes. What the receiver takes at once is copied
during the call. The rest is read through the same descriptors when it is taken, from
whatever the memory holds by then.
-/
namespace CapyJs.Stream

/-- The contents of each block, from its start on. -/
abbrev Memory (β : Type*) := β → ℕ → UInt8

/-- The first `len` bytes of a block. -/
structure Descriptor (β : Type*) where
  block : β
  len : ℕ

variable {β : Type*}

def Descriptor.read (m : Memory β) (d : Descriptor β) : List UInt8 :=
  (List.range d.len).map (m d.block)

def gather (m : Memory β) (ds : List (Descriptor β)) : List UInt8 := ds.flatMap (·.read m)

/-- What a receiver gets that has taken `sent` bytes and takes the rest in pieces, each
with the memory of its time. -/
def drain (ds : List (Descriptor β)) : ℕ → List (Memory β × ℕ) → List UInt8
  | _, [] => []
  | sent, (m, k) :: rest => ((gather m ds).drop sent).take k ++ drain ds (sent + k) rest

def Keeps (kept : β → Bool) (m m' : Memory β) : Prop := ∀ b, kept b → m' b = m b

/-- Of a write whose first `k` bytes are taken at once: whatever becomes of the blocks
that are not kept, and in whatever pieces the rest is taken, the receiver gets `built`. -/
def Delivers (kept : β → Bool) (m : Memory β) (ds : List (Descriptor β)) (k : ℕ)
    (built : List UInt8) : Prop :=
  ∀ rest : List (Memory β × ℕ), (∀ piece ∈ rest, Keeps kept m piece.1) →
    k + (rest.map Prod.snd).sum = (gather m ds).length → drain ds 0 ((m, k) :: rest) = built

@[simp] theorem Descriptor.length_read (m : Memory β) (d : Descriptor β) :
    (d.read m).length = d.len := by
  simp [read]

@[simp] theorem gather_nil (m : Memory β) : gather m [] = [] := rfl

@[simp] theorem gather_cons (m : Memory β) (d : Descriptor β) (ds : List (Descriptor β)) :
    gather m (d :: ds) = d.read m ++ gather m ds := rfl

@[simp] theorem gather_append (m : Memory β) (ds ds' : List (Descriptor β)) :
    gather m (ds ++ ds') = gather m ds ++ gather m ds' :=
  List.flatMap_append

theorem length_gather (m : Memory β) (ds : List (Descriptor β)) :
    (gather m ds).length = (ds.map (·.len)).sum := by
  simp [gather, List.length_flatMap]

theorem Descriptor.read_of_list {m : Memory β} {d : Descriptor β} {bytes : List UInt8}
    (hlen : d.len = bytes.length) (h : ∀ i, m d.block i = bytes.getD i 0) :
    d.read m = bytes := by
  apply List.ext_getElem
  · simp [hlen]
  · intro i _ hi
    simp [read, h i, List.getD, hi]

theorem gather_of_keeps {kept : β → Bool} {m m' : Memory β} {ds : List (Descriptor β)}
    (hkeeps : Keeps kept m m') (hds : ∀ d ∈ ds, kept d.block) : gather m' ds = gather m ds := by
  unfold gather
  apply List.flatMap_congr
  intro d hd
  rw [Descriptor.read, Descriptor.read, hkeeps _ (hds d hd)]

section Split
variable {kept : β → Bool} {m : Memory β} {lost held : List (Descriptor β)} {k : ℕ}

/-- Behind the blocks that may be lost every memory shows the same bytes. -/
theorem drop_gather_of_keeps {m' : Memory β} {sent : ℕ} (hkeeps : Keeps kept m m')
    (hheld : ∀ d ∈ held, kept d.block) (hsent : (gather m lost).length ≤ sent) :
    (gather m' (lost ++ held)).drop sent = (gather m (lost ++ held)).drop sent := by
  have hlength : (gather m' lost).length = (gather m lost).length := by
    rw [length_gather, length_gather]
  rw [gather_append, gather_append, List.drop_append, List.drop_append, hlength,
    List.drop_of_length_le hsent, List.drop_of_length_le (hlength ▸ hsent),
    gather_of_keeps hkeeps hheld]

theorem drain_of_keeps {sent : ℕ} {rest : List (Memory β × ℕ)}
    (hrest : ∀ piece ∈ rest, Keeps kept m piece.1) (hheld : ∀ d ∈ held, kept d.block)
    (hsent : (gather m lost).length ≤ sent) :
    drain (lost ++ held) sent rest =
      ((gather m (lost ++ held)).drop sent).take (rest.map Prod.snd).sum := by
  induction rest generalizing sent with
  | nil => simp [drain]
  | cons piece rest ih =>
    obtain ⟨m', n⟩ := piece
    have hlater := ih (fun p hp => hrest p (List.mem_cons_of_mem _ hp))
      (Nat.le_trans hsent (Nat.le_add_right sent n))
    rw [drain, hlater, drop_gather_of_keeps (hrest _ List.mem_cons_self) hheld hsent,
      List.map_cons, List.sum_cons, List.take_add, List.drop_drop]

/-- Every byte of a block that is not kept has become another. -/
def scramble (kept : β → Bool) (m : Memory β) : Memory β :=
  fun b i => if kept b then m b i else m b i + 1

theorem keeps_scramble (kept : β → Bool) (m : Memory β) : Keeps kept m (scramble kept m) := by
  intro b hb
  funext i
  simp [scramble, hb]

theorem gather_scramble (hlost : ∀ d ∈ lost, kept d.block = false) :
    gather (scramble kept m) lost = (gather m lost).map (· + 1) := by
  induction lost with
  | nil => rfl
  | cons d lost ih =>
    have hd : kept d.block = false := hlost d List.mem_cons_self
    rw [gather_cons, gather_cons, List.map_append, ih fun e he => hlost e (List.mem_cons_of_mem _ he)]
    simp [Descriptor.read, scramble, hd]

/-- A byte that is lost before it is taken arrives as another one. -/
theorem drain_scramble_ne (hlost : ∀ d ∈ lost, kept d.block = false)
    (hk : k < (gather m lost).length) {n : ℕ} (hn : 0 < n) :
    drain (lost ++ held) 0 [(m, k), (scramble kept m, n)] ≠ gather m (lost ++ held) := by
  intro heq
  have hbyte := congrArg (·[k]?) heq
  have hlate : (gather (scramble kept m) (lost ++ held))[k]? = some ((gather m lost)[k] + 1) := by
    rw [gather_append, gather_scramble hlost, List.getElem?_append_left (by simpa using hk)]
    simp [hk]
  have hearly : (gather m (lost ++ held))[k]? = some (gather m lost)[k] := by
    rw [gather_append, List.getElem?_append_left hk, List.getElem?_eq_getElem hk]
  have htaken : ((gather m (lost ++ held)).take k).length = k := by
    rw [List.length_take, gather_append, List.length_append]
    omega
  simp only [drain, List.drop_zero, Nat.zero_add, List.append_nil] at hbyte
  rw [List.getElem?_append_right (Nat.le_of_eq htaken), htaken, Nat.sub_self, List.getElem?_take,
    if_pos hn, List.getElem?_drop, Nat.add_zero, hlate, hearly] at hbyte
  simp at hbyte

/-- A write delivers what was built if and only if the descriptors show that, and all the
bytes of lost blocks are taken at once. -/
theorem delivers_iff {built : List UInt8} (hlost : ∀ d ∈ lost, kept d.block = false)
    (hheld : ∀ d ∈ held, kept d.block) (hk : k ≤ (gather m (lost ++ held)).length) :
    Delivers kept m (lost ++ held) k built ↔
      gather m (lost ++ held) = built ∧ (gather m lost).length ≤ k := by
  constructor
  · intro h
    have hfinish : ∀ m', Keeps kept m m' → drain (lost ++ held) 0
        [(m, k), (m', (gather m (lost ++ held)).length - k)] = built := by
      intro m' hkeeps
      apply h
      · simpa using hkeeps
      · simp only [List.map_cons, List.map_nil, List.sum_cons, List.sum_nil]
        omega
    -- With no change of memory the receiver gets what the descriptors show.
    have hsame : gather m (lost ++ held) = built := by
      rw [← hfinish m fun _ _ => rfl, ← List.length_drop]
      simp only [drain, List.drop_zero, Nat.zero_add, List.append_nil, List.take_length,
        List.take_append_drop]
    apply And.intro hsame
    by_contra hlt
    apply drain_scramble_ne hlost (Nat.lt_of_not_le hlt) ?_
      ((hfinish _ (keeps_scramble kept m)).trans hsame.symm)
    rw [gather_append, List.length_append]
    omega
  · rintro ⟨rfl, hlocal⟩ rest hrest hsum
    rw [drain, List.drop_zero, Nat.zero_add, drain_of_keeps hrest hheld hlocal]
    have hrest : (rest.map Prod.snd).sum = ((gather m (lost ++ held)).drop k).length := by
      rw [List.length_drop]
      omega
    rw [hrest, List.take_length, List.take_append_drop]

end Split
end CapyJs.Stream
