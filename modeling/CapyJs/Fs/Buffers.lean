import CapyJs.Fs.Requests

/-!
# The buffer that the reads of a file share

A read stores into the buffer that its file had at the call, and its callback reads
from the buffer that the file has then. A call with another length frees the buffer,
and a second store overwrites what the first callback has not read yet.
-/
namespace CapyJs.Fs
open Transition

/-- No access to freed memory, and each callback gets what its own request stored. -/
structure ReadsApart (hist : List Output) : Prop where
  stores : ∀ q, .wildStore q ∉ hist
  loads : ∀ q, .wildRead q ∉ hist
  own : ∀ q arg, .invoked q arg ∈ hist → .executed q arg ∈ hist

def agree (bytes bytes' : Text) : Bool := bytes.isPrefixOf bytes' || bytes'.isPrefixOf bytes

def Request.readsOther (id len : ℕ) : Request → Bool
  | .reading id' _ _ len' _ => id' == id && len' != len
  | _ => false

def Request.readDiffers (id : ℕ) (bytes : Text) : Request → Bool
  | .reading id' _ _ _ (some (.ok bytes')) => id' == id && !agree bytes bytes'
  | _ => false

/-- Reads of one file that are in flight together have the same length, and what they
read agrees as far as both go. -/
def readsAlike (s : State) : Label → Bool
  | .readFile fd len _ =>
    match s.fdState fd with
    | some id => !s.anyRequest (Request.readsOther id len)
    | none => true
  | .executeRead q (.ok bytes) =>
    match s.requests q with
    | some (.reading id _ _ _ _) => !s.anyRequest (Request.readDiffers id bytes)
    | _ => true
  | _ => true

/-- The buffer of a state and its length. -/
def State.bufferOf (s : State) (id : ℕ) : Option (ℕ × ℕ) :=
  (s.states id).bind fun st => st.buf.map fun b => (b, st.bufLen)

theorem bufferOf_eq {s : State} {id : ℕ} {st : FileOpState} (hst : s.states id = some st) :
    s.bufferOf id = st.buf.map fun b => (b, st.bufLen) := by
  rw [State.bufferOf, hst, Option.bind_some]

structure Buffers (hist : List Output) (s : State) : Prop where
  reading : ∀ q id fd b len result, s.requests q = some (.reading id fd b len result) →
    s.bufferOf id = some (b, len)
  buffer : ∀ id b len, s.bufferOf id = some (b, len) →
    b < s.nextBuf ∧ ∃ contents, s.buffers b = some contents ∧ contents.length = len
  unique : ∀ id id' b len len', s.bufferOf id = some (b, len) → s.bufferOf id' = some (b, len') →
    id' = id
  stored : ∀ q id fd b len bytes, s.requests q = some (.reading id fd b len (some (.ok bytes))) →
    ∃ contents, s.buffers b = some contents ∧ contents.take bytes.length = bytes
  executed : ∀ q id fd b len result, s.requests q = some (.reading id fd b len (some result)) →
    .executed q result ∈ hist
  apart : ReadsApart hist

def Output.isSilent : Output → Bool
  | .wildStore _ | .wildRead _ | .invoked _ _ => false
  | _ => true

theorem ReadsApart.append {hist out : List Output} (h : ReadsApart hist)
    (hout : out.all Output.isSilent = true) : ReadsApart (hist ++ out) := by
  have hold {o : Output} (hmem : o ∈ hist ++ out) (hsilent : o.isSilent = false) : o ∈ hist := by
    apply (List.mem_append.mp hmem).resolve_right
    intro hmem
    rw [List.all_eq_true.mp hout o hmem] at hsilent
    cases hsilent
  constructor
  · exact fun q hmem => h.stores q (hold hmem rfl)
  · exact fun q hmem => h.loads q (hold hmem rfl)
  · exact fun q arg hmem => List.mem_append_left _ (h.own q arg (hold hmem rfl))

theorem ReadsApart.invoked {hist : List Output} (h : ReadsApart hist) {q : ℕ} {arg : Except ℤ Text}
    (hexecuted : .executed q arg ∈ hist) : ReadsApart (hist ++ [Output.invoked q arg]) := by
  constructor
  · intro q' hmem
    exact h.stores q' (by simpa using hmem)
  · intro q' hmem
    exact h.loads q' (by simpa using hmem)
  · intro q' arg' hmem
    rcases List.mem_append.mp hmem with hmem | hmem
    · exact List.mem_append_left _ (h.own q' arg' hmem)
    · rw [List.mem_singleton] at hmem
      cases hmem
      exact List.mem_append_left _ hexecuted

/-- What an earlier read stored is still there after a store that agrees with it. -/
theorem take_store {bytes bytes' contents : Text} (h : agree bytes bytes' = true)
    (hstored : contents.take bytes'.length = bytes') :
    (bytes ++ contents.drop bytes.length).take bytes'.length = bytes' := by
  rw [agree, Bool.or_eq_true, List.isPrefixOf_iff_prefix, List.isPrefixOf_iff_prefix] at h
  rcases h with h | h
  · have hsame : contents.take bytes.length = bytes := by
      rw [← Nat.min_eq_left h.length_le, ← List.take_take, hstored]
      exact (List.prefix_iff_eq_take.mp h).symm
    nth_rewrite 1 [← hsame]
    rw [List.take_append_drop, hstored]
  · rw [List.take_append_of_le_length h.length_le]
    exact (List.prefix_iff_eq_take.mp h).symm

namespace Buffers
variable {hist : List Output} {s s' : State}

/-- A step that leaves the memory alone. -/
theorem quiet (h : Buffers hist s) {out : List Output} (hbuf : s'.bufferOf = s.bufferOf)
    (hbuffers : s'.buffers = s.buffers) (hnext : s'.nextBuf = s.nextBuf)
    (hrequests : ∀ q id fd b len result, s'.requests q = some (.reading id fd b len result) →
      s.requests q = some (.reading id fd b len result))
    (hout : ReadsApart (hist ++ out)) : Buffers (hist ++ out) s' := by
  refine ⟨?_, ?_, ?_, ?_, ?_, hout⟩
  · rw [hbuf]
    exact fun q id fd b len result hq => h.reading q id fd b len result (hrequests _ _ _ _ _ _ hq)
  · rw [hbuf, hbuffers, hnext]
    exact h.buffer
  · rw [hbuf]
    exact h.unique
  · rw [hbuffers]
    exact fun q id fd b len bytes hq => h.stored q id fd b len bytes (hrequests _ _ _ _ _ _ hq)
  · intro q id fd b len result hq
    exact List.mem_append_left _ (h.executed q id fd b len result (hrequests _ _ _ _ _ _ hq))

theorem submit (h : Buffers hist s) {id b len : ℕ} (fd : ℤ) (hbuf : s.bufferOf id = some (b, len))
    {out : List Output} (hout : out.all Output.isSilent = true) :
    Buffers (hist ++ out) (s.submit (.reading id fd b len none)) := by
  have hold {q id' b' len' : ℕ} {fd' : ℤ} {result : Option (Except ℤ Text)}
      (hq : (s.submit (.reading id fd b len none)).requests q = some (.reading id' fd' b' len' result)) :
      s.requests q = some (.reading id' fd' b' len' result) ∨
        id' = id ∧ b' = b ∧ len' = len ∧ result = none := by
    by_cases hnew : q = s.nextReq
    · right
      simp only [State.submit, hnew, Function.update_self, Option.some.injEq,
        Request.reading.injEq] at hq
      exact ⟨hq.1.symm, hq.2.2.1.symm, hq.2.2.2.1.symm, hq.2.2.2.2.symm⟩
    · left
      simpa [State.submit, hnew] using hq
  refine ⟨?_, h.buffer, h.unique, ?_, ?_, h.apart.append hout⟩
  · intro q id' fd' b' len' result hq
    rcases hold hq with hq | ⟨rfl, rfl, rfl, -⟩
    · exact h.reading q id' fd' b' len' result hq
    · exact hbuf
  · intro q id' fd' b' len' bytes hq
    rcases hold hq with hq | ⟨-, -, -, heq⟩
    · exact h.stored q id' fd' b' len' bytes hq
    · cases heq
  · intro q id' fd' b' len' result hq
    rcases hold hq with hq | ⟨-, -, -, heq⟩
    · exact List.mem_append_left _ (h.executed q id' fd' b' len' result hq)
    · cases heq

/-- Freeing the buffer of one state leaves those of the others. -/
theorem freeBuffer_of_ne (h : Buffers hist s) {id id' b len : ℕ} {st : FileOpState}
    (hst : s.states id = some st) (hne : id' ≠ id) (hbuf : s.bufferOf id' = some (b, len)) :
    State.freeBuffer st.buf s.buffers b = s.buffers b := by
  cases hold : st.buf with
  | none => rfl
  | some b₀ =>
    rw [State.freeBuffer, Function.update_of_ne]
    rintro rfl
    have hself : s.bufferOf id = some (b, st.bufLen) := by rw [bufferOf_eq hst, hold, Option.map_some]
    exact hne (h.unique id id' b _ _ hself hbuf)

/-- A new buffer for a state without reads in flight. -/
theorem renew (h : Buffers hist s) {id len : ℕ} {st : FileOpState} {contents : Text}
    (hst : s.states id = some st) (hlen : contents.length = len)
    (hidle : ∀ q fd b len result, s.requests q ≠ some (.reading id fd b len result))
    (hself : s'.bufferOf id = some (s.nextBuf, len))
    (hother : ∀ id', id' ≠ id → s'.bufferOf id' = s.bufferOf id')
    (hbuffers : s'.buffers =
      Function.update (State.freeBuffer st.buf s.buffers) s.nextBuf (some contents))
    (hnext : s'.nextBuf = s.nextBuf + 1) (hrequests : s'.requests = s.requests) :
    Buffers hist s' := by
  have hkept {id' b len' : ℕ} (hne : id' ≠ id) (hbuf : s.bufferOf id' = some (b, len')) :
      s'.buffers b = s.buffers b := by
    have hlt := (h.buffer id' b len' hbuf).1
    rw [hbuffers, Function.update_of_ne (Nat.ne_of_lt hlt), h.freeBuffer_of_ne hst hne hbuf]
  -- the number of the new buffer is not in use
  have hfresh {id' len' : ℕ} (hbuf : s.bufferOf id' = some (s.nextBuf, len')) : False :=
    Nat.lt_irrefl _ (h.buffer id' _ len' hbuf).1
  have hreading {q id' b len' : ℕ} {fd : ℤ} {result : Option (Except ℤ Text)}
      (hq : s'.requests q = some (.reading id' fd b len' result)) :
      id' ≠ id ∧ s.requests q = some (.reading id' fd b len' result) := by
    rw [hrequests] at hq
    refine ⟨?_, hq⟩
    rintro rfl
    exact hidle q fd b len' result hq
  refine ⟨?_, ?_, ?_, ?_, ?_, h.apart⟩
  · intro q id' fd b len' result hq
    obtain ⟨hne, hq⟩ := hreading hq
    rw [hother id' hne]
    exact h.reading q id' fd b len' result hq
  · intro id' b len' hbuf
    by_cases hne : id' = id
    · rw [hne, hself] at hbuf
      cases hbuf
      exact ⟨hnext ▸ Nat.lt_succ_self _, contents, by rw [hbuffers, Function.update_self], hlen⟩
    · rw [hother id' hne] at hbuf
      obtain ⟨hlt, hcontents⟩ := h.buffer id' b len' hbuf
      exact ⟨hnext ▸ Nat.lt_succ_of_lt hlt, by rwa [hkept hne hbuf]⟩
  · intro id₁ id₂ b len₁ len₂ h₁ h₂
    by_cases hne₁ : id₁ = id <;> by_cases hne₂ : id₂ = id
    · rw [hne₁, hne₂]
    · rw [hne₁, hself] at h₁
      cases h₁
      rw [hother id₂ hne₂] at h₂
      exact (hfresh h₂).elim
    · rw [hne₂, hself] at h₂
      cases h₂
      rw [hother id₁ hne₁] at h₁
      exact (hfresh h₁).elim
    · rw [hother id₁ hne₁] at h₁
      rw [hother id₂ hne₂] at h₂
      exact h.unique id₁ id₂ b len₁ len₂ h₁ h₂
  · intro q id' fd b len' bytes hq
    obtain ⟨hne, hq⟩ := hreading hq
    rw [hkept hne (h.reading q id' fd b len' _ hq)]
    exact h.stored q id' fd b len' bytes hq
  · intro q id' fd b len' result hq
    exact h.executed q id' fd b len' result (hreading hq).2

/-- The state of a file without reads in flight is deleted. -/
theorem closed (h : Buffers hist s) {id : ℕ} {st : FileOpState} {out : List Output}
    (hst : s.states id = some st) (hout : out.all Output.isSilent = true)
    (hreading : ∀ q id' fd b len result, s'.requests q = some (.reading id' fd b len result) →
      id' ≠ id ∧ s.requests q = some (.reading id' fd b len result))
    (hself : s'.bufferOf id = none) (hother : ∀ id', id' ≠ id → s'.bufferOf id' = s.bufferOf id')
    (hbuffers : s'.buffers = State.freeBuffer st.buf s.buffers) (hnext : s'.nextBuf = s.nextBuf) :
    Buffers (hist ++ out) s' := by
  have hold {id' b len : ℕ} (hbuf : s'.bufferOf id' = some (b, len)) :
      id' ≠ id ∧ s.bufferOf id' = some (b, len) := by
    by_cases hne : id' = id
    · rw [hne, hself] at hbuf
      cases hbuf
    · exact ⟨hne, hother id' hne ▸ hbuf⟩
  refine ⟨?_, ?_, ?_, ?_, ?_, h.apart.append hout⟩
  · intro q id' fd b len result hq
    obtain ⟨hne, hq⟩ := hreading q id' fd b len result hq
    rw [hother id' hne]
    exact h.reading q id' fd b len result hq
  · intro id' b len hbuf
    obtain ⟨hne, hbuf⟩ := hold hbuf
    rw [hnext, hbuffers, h.freeBuffer_of_ne hst hne hbuf]
    exact h.buffer id' b len hbuf
  · intro id₁ id₂ b len₁ len₂ h₁ h₂
    exact h.unique id₁ id₂ b len₁ len₂ (hold h₁).2 (hold h₂).2
  · intro q id' fd b len bytes hq
    obtain ⟨hne, hq⟩ := hreading q id' fd b len _ hq
    rw [hbuffers, h.freeBuffer_of_ne hst hne (h.reading q id' fd b len _ hq)]
    exact h.stored q id' fd b len bytes hq
  · intro q id' fd b len result hq
    exact List.mem_append_left _ (h.executed q id' fd b len result (hreading q id' fd b len _ hq).2)

/-- A read is executed: the others of the file find their bytes in the buffer as before. -/
theorem execute (h : Buffers hist s) {q id b len : ℕ} {fd : ℤ} {bytes contents : Text}
    (hq : s.requests q = some (.reading id fd b len none)) (hlen : bytes.length ≤ len)
    (hcontents : s.buffers b = some contents)
    (hagree : ∀ q' fd' b' len' bytes',
      s.requests q' = some (.reading id fd' b' len' (some (.ok bytes'))) → agree bytes bytes' = true)
    (hbuf : s'.bufferOf = s.bufferOf) (hnext : s'.nextBuf = s.nextBuf)
    (hbuffers : s'.buffers =
      Function.update s.buffers b (some (bytes ++ contents.drop bytes.length)))
    (hrequests : s'.requests =
      Function.update s.requests q (some (.reading id fd b len (some (.ok bytes))))) :
    Buffers (hist ++ [Output.executed q (.ok bytes)]) s' := by
  have hself := h.reading q id fd b len none hq
  refine ⟨?_, ?_, ?_, ?_, ?_, h.apart.append rfl⟩
  · intro q' id' fd' b' len' result hq'
    rw [hbuf]
    by_cases heq : q' = q
    · rw [hrequests, heq, Function.update_self] at hq'
      cases hq'
      exact hself
    · rw [hrequests, Function.update_of_ne heq] at hq'
      exact h.reading q' id' fd' b' len' result hq'
  · intro id' b' len' hbuf'
    rw [hbuf] at hbuf'
    obtain ⟨hlt, contents', hcontents', hlen'⟩ := h.buffer id' b' len' hbuf'
    refine ⟨hnext ▸ hlt, ?_⟩
    by_cases heq : b' = b
    · subst heq
      obtain rfl := h.unique id id' b' len len' hself hbuf'
      rw [hself] at hbuf'
      cases hbuf'
      rw [hcontents] at hcontents'
      cases hcontents'
      refine ⟨_, by rw [hbuffers, Function.update_self], ?_⟩
      rw [List.length_append, List.length_drop]
      omega
    · exact ⟨contents', by rw [hbuffers, Function.update_of_ne heq, hcontents'], hlen'⟩
  · rw [hbuf]
    exact h.unique
  · intro q' id' fd' b' len' bytes' hq'
    by_cases heq : q' = q
    · rw [hrequests, heq, Function.update_self] at hq'
      cases hq'
      exact ⟨_, by rw [hbuffers, Function.update_self], List.take_left⟩
    · rw [hrequests, Function.update_of_ne heq] at hq'
      obtain ⟨contents', hcontents', hstored⟩ := h.stored q' id' fd' b' len' bytes' hq'
      by_cases hb : b' = b
      · subst hb
        obtain rfl := h.unique id id' b' len len' hself (h.reading q' id' fd' b' len' _ hq')
        rw [hcontents] at hcontents'
        cases hcontents'
        exact ⟨_, by rw [hbuffers, Function.update_self],
          take_store (hagree q' fd' b' len' bytes' hq') hstored⟩
      · exact ⟨contents', by rw [hbuffers, Function.update_of_ne hb, hcontents'], hstored⟩
  · intro q' id' fd' b' len' result hq'
    by_cases heq : q' = q
    · rw [hrequests, heq, Function.update_self] at hq'
      cases hq'
      simp [heq]
    · rw [hrequests, Function.update_of_ne heq] at hq'
      exact List.mem_append_left _ (h.executed q' id' fd' b' len' result hq')

theorem executeFailed (h : Buffers hist s) {q id b len : ℕ} {fd e : ℤ}
    (hq : s.requests q = some (.reading id fd b len none)) :
    Buffers (hist ++ [Output.executed q (.error e)])
      (s.setRequest q (some (.reading id fd b len (some (.error e))))) := by
  have hold {q' id' b' len' : ℕ} {fd' : ℤ} {result : Option (Except ℤ Text)}
      (hq' : (s.setRequest q (some (.reading id fd b len (some (.error e))))).requests q' =
        some (.reading id' fd' b' len' result)) :
      s.requests q' = some (.reading id' fd' b' len' result) ∨
        q' = q ∧ id' = id ∧ b' = b ∧ len' = len ∧ result = some (.error e) := by
    by_cases heq : q' = q
    · right
      simp only [State.setRequest, heq, Function.update_self, Option.some.injEq,
        Request.reading.injEq] at hq'
      exact ⟨heq, hq'.1.symm, hq'.2.2.1.symm, hq'.2.2.2.1.symm, hq'.2.2.2.2.symm⟩
    · left
      simpa [State.setRequest, heq] using hq'
  refine ⟨?_, h.buffer, h.unique, ?_, ?_, h.apart.append rfl⟩
  · intro q' id' fd' b' len' result hq'
    rcases hold hq' with hq' | ⟨-, rfl, rfl, rfl, -⟩
    · exact h.reading q' id' fd' b' len' result hq'
    · exact h.reading q _ fd _ _ none hq
  · intro q' id' fd' b' len' bytes hq'
    rcases hold hq' with hq' | ⟨-, -, -, -, heq⟩
    · exact h.stored q' id' fd' b' len' bytes hq'
    · cases heq
  · intro q' id' fd' b' len' result hq'
    rcases hold hq' with hq' | ⟨rfl, -, -, -, heq⟩
    · exact List.mem_append_left _ (h.executed q' id' fd' b' len' result hq')
    · cases heq
      simp

/-- The callback of a read finds its bytes in the buffer that its file has now. -/
theorem load (h : Buffers hist s) {q id b len : ℕ} {fd : ℤ} {bytes : Text} {st : FileOpState}
    (hq : s.requests q = some (.reading id fd b len (some (.ok bytes))))
    (hst : s.states id = some st) :
    ((st.buf.bind s.buffers).getD []).take bytes.length = bytes := by
  have hbuf := h.reading q id fd b len _ hq
  rw [bufferOf_eq hst, Option.map_eq_some_iff] at hbuf
  obtain ⟨b', hb', heq⟩ := hbuf
  cases heq
  obtain ⟨contents, hcontents, hstored⟩ := h.stored q id fd _ _ bytes hq
  rw [hb', Option.bind_some, hcontents, Option.getD_some, hstored]

theorem finish (h : Buffers hist s) (q : ℕ) {out : List Output} (hout : ReadsApart (hist ++ out)) :
    Buffers (hist ++ out) (s.setRequest q none) := by
  refine h.quiet rfl rfl rfl ?_ hout
  intro q' id fd b len result hq'
  exact requests_of_update hq' nofun

end Buffers

theorem bufferOf_openFileAsync {s : State} (h : Refs s) : s.openFileAsync.1.bufferOf = s.bufferOf := by
  funext id
  rw [State.bufferOf, State.bufferOf, State.states_openFileAsync]
  by_cases hid : id = s.nextState
  · have hnone : s.states s.nextState = none := by
      by_contra hsome
      obtain ⟨st, hst⟩ := Option.ne_none_iff_exists'.mp hsome
      exact Nat.lt_irrefl _ (h.state_lt _ _ hst)
    simp [hid, hnone]
  · rw [Function.update_of_ne hid]

theorem bufferOf_setFd {s s' : State} {id : ℕ} {st : FileOpState} {fd : ℤ} (hst : s.states id = some st)
    (hstates : s'.states = Function.update s.states id (some { st with fd })) :
    s'.bufferOf = s.bufferOf := by
  funext id'
  rw [State.bufferOf, State.bufferOf, hstates]
  by_cases hid : id' = id
  · simp [hid, hst]
  · rw [Function.update_of_ne hid]

namespace Buffers
variable {hist : List Output} {s s' : State}

theorem read (h : Buffers hist s) (hrefs : Refs s) {fd : ℤ} {id b len : ℕ} {uninit : ℕ → UInt8}
    {st : FileOpState} (hfd : s.fdState fd = some id) (hst : s.states id = some st)
    (hbuf : Buffered s id st len uninit s' b)
    (halike : readsAlike s (.readFile fd len uninit) = true) :
    Buffers (hist ++ [Output.submitted s.nextReq]) (s'.submit (.reading id fd b len none)) := by
  cases hbuf with
  | same hbuf hlen =>
    apply h.submit fd _ rfl
    rw [bufferOf_eq hst, hbuf, hlen, Option.map_some]
  | renewed hnew =>
    apply Buffers.submit _ fd _ rfl
    · refine h.renew hst ((List.length_map ..).trans List.length_range) ?_ ?_ ?_ rfl rfl rfl
      · intro q fd' b len' result hq
        have hown := h.reading q id fd' b len' result hq
        rw [bufferOf_eq hst, Option.map_eq_some_iff] at hown
        obtain ⟨b', hb', heq⟩ := hown
        cases heq
        simp only [readsAlike, hfd, Bool.not_eq_true'] at halike
        have hsame := not_anyRequest hrefs (by rintro (_ | _ | _) <;> rfl) halike
          (inFlight_of_requests hq)
        rcases hnew with hnone | hne
        · rw [hnone] at hb'
          cases hb'
        · exact hne (by simpa [Request.readsOther, Request.submitted] using hsame)
      · simp [State.bufferOf]
      · intro id' hne
        simp [State.bufferOf, Function.update_of_ne hne]
    · simp [State.bufferOf]

theorem step (h : Buffers hist s) (hrefs : Refs s) {a : Label} {out : List Output}
    (halike : readsAlike s a = true) (hstep : Moved s a s' out) : Buffers (hist ++ out) s' := by
  cases hstep with
  | openFile =>
    refine h.quiet (bufferOf_openFileAsync hrefs) rfl rfl ?_ (h.apart.append rfl)
    intro q id fd b len result hq
    exact requests_of_update hq (by simp)
  | readUnknown | closeUnknown =>
    exact h.quiet rfl rfl rfl (fun _ _ _ _ _ _ hq => hq) (h.apart.append rfl)
  | read hfd hst hbuf => exact h.read hrefs hfd hst hbuf halike
  | close =>
    refine h.quiet rfl rfl rfl ?_ (h.apart.append rfl)
    intro q id fd b len result hq
    exact requests_of_update hq (by simp)
  | executeOpenFailed hq | executeOpen hq | executeCloseUnused hq | executeClose hq =>
    refine h.quiet rfl rfl rfl ?_ (h.apart.append rfl)
    intro q id fd b len result hread
    exact requests_of_update hread (by simp)
  | executeReadFailed hq => exact h.executeFailed hq
  | executeRead hq hlen hcontents =>
    refine h.execute hq hlen hcontents ?_ rfl rfl rfl rfl
    intro q' fd' b' len' bytes' hq'
    simp only [readsAlike, hq, Bool.not_eq_true'] at halike
    have hlt := hrefs.req_lt q' _ (inFlight_of_requests hq')
    simp only [State.anyRequest, List.any_eq_false, List.mem_range] at halike
    simpa [hq', Request.readDiffers] using halike q' hlt
  | executeReadWild hq hlen hnone =>
    obtain ⟨-, contents, hcontents, -⟩ := h.buffer _ _ _ (h.reading _ _ _ _ _ _ hq)
    rw [hnone] at hcontents
    cases hcontents
  | openFailed => exact h.finish _ (h.apart.append rfl)
  | @opened q id fd beyond st hq hle hst =>
    refine h.quiet (bufferOf_setFd hst rfl) rfl rfl ?_ (h.apart.append rfl)
    intro q' id' fd' b len result hread
    exact requests_of_update hread (by simp)
  | readFailed hq => exact h.finish _ (h.apart.invoked (h.executed _ _ _ _ _ _ hq))
  | readDone hq hst =>
    rw [h.load hq hst]
    exact h.finish _ (h.apart.invoked (h.executed _ _ _ _ _ _ hq))
  | readWild hq hst hlen =>
    have hlength := congrArg List.length (h.load hq hst)
    rw [List.length_take] at hlength
    omega
  | closed hq hst =>
    refine h.closed hst rfl ?_ ?_ ?_ rfl rfl
    · intro q' id' fd' b len result hread
      exact ⟨hrefs.state_ne (inFlight_of_requests hq) rfl (inFlight_of_requests hread),
        requests_of_update hread (by simp)⟩
    · simp [State.bufferOf]
    · intro id' hne
      simp [State.bufferOf, Function.update_of_ne hne]

theorem initial (inUse : ℤ → Bool) : Buffers [] (.initial inUse) := by
  constructor
  · intro q id fd b len result hq; cases hq
  · intro id b len hbuf; cases hbuf
  · intro id id' b len len' hbuf; cases hbuf
  · intro q id fd b len bytes hq; cases hq
  · intro q id fd b len result hq; cases hq
  · exact ⟨nofun, nofun, nofun⟩

end Buffers

/-- Any number of overlapping reads get what they read when those of one file have the
same length and read bytes that agree. -/
theorem reads_apart {s : State} {hist : List Output}
    (run : (fileSystem.guarded fun s a =>
      exclusive s a = true ∧ readsAlike s a = true).Reaches s hist) : ReadsApart hist := by
  have hboth : Refs s ∧ Buffers hist s := by
    induction run with
    | start h =>
      obtain ⟨inUse, rfl⟩ := h
      exact ⟨.initial inUse, .initial inUse⟩
    | next run hstep ih =>
      obtain ⟨⟨hex, halike⟩, hstep⟩ := Machine.guarded_step.mp hstep
      exact ⟨ih.1.step hex (moved hstep), ih.2.step ih.1 halike (moved hstep)⟩
  exact hboth.2.apart

/-- Two reads of two bytes that overlap; the file ends after one byte for the second. -/
theorem reads_apart_overlapping : ReadsApart [.opened 0 3, .submitted 1, .submitted 2,
    .executed 1 (.ok [72, 105]), .executed 2 (.ok [72]), .invoked 2 (.ok [72]),
    .invoked 1 (.ok [72, 105])] := by
  let labels : List Label := [.openFile, .executeOpen 0 3, .deliver 0 fun _ => 0,
    .readFile 3 2 fun _ => 0, .readFile 3 2 fun _ => 0, .executeRead 1 (.ok [72, 105]),
    .executeRead 2 (.ok [72]), .deliver 2 fun _ => 0, .deliver 1 fun _ => 0]
  exact reads_apart (Machine.reaches_exec labels ⟨fun _ => false, rfl⟩ rfl)

/-- A read with another length frees the buffer that the first one stores into. -/
theorem read_stores_into_freed : ∃ s hist, fileSystem.Reaches s hist ∧ ¬ ReadsApart hist := by
  let labels : List Label := [.openFile, .executeOpen 0 3, .deliver 0 fun _ => 0,
    .readFile 3 2 fun _ => 0, .readFile 3 4 fun _ => 0, .executeRead 1 (.ok [72, 105])]
  refine ⟨_, _, Machine.reaches_exec labels ⟨fun _ => false, rfl⟩ rfl, fun h => ?_⟩
  exact h.stores 1 (by simp)

end CapyJs.Fs
