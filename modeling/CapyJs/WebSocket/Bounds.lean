import CapyJs.WebSocket.Frame

/-!
# Which bytes the frame parser touches

`parseFrame` adds the announced payload length to the offset of the payload before it
compares the sum with the length of the buffer, and the sum is a `size_t`. The 64-bit form
can announce a length that carries it past 2^64. The parser stays inside its buffer for
every input but those.
-/
namespace CapyJs.WebSocket

/-- The indices that `parseFrame` reads or writes, in the order of the source. The loop
over the payload reads a byte of the key and updates a byte in place. -/
def accesses : List UInt8 → List ℕ
  | b0 :: b1 :: tail =>
    let data := b0 :: b1 :: tail
    let masked := b1 &&& 0x80 != 0
    [0, 0, 1, 1] ++
      match payloadLength data (b1 &&& 0x7F).toNat with
      | none => []
      | some (payloadLen, maskOffset) =>
        let offset := if masked then maskOffset + 4 else maskOffset
        let total := (offset + payloadLen) % wordSize
        -- the bytes of the length field
        List.range' 2 (maskOffset - 2) ++
          if data.length < total then []
          else if masked then
            (List.range payloadLen).flatMap fun i => [maskOffset + i % 4, offset + i]
          else []
  | _ => []

/-- No access leaves the buffer, and a frame that is returned lies in the bytes consumed. -/
def StaysInside (data : List UInt8) : Prop :=
  (∀ i ∈ accesses data, i < data.length) ∧
    ∀ n f data', parseFrame data = some (.done n f data') → 0 < n →
      n ≤ data.length ∧ f.payload + f.len = n ∧ f.len + 2 ≤ n

/-- The number that bytes stand for, most significant first. -/
def bigEndianValue (bytes : List UInt8) : ℕ := bytes.foldl (fun acc b => acc * 256 + b.toNat) 0

/-- The 64-bit length field is complete, and the frame it announces ends past 2^64 by no more
than the length of the buffer. A frame without a mask that ends at 2^64 itself is excepted:
the sum is then 0, which is the answer for a frame that is not complete. -/
def EndsPastWord : List UInt8 → Prop
  | _ :: b1 :: tail =>
    let masked := b1 &&& 0x80 != 0
    let frameEnd := (if masked then 14 else 10) + bigEndianValue (tail.take 8)
    (b1 &&& 0x7F).toNat = 127 ∧ 8 ≤ tail.length ∧ wordSize ≤ frameEnd ∧
      frameEnd ≤ wordSize + (tail.length + 2) ∧ (masked ∨ frameEnd ≠ wordSize)
  | _ => False

/-! ## The payload length -/

theorem shiftIn_of_length_le {bytes : List UInt8} (h : bytes.length ≤ 8) :
    shiftIn bytes = bigEndianValue bytes ∧ bigEndianValue bytes < 256 ^ bytes.length := by
  induction bytes using List.reverseRecOn with
  | nil => exact ⟨rfl, by decide⟩
  | append_singleton bytes b ih =>
    simp only [List.length_append, List.length_singleton] at h ⊢
    obtain ⟨heq, hlt⟩ := ih (by omega)
    have hlast : bigEndianValue (bytes ++ [b]) = bigEndianValue bytes * 256 + b.toNat := by
      simp [bigEndianValue, List.foldl_append]
    have hb := b.toNat_lt
    have hbound : bigEndianValue (bytes ++ [b]) < 256 ^ (bytes.length + 1) := by
      rw [hlast, Nat.pow_succ]
      omega
    have hword : 256 ^ (bytes.length + 1) ≤ wordSize :=
      Nat.pow_le_pow_right (by decide) (by omega : bytes.length + 1 ≤ 8)
    refine ⟨?_, hbound⟩
    rw [WireFrame.shiftIn_append_singleton, WireFrame.shiftLeft_or_toNat, heq, ← hlast,
      Nat.mod_eq_of_lt (by omega)]

/-- What the length field says, and where it ends. Only the 64-bit form is unbounded. -/
theorem payloadLength_spec {b0 b1 : UInt8} {tail : List UInt8} {payloadLen maskOffset : ℕ}
    (h : payloadLength (b0 :: b1 :: tail) (b1 &&& 0x7F).toNat = some (payloadLen, maskOffset)) :
    2 ≤ maskOffset ∧ maskOffset ≤ tail.length + 2 ∧
      ((b1 &&& 0x7F).toNat = 127 ∧ maskOffset = 10 ∧
          payloadLen = bigEndianValue (tail.take 8) ∧ payloadLen < wordSize ∨
        (b1 &&& 0x7F).toNat ≠ 127 ∧ maskOffset + payloadLen + 4 < wordSize) := by
  have hbyte : (b1 &&& 0x7F).toNat < 256 := (b1 &&& 0x7F).toNat_lt
  unfold payloadLength at h
  split_ifs at h with hmedium hfour hlong hten
  · cases h
    have hhigh := ((b0 :: b1 :: tail).getD 2 0).toNat_lt
    have hlow := ((b0 :: b1 :: tail).getD 3 0).toNat_lt
    simp only [List.length_cons] at hfour
    rw [WireFrame.shiftLeft_or_toNat]
    unfold wordSize
    omega
  · cases h
    have htake : (tail.take 8).length ≤ 8 := List.length_take_le 8 tail
    obtain ⟨hvalue, hlt⟩ := shiftIn_of_length_le htake
    have hword : 256 ^ (tail.take 8).length ≤ wordSize := Nat.pow_le_pow_right (by decide) htake
    simp only [List.length_cons] at hten
    have hdrop : ((b0 :: b1 :: tail).drop 2).take 8 = tail.take 8 := rfl
    rw [hdrop, hvalue]
    omega
  · cases h
    unfold wordSize
    omega

theorem exists_payloadLength_of_long {b0 b1 : UInt8} {tail : List UInt8}
    (hlong : (b1 &&& 0x7F).toNat = 127) (htail : 8 ≤ tail.length) :
    payloadLength (b0 :: b1 :: tail) (b1 &&& 0x7F).toNat ≠ none := by
  rw [payloadLength, hlong, if_neg (by decide), if_pos rfl,
    if_neg (by simp only [List.length_cons]; omega)]
  exact Option.some_ne_none _

theorem not_endsPastWord_of_none {b0 b1 : UInt8} {tail : List UInt8}
    (h : payloadLength (b0 :: b1 :: tail) (b1 &&& 0x7F).toNat = none) :
    ¬ EndsPastWord (b0 :: b1 :: tail) := by
  rintro ⟨hlong, htail, -⟩
  exact exists_payloadLength_of_long hlong htail h

/-! ## One input -/

section
variable {b0 b1 : UInt8} {tail : List UInt8} {payloadLen maskOffset offset : ℕ}

theorem accesses_of_none (h : payloadLength (b0 :: b1 :: tail) (b1 &&& 0x7F).toNat = none) :
    accesses (b0 :: b1 :: tail) = [0, 0, 1, 1] := by
  simp only [accesses, h, List.append_nil]

theorem staysInside_of_none
    (h : payloadLength (b0 :: b1 :: tail) (b1 &&& 0x7F).toNat = none) :
    StaysInside (b0 :: b1 :: tail) := by
  constructor
  · rw [accesses_of_none h]
    simp
  · intro n f data' hparse
    simp only [parseFrame, h] at hparse
    cases hparse

/-- The announced end of a frame is past 2^64 only in the 64-bit form. -/
theorem endsPastWord_iff
    (h : payloadLength (b0 :: b1 :: tail) (b1 &&& 0x7F).toNat = some (payloadLen, maskOffset))
    (hoffset : offset = if b1 &&& 0x80 != 0 then maskOffset + 4 else maskOffset) :
    EndsPastWord (b0 :: b1 :: tail) ↔
      wordSize ≤ offset + payloadLen ∧ offset + payloadLen ≤ wordSize + (tail.length + 2) ∧
        (b1 &&& 0x80 != 0 ∨ offset + payloadLen ≠ wordSize) := by
  obtain ⟨-, hbound, ⟨hlong, rfl, rfl, -⟩ | ⟨hshort, hlt⟩⟩ := payloadLength_spec h
  · have htail : 8 ≤ tail.length := by omega
    simp only [EndsPastWord, hlong, htail, true_and]
    rw [hoffset]
  · have hle : offset ≤ maskOffset + 4 := by
      rw [hoffset]
      split_ifs <;> omega
    constructor
    · exact fun hends => absurd hends.1 hshort
    · rintro ⟨hends, -⟩
      omega

theorem offset_lt_wordSize
    (h : payloadLength (b0 :: b1 :: tail) (b1 &&& 0x7F).toNat = some (payloadLen, maskOffset))
    (hoffset : offset = if b1 &&& 0x80 != 0 then maskOffset + 4 else maskOffset) :
    offset < wordSize ∧ payloadLen < wordSize := by
  obtain ⟨-, -, hspec⟩ := payloadLength_spec h
  have hword : 14 < wordSize := by decide
  have hle : offset ≤ maskOffset + 4 := by
    rw [hoffset]
    split_ifs <;> omega
  omega

/-- The sum wraps at most once. -/
theorem frameEnd_mod
    (h : payloadLength (b0 :: b1 :: tail) (b1 &&& 0x7F).toNat = some (payloadLen, maskOffset))
    (hoffset : offset = if b1 &&& 0x80 != 0 then maskOffset + 4 else maskOffset)
    (hends : wordSize ≤ offset + payloadLen) :
    (offset + payloadLen) % wordSize = offset + payloadLen - wordSize := by
  obtain ⟨hlt, hpayload⟩ := offset_lt_wordSize h hoffset
  rw [Nat.mod_eq_sub_mod hends, Nat.mod_eq_of_lt (by omega)]

/-- The header and its length field are read; the payload loop runs if the frame is taken
to be complete and has a mask. -/
theorem mem_accesses
    (h : payloadLength (b0 :: b1 :: tail) (b1 &&& 0x7F).toNat = some (payloadLen, maskOffset))
    (hoffset : offset = if b1 &&& 0x80 != 0 then maskOffset + 4 else maskOffset) (i : ℕ) :
    i ∈ accesses (b0 :: b1 :: tail) ↔
      i < maskOffset ∨ (offset + payloadLen) % wordSize ≤ tail.length + 2 ∧ b1 &&& 0x80 != 0 ∧
        ∃ k < payloadLen, i = maskOffset + k % 4 ∨ i = offset + k := by
  obtain ⟨htwo, -, -⟩ := payloadLength_spec h
  have hheader : (i ∈ [0, 0, 1, 1] ∨ i ∈ List.range' 2 (maskOffset - 2)) ↔ i < maskOffset := by
    rw [List.mem_range'_1]
    simp only [List.mem_cons, List.not_mem_nil, or_false]
    omega
  simp only [accesses, h, ← hoffset, List.mem_append, ← or_assoc, hheader, List.length_cons]
  by_cases htotal : tail.length + 1 + 1 < (offset + payloadLen) % wordSize
  · simp only [if_pos htotal, List.not_mem_nil]
    constructor
    · rintro (hi | hi)
      · exact .inl hi
      · exact hi.elim
    · rintro (hi | ⟨hle, -⟩)
      · exact .inl hi
      · omega
  · rw [if_neg htotal]
    have hle : (offset + payloadLen) % wordSize ≤ tail.length + 2 := by omega
    by_cases hmasked : b1 &&& 0x80 != 0
    · simp [hmasked, hle]
    · simp [hmasked]

/-- The model of the parser has no result exactly when an access leaves the buffer. -/
theorem parseFrame_isSome_iff
    (h : payloadLength (b0 :: b1 :: tail) (b1 &&& 0x7F).toNat = some (payloadLen, maskOffset))
    (hoffset : offset = if b1 &&& 0x80 != 0 then maskOffset + 4 else maskOffset) :
    (parseFrame (b0 :: b1 :: tail)).isSome ↔
      ∀ i ∈ accesses (b0 :: b1 :: tail), i < tail.length + 2 := by
  obtain ⟨-, hbound, -⟩ := payloadLength_spec h
  simp only [mem_accesses h hoffset, parseFrame, h, ← hoffset, List.length_cons]
  split_ifs with hshort hmasked
  · refine iff_of_true rfl ?_
    rintro i (hi | ⟨hle, -⟩) <;> omega
  · rw [if_pos hmasked] at hoffset
    simp only [Option.isSome_map, unmask, List.length_cons]
    split_ifs with hfits
    · refine iff_of_true rfl ?_
      rintro i (hi | ⟨-, -, k, hk, hi⟩) <;> omega
    · refine iff_of_false (by simp) ?_
      intro hinside
      have hlt := (offset_lt_wordSize h (hoffset.trans (if_pos hmasked).symm)).1
      -- a frame with no payload passes the check only when it fits
      have hpos : payloadLen ≠ 0 := by
        rintro rfl
        have hmod : (offset + 0) % wordSize = offset + 0 := Nat.mod_eq_of_lt hlt
        omega
      have hlast := hinside (offset + (payloadLen - 1)) <|
        .inr ⟨by omega, hmasked, payloadLen - 1, by omega, .inr rfl⟩
      omega
  · refine iff_of_true rfl ?_
    rintro i (hi | ⟨-, hmask, -⟩)
    · omega
    · exact absurd hmask hmasked

/-- A frame that the check takes to be incomplete is left alone. -/
theorem staysInside_of_short
    (h : payloadLength (b0 :: b1 :: tail) (b1 &&& 0x7F).toNat = some (payloadLen, maskOffset))
    (hoffset : offset = if b1 &&& 0x80 != 0 then maskOffset + 4 else maskOffset)
    (hshort : tail.length + 2 < (offset + payloadLen) % wordSize) :
    StaysInside (b0 :: b1 :: tail) := by
  obtain ⟨-, hbound, -⟩ := payloadLength_spec h
  constructor
  · intro i hi
    rw [mem_accesses h hoffset] at hi
    simp only [List.length_cons]
    omega
  · intro n f data' hparse
    simp only [parseFrame, h, ← hoffset, List.length_cons] at hparse
    rw [if_pos hshort] at hparse
    cases hparse

/-- A frame that ends before 2^64 is taken only when it is all there. -/
theorem staysInside_of_lt
    (h : payloadLength (b0 :: b1 :: tail) (b1 &&& 0x7F).toNat = some (payloadLen, maskOffset))
    (hoffset : offset = if b1 &&& 0x80 != 0 then maskOffset + 4 else maskOffset)
    (hlt : offset + payloadLen < wordSize) : StaysInside (b0 :: b1 :: tail) := by
  obtain ⟨htwo, hbound, -⟩ := payloadLength_spec h
  have hmod : (offset + payloadLen) % wordSize = offset + payloadLen := Nat.mod_eq_of_lt hlt
  have hle : maskOffset ≤ offset := by
    rw [hoffset]
    split_ifs <;> omega
  constructor
  · intro i hi
    rw [mem_accesses h hoffset, hmod] at hi
    simp only [List.length_cons]
    rcases hi with hi | ⟨hfits, hmasked, k, hk, hi⟩
    · omega
    · rw [if_pos hmasked] at hoffset
      omega
  · intro n f data' hparse hn
    simp only [parseFrame, h, ← hoffset, hmod, List.length_cons] at hparse ⊢
    split_ifs at hparse with hshort hmasked
    · cases hparse
    · obtain ⟨buffer, -, heq⟩ := Option.map_eq_some_iff.mp hparse
      cases heq
      dsimp only
      omega
    · cases hparse
      dsimp only
      omega

/-- A frame without a mask that ends at 2^64 counts as not complete. -/
theorem staysInside_of_eq
    (h : payloadLength (b0 :: b1 :: tail) (b1 &&& 0x7F).toNat = some (payloadLen, maskOffset))
    (hmasked : ¬ b1 &&& 0x80 != 0) (heq : maskOffset + payloadLen = wordSize) :
    StaysInside (b0 :: b1 :: tail) := by
  obtain ⟨-, hbound, -⟩ := payloadLength_spec h
  constructor
  · intro i hi
    rw [mem_accesses h (if_neg hmasked).symm] at hi
    simp only [List.length_cons]
    rcases hi with hi | ⟨-, hmask, -⟩
    · omega
    · exact absurd hmask hmasked
  · intro n f data' hparse hn
    simp only [parseFrame, h, if_neg hmasked, heq, Nat.mod_self] at hparse
    rw [if_neg (Nat.not_lt_zero _)] at hparse
    cases hparse
    exact absurd hn (Nat.lt_irrefl 0)

/-- Past 2^64 the check lets the frame through: the payload loop leaves the buffer or, with
no mask, the frame that is returned does. -/
theorem not_staysInside_of_le
    (h : payloadLength (b0 :: b1 :: tail) (b1 &&& 0x7F).toNat = some (payloadLen, maskOffset))
    (hoffset : offset = if b1 &&& 0x80 != 0 then maskOffset + 4 else maskOffset)
    (hlength : tail.length + 2 < wordSize)
    (hends : wordSize ≤ offset + payloadLen)
    (hsmall : offset + payloadLen ≤ wordSize + (tail.length + 2))
    (hcase : b1 &&& 0x80 != 0 ∨ offset + payloadLen ≠ wordSize) :
    ¬ StaysInside (b0 :: b1 :: tail) := by
  rintro ⟨haccesses, hframe⟩
  have hmod := frameEnd_mod h hoffset hends
  by_cases hmasked : b1 &&& 0x80 != 0
  · obtain ⟨hlt, -⟩ := offset_lt_wordSize h hoffset
    have hlast := haccesses (offset + (payloadLen - 1)) <| (mem_accesses h hoffset _).mpr <|
      .inr ⟨by omega, hmasked, payloadLen - 1, by omega, .inr rfl⟩
    simp only [List.length_cons] at hlast
    omega
  · have hparse : parseFrame (b0 :: b1 :: tail) =
        some (.done (offset + payloadLen - wordSize)
          ⟨b0 &&& 0x80 != 0, b0 &&& 0x0F, offset, payloadLen⟩ (b0 :: b1 :: tail)) := by
      simp only [parseFrame, h, ← hoffset, hmod, List.length_cons]
      rw [if_neg (by omega), if_neg hmasked]
    have hne := hcase.resolve_left hmasked
    obtain ⟨-, hsum, -⟩ := hframe _ _ _ hparse (by omega)
    dsimp only at hsum
    omega

end

/-- The parser stays inside its buffer except on frames that end past 2^64. -/
theorem parseFrame_staysInside_iff {data : List UInt8} (hlength : data.length < wordSize) :
    StaysInside data ↔ ¬ EndsPastWord data := by
  match data, hlength with
  | [], _ => exact ⟨fun _ => id, fun _ => ⟨nofun, nofun⟩⟩
  | [_], _ => exact ⟨fun _ => id, fun _ => ⟨nofun, nofun⟩⟩
  | b0 :: b1 :: tail, hlength =>
    simp only [List.length_cons] at hlength
    cases h : payloadLength (b0 :: b1 :: tail) (b1 &&& 0x7F).toNat with
    | none => exact iff_of_true (staysInside_of_none h) (not_endsPastWord_of_none h)
    | some p =>
      obtain ⟨payloadLen, maskOffset⟩ := p
      obtain ⟨offset, hoffset⟩ :
          ∃ offset, offset = if b1 &&& 0x80 != 0 then maskOffset + 4 else maskOffset := ⟨_, rfl⟩
      rw [endsPastWord_iff h hoffset]
      constructor
      · rintro hinside ⟨hends, hsmall, hcase⟩
        exact not_staysInside_of_le h hoffset hlength hends hsmall hcase hinside
      · intro hnot
        by_cases hlt : offset + payloadLen < wordSize
        · exact staysInside_of_lt h hoffset hlt
        · by_cases hsmall : offset + payloadLen ≤ wordSize + (tail.length + 2)
          · have hends : ¬ b1 &&& 0x80 != 0 ∧ offset + payloadLen = wordSize := by
              by_contra hcase
              exact hnot ⟨by omega, hsmall, by tauto⟩
            rw [if_neg hends.1] at hoffset
            exact staysInside_of_eq h hends.1 (hoffset ▸ hends.2)
          · have hmod := frameEnd_mod h hoffset (by omega)
            exact staysInside_of_short h hoffset (by omega)

theorem parseFrame_staysInside_ping :
    StaysInside [0x89, 0x80, 1, 2, 3, 4] ∧ [0x89, 0x80, 1, 2, 3, 4].length < wordSize :=
  ⟨(parseFrame_staysInside_iff (by decide)).mpr fun h => absurd h.1 (by decide), by decide⟩

/-- Fourteen bytes announce a masked payload of 2^64 - 1 bytes; the sum is 13, and the loop
runs over the memory behind the buffer. -/
theorem parseFrame_leaves_buffer :
    ¬ StaysInside [0x81, 0xFF, 0xFF, 0xFF, 0xFF, 0xFF, 0xFF, 0xFF, 0xFF, 0xFF, 1, 2, 3, 4] := by
  have hlength : payloadLength
      [0x81, 0xFF, 0xFF, 0xFF, 0xFF, 0xFF, 0xFF, 0xFF, 0xFF, 0xFF, 1, 2, 3, 4] 127 =
      some (2 ^ 64 - 1, 10) := rfl
  have hoffset : 14 = if (0xFF : UInt8) &&& 0x80 != 0 then 10 + 4 else 10 := rfl
  exact not_staysInside_of_le hlength hoffset (by decide) (by decide) (by decide) (.inl rfl)

end CapyJs.WebSocket
