import CapyJs.Http.Request
import CapyJs.Parse.Incremental
import Mathlib.Data.List.DropRight

/-!
# The vendored request parser

`phr_parse_request` and the functions it calls, with the loops of both builds: with
SSE 4.2 bytes are looked at in blocks of 16, without it a header value is read 8 bytes
at a time. The state of a parser is what lies between `buf` and `buf_end`.
-/
namespace CapyJs.Http.Pico

open CapyJs.Parse Parser

def isPrintableAscii (c : UInt8) : Bool := c - 32 < 95

/-- `token_char_map`, 32 entries a line as in the source. -/
def tokenCharMap : List ℕ :=
  [0, 0, 0, 0, 0, 0, 0, 0, 0, 0, 0, 0, 0, 0, 0, 0, 0, 0, 0, 0, 0, 0, 0, 0, 0, 0, 0, 0, 0, 0, 0, 0,
   0, 1, 0, 1, 1, 1, 1, 1, 0, 0, 1, 1, 0, 1, 1, 0, 1, 1, 1, 1, 1, 1, 1, 1, 1, 1, 0, 0, 0, 0, 0, 0,
   0, 1, 1, 1, 1, 1, 1, 1, 1, 1, 1, 1, 1, 1, 1, 1, 1, 1, 1, 1, 1, 1, 1, 1, 1, 1, 1, 0, 0, 0, 1, 1,
   1, 1, 1, 1, 1, 1, 1, 1, 1, 1, 1, 1, 1, 1, 1, 1, 1, 1, 1, 1, 1, 1, 1, 1, 1, 1, 1, 0, 1, 0, 1, 0,
   0, 0, 0, 0, 0, 0, 0, 0, 0, 0, 0, 0, 0, 0, 0, 0, 0, 0, 0, 0, 0, 0, 0, 0, 0, 0, 0, 0, 0, 0, 0, 0,
   0, 0, 0, 0, 0, 0, 0, 0, 0, 0, 0, 0, 0, 0, 0, 0, 0, 0, 0, 0, 0, 0, 0, 0, 0, 0, 0, 0, 0, 0, 0, 0,
   0, 0, 0, 0, 0, 0, 0, 0, 0, 0, 0, 0, 0, 0, 0, 0, 0, 0, 0, 0, 0, 0, 0, 0, 0, 0, 0, 0, 0, 0, 0, 0,
   0, 0, 0, 0, 0, 0, 0, 0, 0, 0, 0, 0, 0, 0, 0, 0, 0, 0, 0, 0, 0, 0, 0, 0, 0, 0, 0, 0, 0, 0, 0, 0]

def isTokenChar (c : UInt8) : Bool := tokenCharMap.getD c.toNat 0 != 0

def isBlank (c : UInt8) : Bool := c == 32 || c == 9

/-- The bytes that end a header value. -/
def isControl (c : UInt8) : Bool := (c < 32 && c != 9) || c == 127

/-! ## Looking at many bytes at once -/

def inRanges (ranges : List (ℕ × ℕ)) (c : UInt8) : Bool :=
  ranges.any fun r => r.1 ≤ c.toNat && c.toNat ≤ r.2

/-- Where a scan has come to: the bytes it passed, the rest, and whether it has found
what it looks for. -/
structure Scan where
  passed : Text
  buf : Text
  found : Bool
  deriving DecidableEq, Repr

def Scan.after (front : Text) (scan : Scan) : Scan := { scan with passed := front ++ scan.passed }

/-- The loop of `findchar_fast` over whole blocks of 16 bytes. -/
def findcharBlocks (ranges : List (ℕ × ℕ)) : (blocks : ℕ) → Text → Scan
  | 0, buf => ⟨[], buf, false⟩
  | blocks + 1, buf =>
    match (buf.take 16).findIdx? (inRanges ranges) with
    | some r => ⟨buf.take r, buf.drop r, true⟩
    | none => (findcharBlocks ranges blocks (buf.drop 16)).after (buf.take 16)

/-- Without SSE 4.2 nothing is passed. -/
def findcharFast (sse : Bool) (ranges : List (ℕ × ℕ)) (buf : Text) : Scan :=
  if sse then findcharBlocks ranges (buf.length / 16) buf else ⟨[], buf, false⟩

/-- The loop of `get_token_to_eol` over at least 8 bytes in the build without SSE 4.2.
Every turn passes at least one byte. -/
def printableBlocks : (turns : ℕ) → Text → Scan
  | 0, buf => ⟨[], buf, false⟩
  | turns + 1, buf =>
    if buf.length < 8 then ⟨[], buf, false⟩
    else
      match (buf.take 8).findIdx? fun c => !isPrintableAscii c with
      | none => (printableBlocks turns (buf.drop 8)).after (buf.take 8)
      | some r =>
        if isControl (buf.getD r 0) then ⟨buf.take r, buf.drop r, true⟩
        else (printableBlocks turns (buf.drop (r + 1))).after (buf.take (r + 1))

/-! ## The parser -/

/-- The loop of `parse_token` and `ADVANCE_TOKEN`: up to the byte `next`, over bytes that
are not bad. -/
def tokenLoop (next : UInt8) (bad : UInt8 → Bool) : Text → Except Stop (Text × Text)
  | [] => .error .overrun
  | c :: rest =>
    if c = next then .ok ([], c :: rest)
    else if bad c then .error .malformed
    else if rest = [] then .error .incomplete
    else (tokenLoop next bad rest).map fun r => (c :: r.1, r.2)

def scanToken (sse : Bool) (ranges : List (ℕ × ℕ)) (next : UInt8) (bad : UInt8 → Bool) :
    Parser UInt8 Text := fun buf =>
  let scan := findcharFast sse ranges buf
  if !scan.found && scan.buf.isEmpty then .error .incomplete
  else (tokenLoop next bad scan.buf).map fun r => (scan.passed ++ r.1, r.2)

/-- `|` and `~` are in the last range, but they are token characters. -/
def tokenRanges : List (ℕ × ℕ) :=
  [(0, 32), (34, 34), (40, 41), (44, 44), (47, 47), (58, 64), (91, 93), (123, 255)]

def parseToken (sse : Bool) (next : UInt8) : Parser UInt8 Text :=
  scanToken sse tokenRanges next fun c => !isTokenChar c

def isBadInPath (c : UInt8) : Bool := !isPrintableAscii c && (c < 32 || c == 127)

def advanceToken (sse : Bool) : Parser UInt8 Text :=
  scanToken sse [(0, 32), (127, 127)] 32 isBadInPath

def expectCharNoCheck (ch : UInt8) : Parser UInt8 Unit := do
  let c ← current
  advance
  if c = ch then pure ⟨⟩ else throw .malformed

def expectChar (ch : UInt8) : Parser UInt8 Unit := do
  checkEof
  expectCharNoCheck ch

/-- Passes LF or CR LF, or says that there is neither. -/
def lineEnd : Parser UInt8 Bool := do
  let c ← current
  if c = 13 then do
    advance
    expectChar 10
    pure true
  else if c = 10 then do
    advance
    pure true
  else pure false

/-- The loop at the end of `get_token_to_eol`. -/
def eolLoop : Text → Except Stop (Text × Text)
  | [] => .error .incomplete
  | c :: rest =>
    if !isPrintableAscii c && isControl c then .ok ([], c :: rest)
    else (eolLoop rest).map fun r => (c :: r.1, r.2)

def controlRanges : List (ℕ × ℕ) := [(0, 8), (10, 31), (127, 127)]

/-- `get_token_to_eol` up to its label `FOUND_CTL`. -/
def toControl (sse : Bool) : Parser UInt8 Text := fun buf =>
  let scan :=
    if sse then findcharFast sse controlRanges buf
    else printableBlocks buf.length buf
  if scan.found then .ok (scan.passed, scan.buf)
  else (eolLoop scan.buf).map fun r => (scan.passed ++ r.1, r.2)

def getTokenToEol (sse : Bool) : Parser UInt8 Text := do
  let token ← toControl sse
  let ended ← lineEnd
  if ended then pure token else throw .malformed

/-- Passes bytes as long as they are to be skipped. -/
def skipWhile (skip : UInt8 → Bool) : Text → Except Stop (Unit × Text)
  | [] => .error .incomplete
  | c :: rest => if skip c then skipWhile skip rest else .ok (⟨⟩, c :: rest)

/-- `PARSE_INT` with the factor 1. -/
def parseInt : Parser UInt8 ℕ := do
  let c ← current
  if c < 48 ∨ 57 < c then throw .malformed
  else do
    advance
    pure (c.toNat - 48)

def parseHttpVersion : Parser UInt8 ℕ := atLeast 9 do
  expectCharNoCheck 72
  expectCharNoCheck 84
  expectCharNoCheck 84
  expectCharNoCheck 80
  expectCharNoCheck 47
  expectCharNoCheck 49
  expectCharNoCheck 46
  parseInt

def parseFieldName (sse : Bool) : Parser UInt8 Text := do
  let name ← parseToken sse 58
  if name = [] then throw .malformed
  else do
    advance
    skipWhile isBlank
    pure name

/-- A line that begins with a blank continues the header before it and gets no name; the
first line cannot. -/
def parseHeaderName (sse first : Bool) : Parser UInt8 Text := do
  let c ← current
  if first || !isBlank c then parseFieldName sse else pure []

/-- One turn of `parse_headers`. -/
def parseHeader (sse first : Bool) : Parser UInt8 Header := do
  let name ← parseHeaderName sse first
  let value ← getTokenToEol sse
  pure ⟨name, value.rdropWhile isBlank⟩

/-- `left` is `max_headers - *num_headers`. -/
def parseHeaders (sse : Bool) : (left : ℕ) → (first : Bool) → Parser UInt8 (List Header)
  | left, first => do
    checkEof
    let ended ← lineEnd
    if ended then pure []
    else
      match left with
      | 0 => throw .malformed
      | left + 1 => do
        let header ← parseHeader sse first
        let headers ← parseHeaders sse left false
        pure (header :: headers)

structure Parsed where
  method : Text
  path : Text
  minorVersion : ℕ
  headers : List Header
  deriving DecidableEq, Repr

def skipSpaces : Parser UInt8 Unit := do
  advance
  skipWhile (· == 32)

def parseRequest (sse : Bool) (maxHeaders : ℕ) : Parser UInt8 Parsed := do
  checkEof
  let _ ← lineEnd
  let method ← parseToken sse 32
  skipSpaces
  let path ← advanceToken sse
  skipSpaces
  if method = [] ∨ path = [] then throw .malformed
  else do
    let minorVersion ← parseHttpVersion
    let ended ← lineEnd
    if ended then do
      let headers ← parseHeaders sse maxHeaders true
      pure ⟨method, path, minorVersion, headers⟩
    else throw .malformed

/-- `phr_parse_request` with `last_len = 0`, as the server calls it. -/
def phrParseRequest (sse : Bool) (maxHeaders : ℕ) (buf : Text) : PhrResult :=
  match parseRequest sse maxHeaders buf with
  | .ok (req, rest) => .request (buf.length - rest.length) req.method req.path req.headers
  | .error .incomplete => .incomplete
  | .error _ => .malformed

/-! ## Bytes -/

/-- A property of bytes holds when it holds of the 256 of them. -/
theorem forall_byte {p : UInt8 → Prop} (h : ∀ n < 256, p (UInt8.ofNat n)) (c : UInt8) : p c := by
  have hc := h c.toNat c.toNat_lt
  rwa [UInt8.ofNat_toNat] at hc

theorem isControl_of_isPrintableAscii :
    ∀ c, isPrintableAscii c → isControl c = false :=
  forall_byte (by decide +kernel)

theorem inRanges_controlRanges : ∀ c, inRanges controlRanges c = isControl c :=
  forall_byte (by decide +kernel)

/-- A property of the entries of the table holds at every byte. -/
theorem tokenCharMap_getD {p : ℕ → ℕ → Prop} (h : ∀ e ∈ tokenCharMap.zipIdx, p e.1 e.2)
    (c : UInt8) : p (tokenCharMap.getD c.toNat 0) c.toNat := by
  have hlength : tokenCharMap.length = 256 := by decide +kernel
  have hlt : c.toNat < tokenCharMap.length := hlength ▸ c.toNat_lt
  have hentry : (tokenCharMap.getD c.toNat 0, c.toNat) ∈ tokenCharMap.zipIdx :=
    List.mk_mem_zipIdx_iff_getElem?.mpr (by simp [hlt])
  exact h _ hentry

theorem inRanges_of_not_isTokenChar {c : UInt8} (h : isTokenChar c = false) :
    inRanges tokenRanges c := by
  have hentry := tokenCharMap_getD (p := fun entry n => entry = 0 →
    tokenRanges.any fun r => r.1 ≤ n && n ≤ r.2) (by decide +kernel) c
  exact hentry (by simpa [isTokenChar] using h)

theorem inRanges_of_isBadInPath : ∀ c, isBadInPath c → inRanges [(0, 32), (127, 127)] c :=
  forall_byte (by decide +kernel)

/-! ## Both builds read up to the same bytes -/

/-- A scan has passed only bytes it does not look for. -/
structure Scan.Sound (target : UInt8 → Bool) (buf : Text) (scan : Scan) : Prop where
  split : buf = scan.passed ++ scan.buf
  passed : ∀ c ∈ scan.passed, target c = false
  found : scan.found → ∃ c tail, scan.buf = c :: tail ∧ target c

namespace Scan.Sound
variable {target : UInt8 → Bool} {buf front : Text} {scan : Scan}

theorem nothing (target : UInt8 → Bool) (buf : Text) : Scan.Sound target buf ⟨[], buf, false⟩ :=
  ⟨rfl, by simp, by simp⟩

theorem after (h : Scan.Sound target buf scan) (hfront : ∀ c ∈ front, target c = false) :
    Scan.Sound target (front ++ buf) (scan.after front) where
  split := by
    rw [h.split]
    simp [Scan.after]
  passed c hc := (List.mem_append.mp hc).elim (hfront c) (h.passed c)
  found := h.found

/-- The first hit in a block at the front. -/
theorem of_findIdx? {n r : ℕ} (h : (buf.take n).findIdx? target = some r) :
    Scan.Sound target buf ⟨buf.take r, buf.drop r, true⟩ := by
  obtain ⟨hr, hhit, hbefore⟩ := List.findIdx?_eq_some_iff_getElem.mp h
  rw [List.length_take] at hr
  refine ⟨(List.take_append_drop r buf).symm, ?_, fun _ => ?_⟩
  · intro c hc
    obtain ⟨i, hi, rfl⟩ := List.mem_iff_getElem.mp hc
    rw [List.length_take] at hi
    have hmiss := hbefore i (by omega)
    simpa using hmiss
  · have hlt : r < buf.length := by omega
    refine ⟨buf[r], buf.drop (r + 1), List.drop_eq_getElem_cons hlt, ?_⟩
    simpa using hhit

/-- Passing the same bytes by single steps ends at the same place. -/
theorem upTo_eq (h : Scan.Sound target buf scan) {halt : UInt8 → Bool}
    (hhalt : ∀ c, halt c → target c) :
    upTo halt buf = (upTo halt scan.buf).map fun r => (scan.passed ++ r.1, r.2) := by
  rw [h.split]
  apply upTo_append
  intro c hc
  have hmiss := h.passed c hc
  cases hc' : halt c with
  | false => rfl
  | true => rw [hhalt c hc'] at hmiss; cases hmiss

end Scan.Sound

theorem findcharBlocks_sound (ranges : List (ℕ × ℕ)) (blocks : ℕ) (buf : Text) :
    (findcharBlocks ranges blocks buf).Sound (inRanges ranges) buf := by
  induction blocks generalizing buf with
  | zero => exact .nothing _ buf
  | succ blocks ih =>
    rw [findcharBlocks]
    split
    · next r hr => exact .of_findIdx? hr
    · next hr =>
      have hmiss : ∀ c ∈ buf.take 16, inRanges ranges c = false :=
        List.findIdx?_eq_none_iff.mp hr
      have hsound := (ih (buf.drop 16)).after hmiss
      rwa [List.take_append_drop] at hsound

theorem findcharFast_sound (sse : Bool) (ranges : List (ℕ × ℕ)) (buf : Text) :
    (findcharFast sse ranges buf).Sound (inRanges ranges) buf := by
  rw [findcharFast]
  split_ifs
  · exact findcharBlocks_sound ranges _ buf
  · exact .nothing _ buf

theorem printableBlocks_sound (turns : ℕ) (buf : Text) :
    (printableBlocks turns buf).Sound isControl buf := by
  induction turns generalizing buf with
  | zero => exact .nothing _ buf
  | succ turns ih =>
    rw [printableBlocks]
    split_ifs with hlen
    · exact .nothing _ buf
    · split
      · next hall =>
        have hmiss : ∀ c ∈ buf.take 8, isControl c = false := by
          intro c hc
          have hprint := List.findIdx?_eq_none_iff.mp hall c hc
          exact isControl_of_isPrintableAscii c (by simpa using hprint)
        have hsound := (ih (buf.drop 8)).after hmiss
        rwa [List.take_append_drop] at hsound
      · next r hr =>
        -- the bytes before the first that is not printable are no control characters
        have hscan := Scan.Sound.of_findIdx? hr
        obtain ⟨c, tail, hbuf, -⟩ := hscan.found rfl
        have hdrop : buf.drop r = c :: tail := hbuf
        have hmiss : ∀ d ∈ buf.take r, isControl d = false := by
          intro d hd
          have hprint := hscan.passed d hd
          exact isControl_of_isPrintableAscii d (by simpa using hprint)
        have hget : buf.getD r 0 = c := by
          rw [List.getD_eq_getElem?_getD, ← List.head?_drop, hdrop]
          rfl
        rw [hget]
        split_ifs with hc
        · exact ⟨hscan.split, hmiss, fun _ => ⟨c, tail, hdrop, hc⟩⟩
        · have hnext : ∀ d ∈ buf.take (r + 1), isControl d = false := by
            intro d hd
            have htake : buf.take (r + 1) = buf.take r ++ [c] := by
              rw [List.take_add, hdrop]
              rfl
            rw [htake] at hd
            rcases List.mem_append.mp hd with hd | hd
            · exact hmiss d hd
            · rw [List.mem_singleton.mp hd]
              exact Bool.eq_false_iff.mpr hc
          have hsound := (ih (buf.drop (r + 1))).after hnext
          rwa [List.take_append_drop] at hsound

theorem eolLoop_eq (buf : Text) : eolLoop buf = upTo isControl buf := by
  induction buf with
  | nil => rfl
  | cons c rest ih =>
    have hcond : (!isPrintableAscii c && isControl c) = isControl c := by
      cases hc : isPrintableAscii c with
      | false => rfl
      | true => rw [isControl_of_isPrintableAscii c hc]; rfl
    rw [eolLoop, upTo, hcond, ih]

theorem toControl_eq (sse : Bool) : toControl sse = upTo isControl := by
  funext buf
  have hscan : ∀ scan : Scan, scan.Sound isControl buf →
      (if scan.found then .ok (scan.passed, scan.buf)
        else (eolLoop scan.buf).map fun r => (scan.passed ++ r.1, r.2)) = upTo isControl buf := by
    intro scan h
    rw [h.upTo_eq fun _ hc => hc]
    split_ifs with hfound
    · obtain ⟨c, tail, hbuf, hc⟩ := h.found hfound
      rw [hbuf, upTo, if_pos hc]
      simp [Except.map]
    · rw [eolLoop_eq]
  cases sse with
  | false => exact hscan _ (printableBlocks_sound _ buf)
  | true =>
    apply hscan
    have hsound := findcharFast_sound true controlRanges buf
    rwa [funext inRanges_controlRanges] at hsound

/-- What `scanToken` does, byte by byte. -/
def tokenUpTo (next : UInt8) (bad : UInt8 → Bool) : Parser UInt8 Text := do
  let token ← upTo fun c => c == next || bad c
  let c ← current
  if c = next then pure token else throw .malformed

theorem tokenUpTo_append {next : UInt8} {bad : UInt8 → Bool} {front : Text}
    (h : ∀ c ∈ front, (c == next || bad c) = false) (buf : Text) :
    tokenUpTo next bad (front ++ buf) =
      (tokenUpTo next bad buf).map fun r => (front ++ r.1, r.2) := by
  simp only [tokenUpTo, bind_eq]
  rw [upTo_append h]
  cases hbuf : upTo (fun c => c == next || bad c) buf with
  | error e => rfl
  | ok x =>
    obtain ⟨-, -, c, tail, hrest, -⟩ := upTo_ok_iff.mp hbuf
    simp only [Except.map, Except.bind, hrest, current]
    split_ifs <;> rfl

theorem tokenLoop_eq (next : UInt8) (bad : UInt8 → Bool) {buf : Text} (h : buf ≠ []) :
    tokenLoop next bad buf = tokenUpTo next bad buf := by
  induction buf with
  | nil => exact absurd rfl h
  | cons c rest ih =>
    rw [tokenLoop]
    split_ifs with hnext hbad hrest
    · subst hnext
      simp [tokenUpTo, bind_eq, upTo, Except.bind, current]
      rfl
    · simp [tokenUpTo, bind_eq, upTo, hbad, Except.bind, current, hnext]
      rfl
    · subst hrest
      simp [tokenUpTo, bind_eq, upTo, hbad, Except.bind, Except.map, hnext]
    · have hmiss : ∀ b ∈ [c], (b == next || bad b) = false := by simp [hnext, hbad]
      rw [ih hrest]
      exact (tokenUpTo_append hmiss rest).symm

theorem scanToken_eq (sse : Bool) {ranges : List (ℕ × ℕ)} {next : UInt8}
    {bad : UInt8 → Bool} (hnext : inRanges ranges next) (hbad : ∀ c, bad c → inRanges ranges c) :
    scanToken sse ranges next bad = tokenUpTo next bad := by
  funext buf
  have hsound := findcharFast_sound sse ranges buf
  have hmiss : ∀ c ∈ (findcharFast sse ranges buf).passed, (c == next || bad c) = false := by
    intro c hc
    have hout := hsound.passed c hc
    by_contra hstop
    have hin : inRanges ranges c := by
      rcases Bool.or_eq_true_iff.mp (Bool.not_eq_false _ ▸ hstop) with heq | hb
      · rw [beq_iff_eq.mp heq]
        exact hnext
      · exact hbad c hb
    rw [hin] at hout
    cases hout
  have hbuf := tokenUpTo_append hmiss (findcharFast sse ranges buf).buf
  rw [← hsound.split] at hbuf
  rw [hbuf, scanToken]
  by_cases hempty : (findcharFast sse ranges buf).buf = []
  · have hfound : (findcharFast sse ranges buf).found = false := by
      by_contra hfound
      obtain ⟨c, tail, hcons, -⟩ := hsound.found (Bool.not_eq_false _ ▸ hfound)
      rw [hempty] at hcons
      cases hcons
    simp [hempty, hfound, tokenUpTo, bind_eq, upTo, Except.bind, Except.map]
  · simp [hempty, tokenLoop_eq next bad hempty]

theorem parseToken_eq (sse : Bool) {next : UInt8} (hnext : next = 32 ∨ next = 58) :
    parseToken sse next = tokenUpTo next fun c => !isTokenChar c := by
  apply scanToken_eq
  · rcases hnext with rfl | rfl <;> rfl
  · intro c hc
    exact inRanges_of_not_isTokenChar (by simpa using hc)

theorem advanceToken_eq (sse : Bool) : advanceToken sse = tokenUpTo 32 isBadInPath :=
  scanToken_eq sse rfl inRanges_of_isBadInPath

theorem parseHeaders_build (sse : Bool) (left : ℕ) (first : Bool) :
    parseHeaders sse left first = parseHeaders false left first := by
  have htoken : parseToken sse 58 = parseToken false 58 := by
    rw [parseToken_eq sse (.inr rfl), parseToken_eq false (.inr rfl)]
  have hvalue : getTokenToEol sse = getTokenToEol false := by
    rw [getTokenToEol, getTokenToEol, toControl_eq sse, toControl_eq false]
  have hheader : ∀ first, parseHeader sse first = parseHeader false first := by
    intro first
    simp only [parseHeader, parseHeaderName, parseFieldName, htoken, hvalue]
  induction left generalizing first with
  | zero => rfl
  | succ left ih =>
    rw [parseHeaders, parseHeaders]
    simp only [hheader, ih]

/-- The build with SSE 4.2 and the one without answer the same. -/
theorem phrParseRequest_builds_agree (maxHeaders : ℕ) (buf : Text) :
    phrParseRequest true maxHeaders buf = phrParseRequest false maxHeaders buf := by
  have hmethod : parseToken true 32 = parseToken false 32 := by
    rw [parseToken_eq true (.inl rfl), parseToken_eq false (.inl rfl)]
  have hpath : advanceToken true = advanceToken false := by
    rw [advanceToken_eq, advanceToken_eq]
  rw [phrParseRequest, phrParseRequest, parseRequest, parseRequest, hmethod, hpath]
  simp only [parseHeaders_build true]

/-! ## More bytes change nothing that is decided -/

theorem tokenUpTo_incremental {P : Text → Prop} (next : UInt8) (bad : UInt8 → Bool) :
    Incremental P (tokenUpTo next bad) fun _ s => s ≠ [] := by
  have hstopped : ∀ s : Text, (∃ c tail, s = c :: tail ∧ (c == next || bad c)) → s ≠ [] := by
    rintro s ⟨c, tail, rfl, -⟩
    exact List.cons_ne_nil c tail
  refine .bind (.upTo _) fun token => .bind (.current hstopped) fun c => ?_
  exact .ite (fun _ => .pure fun s h => hstopped s h.2) fun _ => .malformed

theorem parseToken_incremental {P : Text → Prop} (sse : Bool) {next : UInt8}
    (hnext : next = 32 ∨ next = 58) : Incremental P (parseToken sse next) fun _ s => s ≠ [] := by
  rw [parseToken_eq sse hnext]
  exact tokenUpTo_incremental next _

theorem ne_nil_of_lt {n : ℕ} (s : Text) (h : n < s.length) : s ≠ [] :=
  List.length_pos_iff.mp (Nat.zero_lt_of_lt h)

theorem expectCharNoCheck_incremental (ch : UInt8) (n : ℕ) :
    Incremental (n < ·.length) (expectCharNoCheck ch) fun _ s => n ≤ s.length := by
  refine .bind (.current ne_nil_of_lt) fun c => .bind (.advance fun _ h => h.2) fun _ => ?_
  exact .ite (fun _ => .pure fun _ h => h) fun _ => .malformed

theorem expectChar_incremental {P : Text → Prop} (ch : UInt8) :
    Incremental P (expectChar ch) fun _ _ => True :=
  .bind .checkEof fun _ => (expectCharNoCheck_incremental ch 0).mono
    (fun _ h => List.length_pos_iff.mpr h.1) fun _ _ _ => trivial

theorem lineEnd_incremental :
    Incremental (· ≠ []) lineEnd fun ended s => ended = false → s ≠ [] := by
  have hadvance : ∀ c : UInt8, Incremental (fun s => s.head? = some c ∧ s ≠ []) advance
      fun _ s => 0 ≤ s.length := fun _ => .advance fun _ h => List.length_pos_iff.mpr h.2
  refine .bind (.current fun _ h => h) fun c => .ite (fun _ => ?_) fun _ => .ite (fun _ => ?_) ?_
  · exact .bind (hadvance c) fun _ => .bind (expectChar_incremental 10) fun _ => .pure (by simp)
  · exact .bind (hadvance c) fun _ => .pure (by simp)
  · exact fun _ => .pure fun _ h _ => h.2

theorem skipWhile_eq (skip : UInt8 → Bool) : skipWhile skip =
    ((upTo fun c => !skip c : Parser UInt8 Text) >>= fun _ => pure ⟨⟩ : Parser UInt8 Unit) := by
  funext buf
  induction buf with
  | nil => rfl
  | cons c rest ih =>
    rw [bind_eq] at ih ⊢
    rw [skipWhile, upTo]
    cases skip c with
    | false => rfl
    | true =>
      simp only [if_true, ih, Bool.not_true, Bool.false_eq_true, if_false]
      cases upTo (fun c => !skip c) rest <;> rfl

theorem skipWhile_incremental {P : Text → Prop} (skip : UInt8 → Bool) :
    Incremental P (skipWhile skip) fun _ s => s ≠ [] := by
  rw [skipWhile_eq]
  refine .bind (.upTo _) fun _ => .pure ?_
  rintro s ⟨c, tail, rfl, -⟩
  exact List.cons_ne_nil c tail

theorem skipSpaces_incremental : Incremental (· ≠ []) skipSpaces fun _ s => s ≠ [] :=
  .bind (.advance fun _ h => List.length_pos_iff.mpr h) fun _ => skipWhile_incremental _

theorem getTokenToEol_incremental {P : Text → Prop} (sse : Bool) :
    Incremental P (getTokenToEol sse) fun _ _ => True := by
  rw [getTokenToEol, toControl_eq]
  refine .bind (.upTo _) fun token => .bind (lineEnd_incremental.mono ?_ fun _ _ h => h) fun _ => ?_
  · rintro s ⟨c, tail, rfl, -⟩
    exact List.cons_ne_nil c tail
  · exact .ite (fun _ => .pure fun _ _ => trivial) fun _ => .malformed

theorem parseInt_incremental (n : ℕ) :
    Incremental (n < ·.length) parseInt fun _ s => n ≤ s.length := by
  refine .bind (.current ne_nil_of_lt) fun c => .ite (fun _ => .malformed) fun _ => ?_
  exact .bind (.advance fun _ h => h.2) fun _ => .pure fun _ h => h

/-- The nine bytes that are asked for are enough for the eight that are read and one more. -/
theorem parseHttpVersion_incremental {P : Text → Prop} :
    Incremental P parseHttpVersion fun _ s => s ≠ [] := by
  refine .atLeast ?_
  refine .bind (expectCharNoCheck_incremental 72 8) fun _ => ?_
  refine .bind (expectCharNoCheck_incremental 84 7) fun _ => ?_
  refine .bind (expectCharNoCheck_incremental 84 6) fun _ => ?_
  refine .bind (expectCharNoCheck_incremental 80 5) fun _ => ?_
  refine .bind (expectCharNoCheck_incremental 47 4) fun _ => ?_
  refine .bind (expectCharNoCheck_incremental 49 3) fun _ => ?_
  refine .bind (expectCharNoCheck_incremental 46 2) fun _ => ?_
  exact (parseInt_incremental 1).mono (fun _ h => h) fun _ => ne_nil_of_lt

theorem parseHeader_incremental (sse first : Bool) :
    Incremental (· ≠ []) (parseHeader sse first) fun _ _ => True := by
  have hfield : ∀ c : UInt8, Incremental (fun s => s.head? = some c ∧ s ≠ []) (parseFieldName sse)
      fun _ _ => True := by
    intro c
    refine .bind (parseToken_incremental sse (.inr rfl)) fun name => .ite (fun _ => .malformed) ?_
    intro _
    refine .bind (.advance fun _ h => List.length_pos_iff.mpr h) fun _ => ?_
    exact .bind (skipWhile_incremental _) fun _ => .pure fun _ _ => trivial
  have hname : Incremental (· ≠ []) (parseHeaderName sse first) fun _ _ => True :=
    .bind (.current fun _ h => h) fun c => .ite (fun _ => hfield c) fun _ =>
      .pure fun _ _ => trivial
  exact .bind hname fun name => .bind (getTokenToEol_incremental sse) fun value =>
    .pure fun _ _ => trivial

theorem parseHeaders_incremental {P : Text → Prop} (sse : Bool) (left : ℕ) (first : Bool) :
    Incremental P (parseHeaders sse left first) fun _ _ => True := by
  induction left generalizing P first with
  | zero =>
    rw [parseHeaders]
    refine .bind .checkEof fun _ => ?_
    refine .bind (lineEnd_incremental.mono (fun _ h => h.1) fun _ _ h => h) fun ended => ?_
    exact .ite (fun _ => .pure fun _ _ => trivial) fun _ => .malformed
  | succ left ih =>
    rw [parseHeaders]
    refine .bind .checkEof fun _ => ?_
    refine .bind (lineEnd_incremental.mono (fun _ h => h.1) fun _ _ h => h) fun ended => ?_
    refine .ite (fun _ => .pure fun _ _ => trivial) fun hended => ?_
    refine .bind ((parseHeader_incremental sse first).mono ?_ fun _ _ h => h) fun header => ?_
    · exact fun s h => h (Bool.eq_false_iff.mpr hended)
    · exact .bind (ih false) fun headers => .pure fun _ _ => trivial

theorem parseRequest_incremental (sse : Bool) (maxHeaders : ℕ) :
    Incremental (fun _ => True) (parseRequest sse maxHeaders) fun _ _ => True := by
  refine .bind .checkEof fun _ => ?_
  refine .bind (lineEnd_incremental.mono (fun _ h => h.1) fun _ _ h => h) fun _ => ?_
  refine .bind (parseToken_incremental sse (.inl rfl)) fun method => ?_
  refine .bind skipSpaces_incremental fun _ => ?_
  rw [advanceToken_eq]
  refine .bind (tokenUpTo_incremental _ _) fun path => .bind skipSpaces_incremental fun _ => ?_
  refine .ite (fun _ => .malformed) fun _ => .bind parseHttpVersion_incremental fun minor => ?_
  refine .bind lineEnd_incremental fun ended => .ite (fun _ => ?_) fun _ => .malformed
  exact .bind (parseHeaders_incremental sse maxHeaders true) fun headers => .pure fun _ _ => trivial

end CapyJs.Http.Pico
