import CapyJs.Http.PicoParser

/-!
# What the request parser accepts

The requests as texts: every part of a request with the conditions on its bytes. The
parser accepts exactly these texts, takes exactly their bytes off its input and gives
back their parts.
-/
namespace CapyJs.Http.Pico

open CapyJs.Parse Parser

/-! ## The bytes of a request -/

def IsLetter (c : UInt8) : Prop := 65 ≤ c ∧ c ≤ 90 ∨ 97 ≤ c ∧ c ≤ 122

instance : DecidablePred IsLetter := fun _ => inferInstanceAs (Decidable (_ ∨ _))

def IsDigit (c : UInt8) : Prop := 48 ≤ c ∧ c ≤ 57

instance : DecidablePred IsDigit := fun _ => inferInstanceAs (Decidable (_ ∧ _))

/-- The marks that may stand in a token. -/
def tokenMarks : Text := [33, 35, 36, 37, 38, 39, 42, 43, 45, 46, 94, 95, 96, 124, 126]

example : tokenMarks = ascii "!#$%&'*+-.^_`|~" := by decide

/-- The bytes of a method and of the name of a header. -/
def IsTchar (c : UInt8) : Prop := IsLetter c ∨ IsDigit c ∨ c ∈ tokenMarks

instance : DecidablePred IsTchar := fun _ => inferInstanceAs (Decidable (_ ∨ _))

/-- The bytes of a path: no space and no control character. -/
def IsPathChar (c : UInt8) : Prop := 32 < c ∧ c ≠ 127

instance : DecidablePred IsPathChar := fun _ => inferInstanceAs (Decidable (_ ∧ _))

/-- The bytes of a header's value: tabs, and what is no control character. -/
def IsFieldChar (c : UInt8) : Prop := c = 9 ∨ 32 ≤ c ∧ c ≠ 127

instance : DecidablePred IsFieldChar := fun _ => inferInstanceAs (Decidable (_ ∨ _))

/-- The table of the parser has the token characters and no others. -/
theorem isTokenChar_iff (c : UInt8) : isTokenChar c = true ↔ IsTchar c := by
  have hentry := tokenCharMap_getD (p := fun entry n => entry ≠ 0 ↔ IsTchar (UInt8.ofNat n))
    (by decide +kernel) c
  rw [UInt8.ofNat_toNat] at hentry
  rw [← hentry, isTokenChar, bne_iff_ne]

theorem isPathChar_iff : ∀ c, (c ≠ 32 ∧ isBadInPath c = false) ↔ IsPathChar c :=
  forall_byte (by decide +kernel)

theorem isFieldChar_iff : ∀ c, isControl c = false ↔ IsFieldChar c :=
  forall_byte (by decide +kernel)

theorem IsTchar.ne {c d : UInt8} (hc : IsTchar c) (hd : ¬ IsTchar d) : c ≠ d := by
  rintro rfl
  exact hd hc

theorem IsTchar.not_isBlank {c : UInt8} (h : IsTchar c) : isBlank c = false := by
  have hspace : c ≠ 32 := h.ne (by decide)
  have htab : c ≠ 9 := h.ne (by decide)
  simp [isBlank, hspace, htab]

/-! ## Requests as texts -/

inductive LineEnd
  | lf
  | crlf
  deriving DecidableEq, Repr

def LineEnd.bytes : LineEnd → Text
  | .lf => [10]
  | .crlf => [13, 10]

/-- A line with the name of a header. Its value is the text without the blanks behind it. -/
structure FieldLine where
  name : Text
  blanks : Text
  text : Text
  ending : LineEnd
  name_ne_nil : name ≠ []
  name_token : ∀ c ∈ name, IsTchar c
  blanks_blank : ∀ c ∈ blanks, isBlank c
  text_start : ∀ c ∈ text.head?, isBlank c = false
  text_plain : ∀ c ∈ text, IsFieldChar c

/-- A line that continues the header before it; the blank it begins with is kept. -/
structure FoldedLine where
  text : Text
  ending : LineEnd
  text_start : ∃ c ∈ text.head?, isBlank c
  text_plain : ∀ c ∈ text, IsFieldChar c

inductive HeaderLine
  | field (line : FieldLine)
  | folded (line : FoldedLine)

namespace HeaderLine

def bytes : HeaderLine → Text
  | .field l => l.name ++ 58 :: l.blanks ++ l.text ++ l.ending.bytes
  | .folded l => l.text ++ l.ending.bytes

/-- What the parser gives back for a line. -/
def header : HeaderLine → Header
  | .field l => ⟨l.name, l.text.rdropWhile isBlank⟩
  | .folded l => ⟨[], l.text.rdropWhile isBlank⟩

def isField : HeaderLine → Bool
  | .field _ => true
  | .folded _ => false

end HeaderLine

structure RequestText where
  /-- the line end that may stand before the request -/
  before : Option LineEnd
  method : Text
  /-- the number of spaces behind the method, less one -/
  gap : ℕ
  path : Text
  gap' : ℕ
  minorVersion : UInt8
  ending : LineEnd
  lines : List HeaderLine
  last : LineEnd
  method_ne_nil : method ≠ []
  method_token : ∀ c ∈ method, IsTchar c
  path_ne_nil : path ≠ []
  path_plain : ∀ c ∈ path, IsPathChar c
  minorVersion_digit : IsDigit minorVersion
  lines_start : ∀ l ∈ lines.head?, l.isField

namespace RequestText

def bytes (t : RequestText) : Text :=
  (t.before.map LineEnd.bytes).getD [] ++ t.method ++ List.replicate (t.gap + 1) 32 ++ t.path ++
    List.replicate (t.gap' + 1) 32 ++ ascii "HTTP/1." ++ t.minorVersion :: t.ending.bytes ++
    t.lines.flatMap HeaderLine.bytes ++ t.last.bytes

def parsed (t : RequestText) : Parsed :=
  ⟨t.method, t.path, t.minorVersion.toNat - 48, t.lines.map HeaderLine.header⟩

end RequestText

/-! ## The parts of a request -/

section Parts
variable {s r : Text}

theorem tokenUpTo_ok_iff {next : UInt8} {bad : UInt8 → Bool} {token : Text} :
    tokenUpTo next bad s = .ok (token, r) ↔ s = token ++ r ∧
      (∀ c ∈ token, c ≠ next ∧ bad c = false) ∧ ∃ tail, r = next :: tail := by
  constructor
  · intro h
    obtain ⟨token', s', htoken, hrest⟩ := bind_ok_iff.mp h
    obtain ⟨rfl, hbefore, c, tail, rfl, hstop⟩ := upTo_ok_iff.mp htoken
    have hcond : (if c = next then pure token' else throw .malformed : Parser UInt8 Text)
        (c :: tail) = .ok (token, r) := hrest
    split_ifs at hcond with hc
    · cases hcond
      refine ⟨rfl, fun b hb => ?_, tail, by rw [hc]⟩
      have hb' := hbefore b hb
      simpa using hb'
    · cases hcond
  · rintro ⟨rfl, hbefore, tail, rfl⟩
    have htoken : upTo (fun c => c == next || bad c) (token ++ next :: tail) =
        .ok (token, next :: tail) := by
      refine upTo_ok_iff.mpr ⟨rfl, fun b hb => ?_, next, tail, rfl, by simp⟩
      obtain ⟨hne, hok⟩ := hbefore b hb
      simp [hne, hok]
    refine bind_ok_iff.mpr ⟨token, next :: tail, htoken, ?_⟩
    refine bind_ok_iff.mpr ⟨next, next :: tail, rfl, ?_⟩
    rw [if_pos rfl]
    rfl

theorem skipWhile_ok_iff {skip : UInt8 → Bool} : skipWhile skip s = .ok (⟨⟩, r) ↔
    ∃ passed, s = passed ++ r ∧ (∀ c ∈ passed, skip c) ∧ ∃ c tail, r = c :: tail ∧
      skip c = false := by
  rw [skipWhile_eq, bind_ok_iff]
  constructor
  · rintro ⟨passed, s', hpassed, ⟨⟩⟩
    obtain ⟨rfl, hskip, c, tail, rfl, hc⟩ := upTo_ok_iff.mp hpassed
    exact ⟨passed, rfl, by simpa using hskip, c, tail, rfl, by simpa using hc⟩
  · rintro ⟨passed, rfl, hskip, c, tail, rfl, hc⟩
    exact ⟨passed, c :: tail,
      upTo_ok_iff.mpr ⟨rfl, by simpa using hskip, c, tail, rfl, by simpa using hc⟩, rfl⟩

theorem expectCharNoCheck_ok_iff {ch : UInt8} {u : Unit} :
    expectCharNoCheck ch s = .ok (u, r) ↔ s = ch :: r := by
  cases s with
  | nil => simp [expectCharNoCheck, bind_eq, current, Except.bind]
  | cons c tail =>
    have heq : expectCharNoCheck ch (c :: tail) =
        (if c = ch then pure ⟨⟩ else throw .malformed : Parser UInt8 Unit) tail := rfl
    rw [heq]
    split_ifs with hc
    · constructor
      · rintro ⟨⟩
        rw [hc]
      · rintro ⟨⟩
        rfl
    · constructor
      · rintro ⟨⟩
      · rintro ⟨⟩
        exact absurd rfl hc

theorem expectChar_ok_iff {ch : UInt8} {u : Unit} : expectChar ch s = .ok (u, r) ↔ s = ch :: r := by
  simp only [expectChar, bind_ok_iff, checkEof_ok_iff, expectCharNoCheck_ok_iff]
  constructor
  · rintro ⟨-, s', ⟨-, rfl⟩, rfl⟩
    rfl
  · rintro rfl
    exact ⟨⟨⟩, _, ⟨List.cons_ne_nil ch r, rfl⟩, rfl⟩

theorem lineEnd_other {c : UInt8} (hcr : c ≠ 13) (hlf : c ≠ 10) (tail : Text) :
    lineEnd (c :: tail) = .ok (false, c :: tail) := by
  have heq : lineEnd (c :: tail) = (if c = 13 then (do advance; expectChar 10; pure true)
      else if c = 10 then (do advance; pure true) else pure false : Parser UInt8 Bool)
        (c :: tail) := rfl
  rw [heq, if_neg hcr, if_neg hlf]
  rfl

theorem lineEnd_ok_iff {ended : Bool} : lineEnd s = .ok (ended, r) ↔
    (ended = true ∧ ∃ e : LineEnd, s = e.bytes ++ r) ∨
      (ended = false ∧ s = r ∧ ∃ c tail, s = c :: tail ∧ c ≠ 13 ∧ c ≠ 10) := by
  constructor
  · intro h
    cases s with
    | nil => cases h
    | cons c tail =>
      by_cases hcr : c = 13
      · subst hcr
        have hcrlf : (expectChar 10 >>= fun _ => pure true : Parser UInt8 Bool) tail =
            .ok (ended, r) := h
        obtain ⟨_, r', hexpect, hpure⟩ := bind_ok_iff.mp hcrlf
        obtain ⟨rfl, rfl⟩ := pure_ok_iff.mp hpure
        exact .inl ⟨rfl, .crlf, by rw [expectChar_ok_iff.mp hexpect]; rfl⟩
      · by_cases hlf : c = 10
        · subst hlf
          cases h
          exact .inl ⟨rfl, .lf, rfl⟩
        · rw [lineEnd_other hcr hlf] at h
          cases h
          exact .inr ⟨rfl, rfl, c, tail, rfl, hcr, hlf⟩
  · rintro (⟨rfl, e, rfl⟩ | ⟨rfl, rfl, c, tail, rfl, hcr, hlf⟩)
    · cases e <;> rfl
    · exact lineEnd_other hcr hlf tail

theorem getTokenToEol_ok_iff {sse : Bool} {token : Text} : getTokenToEol sse s = .ok (token, r) ↔
    (∀ c ∈ token, IsFieldChar c) ∧ ∃ e : LineEnd, s = token ++ e.bytes ++ r := by
  simp only [getTokenToEol, toControl_eq, bind_ok_iff, ite_run, ← isFieldChar_iff]
  constructor
  · rintro ⟨token', s', htoken, ended, s'', hended, hrest⟩
    obtain ⟨rfl, hplain, -⟩ := upTo_ok_iff.mp htoken
    split_ifs at hrest with hcond
    · obtain ⟨rfl, rfl⟩ := pure_ok_iff.mp hrest
      rcases lineEnd_ok_iff.mp hended with ⟨-, e, rfl⟩ | ⟨rfl, -⟩
      · exact ⟨hplain, e, (List.append_assoc _ _ _).symm⟩
      · cases hcond
    · cases hrest
  · rintro ⟨hplain, e, rfl⟩
    have hstart : ∃ c tail, e.bytes ++ r = c :: tail ∧ isControl c := by
      cases e with
      | lf => exact ⟨10, r, rfl, by decide⟩
      | crlf => exact ⟨13, 10 :: r, rfl, by decide⟩
    refine ⟨token, e.bytes ++ r, upTo_ok_iff.mpr ⟨List.append_assoc _ _ _, hplain, hstart⟩, true, r,
      lineEnd_ok_iff.mpr (.inl ⟨rfl, e, rfl⟩), ?_⟩
    rw [if_pos rfl]
    rfl

theorem skipSpaces_ok_iff {u : Unit} : skipSpaces s = .ok (u, r) ↔
    ∃ c gap d tail, s = c :: List.replicate gap 32 ++ r ∧ r = d :: tail ∧ d ≠ 32 := by
  simp only [skipSpaces, bind_ok_iff, advance_ok_iff]
  constructor
  · rintro ⟨-, s', ⟨c, rfl⟩, hskip⟩
    obtain ⟨passed, rfl, hpassed, d, tail, rfl, hd⟩ := skipWhile_ok_iff.mp hskip
    have hspaces : passed = List.replicate passed.length 32 :=
      List.eq_replicate_of_mem fun b hb => by simpa using hpassed b hb
    exact ⟨c, passed.length, d, tail, by rw [← hspaces]; rfl, rfl, by simpa using hd⟩
  · rintro ⟨c, gap, d, tail, rfl, rfl, hd⟩
    refine ⟨⟨⟩, _, ⟨c, rfl⟩, skipWhile_ok_iff.mpr ⟨List.replicate gap 32, rfl, ?_, d, tail, rfl, ?_⟩⟩
    · intro b hb
      simp [List.eq_of_mem_replicate hb]
    · simpa using hd

theorem parseInt_ok_iff {n : ℕ} : parseInt s = .ok (n, r) ↔
    ∃ c : UInt8, s = c :: r ∧ (48 ≤ c ∧ c ≤ 57) ∧ c.toNat - 48 = n := by
  simp only [parseInt, bind_ok_iff, current_ok_iff, ite_run]
  constructor
  · rintro ⟨c, s', ⟨⟨tail, rfl⟩, rfl⟩, hrest⟩
    split_ifs at hrest with hdigit
    · cases hrest
    · obtain ⟨_, s', hadvance, hpure⟩ := bind_ok_iff.mp hrest
      obtain ⟨rfl, rfl⟩ := pure_ok_iff.mp hpure
      cases hadvance
      simp only [not_or, UInt8.not_lt] at hdigit
      exact ⟨c, rfl, hdigit, rfl⟩
  · rintro ⟨c, rfl, hdigit, rfl⟩
    have hrange : ¬(c < 48 ∨ 57 < c) := by
      simp only [not_or, UInt8.not_lt]
      exact hdigit
    refine ⟨c, c :: r, ⟨⟨r, rfl⟩, rfl⟩, ?_⟩
    rw [if_neg hrange]
    rfl

theorem parseHttpVersion_ok_iff {n : ℕ} : parseHttpVersion s = .ok (n, r) ↔
    r ≠ [] ∧ ∃ c : UInt8, s = ascii "HTTP/1." ++ c :: r ∧ (48 ≤ c ∧ c ≤ 57) ∧
      c.toNat - 48 = n := by
  have htext : ∀ c : UInt8, ascii "HTTP/1." ++ c :: r = 72 :: 84 :: 84 :: 80 :: 47 :: 49 :: 46 ::
      c :: r := fun _ => rfl
  simp only [htext]
  constructor
  · intro h
    have hs : 9 ≤ s.length := by
      by_contra hs
      rw [parseHttpVersion, atLeast_of_lt (Nat.lt_of_not_le hs)] at h
      cases h
    rw [parseHttpVersion, atLeast_of_le hs] at h
    simp only [bind_ok_iff, expectCharNoCheck_ok_iff, parseInt_ok_iff] at h
    obtain ⟨-, s₁, rfl, -, s₂, rfl, -, s₃, rfl, -, s₄, rfl, -, s₅, rfl, -, s₆, rfl, -, s₇, rfl, c,
      rfl, hdigit, rfl⟩ := h
    refine ⟨?_, c, rfl, hdigit, rfl⟩
    rintro rfl
    exact absurd hs (by simp)
  · rintro ⟨hne, c, rfl, hdigit, rfl⟩
    have hpos := List.length_pos_iff.mpr hne
    rw [parseHttpVersion, atLeast_of_le (by simp only [List.length_cons]; omega)]
    simp only [bind_ok_iff, expectCharNoCheck_ok_iff, parseInt_ok_iff]
    exact ⟨⟨⟩, _, rfl, ⟨⟩, _, rfl, ⟨⟩, _, rfl, ⟨⟩, _, rfl, ⟨⟩, _, rfl, ⟨⟩, _, rfl, ⟨⟩, _, rfl, c, rfl,
      hdigit, rfl⟩

/-! ## Header lines -/

theorem parseFieldName_ok_iff {sse : Bool} {name : Text} : parseFieldName sse s = .ok (name, r) ↔
    name ≠ [] ∧ (∀ c ∈ name, IsTchar c) ∧ ∃ blanks, s = name ++ 58 :: blanks ++ r ∧
      (∀ c ∈ blanks, isBlank c) ∧ ∃ c tail, r = c :: tail ∧ isBlank c = false := by
  simp only [parseFieldName, parseToken_eq sse (.inr rfl), bind_ok_iff, ite_run]
  constructor
  · rintro ⟨name', s', htoken, hrest⟩
    obtain ⟨rfl, htok, tail, rfl⟩ := tokenUpTo_ok_iff.mp htoken
    split_ifs at hrest with hnil
    · cases hrest
    · simp only [bind_ok_iff, advance_ok_iff, pure_ok_iff] at hrest
      obtain ⟨-, s₁, ⟨c, hc⟩, _, s₂, hskip, rfl, rfl⟩ := hrest
      cases hc
      obtain ⟨blanks, rfl, hblank, hr⟩ := skipWhile_ok_iff.mp hskip
      have htchar : ∀ c ∈ name', IsTchar c := fun c hc => by
        simpa [isTokenChar_iff] using (htok c hc).2
      exact ⟨hnil, htchar, blanks, by simp, hblank, hr⟩
  · rintro ⟨hne, htok, blanks, rfl, hblank, hr⟩
    refine ⟨name, 58 :: blanks ++ r, ?_, ?_⟩
    · refine tokenUpTo_ok_iff.mpr ⟨by simp, fun c hc => ⟨(htok c hc).ne (by decide), ?_⟩, _, rfl⟩
      simp [isTokenChar_iff, htok c hc]
    · rw [if_neg hne]
      simp only [bind_ok_iff, advance_ok_iff, pure_ok_iff]
      exact ⟨⟨⟩, _, ⟨58, rfl⟩, ⟨⟩, r, skipWhile_ok_iff.mpr ⟨blanks, rfl, hblank, hr⟩, trivial,
        rfl⟩

/-- A line with text begins as its text does, and an empty one with no blank. -/
theorem text_start_of_line {text tail : Text} {e : LineEnd} {c : UInt8}
    (h : text ++ e.bytes ++ r = c :: tail) :
    (isBlank c = false → ∀ b ∈ text.head?, isBlank b = false) ∧
      (isBlank c → ∃ b ∈ text.head?, isBlank b) := by
  cases text with
  | nil =>
    refine ⟨by simp, fun hc => ?_⟩
    cases e <;> cases h <;> cases hc
  | cons b text =>
    obtain ⟨rfl, -⟩ := List.cons.inj h
    simp

theorem exists_start_of_line (text : Text) (e : LineEnd) (r : Text) :
    ∃ c tail, text ++ e.bytes ++ r = c :: tail ∧
      ((∀ b ∈ text.head?, isBlank b = false) → isBlank c = false) := by
  cases text with
  | nil =>
    cases e with
    | lf => exact ⟨10, r, rfl, fun _ => rfl⟩
    | crlf => exact ⟨13, 10 :: r, rfl, fun _ => rfl⟩
  | cons b text => exact ⟨b, text ++ e.bytes ++ r, rfl, fun h => h b rfl⟩

/-- How a header line begins tells which kind it is, and that it is no line end. -/
theorem HeaderLine.bytes_start (line : HeaderLine) (r : Text) :
    ∃ c tail, line.bytes ++ r = c :: tail ∧ c ≠ 13 ∧ c ≠ 10 ∧ isBlank c = !line.isField := by
  cases line with
  | field l =>
    obtain ⟨c, name, hname⟩ := List.exists_cons_of_ne_nil l.name_ne_nil
    have hc := l.name_token c (hname ▸ List.mem_cons_self)
    refine ⟨c, name ++ 58 :: l.blanks ++ l.text ++ l.ending.bytes ++ r, ?_,
      hc.ne (by decide), hc.ne (by decide), hc.not_isBlank⟩
    rw [bytes, hname]
    rfl
  | folded l =>
    obtain ⟨c, hc, hblank⟩ := l.text_start
    obtain ⟨tail, htext⟩ : ∃ tail, l.text = c :: tail := List.head?_eq_some_iff.mp hc
    refine ⟨c, tail ++ l.ending.bytes ++ r, ?_, ?_, ?_, hblank⟩
    · rw [bytes, htext]
      rfl
    · rintro rfl
      cases hblank
    · rintro rfl
      cases hblank

theorem parseHeader_ok_iff {sse first : Bool} {h : Header} : parseHeader sse first s = .ok (h, r) ↔
    ∃ line : HeaderLine, (first → line.isField) ∧ s = line.bytes ++ r ∧ line.header = h := by
  simp only [parseHeader, parseHeaderName, bind_ok_iff, pure_ok_iff, ite_run, current_ok_iff]
  constructor
  · rintro ⟨name, s₁, ⟨c, s₂, ⟨⟨tail, rfl⟩, rfl⟩, hname⟩, value, s₃, hvalue, rfl, rfl⟩
    obtain ⟨hplain, e, rfl⟩ := getTokenToEol_ok_iff.mp hvalue
    split_ifs at hname with hcond
    · obtain ⟨hne, htok, blanks, heq, hblank, d, tail', hline, hd⟩ := parseFieldName_ok_iff.mp hname
      have hstart := (text_start_of_line hline).1 hd
      refine ⟨.field ⟨name, blanks, value, e, hne, htok, hblank, hstart, hplain⟩, fun _ => rfl, ?_,
        rfl⟩
      simpa [HeaderLine.bytes] using heq
    · obtain ⟨rfl, hline⟩ := pure_ok_iff.mp hname
      rw [Bool.or_eq_true, not_or, Bool.not_eq_true, Bool.not_eq_true, Bool.not_eq_false'] at hcond
      have hstart := (text_start_of_line hline.symm).2 hcond.2
      refine ⟨.folded ⟨value, e, hstart, hplain⟩, fun hfirst => ?_, hline, rfl⟩
      rw [hcond.1] at hfirst
      cases hfirst
  · rintro ⟨line, hfirst, rfl, rfl⟩
    obtain ⟨c, tail, hbytes, -, -, hkind⟩ := line.bytes_start r
    cases line with
    | field l =>
      obtain ⟨d, tail', hline, hd⟩ := exists_start_of_line l.text l.ending r
      refine ⟨l.name, l.text ++ l.ending.bytes ++ r, ⟨c, _, ⟨⟨tail, hbytes⟩, rfl⟩, ?_⟩, l.text, r,
        getTokenToEol_ok_iff.mpr ⟨l.text_plain, l.ending, rfl⟩, rfl, rfl⟩
      rw [if_pos (by simp [hkind, HeaderLine.isField])]
      exact parseFieldName_ok_iff.mpr ⟨l.name_ne_nil, l.name_token, l.blanks,
        by simp [HeaderLine.bytes], l.blanks_blank, d, tail', hline, hd l.text_start⟩
    | folded l =>
      have hlater : first = false := by
        cases first with
        | false => rfl
        | true => exact absurd (hfirst rfl) (by simp [HeaderLine.isField])
      refine ⟨[], l.text ++ l.ending.bytes ++ r, ⟨c, _, ⟨⟨tail, hbytes⟩, rfl⟩, ?_⟩, l.text, r,
        getTokenToEol_ok_iff.mpr ⟨l.text_plain, l.ending, rfl⟩, rfl, rfl⟩
      rw [if_neg (by simp [hkind, hlater, HeaderLine.isField])]
      rfl

theorem parseHeaders_ok_iff {sse first : Bool} {left : ℕ} {hs : List Header} :
    parseHeaders sse left first s = .ok (hs, r) ↔ ∃ (lines : List HeaderLine) (last : LineEnd),
      lines.length ≤ left ∧ (first → ∀ l ∈ lines.head?, l.isField) ∧
      s = lines.flatMap HeaderLine.bytes ++ last.bytes ++ r ∧ lines.map HeaderLine.header = hs := by
  have hlast : ∀ left first (last : LineEnd), parseHeaders sse left first (last.bytes ++ r) =
      .ok ([], r) := by
    intro left first last
    cases left <;> cases last <;> rfl
  constructor
  · intro h
    induction left generalizing first s hs with
    | zero =>
      rw [parseHeaders] at h
      simp only [bind_ok_iff, checkEof_ok_iff, ite_run] at h
      obtain ⟨-, s', ⟨-, rfl⟩, ended, s'', hended, hrest⟩ := h
      split_ifs at hrest with hcond
      · obtain ⟨rfl, rfl⟩ := pure_ok_iff.mp hrest
        rcases lineEnd_ok_iff.mp hended with ⟨-, e, rfl⟩ | ⟨rfl, -⟩
        · exact ⟨[], e, le_rfl, by simp, by simp, rfl⟩
        · cases hcond
      · cases hrest
    | succ left ih =>
      rw [parseHeaders] at h
      simp only [bind_ok_iff, checkEof_ok_iff, ite_run] at h
      obtain ⟨-, s', ⟨-, rfl⟩, ended, s'', hended, hrest⟩ := h
      rcases lineEnd_ok_iff.mp hended with ⟨rfl, e, rfl⟩ | ⟨rfl, rfl, -⟩
      · obtain ⟨rfl, rfl⟩ := pure_ok_iff.mp hrest
        exact ⟨[], e, Nat.zero_le _, by simp, by simp, rfl⟩
      · obtain ⟨header, s₁, hheader, hrest⟩ := bind_ok_iff.mp hrest
        obtain ⟨headers, s₂, hheaders, hpure⟩ := bind_ok_iff.mp hrest
        obtain ⟨rfl, rfl⟩ := pure_ok_iff.mp hpure
        obtain ⟨line, hfirst, rfl, rfl⟩ := parseHeader_ok_iff.mp hheader
        obtain ⟨lines, last, hlen, -, rfl, rfl⟩ := ih hheaders
        refine ⟨line :: lines, last, Nat.succ_le_succ hlen, fun h l hl => ?_, by simp, rfl⟩
        cases hl
        exact hfirst h
  · rintro ⟨lines, last, hlen, hfirst, rfl, rfl⟩
    induction lines generalizing left first with
    | nil => exact hlast left first last
    | cons line lines ih =>
      obtain ⟨left, rfl⟩ : ∃ n, left = n + 1 := ⟨left - 1, by simp at hlen; omega⟩
      obtain ⟨c, tail, hbytes, hcr, hlf, -⟩ :=
        line.bytes_start (lines.flatMap HeaderLine.bytes ++ last.bytes ++ r)
      have hsplit : (line :: lines).flatMap HeaderLine.bytes ++ last.bytes ++ r =
          line.bytes ++ (lines.flatMap HeaderLine.bytes ++ last.bytes ++ r) := by simp
      rw [hsplit, parseHeaders]
      simp only [bind_ok_iff, checkEof_ok_iff, ite_run]
      refine ⟨⟨⟩, _, ⟨?_, rfl⟩, false, _,
        lineEnd_ok_iff.mpr (.inr ⟨rfl, rfl, c, tail, hbytes, hcr, hlf⟩), ?_⟩
      · rw [hbytes]
        exact List.cons_ne_nil c tail
      · refine bind_ok_iff.mpr ⟨line.header, _, parseHeader_ok_iff.mpr ⟨line, ?_, rfl, rfl⟩, ?_⟩
        · exact fun h => hfirst h line rfl
        · refine bind_ok_iff.mpr ⟨lines.map HeaderLine.header, r, ?_, rfl⟩
          exact ih (Nat.le_of_succ_le_succ hlen) (by simp)

/-! ## Requests -/

/-- The line end that may stand before a request that begins with another byte. -/
theorem lineEnd_before_iff {c : UInt8} {tail : Text} (hcr : c ≠ 13) (hlf : c ≠ 10) :
    (∃ start, lineEnd s = .ok (start, c :: tail)) ↔
      ∃ before : Option LineEnd, s = (before.map LineEnd.bytes).getD [] ++ c :: tail := by
  constructor
  · rintro ⟨start, h⟩
    rcases lineEnd_ok_iff.mp h with ⟨-, e, rfl⟩ | ⟨-, rfl, -⟩
    · exact ⟨some e, rfl⟩
    · exact ⟨none, rfl⟩
  · rintro ⟨before, rfl⟩
    cases before with
    | none => exact ⟨false, lineEnd_ok_iff.mpr (.inr ⟨rfl, rfl, c, tail, rfl, hcr, hlf⟩)⟩
    | some e => exact ⟨true, lineEnd_ok_iff.mpr (.inl ⟨rfl, e, rfl⟩)⟩

namespace RequestText

/-- What follows the path and the first space behind it. -/
def afterPath (t : RequestText) (r : Text) : Text :=
  List.replicate t.gap' 32 ++ (ascii "HTTP/1." ++ t.minorVersion :: (t.ending.bytes ++
    (t.lines.flatMap HeaderLine.bytes ++ t.last.bytes ++ r)))

theorem bytes_append (t : RequestText) (r : Text) : t.bytes ++ r =
    (t.before.map LineEnd.bytes).getD [] ++ (t.method ++ 32 :: (List.replicate t.gap 32 ++
      (t.path ++ 32 :: t.afterPath r))) := by
  simp [bytes, afterPath, List.replicate_succ]

end RequestText

theorem exists_of_parseRequest {sse : Bool} {maxHeaders : ℕ} {req : Parsed}
    (h : parseRequest sse maxHeaders s = .ok (req, r)) :
    ∃ t : RequestText, t.lines.length ≤ maxHeaders ∧ s = t.bytes ++ r ∧ t.parsed = req := by
  simp only [parseRequest, bind_ok_iff, checkEof_ok_iff, parseToken_eq sse (.inl rfl),
    advanceToken_eq, ite_run] at h
  obtain ⟨-, s₁, ⟨-, rfl⟩, start, s₂, hstart, method, s₃, hmethod, _, s₄, hgap, path, s₅, hpath,
    _, s₆, hgap', hrest⟩ := h
  have hempty : ¬(method = [] ∨ path = []) := by
    intro h
    rw [if_pos h] at hrest
    cases hrest
  rw [if_neg hempty] at hrest
  rw [not_or] at hempty
  obtain ⟨minor, s₇, hversion, hline⟩ := bind_ok_iff.mp hrest
  obtain ⟨ended, s₈, hended, hlines⟩ := bind_ok_iff.mp hline
  rcases lineEnd_ok_iff.mp hended with ⟨rfl, ending, rfl⟩ | ⟨rfl, -⟩
  · obtain ⟨headers, s₉, hheaders, hpure⟩ := bind_ok_iff.mp hlines
    obtain ⟨rfl, rfl⟩ := pure_ok_iff.mp hpure
    obtain ⟨lines, last, hlen, hfirst, rfl, rfl⟩ := parseHeaders_ok_iff.mp hheaders
    obtain ⟨-, digit, rfl, hdigit, rfl⟩ := parseHttpVersion_ok_iff.mp hversion
    obtain ⟨c', gap', -, -, heq₅, -⟩ := skipSpaces_ok_iff.mp hgap'
    obtain ⟨rfl, hpathPlain, tail₅, hs₅⟩ := tokenUpTo_ok_iff.mp hpath
    obtain ⟨c, gap, -, -, heq₃, -⟩ := skipSpaces_ok_iff.mp hgap
    obtain ⟨rfl, hmethodToken, tail₃, hs₃⟩ := tokenUpTo_ok_iff.mp hmethod
    have htoken : ∀ c ∈ method, IsTchar c := fun c hc => by
      simpa [isTokenChar_iff] using (hmethodToken c hc).2
    have hpathChars : ∀ c ∈ path, IsPathChar c := fun c hc =>
      (isPathChar_iff c).mp (hpathPlain c hc)
    obtain ⟨m, method', rfl⟩ := List.exists_cons_of_ne_nil hempty.1
    have hm := htoken m List.mem_cons_self
    obtain ⟨before, rfl⟩ := (lineEnd_before_iff (hm.ne (by decide))
      (hm.ne (by decide))).mp ⟨start, hstart⟩
    -- both gaps begin with the space that ends the token before them
    obtain rfl : c = 32 := (List.cons.inj (heq₃.symm.trans hs₃)).1
    obtain rfl : c' = 32 := (List.cons.inj (heq₅.symm.trans hs₅)).1
    refine ⟨⟨before, m :: method', gap, path, gap', digit, ending, lines, last, hempty.1, htoken,
      hempty.2, hpathChars, hdigit, hfirst rfl⟩, hlen, ?_, rfl⟩
    rw [RequestText.bytes_append, heq₃, heq₅]
    rfl
  · cases hlines

theorem parseRequest_bytes (sse : Bool) {maxHeaders : ℕ} (t : RequestText)
    (hlen : t.lines.length ≤ maxHeaders) (r : Text) :
    parseRequest sse maxHeaders (t.bytes ++ r) = .ok (t.parsed, r) := by
  obtain ⟨m, method, hm⟩ := List.exists_cons_of_ne_nil t.method_ne_nil
  obtain ⟨p, path, hp⟩ := List.exists_cons_of_ne_nil t.path_ne_nil
  have hm' := t.method_token m (hm ▸ List.mem_cons_self)
  have hpathPlain : ∀ c ∈ t.path, c ≠ 32 ∧ isBadInPath c = false := fun c hc =>
    (isPathChar_iff c).mpr (t.path_plain c hc)
  have hp' := (hpathPlain p (hp ▸ List.mem_cons_self)).1
  let afterMethod : Text := List.replicate t.gap 32 ++ (t.path ++ 32 :: t.afterPath r)
  let afterVersion : Text :=
    t.ending.bytes ++ (t.lines.flatMap HeaderLine.bytes ++ t.last.bytes ++ r)
  obtain ⟨start, hstart⟩ : ∃ start, lineEnd (t.bytes ++ r) =
      .ok (start, t.method ++ 32 :: afterMethod) := by
    rw [t.bytes_append, hm]
    exact (lineEnd_before_iff (hm'.ne (by decide)) (hm'.ne (by decide))).mpr ⟨t.before, rfl⟩
  have hne : t.bytes ++ r ≠ [] := by
    intro h
    rw [h] at hstart
    cases hstart
  have hmethod : tokenUpTo 32 (fun c => !isTokenChar c) (t.method ++ 32 :: afterMethod) =
      .ok (t.method, 32 :: afterMethod) := by
    have htoken := t.method_token
    refine tokenUpTo_ok_iff.mpr ⟨rfl, fun c hc => ⟨(htoken c hc).ne (by decide), ?_⟩, _, rfl⟩
    simp [isTokenChar_iff, htoken c hc]
  have hgap : skipSpaces (32 :: afterMethod) = .ok (⟨⟩, t.path ++ 32 :: t.afterPath r) :=
    skipSpaces_ok_iff.mpr ⟨32, t.gap, p, path ++ 32 :: t.afterPath r, rfl, by rw [hp]; rfl, hp'⟩
  have hpath : tokenUpTo 32 isBadInPath (t.path ++ 32 :: t.afterPath r) =
      .ok (t.path, 32 :: t.afterPath r) := tokenUpTo_ok_iff.mpr ⟨rfl, hpathPlain, _, rfl⟩
  have hgap' : skipSpaces (32 :: t.afterPath r) =
      .ok (⟨⟩, ascii "HTTP/1." ++ t.minorVersion :: afterVersion) :=
    skipSpaces_ok_iff.mpr ⟨32, t.gap', 72, _, rfl, rfl, by decide⟩
  have hversion : parseHttpVersion (ascii "HTTP/1." ++ t.minorVersion :: afterVersion) =
      .ok (t.minorVersion.toNat - 48, afterVersion) := by
    refine parseHttpVersion_ok_iff.mpr ⟨?_, t.minorVersion, rfl, t.minorVersion_digit, rfl⟩
    cases hending : t.ending <;> simp [afterVersion, hending, LineEnd.bytes]
  have hended : lineEnd afterVersion =
      .ok (true, t.lines.flatMap HeaderLine.bytes ++ t.last.bytes ++ r) :=
    lineEnd_ok_iff.mpr (.inl ⟨rfl, t.ending, rfl⟩)
  have hheaders : parseHeaders sse maxHeaders true
      (t.lines.flatMap HeaderLine.bytes ++ t.last.bytes ++ r) =
      .ok (t.lines.map HeaderLine.header, r) :=
    parseHeaders_ok_iff.mpr ⟨t.lines, t.last, hlen, fun _ => t.lines_start, rfl, rfl⟩
  simp only [parseRequest, bind_ok_iff, checkEof_ok_iff, parseToken_eq sse (.inl rfl),
    advanceToken_eq, ite_run]
  refine ⟨⟨⟩, _, ⟨hne, rfl⟩, start, _, hstart, _, _, hmethod, _, _, hgap, _, _, hpath, _, _, hgap', ?_⟩
  rw [if_neg (by simp [t.method_ne_nil, t.path_ne_nil])]
  refine bind_ok_iff.mpr ⟨_, _, hversion, bind_ok_iff.mpr ⟨_, _, hended, ?_⟩⟩
  exact bind_ok_iff.mpr ⟨_, _, hheaders, rfl⟩

end Parts

theorem phrParseRequest_bytes (sse : Bool) {maxHeaders : ℕ} (t : RequestText)
    (hlen : t.lines.length ≤ maxHeaders) (r : Text) :
    phrParseRequest sse maxHeaders (t.bytes ++ r) =
      .request t.bytes.length t.method t.path (t.lines.map HeaderLine.header) := by
  rw [phrParseRequest, parseRequest_bytes sse t hlen]
  simp [RequestText.parsed]

theorem exists_of_phrParseRequest {sse : Bool} {maxHeaders : ℕ} {buf : Text} {n : ℕ}
    {method path : Text} {headers : List Header}
    (h : phrParseRequest sse maxHeaders buf = .request n method path headers) :
    ∃ t : RequestText, t.lines.length ≤ maxHeaders ∧ t.bytes <+: buf ∧ t.bytes.length = n ∧
      t.method = method ∧ t.path = path ∧ t.lines.map HeaderLine.header = headers := by
  rw [phrParseRequest] at h
  split at h
  · next req rest hparse =>
    cases h
    obtain ⟨t, hlen, rfl, rfl⟩ := exists_of_parseRequest hparse
    exact ⟨t, hlen, List.prefix_append _ _, by simp, rfl, rfl, rfl⟩
  · cases h
  · cases h

/-- `phr_parse_request` accepts a buffer exactly when it begins with a request of at most
`maxHeaders` header lines; it returns the length of that request and its parts. -/
theorem phrParseRequest_request_iff (sse : Bool) (maxHeaders : ℕ) (buf : Text) {n : ℕ}
    {method path : Text} {headers : List Header} :
    phrParseRequest sse maxHeaders buf = .request n method path headers ↔
      ∃ t : RequestText, t.lines.length ≤ maxHeaders ∧ t.bytes <+: buf ∧ t.bytes.length = n ∧
        t.method = method ∧ t.path = path ∧ t.lines.map HeaderLine.header = headers := by
  constructor
  · exact exists_of_phrParseRequest
  · rintro ⟨t, hlen, ⟨rest, rfl⟩, rfl, rfl, rfl, rfl⟩
    exact phrParseRequest_bytes sse t hlen rest

/-- A request with a header whose value goes on in a second line. -/
def foldedHeader : RequestText where
  before := none
  method := ascii "GET"
  gap := 0
  path := ascii "/"
  gap' := 0
  minorVersion := 48
  ending := .crlf
  lines := [.field ⟨ascii "Host", ascii " ", ascii "a ", .crlf, by decide, by decide +kernel,
    by decide +kernel, by decide +kernel, by decide +kernel⟩,
    .folded ⟨ascii " b", .lf, ⟨32, by decide, by decide⟩, by decide +kernel⟩]
  last := .crlf
  method_ne_nil := by decide
  method_token := by decide +kernel
  path_ne_nil := by decide
  path_plain := by decide +kernel
  minorVersion_digit := by decide
  lines_start := by simp [HeaderLine.isField]

/-- The blank behind the first part of the value is left out, the one before the second part is
kept. What comes behind the request is left alone. -/
theorem phrParseRequest_request_iff_foldedHeader :
    phrParseRequest true 100 (ascii "GET / HTTP/1.0\r\nHost: a \r\n b\n\r\nGET") =
      .request 31 (ascii "GET") (ascii "/") [⟨ascii "Host", ascii "a"⟩, ⟨[], ascii " b"⟩] :=
  (phrParseRequest_request_iff ..).mpr ⟨foldedHeader, by decide, ⟨ascii "GET", by decide⟩,
    by decide, rfl, rfl, by decide⟩

theorem phrParseRequest_append (sse : Bool) (maxHeaders : ℕ) (buf more : Text) :
    phrParseRequest sse maxHeaders buf = .incomplete ∨
      phrParseRequest sse maxHeaders (buf ++ more) = phrParseRequest sse maxHeaders buf := by
  have hincremental := parseRequest_incremental sse maxHeaders
  cases hparse : parseRequest sse maxHeaders buf with
  | ok x =>
    obtain ⟨req, rest⟩ := x
    obtain ⟨-, -, hmore⟩ := hincremental.answer trivial hparse
    right
    simp only [phrParseRequest, hparse, hmore more, List.length_append, Nat.add_sub_add_right]
  | error e =>
    cases e with
    | incomplete => exact .inl (by rw [phrParseRequest, hparse])
    | malformed =>
      right
      simp only [phrParseRequest, hparse, hincremental.refusal trivial hparse more]
    | overrun => exact absurd hparse (hincremental.inside trivial)

/-- The parser never reads behind the buffer, and it asks for more bytes or returns what it
returns for every longer buffer. -/
theorem phrParseRequest_stable (sse : Bool) (maxHeaders : ℕ) (buf more : Text) :
    parseRequest sse maxHeaders buf ≠ .error .overrun ∧
      (phrParseRequest sse maxHeaders buf = .incomplete ∨
        phrParseRequest sse maxHeaders (buf ++ more) = phrParseRequest sse maxHeaders buf) :=
  ⟨(parseRequest_incremental sse maxHeaders).inside trivial,
    phrParseRequest_append sse maxHeaders buf more⟩

/-- No first part of a request is taken for a request or refused. -/
theorem phrParseRequest_of_prefix (sse : Bool) {maxHeaders : ℕ} (t : RequestText)
    (hlen : t.lines.length ≤ maxHeaders) {p : Text} (hp : p <+: t.bytes)
    (hlt : p.length < t.bytes.length) : phrParseRequest sse maxHeaders p = .incomplete := by
  obtain ⟨rest, hrest⟩ := hp
  have hwhole := phrParseRequest_bytes sse t hlen []
  rw [List.append_nil] at hwhole
  rcases phrParseRequest_append sse maxHeaders p rest with hp | hp
  · exact hp
  · rw [hrest, hwhole] at hp
    obtain ⟨t', -, hpre, hlen', -⟩ := exists_of_phrParseRequest hp.symm
    have hle := hpre.length_le
    omega

end CapyJs.Http.Pico
