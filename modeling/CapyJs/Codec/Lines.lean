import Mathlib.Data.List.Infix
import Mathlib.Tactic.Common

/-!
# Texts in lines that end with CRLF

Cutting a text at every CRLF, and reading lines up to an empty one.
-/
namespace CapyJs.Codec

def crlf : List UInt8 := [13, 10]

/-- `b` put in front of the first line. -/
def consFirst (b : UInt8) : List (List UInt8) → List (List UInt8)
  | [] => [[b]]
  | line :: lines => (b :: line) :: lines

/-- What stands before, between and behind the CRLFs. -/
def splitLines : List UInt8 → List (List UInt8)
  | [] => [[]]
  | [b] => [[b]]
  | b :: c :: rest =>
    if b = 13 ∧ c = 10 then [] :: splitLines rest else consFirst b (splitLines (c :: rest))

/-- The first line of a text and what follows it. -/
def readLine : List UInt8 → Option (List UInt8 × List UInt8)
  | b :: c :: rest =>
    if b = 13 ∧ c = 10 then some ([], rest)
    else (readLine (c :: rest)).map fun p => (b :: p.1, p.2)
  | _ => none

/-- At most `fuel` lines up to an empty one, and what follows that. -/
def readLines : ℕ → List UInt8 → Option (List (List UInt8) × List UInt8)
  | 0, _ => none
  | fuel + 1, text =>
    match readLine text with
    | none => none
    | some ([], rest) => some ([], rest)
    | some (line, rest) => (readLines fuel rest).map fun p => (line :: p.1, p.2)

/-- The lines up to the first empty one, and what follows that. -/
def readHead (text : List UInt8) : Option (List (List UInt8) × List UInt8) :=
  readLines text.length text

/-- Lines as they are written. -/
def joinLines (lines : List (List UInt8)) : List UInt8 := lines.flatMap (· ++ crlf)

/-! ## Cutting -/

theorem splitLines_crlf (rest : List UInt8) : splitLines (crlf ++ rest) = [] :: splitLines rest := by
  simp [crlf, splitLines]

theorem splitLines_cons {b c : UInt8} {rest : List UInt8} (h : ¬(b = 13 ∧ c = 10)) :
    splitLines (b :: c :: rest) = consFirst b (splitLines (c :: rest)) := by
  rw [splitLines, if_neg h]

theorem splitLines_ne_nil (text : List UInt8) : splitLines text ≠ [] := by
  fun_cases splitLines text with
  | case1 => simp
  | case2 => simp
  | case3 => simp
  | case4 b c rest => cases splitLines (c :: rest) <;> simp [consFirst]

theorem consFirst_append {b : UInt8} {lines more : List (List UInt8)} (h : lines ≠ []) :
    consFirst b (lines ++ more) = consFirst b lines ++ more := by
  cases lines with
  | nil => exact absurd rfl h
  | cons line lines => rfl

/-- Every CRLF is a cut, since no two of them overlap. -/
theorem splitLines_append (front rest : List UInt8) :
    splitLines (front ++ crlf ++ rest) = splitLines front ++ splitLines rest := by
  induction front using splitLines.induct with
  | case1 => exact splitLines_crlf rest
  | case2 b =>
    have hcut : splitLines (b :: crlf ++ rest) = consFirst b (splitLines (crlf ++ rest)) :=
      splitLines_cons (by simp)
    simpa [splitLines_crlf, consFirst, splitLines] using hcut
  | case3 b c tail h ih =>
    obtain ⟨rfl, rfl⟩ := h
    have hfront : splitLines (13 :: 10 :: tail) = [] :: splitLines tail := splitLines_crlf tail
    have hall : splitLines (13 :: 10 :: (tail ++ crlf ++ rest)) =
        [] :: splitLines (tail ++ crlf ++ rest) := splitLines_crlf _
    rw [ih] at hall
    rw [hfront]
    exact hall
  | case4 b c tail h ih =>
    have hall : splitLines (b :: c :: (tail ++ crlf ++ rest)) =
        consFirst b (splitLines (c :: (tail ++ crlf ++ rest))) := splitLines_cons h
    rw [splitLines_cons h, ← consFirst_append (splitLines_ne_nil _), ← ih]
    exact hall

theorem splitLines_of_noCrlf {text : List UInt8} (h : ¬crlf <:+: text) :
    splitLines text = [text] := by
  induction text using splitLines.induct with
  | case1 => rfl
  | case2 b => rfl
  | case3 b c tail hcut =>
    obtain ⟨rfl, rfl⟩ := hcut
    exact absurd (List.prefix_append crlf tail).isInfix h
  | case4 b c tail hcut ih =>
    rw [splitLines_cons hcut, ih fun hin => h (hin.trans (List.suffix_cons b _).isInfix)]
    rfl

/-- The first line begins as the text does. -/
theorem head_of_splitLines {b : UInt8} {text line : List UInt8} {lines : List (List UInt8)}
    (h : splitLines text = (b :: line) :: lines) : ∃ rest, text = b :: rest := by
  fun_cases splitLines text with
  | case1 => cases h
  | case2 c => exact ⟨[], by cases h; rfl⟩
  | case3 c d rest hcut =>
    rw [splitLines, if_pos hcut] at h
    cases h
  | case4 c d rest hcut =>
    rw [splitLines_cons hcut] at h
    cases hrest : splitLines (d :: rest) with
    | nil => exact absurd hrest (splitLines_ne_nil _)
    | cons first others =>
      rw [hrest] at h
      cases h
      exact ⟨d :: rest, rfl⟩

theorem noCrlf_of_mem {text line : List UInt8} (h : line ∈ splitLines text) : ¬crlf <:+: line := by
  induction text using splitLines.induct generalizing line with
  | case1 =>
    obtain rfl := List.mem_singleton.mp h
    simp [crlf]
  | case2 b =>
    obtain rfl := List.mem_singleton.mp h
    intro hin
    exact absurd hin.length_le (by simp [crlf])
  | case3 b c tail hcut ih =>
    rw [splitLines, if_pos hcut] at h
    rcases List.mem_cons.mp h with rfl | h
    · simp [crlf]
    · exact ih h
  | case4 b c tail hcut ih =>
    rw [splitLines_cons hcut] at h
    cases hrest : splitLines (c :: tail) with
    | nil => exact absurd hrest (splitLines_ne_nil _)
    | cons first others =>
      rw [hrest] at h ih
      rcases List.mem_cons.mp h with rfl | h
      · intro hin
        rcases List.infix_cons_iff.mp hin with hprefix | hin
        · -- the CR would stand before the LF that begins the text
          obtain ⟨rest, hline⟩ := hprefix
          cases hline
          obtain ⟨rest', htext⟩ := head_of_splitLines hrest
          cases htext
          exact hcut ⟨rfl, rfl⟩
        · exact ih List.mem_cons_self hin
      · exact ih (List.mem_cons_of_mem _ h)

/-- A CRLF does not reach over another byte. -/
theorem crlf_infix_append_cons {a b : List UInt8} {x : UInt8} (hcr : x ≠ 13) (hlf : x ≠ 10) :
    crlf <:+: a ++ x :: b ↔ crlf <:+: a ∨ crlf <:+: b := by
  constructor
  · intro h
    induction a with
    | nil =>
      rcases List.infix_cons_iff.mp h with ⟨rest, hprefix⟩ | h
      · exact absurd (List.cons.inj hprefix).1.symm hcr
      · exact .inr h
    | cons y a ih =>
      rcases List.infix_cons_iff.mp h with ⟨rest, hprefix⟩ | h
      · cases a with
        | nil => exact absurd (List.cons.inj (List.cons.inj hprefix).2).1.symm hlf
        | cons z a =>
          obtain rfl := (List.cons.inj hprefix).1
          obtain rfl := (List.cons.inj (List.cons.inj hprefix).2).1
          exact .inl (List.prefix_append crlf a).isInfix
      · exact (ih h).imp (fun h => h.trans (List.suffix_cons y a).isInfix) id
  · rintro (h | h)
    · exact h.trans (List.prefix_append a _).isInfix
    · exact h.trans ((List.suffix_cons x b).trans (List.suffix_append a _)).isInfix

theorem splitLines_joinLines {lines : List (List UInt8)} (h : ∀ line ∈ lines, ¬crlf <:+: line)
    (rest : List UInt8) : splitLines (joinLines lines ++ rest) = lines ++ splitLines rest := by
  induction lines with
  | nil => rfl
  | cons line lines ih =>
    have hfirst := splitLines_of_noCrlf (h line List.mem_cons_self)
    have hcut := splitLines_append line (joinLines lines ++ rest)
    rw [hfirst, ih fun l hl => h l (List.mem_cons_of_mem _ hl)] at hcut
    rw [joinLines, List.flatMap_cons, List.append_assoc]
    exact hcut

theorem eq_nil_of_splitLines {text : List UInt8} (h : splitLines text = [[]]) : text = [] := by
  fun_cases splitLines text with
  | case1 => rfl
  | case2 b => cases h
  | case3 b c rest hcut =>
    rw [splitLines, if_pos hcut] at h
    exact absurd (List.cons.inj h).2 (splitLines_ne_nil rest)
  | case4 b c rest hcut =>
    rw [splitLines_cons hcut] at h
    cases hrest : splitLines (c :: rest) <;> rw [hrest] at h <;> cases h

/-- When only the end of a text has an empty line, two CRLFs stand there only. -/
theorem crlf_crlf_last {text : List UInt8} {lines : List (List UInt8)}
    (h : splitLines text = lines ++ [[], []]) (hlines : ∀ line ∈ lines, line ≠ []) {i : ℕ}
    (hi : crlf ++ crlf <+: text.drop i) : i + 4 = text.length := by
  obtain ⟨post, hpost⟩ := hi
  have htext : text = text.take i ++ crlf ++ (crlf ++ post) := by
    rw [List.append_assoc, ← List.append_assoc crlf, hpost, List.take_append_drop]
  have hsplit : splitLines text = splitLines (text.take i) ++ [] :: splitLines post := by
    conv_lhs => rw [htext]
    rw [splitLines_append, splitLines_crlf]
  -- the empty line found is the first of the two at the end
  have hlast : splitLines post = [[]] := by
    rw [h] at hsplit
    rcases List.append_eq_append_iff.mp hsplit.symm with ⟨c, rfl, hc⟩ | ⟨c, hc, hend⟩
    · cases c with
      | nil => exact (List.cons.inj hc).2
      | cons x c =>
        have hx : x = [] := (List.cons.inj hc).1.symm
        exact absurd hx (hlines x (by simp))
    · match c with
      | [] => exact (List.cons.inj hend).2.symm
      | [x] =>
        have hnil : [] = splitLines post := (List.cons.inj (List.cons.inj hend).2).2
        exact absurd hnil.symm (splitLines_ne_nil post)
      | x :: y :: c =>
        have hnil : [] = c ++ [] :: splitLines post := (List.cons.inj (List.cons.inj hend).2).2
        simp at hnil
  rw [eq_nil_of_splitLines hlast, List.append_nil] at hpost
  have hlength := congrArg List.length hpost
  rw [List.length_drop] at hlength
  simp only [crlf, List.length_append, List.length_cons, List.length_nil] at hlength
  omega

/-! ## Reading -/

theorem readLine_line {line : List UInt8} (h : ¬crlf <:+: line) (rest : List UInt8) :
    readLine (line ++ crlf ++ rest) = some (line, rest) := by
  induction line using splitLines.induct with
  | case1 => simp [crlf, readLine]
  | case2 b => simp [crlf, readLine]
  | case3 b c tail hcut =>
    obtain ⟨rfl, rfl⟩ := hcut
    exact absurd (List.prefix_append crlf tail).isInfix h
  | case4 b c tail hcut ih =>
    have hnext := ih fun hin => h (hin.trans (List.suffix_cons b _).isInfix)
    rw [List.cons_append, List.cons_append] at hnext
    rw [List.cons_append, List.cons_append, List.cons_append, List.cons_append, readLine,
      if_neg hcut, hnext]
    rfl

theorem readLines_joinLines {lines : List (List UInt8)}
    (h : ∀ line ∈ lines, line ≠ [] ∧ ¬crlf <:+: line) (rest : List UInt8) {fuel : ℕ}
    (hfuel : lines.length < fuel) :
    readLines fuel (joinLines lines ++ crlf ++ rest) = some (lines, rest) := by
  induction lines generalizing fuel with
  | nil =>
    obtain ⟨fuel, rfl⟩ : ∃ n, fuel = n + 1 := ⟨fuel - 1, by omega⟩
    simp [joinLines, readLines, crlf, readLine]
  | cons line lines ih =>
    obtain ⟨fuel, rfl⟩ : ∃ n, fuel = n + 1 := ⟨fuel - 1, by omega⟩
    obtain ⟨hne, hline⟩ := h line List.mem_cons_self
    have hfirst := readLine_line hline (joinLines lines ++ crlf ++ rest)
    have hrest := ih (fun l hl => h l (List.mem_cons_of_mem _ hl)) (Nat.lt_of_succ_lt_succ hfuel)
    have htext : joinLines (line :: lines) ++ crlf ++ rest =
        line ++ crlf ++ (joinLines lines ++ crlf ++ rest) := by
      simp [joinLines]
    rw [htext, readLines, hfirst]
    cases line with
    | nil => exact absurd rfl hne
    | cons b line => simp only [hrest, Option.map_some]

theorem readHead_joinLines {lines : List (List UInt8)}
    (h : ∀ line ∈ lines, line ≠ [] ∧ ¬crlf <:+: line) (rest : List UInt8) :
    readHead (joinLines lines ++ crlf ++ rest) = some (lines, rest) := by
  apply readLines_joinLines h
  have hlength : lines.length ≤ (joinLines lines).length := by
    induction lines with
    | nil => simp
    | cons line lines ih =>
      have hle := ih fun l hl => h l (List.mem_cons_of_mem _ hl)
      simp only [joinLines, List.flatMap_cons, List.length_append, List.length_cons, crlf,
        List.length_nil] at hle ⊢
      omega
  simp only [List.length_append, crlf, List.length_cons]
  omega

end CapyJs.Codec
