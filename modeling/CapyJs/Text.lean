import Mathlib.Data.List.Infix
import Mathlib.Data.List.TakeWhile

/-!
# Byte strings and the C string functions the server uses
-/
namespace CapyJs

abbrev Text := List UInt8

/-- One proof for all definitions that compare texts. -/
instance : LawfulBEq Text := inferInstance

/-- A string literal of the source. -/
def ascii (s : String) : Text := s.toList.map fun c => UInt8.ofNat c.toNat

theorem ascii_append (s t : String) : ascii (s ++ t) = ascii s ++ ascii t := by
  simp [ascii]

/-- A buffer read as a C string ends before its first zero byte. -/
def cString (bytes : Text) : Text := bytes.takeWhile (· != 0)

theorem cString_eq_self {bytes : Text} (h : 0 ∉ bytes) : cString bytes = bytes := by
  rw [cString, List.takeWhile_eq_self_iff]
  intro b hb
  simp only [bne_iff_ne, ne_eq]
  rintro rfl
  exact h hb

theorem zero_notMem_cString (bytes : Text) : 0 ∉ cString bytes := by
  intro h
  simpa using List.mem_takeWhile_imp h

theorem cString_eq_iff {bytes : Text} : cString bytes = bytes ↔ 0 ∉ bytes := by
  constructor
  · intro h
    exact h ▸ zero_notMem_cString bytes
  · exact cString_eq_self

theorem cString_cString (bytes : Text) : cString (cString bytes) = cString bytes := by
  simp [cString, List.takeWhile_idem]

def toLower (b : UInt8) : UInt8 := if 65 ≤ b ∧ b ≤ 90 then b + 32 else b

/-- Whether `strncasecmp(a, b, n)` is 0. -/
def strncasecmp (a b : Text) (n : ℕ) : Bool :=
  ((cString a).take n).map toLower == ((cString b).take n).map toLower

/-- Whether `strcasestr(haystack, needle)` finds anything. -/
def strcasestr (haystack needle : Text) : Bool :=
  decide ((cString needle).map toLower <:+: (cString haystack).map toLower)

/-- Whether `strncmp(a, b, n)` is 0. -/
def strncmp (a b : Text) (n : ℕ) : Bool := (cString a).take n == (cString b).take n

theorem strncmp_length_iff {a b : Text} (ha : 0 ∉ a) (hb : 0 ∉ b) :
    strncmp a b b.length = true ↔ b <+: a := by
  rw [strncmp, cString_eq_self ha, cString_eq_self hb, List.take_length, beq_iff_eq,
    List.prefix_iff_eq_take, eq_comm]

/-- The index of the last byte that meets a condition. -/
def lastIndex (p : UInt8 → Bool) : Text → Option ℕ
  | [] => none
  | b :: rest =>
    match lastIndex p rest with
    | some i => some (i + 1)
    | none => if p b then some 0 else none

/-- The index that `strrchr(s, c)` points to. -/
def strrchr (s : Text) (c : UInt8) : Option ℕ := lastIndex (· == c) (cString s)

section
variable {p : UInt8 → Bool} {s : Text}

theorem lastIndex_eq_none (h : ∀ b ∈ s, p b = false) : lastIndex p s = none := by
  induction s with
  | nil => rfl
  | cons b rest ih =>
    have hrest := ih fun c hc => h c (List.mem_cons_of_mem b hc)
    simp [lastIndex, hrest, h b List.mem_cons_self]

theorem lastIndex_append_cons (front : Text) {c : UInt8} (hc : p c = true)
    (h : ∀ b ∈ s, p b = false) : lastIndex p (front ++ c :: s) = some front.length := by
  induction front with
  | nil => simp [lastIndex, lastIndex_eq_none h, hc]
  | cons b front ih => simp [lastIndex, ih]

theorem lastIndex_append (front : Text) (h : ∀ b ∈ s, p b = false) :
    lastIndex p (front ++ s) = lastIndex p front := by
  induction front with
  | nil => exact lastIndex_eq_none h
  | cons b front ih => simp [lastIndex, ih]

theorem lt_length_of_lastIndex {i : ℕ} (h : lastIndex p s = some i) : i < s.length := by
  induction s generalizing i with
  | nil => cases h
  | cons b rest ih =>
    rw [lastIndex] at h
    split at h
    · next j hj =>
      obtain rfl := Option.some.inj h
      exact Nat.succ_lt_succ (ih hj)
    · split_ifs at h
      obtain rfl := Option.some.inj h
      exact Nat.zero_lt_succ _

end

end CapyJs
