import CapyJs.Text
import Mathlib.Data.List.DropRight

/-!
# The content type of a static file

`serveStatic` sends a file with the type that belongs to its extension. A path without an
extension has a null one, which is read all the same; a hidden file in a directory has its
name as extension; and an extension is compared only as far as a known one goes.
-/
namespace CapyJs.Util

def dot : UInt8 := 46
def slash : UInt8 := 47
def backslash : UInt8 := 92

/-- `p < q` for pointers into one string. -/
def pointerLt : Option ℕ → Option ℕ → Bool
  | none, some _ => true
  | some i, some j => decide (i < j)
  | _, none => false

def getFileExtension : Option Text → Option Text
  | none => none
  | some filename =>
    let dotAt := strrchr filename dot
    let slashAt := strrchr filename slash
    let backslashAt := strrchr filename backslash
    let lastSep := if pointerLt backslashAt slashAt then slashAt else backslashAt
    if dotAt.isNone || (lastSep.isSome && pointerLt dotAt lastSep) || dotAt == some 0 then none
    else dotAt.map fun i => (cString filename).drop (i + 1)

/-- A null extension is passed to `strncmp`, which has no result. -/
def getContentType : Option Text → Option Text
  | none => none
  | some ext =>
    some (if strncmp ext (ascii "js") 2 then ascii "text/javascript"
      else if strncmp ext (ascii "html") 4 then ascii "text/html"
      else if strncmp ext (ascii "ico") 3 then ascii "image/vnd.microsoft.icon"
      else if strncmp ext (ascii "css") 3 then ascii "text/css"
      else ascii "text/plaintext")

/-- The `Content-Type` that the handler of `server_serve_static` sets. -/
def staticContentType (fp : Text) : Option Text := getContentType (getFileExtension (some fp))

/-! ## What is asked of it -/

def contentTypes : List (Text × Text) :=
  [(ascii "js", ascii "text/javascript"), (ascii "html", ascii "text/html"),
    (ascii "ico", ascii "image/vnd.microsoft.icon"), (ascii "css", ascii "text/css")]

def isSep (b : UInt8) : Bool := b == slash || b == backslash

/-- What is behind the last slash or backslash. -/
def lastComponent (path : Text) : Text := path.rtakeWhile fun b => !isSep b

/-- The last component is `b.e`. -/
structure Named (path b e : Text) : Prop where
  eq : lastComponent path = b ++ dot :: e
  noDot : dot ∉ e

/-- The listed type for a name that is followed by a listed extension. -/
structure TypeFor (path type : Text) : Prop where
  listed : ∀ b e t, Named path b e → b ≠ [] → (e, t) ∈ contentTypes → type = t
  other : (∀ b e t, Named path b e → b ≠ [] → (e, t) ∉ contentTypes) →
    type = ascii "text/plaintext"

def TypedByExtension (fp : Text) : Prop :=
  ∃ type, staticContentType fp = some type ∧ TypeFor (cString fp) type

/-- There is an extension, with anything in the path before its dot. If it begins like a listed
one it is that one, and its file is not hidden. -/
def PlainlyNamed (path : Text) : Prop :=
  ∃ b e, Named path b e ∧ path ≠ dot :: e ∧
    ∀ x ∈ contentTypes, x.1 <+: e → x.1 = e ∧ b ≠ []

/-! ## The last separator and the last dot -/

theorem exists_dir (path : Text) : (∀ b ∈ lastComponent path, isSep b = false) ∧
    (path = lastComponent path ∨
      ∃ dir sep, isSep sep = true ∧ path = dir ++ sep :: lastComponent path) := by
  constructor
  · intro b hb
    simpa using List.mem_rtakeWhile_imp hb
  · have hsplit : path.rdropWhile (fun b => !isSep b) ++ lastComponent path = path :=
      List.rdropWhile_append_rtakeWhile ..
    rcases List.eq_nil_or_concat (path.rdropWhile fun b => !isSep b) with hnil | ⟨dir, sep, hdir⟩
    · rw [hnil] at hsplit
      exact .inl hsplit.symm
    · have hlast := List.rdropWhile_last_not (fun b => !isSep b) path (by simp [hdir])
      simp only [hdir, List.concat_eq_append, List.getLast_append_singleton] at hlast
      rw [hdir, List.concat_eq_append, List.append_assoc] at hsplit
      exact .inr ⟨dir, sep, by simpa using hlast, hsplit.symm⟩

/-- The later one of two last occurrences. -/
theorem later_lastIndex (p q : UInt8 → Bool) (s : Text) :
    (if pointerLt (lastIndex q s) (lastIndex p s) then lastIndex p s else lastIndex q s) =
      lastIndex (fun b => p b || q b) s := by
  induction s with
  | nil => rfl
  | cons b rest ih =>
    cases hp : lastIndex p rest with
    | none =>
      cases hq : lastIndex q rest with
      | none =>
        rw [hp, hq] at ih
        cases hpb : p b <;> cases hqb : q b <;>
          simp [lastIndex, hp, hq, ← ih, hpb, hqb, pointerLt]
      | some j =>
        rw [hp, hq] at ih
        cases hpb : p b <;> simp [lastIndex, hp, hq, ← ih, hpb, pointerLt]
    | some i =>
      cases hq : lastIndex q rest with
      | none =>
        rw [hp, hq] at ih
        cases hqb : q b <;> simp [lastIndex, hp, hq, ← ih, hqb, pointerLt]
      | some j =>
        rw [hp, hq] at ih
        by_cases hij : j < i <;> simp [lastIndex, hp, hq, ← ih, hij, pointerLt]

/-- The two separators are one to the code. -/
theorem getFileExtension_eq (fp : Text) : getFileExtension (some fp) =
    (strrchr fp dot).bind fun i =>
      if pointerLt (some i) (lastIndex isSep (cString fp)) || i == 0 then none
      else some ((cString fp).drop (i + 1)) := by
  have hsep : (if pointerLt (strrchr fp backslash) (strrchr fp slash) then strrchr fp slash
      else strrchr fp backslash) = lastIndex isSep (cString fp) := later_lastIndex ..
  dsimp only [getFileExtension]
  rw [hsep]
  cases strrchr fp dot with
  | none => rfl
  | some i => cases lastIndex isSep (cString fp) <;> simp [pointerLt]

theorem lastIndex_dot (front : Text) {e : Text} (h : dot ∉ e) :
    lastIndex (· == dot) (front ++ dot :: e) = some front.length := by
  apply lastIndex_append_cons
  · exact beq_self_eq_true dot
  · intro b hb
    rw [beq_eq_false_iff_ne]
    rintro rfl
    exact h hb

theorem getFileExtension_of_dot {fp front e : Text} (hpath : cString fp = front ++ dot :: e)
    (hdot : dot ∉ e) (hsep : ∀ b ∈ e, isSep b = false) :
    getFileExtension (some fp) = if front = [] then none else some e := by
  have hbefore : pointerLt (some front.length) (lastIndex isSep (front ++ dot :: e)) = false := by
    rw [lastIndex_append front (List.forall_mem_cons.mpr ⟨rfl, hsep⟩)]
    cases hfront : lastIndex isSep front with
    | none => rfl
    | some i => simpa [pointerLt] using (lt_length_of_lastIndex hfront).le
  rw [getFileExtension_eq, strrchr, hpath, lastIndex_dot front hdot, Option.bind_some, hbefore]
  simp [List.length_eq_zero_iff]

theorem getFileExtension_of_noDot {fp : Text} (h : dot ∉ lastComponent (cString fp)) :
    getFileExtension (some fp) = none := by
  have hname : ∀ b ∈ lastComponent (cString fp), (b == dot) = false := by
    intro b hb
    rw [beq_eq_false_iff_ne]
    rintro rfl
    exact h hb
  obtain ⟨hnoSep, hpath | ⟨dir, sep, hsep, hpath⟩⟩ := exists_dir (cString fp)
  · rw [getFileExtension_eq, strrchr, hpath, lastIndex_eq_none hname]
    rfl
  · -- a dot in a directory is before the separator
    have hne : (sep == dot) = false := by
      rw [beq_eq_false_iff_ne]
      rintro rfl
      cases hsep
    have hdot := lastIndex_append (p := (· == dot)) dir (List.forall_mem_cons.mpr ⟨hne, hname⟩)
    have hlast := lastIndex_append_cons dir hsep hnoSep
    rw [← hpath] at hdot hlast
    rw [getFileExtension_eq, strrchr, hdot, hlast]
    cases hdir : lastIndex (· == dot) dir with
    | none => rfl
    | some i => simp [pointerLt, lt_length_of_lastIndex hdir]

/-! ## Extensions -/

theorem Named.unique {path b b' e e' : Text} (h : Named path b e) (h' : Named path b' e') :
    b' = b ∧ e' = e := by
  have hlast {b e : Text} (h : Named path b e) :
      lastIndex (· == dot) (lastComponent path) = some b.length := by
    rw [h.eq, lastIndex_dot b h.noDot]
  have hlength : b'.length = b.length := Option.some.inj ((hlast h').symm.trans (hlast h))
  obtain ⟨hb, he⟩ := List.append_inj (h'.eq.symm.trans h.eq) hlength
  exact ⟨hb, (List.cons.inj he).2⟩

theorem exists_named {path : Text} (h : dot ∈ lastComponent path) : ∃ b e, Named path b e := by
  obtain ⟨e, b, heq, hnot⟩ := List.eq_append_cons_of_mem (List.mem_reverse.mpr h)
  refine ⟨b.reverse, e.reverse, ?_, by simpa using hnot⟩
  rw [← List.reverse_reverse (lastComponent path), heq]
  simp

theorem getFileExtension_of_named {fp b e : Text} (h : Named (cString fp) b e) :
    getFileExtension (some fp) = if cString fp = dot :: e then none else some e := by
  obtain ⟨hnoSep, hpath⟩ := exists_dir (cString fp)
  rw [h.eq] at hnoSep hpath
  have hsep : ∀ c ∈ e, isSep c = false := fun c hc =>
    hnoSep c (List.mem_append_right b (List.mem_cons_of_mem dot hc))
  obtain ⟨front, hfront⟩ : ∃ front, cString fp = front ++ dot :: e := by
    rcases hpath with hpath | ⟨dir, sep, -, hpath⟩
    · exact ⟨b, hpath⟩
    · exact ⟨dir ++ sep :: b, by simpa using hpath⟩
  rw [getFileExtension_of_dot hfront h.noDot hsep, hfront]
  simp

theorem zero_notMem_of_named {path b e : Text} (h : Named path b e) (hpath : 0 ∉ path) : 0 ∉ e := by
  intro hmem
  have hsuffix : lastComponent path <:+ path := List.rtakeWhile_suffix ..
  rw [h.eq] at hsuffix
  exact hpath (hsuffix.subset (List.mem_append_right b (List.mem_cons_of_mem dot hmem)))

/-- The first listed extension that an extension begins with decides. -/
theorem getContentType_eq {e : Text} (h : 0 ∉ e) : getContentType (some e) =
    some (((contentTypes.find? fun x => x.1.isPrefixOf e).map Prod.snd).getD
      (ascii "text/plaintext")) := by
  have hcompare (known : Text) (hknown : 0 ∉ known) :
      strncmp e known known.length = known.isPrefixOf e := by
    rw [Bool.eq_iff_iff, strncmp_length_iff h hknown, List.isPrefixOf_iff_prefix]
  have hjs : strncmp e (ascii "js") 2 = _ := hcompare (ascii "js") (by decide)
  have hhtml : strncmp e (ascii "html") 4 = _ := hcompare (ascii "html") (by decide)
  have hico : strncmp e (ascii "ico") 3 = _ := hcompare (ascii "ico") (by decide)
  have hcss : strncmp e (ascii "css") 3 = _ := hcompare (ascii "css") (by decide)
  simp only [getContentType, hjs, hhtml, hico, hcss, contentTypes, List.find?_cons, List.find?_nil]
  split_ifs with hjs hhtml hico hcss
  · simp [hjs]
  · simp [hjs, hhtml]
  · simp [hjs, hhtml, hico]
  · simp [hjs, hhtml, hico, hcss]
  · simp [hjs, hhtml, hico, hcss]

theorem contentTypes_ne_plaintext : ∀ x ∈ contentTypes, x.2 ≠ ascii "text/plaintext" := by
  decide +kernel

theorem contentTypes_prefixFree :
    ∀ x ∈ contentTypes, ∀ y ∈ contentTypes, x.1 <+: y.1 → x = y := by
  decide +kernel

theorem TypeFor.eq_plaintext {path b e type : Text} (h : TypeFor path type)
    (hnamed : Named path b e) (hother : b ≠ [] → ∀ x ∈ contentTypes, x.1 ≠ e) : type = ascii "text/plaintext" := by
  apply h.other
  intro b' e' t hnamed' hb hmem
  obtain ⟨rfl, rfl⟩ := hnamed.unique hnamed'
  exact hother hb (e', t) hmem rfl

/-- The type that an extension is given is the right one if no listed one is a mere beginning
of it, or it is that of a hidden file. -/
theorem typeFor_found_iff {path b e : Text} (hnamed : Named path b e) :
    TypeFor path (((contentTypes.find? fun x => x.1.isPrefixOf e).map Prod.snd).getD
        (ascii "text/plaintext")) ↔
      ∀ x ∈ contentTypes, x.1 <+: e → x.1 = e ∧ b ≠ [] := by
  cases hfound : contentTypes.find? fun x => x.1.isPrefixOf e with
  | none =>
    have hnone : ∀ x ∈ contentTypes, ¬x.1 <+: e := by
      intro x hx hprefix
      exact List.find?_eq_none.mp hfound x hx (List.isPrefixOf_iff_prefix.mpr hprefix)
    refine ⟨fun _ x hx hprefix => absurd hprefix (hnone x hx), fun _ => ⟨?_, fun _ => rfl⟩⟩
    intro b' e' t hnamed' _ hmem
    obtain ⟨rfl, rfl⟩ := hnamed.unique hnamed'
    exact absurd (List.prefix_refl e') (hnone (e', t) hmem)
  | some x =>
    have hx : x ∈ contentTypes := List.mem_of_find?_eq_some hfound
    have hprefix : x.1 <+: e := by
      have htest := List.find?_some hfound
      exact List.isPrefixOf_iff_prefix.mp htest
    constructor
    · intro htype
      -- a listed type is not the default, so the name and the extension ask for it
      obtain ⟨hb, y, hy, rfl⟩ : b ≠ [] ∧ ∃ y ∈ contentTypes, y.1 = e := by
        by_contra hother
        exact contentTypes_ne_plaintext x hx
          (htype.eq_plaintext hnamed fun hb y hy heq => hother ⟨hb, y, hy, heq⟩)
      intro z hz hzy
      rw [contentTypes_prefixFree z hz y hy hzy]
      exact ⟨rfl, hb⟩
    · intro hexact
      obtain ⟨rfl, hb⟩ := hexact x hx hprefix
      constructor
      · intro b' e' t hnamed' _ hmem
        obtain ⟨rfl, rfl⟩ := hnamed.unique hnamed'
        exact congrArg Prod.snd (contentTypes_prefixFree x hx (x.1, t) hmem (List.prefix_refl x.1))
      · intro hother
        exact absurd hx (hother b x.1 x.2 hnamed hb)

/-- The type of a static file is that of its extension exactly when the path has an extension
that is no hidden file's name and no longer than the listed one it begins with. -/
theorem typedByExtension_iff (fp : Text) : TypedByExtension fp ↔ PlainlyNamed (cString fp) := by
  by_cases hdot : dot ∈ lastComponent (cString fp)
  · obtain ⟨b, e, hnamed⟩ := exists_named hdot
    have hplain : PlainlyNamed (cString fp) ↔ cString fp ≠ dot :: e ∧
        ∀ x ∈ contentTypes, x.1 <+: e → x.1 = e ∧ b ≠ [] := by
      constructor
      · rintro ⟨b', e', hnamed', hrest⟩
        obtain ⟨rfl, rfl⟩ := hnamed.unique hnamed'
        exact hrest
      · intro hrest
        exact ⟨b, e, hnamed, hrest⟩
    rw [hplain, TypedByExtension, staticContentType, getFileExtension_of_named hnamed]
    by_cases hfirst : cString fp = dot :: e
    · simp [hfirst, getContentType]
    · have hzero := zero_notMem_of_named hnamed (zero_notMem_cString fp)
      rw [if_neg hfirst, getContentType_eq hzero, ← typeFor_found_iff hnamed]
      simp [hfirst]
  · constructor
    · rintro ⟨type, htype, -⟩
      rw [staticContentType, getFileExtension_of_noDot hdot] at htype
      cases htype
    · rintro ⟨b, e, hnamed, -⟩
      rw [hnamed.eq] at hdot
      exact absurd (List.mem_append_right b List.mem_cons_self) hdot

/-- No extension, an extension that only begins like a listed one, and a hidden file in a
directory. -/
theorem not_typedByExtension : ¬TypedByExtension (ascii "README") ∧
    ¬TypedByExtension (ascii "app.json") ∧ ¬TypedByExtension (ascii "static/.css") := by
  refine ⟨?_, ?_, ?_⟩
  · rintro ⟨type, htype, -⟩
    cases htype
  · rintro ⟨type, htype, hfor⟩
    have hnamed : Named (cString (ascii "app.json")) (ascii "app") (ascii "json") :=
      ⟨by decide, by decide⟩
    rw [hfor.eq_plaintext hnamed fun _ => by decide] at htype
    revert htype
    decide
  · rintro ⟨type, htype, hfor⟩
    have hnamed : Named (cString (ascii "static/.css")) [] (ascii "css") := ⟨by decide, by decide⟩
    rw [hfor.eq_plaintext hnamed fun hb => absurd rfl hb] at htype
    revert htype
    decide

end CapyJs.Util
