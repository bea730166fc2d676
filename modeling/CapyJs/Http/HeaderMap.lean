import CapyJs.Http.HeaderLines
import Mathlib.Data.List.Nodup

/-!
# Setting the same header twice

`headers` is a map from pointers, and every call of `setHeader` brings a new one. The block is
that of a map from names only if no name is set twice or is one that `build_headers` prints
itself.
-/
namespace CapyJs.Http

open Codec

/-- A call of `setHeader` with a name that is not empty and texts of one line. `position` is where
the address of the copied name puts it in the map. -/
structure SetCall where
  position : ℕ
  header : Header
  name_ne_nil : header.name ≠ []
  plain : ∀ b ∈ header.name ++ header.value, b ≠ 0 ∧ b ≠ 13 ∧ b ≠ 10

def SetCall.call (c : SetCall) : ℕ × Header := (c.position, c.header)

/-- For each name set, the header set last. -/
def lastSet : List Header → List Header
  | [] => []
  | h :: rest => if h.name ∈ rest.map Header.name then lastSet rest else h :: lastSet rest

namespace Response

/-- The headers that `build_headers` adds of itself, for a body and the headers set. -/
def standard (body : Text) (headers : List Header) : List Header :=
  (if headers = [] then [contentType] else []) ++ [contentLength body.length, connection]

/-- The headers of a response whose headers are a map from names to values. -/
def asMap (body : Text) (headers : List Header) : List Header :=
  (standard body headers).filter (fun h => h.name ∉ headers.map Header.name) ++ lastSet headers

/-- The header block has a line for each header of the map, in some order. -/
def BuiltAsMap (body : Text) (calls : List SetCall) : Prop :=
  ∃ fields : List Header, fields.Perm (asMap (cString body) (calls.map SetCall.header)) ∧
    (ended body (calls.map SetCall.call)).headerText =
      joinLines (statusLine :: fields.map Header.line) ++ crlf

end Response

/-! ## The last header of each name -/

section
variable {headers : List Header}

theorem lastSet_sublist (headers : List Header) : (lastSet headers).Sublist headers := by
  induction headers with
  | nil => exact .slnil
  | cons h rest ih =>
    rw [lastSet]
    split_ifs
    · exact ih.cons h
    · exact ih.cons_cons h

theorem mem_names_lastSet {name : Text} :
    name ∈ (lastSet headers).map Header.name ↔ name ∈ headers.map Header.name := by
  induction headers with
  | nil => rfl
  | cons h rest ih =>
    rw [lastSet]
    split_ifs with hlater
    · rw [ih, List.map_cons, List.mem_cons]
      constructor
      · exact .inr
      · rintro (rfl | hname)
        · exact hlater
        · exact hname
    · rw [List.map_cons, List.map_cons, List.mem_cons, List.mem_cons, ih]

theorem nodup_names_lastSet (headers : List Header) : ((lastSet headers).map Header.name).Nodup := by
  induction headers with
  | nil => exact List.nodup_nil
  | cons h rest ih =>
    rw [lastSet]
    split_ifs with hlater
    · exact ih
    · rw [List.map_cons, List.nodup_cons, mem_names_lastSet]
      exact ⟨hlater, ih⟩

theorem lastSet_eq_self (h : (headers.map Header.name).Nodup) : lastSet headers = headers := by
  induction headers with
  | nil => rfl
  | cons h rest ih =>
    rw [List.map_cons, List.nodup_cons] at h
    rw [lastSet, if_neg h.1, ih h.2]

/-- No header is left out only if no name is set twice. -/
theorem nodup_of_length_lastSet (h : (lastSet headers).length = headers.length) :
    (headers.map Header.name).Nodup := by
  rw [← (lastSet_sublist headers).eq_of_length h]
  exact nodup_names_lastSet headers

end

namespace Response

/-! ## The block as a list of headers -/

theorem strdup_of_plain (c : SetCall) : c.header.strdup = c.header := by
  have hnul : (0 : UInt8) ∉ c.header.name ++ c.header.value := fun h => (c.plain 0 h).1 rfl
  rw [List.mem_append, not_or] at hnul
  rw [Header.strdup, cString_eq_self hnul.1, cString_eq_self hnul.2]

theorem noCrlf_of_plain (c : SetCall) : ¬crlf <:+: c.header.line := by
  have hcr : (13 : UInt8) ∉ c.header.name ++ c.header.value := fun h => (c.plain 13 h).2.1 rfl
  rw [List.mem_append, not_or] at hcr
  rw [crlf_infix_line]
  exact not_or.mpr ⟨noCrlf_of_not_mem hcr.1, noCrlf_of_not_mem hcr.2⟩

/-- The map of a response holds the headers set, in the order of their addresses. -/
theorem headers_ended (body : Text) (calls : List SetCall) :
    (ended body (calls.map SetCall.call)).headers.Perm (calls.map SetCall.header) := by
  have hperm := headers_withHeaders (cString body) (calls.map SetCall.call)
  rw [List.map_map, List.map_map] at hperm
  have hsame : calls.map ((Header.strdup ∘ Prod.snd) ∘ SetCall.call) = calls.map SetCall.header :=
    List.map_congr_left fun c _ => strdup_of_plain c
  rwa [hsame] at hperm

theorem headerSize_ended (body : Text) (calls : List SetCall) :
    (ended body (calls.map SetCall.call)).headerSize =
      valueRoom (calls.map SetCall.header) % 2 ^ 32 := by
  rw [ended, headerSize_withHeaders, List.map_map]
  rfl

theorem storedInLines_ended (body : Text) (calls : List SetCall) :
    (ended body (calls.map SetCall.call)).StoredInLines := by
  intro h hh
  have hmem := (headers_ended body calls).mem_iff.mp hh
  obtain ⟨c, -, rfl⟩ := List.mem_map.mp hmem
  have hline := noCrlf_of_plain c
  rw [crlf_infix_line] at hline
  rw [strdup_of_plain]
  exact not_or.mp hline

theorem mem_standard {body : Text} {headers : List Header} {h : Header}
    (hh : h ∈ standard body headers) : h ∈ [contentType, contentLength body.length, connection] := by
  unfold standard at hh
  split_ifs at hh
  · exact hh
  · exact List.mem_cons_of_mem _ hh

theorem noCrlf_asMap (body : Text) (calls : List SetCall) {h : Header}
    (hh : h ∈ asMap body (calls.map SetCall.header)) : ¬crlf <:+: h.line := by
  rcases List.mem_append.mp hh with hstandard | hset
  · apply noCrlf_standard body.length
    have hmem := mem_standard (List.mem_filter.mp hstandard).1
    exact List.mem_cons_of_mem _ (List.mem_map_of_mem hmem)
  · obtain ⟨c, -, rfl⟩ := List.mem_map.mp ((lastSet_sublist _).subset hset)
    exact noCrlf_of_plain c

/-- The lines of the block are those of the headers printed. -/
theorem builtAsMap_iff_lines (body : Text) (calls : List SetCall) :
    BuiltAsMap body calls ↔ ∃ fields : List Header,
      fields.Perm (asMap (cString body) (calls.map SetCall.header)) ∧
        (ended body (calls.map SetCall.call)).printed.map Header.line = fields.map Header.line := by
  have hblock := splitLines_headerText (.inr (storedInLines_ended body calls))
  refine exists_congr fun fields => and_congr_right fun hperm => ?_
  constructor
  · intro hsame
    have hfields : ∀ line ∈ statusLine :: fields.map Header.line, ¬crlf <:+: line := by
      intro line hline
      rcases List.mem_cons.mp hline with rfl | hmem
      · exact noCrlf_standard 0 List.mem_cons_self
      · obtain ⟨h, hh, rfl⟩ := List.mem_map.mp hmem
        exact noCrlf_asMap _ _ (hperm.mem_iff.mp hh)
    rw [hsame, splitLines_joinLines hfields] at hblock
    have hlines : statusLine :: fields.map Header.line =
        statusLine :: (ended body (calls.map SetCall.call)).printed.map Header.line :=
      List.append_cancel_right hblock
    exact (List.cons.inj hlines).2.symm
  · intro hlines
    rw [headerText_eq, hlines]

/-! ## Headers that are printed -/

/-- With as many headers as calls and standard ones, no name occurs twice. -/
theorem distinct_of_length_asMap {body : Text} {headers : List Header} (hset : headers ≠ [])
    (h : (asMap body headers).length = 2 + headers.length) :
    (headers.map Header.name).Nodup ∧ ascii "Content-Length" ∉ headers.map Header.name ∧
      ascii "Connection" ∉ headers.map Header.name := by
  have hlast := (lastSet_sublist headers).length_le
  rw [asMap, List.length_append, standard, if_neg hset, List.nil_append] at h
  have hfilter := List.length_filter_le (fun h : Header => decide (h.name ∉ headers.map Header.name))
    [contentLength body.length, connection]
  have htwo : [contentLength body.length, connection].length = 2 := rfl
  have hall := List.length_filter_eq_length_iff.mp
    (show ([contentLength body.length, connection].filter fun h : Header =>
      decide (h.name ∉ headers.map Header.name)).length = _ by omega)
  refine ⟨nodup_of_length_lastSet (by omega), ?_, ?_⟩
  · exact of_decide_eq_true (hall (contentLength body.length) (by simp))
  · exact of_decide_eq_true (hall connection (by simp))

theorem asMap_of_distinct {body : Text} {headers : List Header} (hset : headers ≠ [])
    (hnodup : (headers.map Header.name).Nodup)
    (hlength : ascii "Content-Length" ∉ headers.map Header.name)
    (hconnection : ascii "Connection" ∉ headers.map Header.name) :
    asMap body headers = contentLength body.length :: connection :: headers := by
  have hname : (contentLength body.length).name ∉ headers.map Header.name := hlength
  have hname' : connection.name ∉ headers.map Header.name := hconnection
  rw [asMap, lastSet_eq_self hnodup, standard, if_neg hset, List.nil_append,
    List.filter_cons_of_pos (by simpa using hname), List.filter_cons_of_pos (by simpa using hname'),
    List.filter_nil]
  rfl

theorem printed_ended {body : Text} {calls : List SetCall}
    (h : (ended body (calls.map SetCall.call)).headerSize ≠ 0) :
    (ended body (calls.map SetCall.call)).printed.Perm
      (contentLength (cString body).length :: connection :: calls.map SetCall.header) := by
  have hstored : (ended body (calls.map SetCall.call)).headers.map Header.strdup =
      (ended body (calls.map SetCall.call)).headers := by
    rw [List.map_congr_left fun f hf => ?_, List.map_id]
    obtain ⟨c, -, rfl⟩ := List.mem_map.mp ((headers_ended body calls).mem_iff.mp hf)
    exact strdup_of_plain c
  have hbody : (ended body (calls.map SetCall.call)).responseBuffer = cString body :=
    responseBuffer_withHeaders _ _
  rw [printed, if_neg h, hstored, hbody]
  exact ((headers_ended body calls).cons _).cons _

theorem builtAsMap_iff_distinct {body : Text} {calls : List SetCall}
    (h : (ended body (calls.map SetCall.call)).headerSize ≠ 0) :
    BuiltAsMap body calls ↔
      ((calls.map SetCall.header).map Header.name).Nodup ∧
        ascii "Content-Length" ∉ (calls.map SetCall.header).map Header.name ∧
        ascii "Connection" ∉ (calls.map SetCall.header).map Header.name := by
  have hset : calls.map SetCall.header ≠ [] := by
    intro hnil
    rw [headerSize_ended, hnil] at h
    exact h rfl
  have hprinted := printed_ended h
  rw [builtAsMap_iff_lines]
  constructor
  · rintro ⟨fields, hperm, hlines⟩
    have hlength := congrArg List.length hlines
    rw [List.length_map, List.length_map, hperm.length_eq, hprinted.length_eq, List.length_cons,
      List.length_cons] at hlength
    have hcount : (asMap (cString body) (calls.map SetCall.header)).length =
        2 + (calls.map SetCall.header).length := by omega
    exact distinct_of_length_asMap hset hcount
  · rintro ⟨hnodup, hlength, hconnection⟩
    refine ⟨_, ?_, rfl⟩
    rw [asMap_of_distinct hset hnodup hlength hconnection]
    exact hprinted

/-! ## Headers that are left out -/

/-- A line with a single colon is that of one header only. -/
theorem eq_of_line {h d : Header} (hname : (58 : UInt8) ∉ d.name) (hvalue : (58 : UInt8) ∉ d.value)
    (hline : h.line = d.line) : h = d := by
  have hcolon (f : Header) : f.line = f.name ++ 58 :: 32 :: f.value := by
    rw [Header.line, List.append_assoc]
    rfl
  have hblank : (58 : UInt8) ∉ 32 :: d.value := by simpa using hvalue
  rw [hcolon, hcolon] at hline
  obtain ⟨hnames, -, hvalues⟩ := (List.append_cons_inj_of_notMem hname hblank).mp hline.symm
  cases h
  cases d
  cases hnames
  cases hvalues
  rfl

theorem eq_of_line_standard (n : ℕ) {h d : Header} (hd : d ∈ [contentType, contentLength n, connection])
    (hline : h.line = d.line) : h = d := by
  have hdigits : (58 : UInt8) ∉ decimal n := fun hmem =>
    absurd (digit_of_mem_decimal hmem).2 (by decide)
  have hname : (58 : UInt8) ∉ ascii "Content-Length" := by decide
  simp only [List.mem_cons, List.not_mem_nil, or_false] at hd
  rcases hd with rfl | rfl | rfl
  · exact eq_of_line (by decide) (by decide) hline
  · exact eq_of_line hname hdigits hline
  · exact eq_of_line (by decide) (by decide) hline

theorem eq_of_lines_standard (n : ℕ) {ds headers : List Header}
    (hds : ds ⊆ [contentType, contentLength n, connection])
    (h : ds.map Header.line = headers.map Header.line) : headers = ds := by
  induction ds generalizing headers with
  | nil => exact List.map_eq_nil_iff.mp h.symm
  | cons d ds ih =>
    cases headers with
    | nil => cases h
    | cons f headers =>
      rw [List.map_cons, List.map_cons] at h
      obtain ⟨hfirst, hrest⟩ := List.cons.inj h
      rw [eq_of_line_standard n (hds List.mem_cons_self) hfirst.symm,
        ih (fun x hx => hds (List.mem_cons_of_mem _ hx)) hrest]

/-- What is set is the content type and perhaps other headers of the default block, with the
values that this has. -/
def DefaultSet (body : Text) (headers : List Header) : Prop :=
  ascii "Content-Type" ∈ headers.map Header.name ∧
    ∀ h ∈ lastSet headers, h ∈ [contentType, contentLength body.length, connection]

theorem nodup_asMap {body : Text} {headers : List Header} (hset : headers ≠ []) :
    (asMap body headers).Nodup := by
  apply List.Nodup.of_map Header.name
  rw [asMap, List.map_append, List.nodup_append]
  refine ⟨?_, nodup_names_lastSet headers, ?_⟩
  · rw [standard, if_neg hset, List.nil_append]
    have hnames : ([contentLength body.length, connection].map Header.name).Nodup := by
      have hdistinct : [ascii "Content-Length", ascii "Connection"].Nodup := by decide
      exact hdistinct
    exact (List.filter_sublist.map Header.name).nodup hnames
  · intro a ha b hb hab
    obtain ⟨h, hh, rfl⟩ := List.mem_map.mp ha
    rw [mem_names_lastSet, ← hab] at hb
    exact of_decide_eq_true (List.mem_filter.mp hh).2 hb

theorem asMap_perm_iff {body : Text} {headers : List Header} (hset : headers ≠ []) :
    [contentType, contentLength body.length, connection].Perm (asMap body headers) ↔
      DefaultSet body headers := by
  have hstandard : standard body headers = [contentLength body.length, connection] := by
    rw [standard, if_neg hset, List.nil_append]
  have hnames : [ascii "Content-Type", ascii "Content-Length", ascii "Connection"].Nodup := by
    decide
  constructor
  · intro hperm
    constructor
    · have hmem := hperm.mem_iff.mp (List.mem_cons_self : contentType ∈ _)
      rcases List.mem_append.mp hmem with hmem | hmem
      · rw [hstandard] at hmem
        have hname := List.mem_map_of_mem (f := Header.name) (List.mem_filter.mp hmem).1
        exact absurd hname (List.nodup_cons.mp hnames).1
      · exact mem_names_lastSet.mp (List.mem_map_of_mem hmem)
    · intro h hh
      exact hperm.mem_iff.mpr (List.mem_append_right _ hh)
  · rintro ⟨htype, hlast⟩
    have hdefault : ([contentType, contentLength body.length, connection].map Header.name).Nodup :=
      hnames
    -- a header of the default block that is set is set as it stands there
    have hset' {d : Header} (hd : d ∈ [contentType, contentLength body.length, connection])
        (hname : d.name ∈ headers.map Header.name) : d ∈ asMap body headers := by
      obtain ⟨h, hh, heq⟩ := List.mem_map.mp (mem_names_lastSet.mpr hname)
      have hsame : h = d := List.inj_on_of_nodup_map hdefault (hlast h hh) hd heq
      exact List.mem_append_right _ (hsame ▸ hh)
    apply (List.perm_ext_iff_of_nodup hdefault.of_map (nodup_asMap hset)).mpr
    intro d
    constructor
    · intro hd
      by_cases hname : d.name ∈ headers.map Header.name
      · exact hset' hd hname
      · have hne : d ≠ contentType := by
          rintro rfl
          exact hname htype
        have hmem : d ∈ standard body headers := by
          rw [hstandard]
          exact (List.mem_cons.mp hd).resolve_left hne
        exact List.mem_append_left _ (List.mem_filter.mpr ⟨hmem, by simpa using hname⟩)
    · intro hd
      rcases List.mem_append.mp hd with hd | hd
      · exact mem_standard (List.mem_filter.mp hd).1
      · exact hlast d hd

theorem builtAsMap_iff_default {body : Text} {calls : List SetCall} (hset : calls ≠ [])
    (h : (ended body (calls.map SetCall.call)).headerSize = 0) :
    BuiltAsMap body calls ↔ DefaultSet (cString body) (calls.map SetCall.header) := by
  have hbody : (ended body (calls.map SetCall.call)).responseBuffer = cString body :=
    responseBuffer_withHeaders _ _
  have hheaders : calls.map SetCall.header ≠ [] := by simpa using hset
  rw [builtAsMap_iff_lines, printed, if_pos h, hbody, ← asMap_perm_iff hheaders]
  constructor
  · rintro ⟨fields, hperm, hlines⟩
    rwa [eq_of_lines_standard _ (List.Subset.refl _) hlines] at hperm
  · intro hperm
    exact ⟨_, hperm, rfl⟩

/-- The block that a large enough buffer gets has the headers of a map exactly when no name is set
twice or together with a standard header and some value is not empty, or no header is set. With
values of `2 ^ 32` bytes in all `header_size` is 0 again, and then the default block has to be the
one that was set. -/
theorem builtAsMap_iff (body : Text) (calls : List SetCall) :
    (ended body (calls.map SetCall.call)).Builds (ended body (calls.map SetCall.call)).headerText ∧
      (BuiltAsMap body calls ↔
        calls = [] ∨
          valueRoom (calls.map SetCall.header) % 2 ^ 32 ≠ 0 ∧
            ((calls.map SetCall.header).map Header.name).Nodup ∧
            ascii "Content-Length" ∉ (calls.map SetCall.header).map Header.name ∧
            ascii "Connection" ∉ (calls.map SetCall.header).map Header.name ∨
          valueRoom (calls.map SetCall.header) % 2 ^ 32 = 0 ∧
            DefaultSet (cString body) (calls.map SetCall.header)) := by
  refine ⟨headerText_builds _, ?_⟩
  rw [← headerSize_ended body calls]
  by_cases hset : calls = []
  · subst hset
    refine iff_of_true ?_ (.inl rfl)
    rw [builtAsMap_iff_lines]
    exact ⟨_, .refl _, rfl⟩
  · by_cases hzero : (ended body (calls.map SetCall.call)).headerSize = 0
    · simp [builtAsMap_iff_default hset hzero, hset, hzero]
    · simp [builtAsMap_iff_distinct hzero, hset, hzero]

/-- `setHeader("X-A", v)` for one letter `v`. -/
def setLetter (v : UInt8) (h : v ≠ 0 ∧ v ≠ 13 ∧ v ≠ 10) : SetCall where
  position := 0
  header := ⟨ascii "X-A", [v]⟩
  name_ne_nil := show ascii "X-A" ≠ [] by decide
  plain b hb := by
    have hname : ∀ c ∈ ascii "X-A", c ≠ 0 ∧ c ≠ 13 ∧ c ≠ 10 := by decide +kernel
    rcases List.mem_append.mp hb with hb | hb
    · exact hname b hb
    · exact List.mem_singleton.mp hb ▸ h

/-- A header that is set twice stands in the block twice. -/
theorem setLetter_twice_not_builtAsMap :
    ¬BuiltAsMap (ascii "hello") [setLetter 49 (by decide), setLetter 50 (by decide)] := by
  intro h
  have hdistinct := (builtAsMap_iff_distinct (by decide)).mp h
  exact absurd hdistinct.1 (by decide)

end Response
end CapyJs.Http
