import CapyJs.Codec.Lines
import CapyJs.Http.HeaderBuffer

/-!
# The header block as lines

Header names and values go into the block as they are, up to a NUL. With a CRLF in one of them
the block has lines that nobody set, or ends early.
-/
namespace CapyJs.Http

open Codec

/-- A header as a line, without its end. -/
def Header.line (h : Header) : Text := h.name ++ ascii ": " ++ h.value

namespace Response

/-- A response after some calls of `setHeader` and `end`, which takes the C string of its
argument. -/
def ended (body : Text) (calls : List (ℕ × Header)) : Response := withHeaders (cString body) calls

def statusLine : Text := ascii "HTTP/1.1 200 OK"

def contentType : Header := ⟨ascii "Content-Type", ascii "text/plain"⟩

def contentLength (n : ℕ) : Header := ⟨ascii "Content-Length", decimal n⟩

def connection : Header := ⟨ascii "Connection", ascii "keep-alive"⟩

/-- The headers that `build_headers` prints. -/
def printed (r : Response) : List Header :=
  if r.headerSize = 0 then [contentType, contentLength r.responseBuffer.length, connection]
  else contentLength r.responseBuffer.length :: connection :: r.headers.map Header.strdup

/-- The headers of a response: the standard ones, among them a content type if none is stored,
and those stored. -/
def meant (r : Response) : List Header :=
  (if r.headers = [] then [contentType] else []) ++
    contentLength r.responseBuffer.length :: connection :: r.headers.map Header.strdup

/-- A buffer that is larger than a text has it at its start after `build_headers`. -/
def Builds (r : Response) (block : Text) : Prop :=
  ∀ buf : Text, block.length < buf.length → buf.length < 2 ^ 31 →
    ∃ buf', r.buildHeaders buf buf.length = some (buf', (block.length : ℤ)) ∧
      buf'.take block.length = block

/-- A client reads lines up to an empty one, and then as many bytes as the first
`Content-Length` says, which are all there are. -/
def SeesBody (bytes body : Text) : Prop :=
  ∃ lines, readHead bytes = some (lines, body) ∧
    lines.find? (ascii "Content-Length: ").isPrefixOf =
      some (contentLength body.length).line

/-- The block ends where it should, has one line for the status and for each header, and a
client finds the body behind it. -/
structure Unsplit (r : Response) (body : Text) : Prop where
  ends : ∀ i, crlf ++ crlf <+: r.headerText.drop i → i + 4 = r.headerText.length
  lines : splitLines r.headerText = statusLine :: r.meant.map Header.line ++ [[], []]
  body : SeesBody (r.headerText ++ r.responseBuffer) body

/-! ## The block -/

theorem headerText_builds (r : Response) : r.Builds r.headerText := by
  intro buf hlong hsize
  obtain ⟨-, buf', n, hbuild, -, htake, -⟩ := (buildsWhole_iff hsize).mpr hlong
  have hn := length_of_buildHeaders (by omega) hbuild
  have hnat : n = r.headerText.length := by exact_mod_cast hn
  rw [hnat] at hbuild htake
  exact ⟨buf', hbuild, htake⟩

theorem headerText_eq (r : Response) :
    r.headerText = joinLines (statusLine :: r.printed.map Header.line) ++ crlf := by
  have hlines (headers : List Header) :
      (headers.map headerLine).flatten = joinLines ((headers.map Header.strdup).map Header.line) := by
    rw [joinLines, List.map_map, List.flatMap_map, List.flatMap]
    rfl
  by_cases hzero : r.headerSize = 0
  · have hfront : ascii "HTTP/1.1 200 OK\r\nContent-Type: text/plain\r\nContent-Length: " =
        statusLine ++ crlf ++ (contentType.line ++ crlf) ++ ascii "Content-Length" ++ ascii ": " := by
      decide +kernel
    have hback : ascii "\r\nConnection: keep-alive\r\n\r\n" =
        crlf ++ (connection.line ++ crlf) ++ crlf := by decide +kernel
    rw [headerText, headerTexts, if_pos hzero, printed, if_pos hzero, hfront, hback]
    simp [joinLines, Header.line, contentLength]
  · have hfront : ascii "HTTP/1.1 200 OK\r\nContent-Length: " =
        statusLine ++ crlf ++ ascii "Content-Length" ++ ascii ": " := by decide +kernel
    have hback : ascii "\r\nConnection: keep-alive\r\n" =
        crlf ++ (connection.line ++ crlf) := by decide +kernel
    have hend : ascii "\r\n" = crlf := by decide +kernel
    rw [headerText, headerTexts, if_neg hzero, printed, if_neg hzero, hfront, hback, hend,
      List.flatten_append, List.flatten_append, hlines]
    simp [joinLines, Header.line, contentLength]

/-! ## Lines without a CRLF in them -/

theorem digit_of_mem_decimal {n : ℕ} {b : UInt8} (h : b ∈ decimal n) :
    48 ≤ b.toNat ∧ b.toNat ≤ 57 := by
  obtain ⟨c, hc, rfl⟩ := List.mem_map.mp h
  have hrepr : (Nat.repr n).toList = Nat.toDigits 10 n := by simp [Nat.repr]
  rw [hrepr] at hc
  have hdigit := Nat.isDigit_of_mem_toDigits (by decide) le_rfl hc
  simp only [Char.isDigit, Bool.and_eq_true, decide_eq_true_eq] at hdigit
  have hlow : 48 ≤ c.toNat := hdigit.1
  have hhigh : c.toNat ≤ 57 := hdigit.2
  have hlt : c.toNat < 256 := by omega
  rw [UInt8.toNat_ofNat_of_lt' hlt]
  exact ⟨hlow, hhigh⟩

theorem noCrlf_of_not_mem {text : Text} (h : (13 : UInt8) ∉ text) : ¬crlf <:+: text := by
  intro hin
  exact h (hin.subset (by simp [crlf]))

theorem crlf_infix_line (h : Header) :
    crlf <:+: h.line ↔ crlf <:+: h.name ∨ crlf <:+: h.value := by
  have hline : h.line = h.name ++ 58 :: ([] ++ 32 :: h.value) := by
    rw [Header.line, List.append_assoc]
    rfl
  have hnil : ¬crlf <:+: [] := by simp [crlf]
  rw [hline, crlf_infix_append_cons (by decide) (by decide),
    crlf_infix_append_cons (by decide) (by decide)]
  simp only [hnil, false_or]

theorem line_ne_nil (h : Header) : h.line ≠ [] := by
  simp [Header.line, ascii]

/-- Neither the status line nor a standard header has a CRLF. -/
theorem noCrlf_standard (n : ℕ) {line : Text}
    (h : line ∈ statusLine :: [contentType, contentLength n, connection].map Header.line) :
    ¬crlf <:+: line := by
  have hdigits : (13 : UInt8) ∉ decimal n := fun hmem =>
    absurd (digit_of_mem_decimal hmem).1 (by decide)
  have hlength : ¬crlf <:+: (contentLength n).line := by
    rw [crlf_infix_line]
    have hname : (13 : UInt8) ∉ ascii "Content-Length" := by decide
    rintro (hin | hin)
    · exact noCrlf_of_not_mem hname hin
    · exact noCrlf_of_not_mem hdigits hin
  simp only [List.map_cons, List.map_nil, List.mem_cons, List.not_mem_nil, or_false] at h
  rcases h with rfl | rfl | rfl | rfl
  · exact noCrlf_of_not_mem (by decide)
  · exact noCrlf_of_not_mem (by decide)
  · exact hlength
  · exact noCrlf_of_not_mem (by decide)

/-! ## Splitting the block -/

/-- No header that is stored has a CRLF in it. -/
def StoredInLines (r : Response) : Prop :=
  ∀ h ∈ r.headers, ¬crlf <:+: h.strdup.name ∧ ¬crlf <:+: h.strdup.value

theorem noCrlf_printed {r : Response} (h : r.headerSize = 0 ∨ r.StoredInLines) {line : Text}
    (hline : line ∈ statusLine :: r.printed.map Header.line) : ¬crlf <:+: line := by
  by_cases hzero : r.headerSize = 0
  · rw [printed, if_pos hzero] at hline
    exact noCrlf_standard _ hline
  · rw [printed, if_neg hzero, List.map_cons, List.map_cons] at hline
    rcases List.mem_cons.mp hline with rfl | hline
    · exact noCrlf_standard 0 List.mem_cons_self
    rcases List.mem_cons.mp hline with rfl | hline
    · exact noCrlf_standard r.responseBuffer.length (by simp)
    rcases List.mem_cons.mp hline with rfl | hline
    · exact noCrlf_standard 0 (by simp)
    obtain ⟨f, hf, rfl⟩ := List.mem_map.mp hline
    obtain ⟨stored, hstored, rfl⟩ := List.mem_map.mp hf
    obtain ⟨hname, hvalue⟩ := (h.resolve_left hzero) stored hstored
    rw [crlf_infix_line]
    exact not_or.mpr ⟨hname, hvalue⟩

theorem splitLines_headerText {r : Response} (h : r.headerSize = 0 ∨ r.StoredInLines) :
    splitLines r.headerText = statusLine :: r.printed.map Header.line ++ [[], []] := by
  rw [headerText_eq, splitLines_joinLines fun line hline => noCrlf_printed h hline]
  rfl

theorem readHead_headerText {r : Response} (h : r.headerSize = 0 ∨ r.StoredInLines) (rest : Text) :
    readHead (r.headerText ++ rest) = some (statusLine :: r.printed.map Header.line, rest) := by
  rw [headerText_eq]
  apply readHead_joinLines
  intro line hline
  refine ⟨?_, noCrlf_printed h hline⟩
  rcases List.mem_cons.mp hline with rfl | hmem
  · decide
  · obtain ⟨f, -, rfl⟩ := List.mem_map.mp hmem
    exact line_ne_nil f

/-- Stored headers are printed unless all their values are empty. -/
theorem printed_lines_iff {r : Response} (hnil : r.headers = [] → r.headerSize = 0) :
    r.printed.map Header.line = r.meant.map Header.line ↔ r.headers = [] ∨ r.headerSize ≠ 0 := by
  by_cases hzero : r.headerSize = 0
  · by_cases hheaders : r.headers = []
    · simp [printed, meant, hzero, hheaders]
    · refine iff_of_false ?_ (by simp [hzero, hheaders])
      intro heq
      rw [printed, if_pos hzero, meant, if_neg hheaders] at heq
      -- `Content-Type` against `Content-Length`
      have hbyte := congrArg (fun text : Text => text[8]?) (List.cons.inj heq).1
      simp [Header.line, contentType, contentLength, ascii] at hbyte
  · have hheaders : r.headers ≠ [] := fun hempty => hzero (hnil hempty)
    simp [printed, meant, hzero, hheaders]

theorem storedInLines_of_unsplit {r : Response} {body : Text} (h : r.Unsplit body) :
    r.StoredInLines := by
  intro stored hstored
  have hmem : stored.strdup.line ∈ splitLines r.headerText := by
    rw [h.lines]
    have hmeant : stored.strdup ∈ r.meant := by
      simp only [meant, List.mem_append, List.mem_cons, List.mem_map]
      exact .inr (.inr (.inr ⟨stored, hstored, rfl⟩))
    exact List.mem_append_left _ (List.mem_cons_of_mem _ (List.mem_map_of_mem hmeant))
  have hline := noCrlf_of_mem hmem
  rw [crlf_infix_line] at hline
  exact not_or.mp hline

theorem find_contentLength (r : Response) :
    (statusLine :: r.printed.map Header.line).find? (ascii "Content-Length: ").isPrefixOf =
      some (contentLength r.responseBuffer.length).line := by
  have hstatus : (ascii "Content-Length: ").isPrefixOf statusLine = false := by decide
  have htype : (ascii "Content-Length: ").isPrefixOf contentType.line = false := by decide
  have hlength : (ascii "Content-Length: ").isPrefixOf
      (contentLength r.responseBuffer.length).line = true := by
    rw [List.isPrefixOf_iff_prefix]
    exact List.prefix_append (ascii "Content-Length: ") (decimal r.responseBuffer.length)
  rw [List.find?_cons_of_neg (by simp [hstatus])]
  unfold printed
  split_ifs
  · rw [List.map_cons, List.map_cons, List.find?_cons_of_neg (by simp [htype]),
      List.find?_cons_of_pos hlength]
  · rw [List.map_cons, List.find?_cons_of_pos hlength]

/-- When nothing stored has a CRLF in it and what is stored is printed, the block is as it is
meant to be, and conversely. -/
theorem unsplit_iff_stored {r : Response} (hnil : r.headers = [] → r.headerSize = 0) (body : Text) :
    r.Unsplit body ↔
      (r.headers = [] ∨ r.headerSize ≠ 0) ∧ r.StoredInLines ∧ r.responseBuffer = body := by
  constructor
  · intro h
    have hstored := storedInLines_of_unsplit h
    have hlines := h.lines
    rw [splitLines_headerText (.inr hstored)] at hlines
    have hsame := (List.cons.inj (List.append_cancel_right hlines)).2
    obtain ⟨lines, hread, -⟩ := h.body
    rw [readHead_headerText (.inr hstored)] at hread
    exact ⟨(printed_lines_iff hnil).mp hsame, hstored, (Prod.mk.inj (Option.some.inj hread)).2⟩
  · rintro ⟨hprinted, hstored, rfl⟩
    have hsplit := splitLines_headerText (.inr hstored)
    refine ⟨fun i hi => ?_, ?_, _, readHead_headerText (.inr hstored) _, find_contentLength r⟩
    · apply crlf_crlf_last hsplit _ hi
      intro line hline
      rcases List.mem_cons.mp hline with rfl | hmem
      · decide
      · obtain ⟨f, -, rfl⟩ := List.mem_map.mp hmem
        exact line_ne_nil f
    · rw [hsplit, (printed_lines_iff hnil).mpr hprinted]

theorem headerSize_of_headers_nil (body : Text) (calls : List (ℕ × Header))
    (h : (withHeaders body calls).headers = []) : (withHeaders body calls).headerSize = 0 := by
  rw [(headers_withHeaders_eq_nil body calls).mp h]
  rfl

theorem storedInLines_withHeaders (body : Text) (calls : List (ℕ × Header)) :
    (withHeaders body calls).StoredInLines ↔ ∀ call ∈ calls,
      ¬crlf <:+: cString call.2.name ∧ ¬crlf <:+: cString call.2.value := by
  have hmem (h : Header) : h ∈ (withHeaders body calls).headers ↔
      ∃ call ∈ calls, call.2.strdup = h := by
    rw [(headers_withHeaders body calls).mem_iff]
    simp
  constructor
  · intro h call hcall
    have hstored := h call.2.strdup ((hmem _).mpr ⟨call, hcall, rfl⟩)
    simpa [Header.strdup, cString_cString] using hstored
  · intro h stored hstored
    obtain ⟨call, hcall, rfl⟩ := (hmem stored).mp hstored
    simpa [Header.strdup, cString_cString] using h call hcall

/-- The block that a large enough buffer gets is not split, and the client finds the body behind
it, exactly when no name or value set has a CRLF before its first NUL, some value is not empty if
headers are set at all, and the body has no NUL. -/
theorem unsplit_iff (body : Text) (calls : List (ℕ × Header)) :
    (ended body calls).Builds (ended body calls).headerText ∧
      ((ended body calls).Unsplit body ↔
        (calls = [] ∨ valueRoom (calls.map Prod.snd) % 2 ^ 32 ≠ 0) ∧
          (∀ call ∈ calls, ¬crlf <:+: cString call.2.name ∧ ¬crlf <:+: cString call.2.value) ∧
          0 ∉ body) := by
  refine ⟨headerText_builds _, ?_⟩
  rw [ended, unsplit_iff_stored (headerSize_of_headers_nil _ calls), headers_withHeaders_eq_nil,
    headerSize_withHeaders, storedInLines_withHeaders, responseBuffer_withHeaders, cString_eq_iff]

/-- A value that brings the end of the head and a second response with it. -/
def splittingValue : Text :=
  ascii "1\r\n\r\nHTTP/1.1 200 OK\r\nContent-Length: 0\r\n\r\n"

theorem splittingValue_splits :
    ¬(ended (ascii "hello") [(0, ⟨ascii "X-A", splittingValue⟩)]).Unsplit (ascii "hello") := by
  intro h
  have hstored := storedInLines_of_unsplit h
  rw [ended, storedInLines_withHeaders] at hstored
  have hvalue := (hstored _ (List.mem_singleton_self _)).2
  exact hvalue ⟨ascii "1", ascii "\r\nHTTP/1.1 200 OK\r\nContent-Length: 0\r\n\r\n", by decide +kernel⟩

end Response
end CapyJs.Http
