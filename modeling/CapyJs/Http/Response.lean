import CapyJs.Http.Request
import Mathlib.Algebra.Group.Nat.Defs
import Mathlib.Tactic.Common

/-!
# The header block of a response

`build_headers` prints into a buffer of `header_size + 256` bytes, piece after piece.
`snprintf` cuts a text that does not fit but returns its full length, so the offset can
run past the buffer, and then the room left is a huge number.
-/
namespace CapyJs.Http

/-- What the bytes of a response depend on. `headers` stand in the order of the map, which
is that of the addresses of their names. -/
structure Response where
  responseBuffer : Text
  headers : List Header
  headerSize : ℕ

/-- `%zu` -/
def decimal (n : ℕ) : Text := ascii (Nat.repr n)

/-- `header_len - offset`, of type `size_t`. -/
def sizeSub (a b : ℕ) : ℕ := (a + 2 ^ 64 - b) % 2 ^ 64

/-- `snprintf(buf + offset, size, ..)` of a text: the buffer after it. There is no result
when the call writes outside the buffer, or when the length of the text is not an `int`. -/
def snprintf (buf : Text) (offset size : ℕ) (text : Text) : Option Text :=
  if 2 ^ 31 ≤ text.length then none
  else if size = 0 then some buf
  else
    let written := text.take (size - 1) ++ [0]
    if offset + written.length ≤ buf.length then
      some (buf.take offset ++ written ++ buf.drop (offset + written.length))
    else none

/-- `offset += snprintf(header_buf + offset, header_len - offset, ..)` -/
def printAt (headerLen : ℕ) (st : Text × ℕ) (text : Text) : Option (Text × ℕ) :=
  (snprintf st.1 st.2 (sizeSub headerLen st.2) text).map fun buf => (buf, st.2 + text.length)

namespace Response

def headerLine (h : Header) : Text :=
  cString h.name ++ ascii ": " ++ cString h.value ++ ascii "\r\n"

/-- The texts that `build_headers` prints, one for each call of `snprintf`. -/
def headerTexts (r : Response) : List Text :=
  if r.headerSize = 0 then
    [ascii "HTTP/1.1 200 OK\r\nContent-Type: text/plain\r\nContent-Length: " ++
      decimal r.responseBuffer.length ++ ascii "\r\nConnection: keep-alive\r\n\r\n"]
  else
    [ascii "HTTP/1.1 200 OK\r\nContent-Length: " ++ decimal r.responseBuffer.length ++
      ascii "\r\nConnection: keep-alive\r\n"] ++ r.headers.map headerLine ++ [ascii "\r\n"]

/-- The buffer and the length returned. -/
def buildHeaders (buf : Text) (headerLen : ℕ) (r : Response) : Option (Text × ℤ) :=
  if headerLen = 0 then some (buf, -1)
  else (r.headerTexts.foldlM (printAt headerLen) (buf, 0)).map fun p => (p.1, (p.2 : ℤ))

/-- The header block as it is meant to be. -/
def headerText (r : Response) : Text := r.headerTexts.flatten

/-- The offset advances by the length of each text, cut or not. -/
theorem foldlM_printAt {headerLen : ℕ} {texts : List Text} {st st' : Text × ℕ}
    (h : texts.foldlM (printAt headerLen) st = some st') :
    st'.2 = st.2 + texts.flatten.length := by
  induction texts generalizing st with
  | nil =>
    cases h
    simp
  | cons text texts ih =>
    obtain ⟨st₁, hfirst, hrest⟩ := Option.bind_eq_some_iff.mp h
    obtain ⟨buf, -, rfl⟩ := Option.map_eq_some_iff.mp hfirst
    rw [ih hrest, List.flatten_cons, List.length_append, Nat.add_assoc]

theorem length_of_buildHeaders {buf buf' : Text} {headerLen : ℕ} {r : Response} {n : ℤ}
    (hlen : headerLen ≠ 0) (h : r.buildHeaders buf headerLen = some (buf', n)) :
    n = r.headerText.length := by
  rw [buildHeaders, if_neg hlen] at h
  obtain ⟨p, hprint, heq⟩ := Option.map_eq_some_iff.mp h
  have hoffset := foldlM_printAt hprint
  simp only [Nat.zero_add] at hoffset
  rw [← (Prod.mk.inj heq).2, hoffset]
  rfl

end Response
end CapyJs.Http
