import CapyJs.Http.Response
import Mathlib.Algebra.BigOperators.Group.List.Basic
import Mathlib.Data.Nat.Digits.Defs

/-!
# When the header block of a response fits its buffer

`send` makes room for the lengths of the header values and 256 more bytes. Names,
separators and line ends come out of the 256, so the block is cut, and the offset runs past
the buffer, when the names are long or many.
-/
namespace CapyJs.Http

/-- The copies that `strdup` makes of a name and a value. -/
def Header.strdup (h : Header) : Header := ⟨cString h.name, cString h.value⟩

namespace Response

/-! ## Setting headers -/

/-- `response_set_header`. The name stands where its address puts it in the map, and
`header_size` is an `int`, here its 32 bits. -/
def setHeader (r : Response) (position : ℕ) (h : Header) : Response :=
  { r with
    headers := r.headers.take position ++ h.strdup :: r.headers.drop position
    headerSize := (r.headerSize + (cString h.value).length) % 2 ^ 32 }

/-- A response with a body after some calls of `setHeader`. -/
def withHeaders (body : Text) (calls : List (ℕ × Header)) : Response :=
  calls.foldl (fun r call => r.setHeader call.1 call.2) ⟨body, [], 0⟩

/-- `header_size + 256`. The sum is an `int`; there is no result when it overflows or is
negative, since then no array has that size. -/
def headerLen (r : Response) : Option ℕ :=
  if r.headerSize + 256 < 2 ^ 31 then some (r.headerSize + 256)
  else if 2 ^ 32 ≤ r.headerSize + 256 then some (r.headerSize + 256 - 2 ^ 32)
  else none

/-! ## What is asked of the buffer -/

/-- The offsets at which texts are printed one after the other. -/
def printOffsets : ℕ → List Text → List ℕ
  | _, [] => []
  | offset, text :: texts => offset :: printOffsets (offset + text.length) texts

/-- `build_headers` never prints behind the buffer, returns less than its size and leaves
the whole block in it. -/
structure BuildsWhole (r : Response) (buf : Text) : Prop where
  offset_le : ∀ offset ∈ printOffsets 0 r.headerTexts, offset ≤ buf.length
  built : ∃ (buf' : Text) (n : ℕ), r.buildHeaders buf buf.length = some (buf', (n : ℤ)) ∧
    n + 1 ≤ buf.length ∧ buf'.take n = r.headerText ∧ ascii "\r\n\r\n" <:+ buf'.take n

/-- The array of `send` is large enough for the block, whatever it holds at first. -/
def SendsWhole (r : Response) : Prop :=
  ∃ len, r.headerLen = some len ∧ ∀ buf : Text, buf.length = len → r.BuildsWhole buf

/-! ## Printing text after text -/

theorem printOffsets_le {texts : List Text} {start offset : ℕ}
    (h : offset ∈ printOffsets start texts) : offset ≤ start + texts.flatten.length := by
  induction texts generalizing start with
  | nil => cases h
  | cons text texts ih =>
    rw [List.flatten_cons, List.length_append]
    rcases List.mem_cons.mp h with rfl | hrest
    · omega
    · have hle := ih hrest
      omega

theorem printAt_of_fits {before room text : Text} {len : ℕ} (hlen : (before ++ room).length = len)
    (hsize : len < 2 ^ 31) (hfits : before.length + text.length < len) :
    printAt len (before ++ room, before.length) text =
      some (before ++ text ++ 0 :: room.drop (text.length + 1), before.length + text.length) := by
  have hsub : sizeSub len before.length = len - before.length := by
    unfold sizeSub
    rw [Nat.sub_add_comm (by omega), Nat.add_mod_right, Nat.mod_eq_of_lt (by omega)]
  have htake : text.take (len - before.length - 1) = text := List.take_of_length_le (by omega)
  have hdrop : (before ++ room).drop (before.length + (text ++ [0]).length) =
      room.drop (text.length + 1) := by
    rw [List.drop_length_add_append]
    simp
  simp only [printAt, snprintf, hsub, htake]
  rw [if_neg (by omega), if_neg (by omega),
    if_pos (by rw [hlen, List.length_append, List.length_singleton]; omega), List.take_left, hdrop]
  simp

/-- Texts that fit together are printed one after the other. -/
theorem foldlM_printAt_of_fits {texts : List Text} {before room : Text} {len : ℕ}
    (hlen : (before ++ room).length = len) (hsize : len < 2 ^ 31)
    (hfits : before.length + texts.flatten.length < len) :
    ∃ room', texts.foldlM (printAt len) (before ++ room, before.length) =
      some (before ++ texts.flatten ++ room', before.length + texts.flatten.length) := by
  induction texts generalizing before room with
  | nil => exact ⟨room, by simp⟩
  | cons text texts ih =>
    rw [List.flatten_cons, List.length_append] at hfits
    have hfirst := printAt_of_fits hlen hsize (by omega : before.length + text.length < len)
    have hlen' : (before ++ text ++ 0 :: room.drop (text.length + 1)).length = len := by
      simp only [List.length_append, List.length_cons, List.length_drop] at hlen ⊢
      omega
    obtain ⟨room', hrest⟩ := ih hlen' (by rw [List.length_append]; omega)
    refine ⟨room', ?_⟩
    rw [List.length_append] at hrest
    rw [List.foldlM_cons, hfirst, Option.bind_eq_bind, Option.bind_some, hrest]
    simp [Nat.add_assoc]

/-! ## The header block -/

theorem suffix_append_flatten {ending start : Text} {texts : List Text} (hstart : ending <:+ start)
    (htexts : ∀ text ∈ texts, ending <:+ text) : ending <:+ start ++ texts.flatten := by
  induction texts generalizing start with
  | nil => simpa using hstart
  | cons text texts ih =>
    have htext : ending <:+ start ++ text :=
      (htexts text (List.mem_cons_self ..)).trans (List.suffix_append _ _)
    have hrest := ih htext fun t ht => htexts t (List.mem_cons_of_mem _ ht)
    simpa using hrest

theorem headerText_ends (r : Response) : ascii "\r\n\r\n" <:+ r.headerText := by
  unfold headerText headerTexts
  split_ifs
  · have hend : ascii "\r\n\r\n" <:+ ascii "\r\nConnection: keep-alive\r\n\r\n" :=
      ⟨_, (ascii_append "\r\nConnection: keep-alive" "\r\n\r\n").symm⟩
    rw [List.flatten_singleton]
    exact hend.trans (List.suffix_append _ _)
  · have hlines : ∀ text ∈ r.headers.map headerLine, ascii "\r\n" <:+ text := by
      intro text htext
      obtain ⟨h, -, rfl⟩ := List.mem_map.mp htext
      exact List.suffix_append _ _
    have hend : ascii "\r\n" <:+ ascii "\r\nConnection: keep-alive\r\n" :=
      ⟨_, (ascii_append "\r\nConnection: keep-alive" "\r\n").symm⟩
    have hstart : ascii "\r\n" <:+ ascii "HTTP/1.1 200 OK\r\nContent-Length: " ++
        decimal r.responseBuffer.length ++ ascii "\r\nConnection: keep-alive\r\n" :=
      hend.trans (List.suffix_append _ _)
    obtain ⟨front, hfront⟩ := suffix_append_flatten hstart hlines
    refine ⟨front, ?_⟩
    rw [List.flatten_append, List.flatten_append, List.flatten_singleton, List.flatten_singleton,
      ← hfront, List.append_assoc]
    rfl

/-- The block is built as a whole exactly when it is shorter than the buffer. -/
theorem buildsWhole_iff {r : Response} {buf : Text} (hsize : buf.length < 2 ^ 31) :
    r.BuildsWhole buf ↔ r.headerText.length < buf.length := by
  constructor
  · rintro ⟨-, buf', n, hbuild, hn, -⟩
    have hlength := length_of_buildHeaders (by omega) hbuild
    omega
  · intro hfits
    have hpos : buf.length ≠ 0 := by omega
    have hstart : ([] ++ buf).length = buf.length := rfl
    have hzero : ([] : Text).length + r.headerTexts.flatten.length < buf.length := by
      simpa [headerText] using hfits
    obtain ⟨room, hprint⟩ := foldlM_printAt_of_fits hstart hsize hzero
    rw [List.nil_append, List.nil_append, List.length_nil, Nat.zero_add] at hprint
    have htake : (r.headerText ++ room).take r.headerText.length = r.headerText := List.take_left
    refine ⟨?_, r.headerText ++ room, r.headerText.length, ?_, hfits, htake, ?_⟩
    · intro offset hoffset
      have hle := printOffsets_le hoffset
      unfold headerText at hfits
      omega
    · rw [buildHeaders, if_neg hpos, hprint]
      rfl
    · rw [htake]
      exact r.headerText_ends

theorem headerLen_cases {r : Response} {len : ℕ} (h : r.headerLen = some len) :
    len = r.headerSize + 256 ∧ len < 2 ^ 31 ∨ len + 2 ^ 32 = r.headerSize + 256 := by
  unfold headerLen at h
  split_ifs at h <;> have hlen := Option.some.inj h <;> omega

theorem sendsWhole_iff_of_headerLen {r : Response} {len : ℕ} (hr : r.headerSize < 2 ^ 32)
    (h : r.headerLen = some len) : r.SendsWhole ↔ r.headerText.length < len := by
  have hsize : len < 2 ^ 31 := by
    have hcases := headerLen_cases h
    omega
  constructor
  · rintro ⟨len', h', hwhole⟩
    obtain rfl : len = len' := Option.some.inj (h.symm.trans h')
    have hroom : (List.replicate len (0 : UInt8)).length = len := List.length_replicate
    have hfits := (buildsWhole_iff (by omega)).mp (hwhole _ hroom)
    omega
  · intro hfits
    refine ⟨len, h, ?_⟩
    rintro buf rfl
    exact (buildsWhole_iff hsize).mpr hfits

theorem length_headerLine (h : Header) :
    (headerLine h).length = (cString h.name).length + (cString h.value).length + 4 := by
  have hcolon : (ascii ": ").length = 2 := rfl
  have hcrlf : (ascii "\r\n").length = 2 := rfl
  simp only [headerLine, List.length_append, hcolon, hcrlf]
  omega

theorem length_decimal_le {n : ℕ} (h : n < 2 ^ 64) : (decimal n).length ≤ 20 := by
  have hdigits := Nat.toDigits_length 10 n 20 (by decide) (by omega)
  simpa [decimal, ascii, Nat.repr] using hdigits

/-- What the names, separators and line ends of the headers take. -/
def nameRoom (headers : List Header) : ℕ := (headers.map fun h => (cString h.name).length + 4).sum

/-- What the values take. -/
def valueRoom (headers : List Header) : ℕ := (headers.map fun h => (cString h.value).length).sum

theorem length_headerText_of_ne_zero {r : Response} (h : r.headerSize ≠ 0) :
    r.headerText.length =
      61 + (decimal r.responseBuffer.length).length + nameRoom r.headers + valueRoom r.headers := by
  have hlines : (r.headers.map headerLine).flatten.length =
      nameRoom r.headers + valueRoom r.headers := by
    induction r.headers with
    | nil => rfl
    | cons h headers ih =>
      simp only [nameRoom, valueRoom, List.map_cons, List.flatten_cons, List.length_append,
        List.sum_cons, length_headerLine] at ih ⊢
      omega
  have hfront : (ascii "HTTP/1.1 200 OK\r\nContent-Length: ").length = 33 := by decide +kernel
  have hback : (ascii "\r\nConnection: keep-alive\r\n").length = 26 := by decide +kernel
  have hcrlf : (ascii "\r\n").length = 2 := rfl
  simp only [headerText, headerTexts, if_neg h, List.flatten_append, List.length_append, hlines,
    List.flatten_singleton, hfront, hback, hcrlf]
  omega

theorem length_headerText_of_eq_zero {r : Response} (h : r.headerSize = 0) :
    r.headerText.length = 87 + (decimal r.responseBuffer.length).length := by
  have hfront : (ascii
      "HTTP/1.1 200 OK\r\nContent-Type: text/plain\r\nContent-Length: ").length = 59 := by
    decide +kernel
  have hback : (ascii "\r\nConnection: keep-alive\r\n\r\n").length = 28 := by decide +kernel
  simp only [headerText, headerTexts, if_pos h, List.flatten_singleton, List.length_append, hfront,
    hback]
  omega

/-! ## A response after calls of `setHeader` -/

theorem nameRoom_strdup (headers : List Header) :
    nameRoom (headers.map Header.strdup) = nameRoom headers := by
  simp [nameRoom, Header.strdup, cString, List.takeWhile_idem, Function.comp_def]

theorem valueRoom_strdup (headers : List Header) :
    valueRoom (headers.map Header.strdup) = valueRoom headers := by
  simp [valueRoom, Header.strdup, cString, List.takeWhile_idem, Function.comp_def]

theorem withHeaders_append (body : Text) (calls : List (ℕ × Header)) (call : ℕ × Header) :
    withHeaders body (calls ++ [call]) = (withHeaders body calls).setHeader call.1 call.2 := by
  simp [withHeaders]

/-- The map holds one entry for each call, in an order of its own. -/
theorem headers_withHeaders (body : Text) (calls : List (ℕ × Header)) :
    (withHeaders body calls).headers.Perm ((calls.map Prod.snd).map Header.strdup) := by
  induction calls using List.reverseRecOn with
  | nil => exact .nil
  | append_singleton calls call ih =>
    rw [withHeaders_append, List.map_append, List.map_append, List.map_singleton,
      List.map_singleton]
    have hmiddle : ((withHeaders body calls).setHeader call.1 call.2).headers.Perm
        (call.2.strdup :: (withHeaders body calls).headers) := by
      have hperm : ((withHeaders body calls).setHeader call.1 call.2).headers.Perm
          (call.2.strdup :: ((withHeaders body calls).headers.take call.1 ++
            (withHeaders body calls).headers.drop call.1)) := List.perm_middle
      rwa [List.take_append_drop] at hperm
    exact hmiddle.trans ((ih.cons _).trans (List.perm_append_singleton _ _).symm)

theorem nameRoom_withHeaders (body : Text) (calls : List (ℕ × Header)) :
    nameRoom (withHeaders body calls).headers = nameRoom (calls.map Prod.snd) := by
  rw [← nameRoom_strdup (calls.map Prod.snd)]
  exact ((headers_withHeaders body calls).map _).sum_eq

theorem valueRoom_withHeaders (body : Text) (calls : List (ℕ × Header)) :
    valueRoom (withHeaders body calls).headers = valueRoom (calls.map Prod.snd) := by
  rw [← valueRoom_strdup (calls.map Prod.snd)]
  exact ((headers_withHeaders body calls).map _).sum_eq

theorem headerSize_withHeaders (body : Text) (calls : List (ℕ × Header)) :
    (withHeaders body calls).headerSize = valueRoom (calls.map Prod.snd) % 2 ^ 32 := by
  induction calls using List.reverseRecOn with
  | nil => rfl
  | append_singleton calls call ih =>
    have hsum : valueRoom ((calls ++ [call]).map Prod.snd) =
        valueRoom (calls.map Prod.snd) + (cString call.2.value).length := by
      simp [valueRoom]
    rw [withHeaders_append, hsum, setHeader, ih, Nat.mod_add_mod]

@[simp] theorem responseBuffer_withHeaders (body : Text) (calls : List (ℕ × Header)) :
    (withHeaders body calls).responseBuffer = body := by
  induction calls using List.reverseRecOn with
  | nil => rfl
  | append_singleton calls call ih =>
    rw [withHeaders_append]
    exact ih

/-- The names leave enough of the 256 bytes for the rest of the block, or `header_size` is 0
after all and the block has no headers in it. -/
def Roomy (body : Text) (headers : List Header) : Prop :=
  valueRoom headers % 2 ^ 32 = 0 ∨
    valueRoom headers + 256 < 2 ^ 31 ∧ nameRoom headers + (decimal body.length).length < 195

instance (body : Text) (headers : List Header) : Decidable (Roomy body headers) :=
  inferInstanceAs (Decidable (_ ∨ _))

/-- The block that sets every header, or the default one. -/
def fullBlock (r : Response) : Text :=
  if r.headers = [] then
    ascii "HTTP/1.1 200 OK\r\nContent-Type: text/plain\r\nContent-Length: " ++
      decimal r.responseBuffer.length ++ ascii "\r\nConnection: keep-alive\r\n\r\n"
  else
    ascii "HTTP/1.1 200 OK\r\nContent-Length: " ++ decimal r.responseBuffer.length ++
      ascii "\r\nConnection: keep-alive\r\n" ++ (r.headers.map headerLine).flatten ++ ascii "\r\n"

theorem sendsWhole_withHeaders_iff {body : Text} (hbody : body.length < 2 ^ 64)
    (calls : List (ℕ × Header)) :
    (withHeaders body calls).SendsWhole ↔ Roomy body (calls.map Prod.snd) := by
  have hsize := headerSize_withHeaders body calls
  have hbits : (withHeaders body calls).headerSize < 2 ^ 32 := by omega
  have hdigits := length_decimal_le hbody
  unfold Roomy
  by_cases hzero : (withHeaders body calls).headerSize = 0
  · have hlen : (withHeaders body calls).headerLen = some 256 := by
      simp [headerLen, hzero]
    have htext := length_headerText_of_eq_zero hzero
    rw [responseBuffer_withHeaders] at htext
    rw [sendsWhole_iff_of_headerLen hbits hlen]
    omega
  · have htext := length_headerText_of_ne_zero hzero
    rw [responseBuffer_withHeaders, nameRoom_withHeaders, valueRoom_withHeaders] at htext
    cases hlen : (withHeaders body calls).headerLen with
    | none =>
      refine iff_of_false ?_ ?_
      · rintro ⟨len, hsome, -⟩
        cases hlen.symm.trans hsome
      · unfold headerLen at hlen
        split_ifs at hlen
        omega
    | some len =>
      rw [sendsWhole_iff_of_headerLen hbits hlen]
      have hcases := headerLen_cases hlen
      omega

theorem headers_withHeaders_eq_nil (body : Text) (calls : List (ℕ × Header)) :
    (withHeaders body calls).headers = [] ↔ calls = [] := by
  have hlength := (headers_withHeaders body calls).length_eq
  rw [List.length_map, List.length_map] at hlength
  rw [← List.length_eq_zero_iff, hlength, List.length_eq_zero_iff]

/-- Headers that all have an empty value are left out. -/
theorem headerText_eq_fullBlock_iff {r : Response} (hnil : r.headers = [] → r.headerSize = 0) :
    r.headerText = r.fullBlock ↔ r.headers = [] ∨ r.headerSize ≠ 0 := by
  by_cases hzero : r.headerSize = 0
  · by_cases hheaders : r.headers = []
    · simp [headerText, headerTexts, fullBlock, hzero, hheaders]
    · -- one block goes on with `Content-Type`, the other with `Content-Length`
      refine iff_of_false ?_ (by simp [hzero, hheaders])
      intro heq
      have hbyte := congrArg (fun text : Text => text[25]?) heq
      simp [headerText, headerTexts, fullBlock, hzero, hheaders, ascii] at hbyte
  · have hheaders : r.headers ≠ [] := fun hempty => hzero (hnil hempty)
    simp [headerText, headerTexts, fullBlock, hzero, hheaders]

/-- The array is large enough exactly when the names leave enough of the 256 bytes. All
headers are then in the block unless all their values are empty. -/
theorem buildHeaders_whole_iff {body : Text} (hbody : body.length < 2 ^ 64)
    (calls : List (ℕ × Header)) :
    ((withHeaders body calls).SendsWhole ↔ Roomy body (calls.map Prod.snd)) ∧
      ((withHeaders body calls).SendsWhole ∧
          (withHeaders body calls).headerText = (withHeaders body calls).fullBlock ↔
        Roomy body (calls.map Prod.snd) ∧
          (calls = [] ∨ valueRoom (calls.map Prod.snd) % 2 ^ 32 ≠ 0)) := by
  have hwhole := sendsWhole_withHeaders_iff hbody calls
  have hnil : (withHeaders body calls).headers = [] → (withHeaders body calls).headerSize = 0 := by
    intro hempty
    rw [(headers_withHeaders_eq_nil body calls).mp hempty]
    rfl
  refine ⟨hwhole, and_congr hwhole ?_⟩
  rw [headerText_eq_fullBlock_iff hnil, headers_withHeaders_eq_nil, headerSize_withHeaders]

theorem buildHeaders_whole_hello :
    (withHeaders (ascii "hello") [(0, ⟨ascii "X-A", ascii "1"⟩)]).SendsWhole ∧
      (ascii "hello").length < 2 ^ 64 :=
  ⟨(buildHeaders_whole_iff (by decide) _).1.mpr (.inr (by decide)), by decide⟩

/-- A name of 200 bytes with a value of one byte: the block has 267 bytes, the array 257. -/
theorem buildHeaders_cuts_long_name :
    ¬ (withHeaders (ascii "hello") [(0, ⟨List.replicate 200 120, ascii "1"⟩)]).SendsWhole := by
  intro hwhole
  have hroomy : Roomy (ascii "hello") [⟨List.replicate 200 120, ascii "1"⟩] :=
    (sendsWhole_withHeaders_iff (by decide) _).mp hwhole
  have hcut : cString (List.replicate 200 120) = List.replicate 200 120 :=
    cString_eq_self fun h => absurd (List.eq_of_mem_replicate h) (by decide)
  have hname : nameRoom [⟨List.replicate 200 120, ascii "1"⟩] = 204 := by
    rw [nameRoom, List.map_singleton, List.sum_singleton, hcut, List.length_replicate]
  have hvalue : valueRoom [⟨List.replicate 200 120, ascii "1"⟩] = 1 := rfl
  rw [Roomy, hname, hvalue] at hroomy
  omega

end Response
end CapyJs.Http
