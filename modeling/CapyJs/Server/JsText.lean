import CapyJs.Codec.Utf8
import CapyJs.Http.HeaderLines
import CapyJs.Server.Backpressure
import CapyJs.Server.MessageReceive

/-!
# Strings between JS and the network

`res.end`, `ws.send` and `onMessage` pass text through C strings, whose length is found with
`strlen`. A string with U+0000 in it ends there.
-/
namespace CapyJs.Server

open CapyJs.Codec CapyJs.Codec.Utf8 CapyJs.Http.Response CapyJs.Stream CapyJs.WebSocket

/-- The code points of a JS string. A high surrogate with a low one behind it would be one code
point, and the engine has a limit of `JS_STRING_LEN_MAX` units. -/
structure JsString where
  points : List CodePoint
  unpaired : points.IsChain fun a b => ¬(IsHighSurrogate a ∧ IsLowSurrogate b)
  units_lt : (points.map units).sum < 2 ^ 30

def JsString.utf8 (s : JsString) : Text := encode s.points

/-- `JS_ToCString` -/
def jsToCString (s : JsString) : Text := s.utf8 ++ [0]

/-- `JS_NewString`. There is no result for bytes that are not UTF-8. -/
def jsNewString (text : Text) : Option (List CodePoint) := decode (cString text)

/-- The part of a write that is the body of a response. -/
def WriteCall.bodySent (c : WriteCall) : Text :=
  gather c.memory (c.bufs.filter (·.block = .body))

/-- Whatever headers are set before, `res.end(s)` has libuv write the encoding of `s` as the
body, and the header block gives its length. -/
def EndSends (s : JsString) : Prop :=
  ∀ calls uninit c, WriteCall.send (ended (jsToCString s) calls) uninit = some c →
    c.bodySent = s.utf8 ∧
    ∃ lines, (ended (jsToCString s) calls).headerText = joinLines lines ++ crlf ∧
      lines.find? (ascii "Content-Length: ").isPrefixOf = some (contentLength s.utf8.length).line

/-- `ws.send(s)`: `send_frame` takes the `strlen` of its argument. -/
def wsSend (s : JsString) : WriteCall := WriteCall.sendFrame 1 (cString (jsToCString s))

/-- What libuv writes is a text frame with the encoding of `s`. -/
def FrameSends (s : JsString) : Prop :=
  ∃ f : WireFrame, gather (wsSend s).memory (wsSend s).bufs = f.bytes ∧
    f.fin = true ∧ f.opcode = 1 ∧ f.key = none ∧ f.payload = s.utf8

/-- The receive chain of a connection when a text frame is complete in it. `buf_len` is an
`int`. -/
structure TextReceived where
  frame : WireFrame
  rest : Text
  points : List CodePoint
  opcode : frame.opcode = 1
  encoded : frame.payload = encode points
  fits : (frame.bytes ++ rest).length ≤ Pool.intMax

/-- The handler gets the string that the frame encodes. -/
def HandlerGets (t : TextReceived) : Prop :=
  ∃ text, MessageReceive.parseMessage (t.frame.bytes ++ t.rest) =
    some (some (some text, t.frame.bytes.length)) ∧ jsNewString text = some t.points

/-! ## C strings -/

theorem cString_append_zero (text : Text) : cString (text ++ [0]) = cString text := by
  unfold cString
  rw [List.takeWhile_append]
  split_ifs with h
  · have hall : text.takeWhile (· != 0) = text := (List.takeWhile_prefix _).eq_of_length h
    rw [hall]
    simp
  · rfl

theorem cString_encode_eq_iff (points : List CodePoint) :
    cString (encode points) = encode points ↔ 0 ∉ points := by
  rw [cString_eq_iff, zero_mem_encode]

theorem length_cString_le (text : Text) : (cString text).length ≤ text.length :=
  (List.takeWhile_prefix _).length_le

theorem JsString.length_utf8_lt (s : JsString) : s.utf8.length < 3 * 2 ^ 30 := by
  have hle := length_encode_le s.points
  have hlt := s.units_lt
  unfold JsString.utf8
  omega

theorem length_cString_utf8_lt (s : JsString) : (cString s.utf8).length < 3 * 2 ^ 30 :=
  (length_cString_le _).trans_lt s.length_utf8_lt

/-! ## `res.end` -/

theorem responseBuffer_ended (s : JsString) (calls : List (ℕ × Http.Header)) :
    (ended (jsToCString s) calls).responseBuffer = cString s.utf8 := by
  rw [ended, responseBuffer_withHeaders, jsToCString, cString_append_zero]

theorem bodySent_of_send {r : Http.Response} {uninit : ℕ → UInt8} {c : WriteCall}
    (hsend : WriteCall.send r uninit = some c) (hlt : r.responseBuffer.length < 2 ^ 32) :
    c.bodySent = r.responseBuffer := by
  obtain ⟨⟨buf, n⟩, -, rfl⟩ := Option.map_eq_some_iff.mp hsend
  simp only [WriteCall.bodySent, WriteCall.bufs, List.map_cons, List.map_nil, uvBufInit,
    List.filter_cons, List.filter_nil, reduceCtorEq, decide_false, decide_true, if_true,
    Bool.false_eq_true, if_false, gather_cons, gather_nil, List.append_nil]
  apply Descriptor.read_of_list
  · exact Nat.mod_eq_of_lt hlt
  · intro i
    rfl

/-- With no header set the block always fits. -/
theorem exists_send_default (body : Text) (hlt : body.length < 2 ^ 64) (uninit : ℕ → UInt8) :
    ∃ c, WriteCall.send (Http.Response.withHeaders body []) uninit = some c := by
  have hlength := length_headerText_of_eq_zero (r := Http.Response.withHeaders body []) rfl
  have hdigits := length_decimal_le hlt
  rw [responseBuffer_withHeaders] at hlength
  obtain ⟨buf, hbuild, -⟩ := headerText_builds (Http.Response.withHeaders body [])
    ((List.range 256).map uninit) (by simp; omega) (by simp)
  rw [List.length_map, List.length_range] at hbuild
  exact ⟨_, Option.map_eq_some_iff.mpr ⟨_, hbuild, rfl⟩⟩

theorem endSends_iff (s : JsString) : EndSends s ↔ 0 ∉ s.points := by
  have hlt := length_cString_utf8_lt s
  rw [← cString_encode_eq_iff]
  constructor
  · intro h
    obtain ⟨c, hc⟩ := exists_send_default (cString (jsToCString s))
      (by rw [jsToCString, cString_append_zero]; omega) (fun _ => 0)
    have hbody := bodySent_of_send hc (by
      rw [responseBuffer_withHeaders, jsToCString, cString_append_zero]; omega)
    rw [(h [] _ c hc).1, responseBuffer_withHeaders, jsToCString, cString_append_zero] at hbody
    exact hbody.symm
  · intro h calls uninit c hc
    have hbuffer := responseBuffer_ended s calls
    have hbody := bodySent_of_send hc (by rw [hbuffer]; omega)
    have hfind := find_contentLength (ended (jsToCString s) calls)
    have hsame : cString s.utf8 = s.utf8 := h
    rw [hbuffer, hsame] at hbody hfind
    exact ⟨hbody, _, headerText_eq _, hfind⟩

/-! ## `ws.send` -/

theorem length_sentFrame_le (opcode : UInt8) (payload : Text) :
    (sentFrame opcode payload).length ≤ payload.length + 10 := by
  unfold sentFrame lengthField
  split_ifs <;> simp

theorem gather_wsSend (s : JsString) :
    gather (wsSend s).memory (wsSend s).bufs = sentFrame 1 (cString s.utf8) := by
  have hlt := length_cString_utf8_lt s
  have hbuilt : (wsSend s).built = sentFrame 1 (cString s.utf8) := by
    rw [wsSend, WriteCall.sendFrame, WriteCall.built_ofBlock, jsToCString, cString_append_zero]
  rw [← hbuilt, WriteCall.gather_bufs_eq_built_iff, wsSend, WriteCall.sendFrame, jsToCString,
    cString_append_zero]
  intro d hd
  obtain rfl := List.mem_singleton.mp hd
  change (sentFrame 1 (cString s.utf8)).length < 2 ^ 32
  have hsent := length_sentFrame_le 1 (cString s.utf8)
  omega

theorem frameSends_iff (s : JsString) : FrameSends s ↔ 0 ∉ s.points := by
  have hlt := length_cString_utf8_lt s
  have hsent := bytes_sentWireFrame 1 (cString s.utf8) (by omega)
  rw [← cString_encode_eq_iff, FrameSends, gather_wsSend]
  constructor
  · rintro ⟨f, hbytes, -, -, -, hpayload⟩
    have hsame := WireFrame.payload_eq_of_bytes (hsent.trans hbytes)
    exact hsame.trans hpayload
  · intro h
    exact ⟨sentWireFrame 1 (cString s.utf8) (by omega), hsent.symm, rfl, rfl, rfl, h⟩

/-! ## `onMessage` -/

theorem parseMessage_text (t : TextReceived) :
    MessageReceive.parseMessage (t.frame.bytes ++ t.rest) =
      some (some (some (cString (encode t.points)), t.frame.bytes.length)) := by
  have hne : t.frame.bytes.length ≠ 0 := by simp [WireFrame.bytes, WireFrame.header]
  rw [MessageReceive.parseMessage, if_neg (Nat.not_lt.mpr t.fits),
    MessageReceive.onMessage_text t.frame t.opcode, t.encoded]
  simp [hne]

theorem handlerGets_iff (t : TextReceived) : HandlerGets t ↔ 0 ∉ t.points := by
  rw [← cString_encode_eq_iff, HandlerGets, parseMessage_text]
  constructor
  · rintro ⟨text, htext, hnew⟩
    obtain rfl : cString (encode t.points) = text := by simpa using htext
    rw [jsNewString, cString_cString] at hnew
    exact (encode_of_decode hnew).symm
  · intro h
    refine ⟨_, rfl, ?_⟩
    rw [jsNewString, cString_cString, h, decode_encode]

/-- Each of the three ways keeps a string exactly when it has no U+0000 in it. -/
theorem text_unchanged_iff (s : JsString) (t : TextReceived) :
    (EndSends s ↔ 0 ∉ s.points) ∧ (FrameSends s ↔ 0 ∉ s.points) ∧
      (HandlerGets t ↔ 0 ∉ t.points) :=
  ⟨endSends_iff s, frameSends_iff s, handlerGets_iff t⟩

/-- The string `"a\0b"`. -/
def aNulB : JsString where
  points := [0x61, 0, 0x62]
  unpaired := by decide
  units_lt := by decide

/-- The same string as a client sends it. -/
def aNulBReceived : TextReceived where
  frame :=
    { fin := true
      opcode := 1
      key := MessageReceive.letterFrame.frame.key
      form := .short
      payload := encode aNulB.points
      fits := by decide
      small := by decide }
  rest := []
  points := aNulB.points
  opcode := rfl
  encoded := rfl
  fits := by decide

theorem aNulB_cut :
    (wsSend aNulB).built = [0x81, 1, 0x61] ∧
      ¬EndSends aNulB ∧ ¬FrameSends aNulB ∧ ¬HandlerGets aNulBReceived := by
  have hnul : 0 ∈ aNulB.points := by simp [aNulB]
  refine ⟨WriteCall.built_ofBlock .., ?_, ?_, ?_⟩
  · rw [endSends_iff]
    exact not_not_intro hnul
  · rw [frameSends_iff]
    exact not_not_intro hnul
  · rw [handlerGets_iff]
    exact not_not_intro hnul

end CapyJs.Server
