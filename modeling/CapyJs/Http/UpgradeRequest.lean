import CapyJs.Http.Request
import Mathlib.Data.List.DropRight

/-!
# Which requests ask for a WebSocket

`parseWSUpgrade` goes once through the headers and sets its flags anew at every header of a
name, by tests for a first part and for a part of the value. What it finds is compared with what
the tokens of all headers say.
-/
namespace CapyJs.Http

/-! ## The headers of an upgrade request -/

/-- Equal but for the case of letters. -/
def sameWord (a b : Text) : Bool := a.map toLower == b.map toLower

def isBlank (b : UInt8) : Bool := b == 32 || b == 9

/-- The comma-separated tokens of a value. -/
def tokens (value : Text) : List Text :=
  (value.splitOn 44).map fun t => (t.dropWhile isBlank).rdropWhile isBlank

def hasToken (value token : Text) : Bool := (tokens value).any (sameWord · token)

/-- The values of the headers of a name, in their order. -/
def valuesOf (headers : List Header) (name : Text) : List Text :=
  (headers.filter fun h => sameWord h.name name).map Header.value

/-- A request to open a WebSocket. -/
structure AsksUpgrade (headers : List Header) : Prop where
  upgrade : ∃ v ∈ valuesOf headers (ascii "Upgrade"), hasToken v (ascii "websocket") = true
  connection : ∃ v ∈ valuesOf headers (ascii "Connection"), hasToken v (ascii "upgrade") = true
  key : ∃ v ∈ valuesOf headers (ascii "Sec-WebSocket-Key"), v ≠ []

/-- The last header of a name passes a test. -/
def lastPasses (headers : List Header) (name : Text) (test : Text → Bool) : Bool :=
  (valuesOf headers name).getLast?.elim false test

/-- The last `Upgrade` header begins with the word. -/
def lastUpgrade (headers : List Header) : Bool :=
  lastPasses headers (ascii "Upgrade") (strncasecmp · (ascii "websocket") 9)

/-- The last `Connection` header has the word in it. -/
def lastConnection (headers : List Header) : Bool :=
  lastPasses headers (ascii "Connection") (strcasestr · (ascii "upgrade"))

def lastKey (headers : List Header) : Bool :=
  lastPasses headers (ascii "Sec-WebSocket-Key") (!·.isEmpty)

/-- The headers ask for an upgrade, but the last one of some name does not show it. -/
def Overlooked (headers : List Header) : Prop :=
  AsksUpgrade headers ∧
    (lastUpgrade headers = false ∨ lastConnection headers = false ∨ lastKey headers = false)

/-- The last headers look like an upgrade, but the words are only parts of other tokens. -/
def Mistaken (headers : List Header) : Prop :=
  (lastUpgrade headers = true ∧ lastConnection headers = true ∧ lastKey headers = true) ∧
    ((∀ v ∈ valuesOf headers (ascii "Upgrade"), hasToken v (ascii "websocket") = false) ∨
      ∀ v ∈ valuesOf headers (ascii "Connection"), hasToken v (ascii "upgrade") = false)

/-- A header of each name at most, whose value is a single token that does not merely begin with
the word or have it in it. -/
structure PlainHeaders (headers : List Header) : Prop where
  once : ∀ name ∈ [ascii "Upgrade", ascii "Connection", ascii "Sec-WebSocket-Key"],
    (valuesOf headers name).length ≤ 1
  upgrade : ∀ v ∈ valuesOf headers (ascii "Upgrade"), tokens v = [v] ∧
    strncasecmp v (ascii "websocket") 9 = sameWord v (ascii "websocket")
  connection : ∀ v ∈ valuesOf headers (ascii "Connection"), tokens v = [v] ∧
    strcasestr v (ascii "upgrade") = sameWord v (ascii "upgrade")

/-! ## Names -/

theorem toLower_eq_zero {b : UInt8} (h : toLower b = 0) : b = 0 := by
  unfold toLower at h
  split_ifs at h with hletter
  · have hzero := congrArg UInt8.toNat h
    have hlow := UInt8.le_iff_toNat_le.mp hletter.1
    have hhigh := UInt8.le_iff_toNat_le.mp hletter.2
    rw [UInt8.toNat_add] at hzero
    simp only [UInt8.reduceToNat] at hzero hlow hhigh
    omega
  · exact h

theorem noNul_of_sameWord {a b : Text} (hb : 0 ∉ b) (h : sameWord a b = true) : 0 ∉ a := by
  intro ha
  have hmem : toLower 0 ∈ b.map toLower := eq_of_beq h ▸ List.mem_map_of_mem ha
  obtain ⟨c, hc, hzero⟩ := List.mem_map.mp hmem
  exact hb (toLower_eq_zero hzero ▸ hc)

theorem length_of_sameWord {a b : Text} (h : sameWord a b = true) : a.length = b.length := by
  have hlength := congrArg List.length (eq_of_beq h)
  rwa [List.length_map, List.length_map] at hlength

/-- The check of a name and its length is a comparison of the whole name. -/
theorem hasName_eq (h : Header) (name : Text) (hname : 0 ∉ name) :
    hasName h name = sameWord h.name name := by
  rw [Bool.eq_iff_iff, hasName, Bool.and_eq_true, beq_iff_eq, strncasecmp,
    cString_eq_self hname, List.take_length]
  constructor
  · rintro ⟨hlength, hsame⟩
    have htake := congrArg List.length (eq_of_beq hsame)
    rw [List.length_map, List.length_map, List.length_take] at htake
    have hprefix : cString h.name <+: h.name := List.takeWhile_prefix _
    have hwhole : cString h.name = h.name := hprefix.eq_of_length_le (by omega)
    rwa [hwhole, ← hlength, List.take_length] at hsame
  · intro hsame
    have hlength := length_of_sameWord hsame
    rw [cString_eq_self (noNul_of_sameWord hname hsame), ← hlength, List.take_length]
    exact ⟨rfl, hsame⟩

theorem not_sameWord_of_length {a b c : Text} (h : sameWord a b = true) (hne : b.length ≠ c.length) :
    sameWord a c = false := by
  rw [Bool.eq_false_iff]
  intro hc
  exact hne ((length_of_sameWord h).symm.trans (length_of_sameWord hc))

/-! ## The loop over the headers -/

theorem valuesOf_append (headers : List Header) (h : Header) (name : Text) :
    valuesOf (headers ++ [h]) name =
      valuesOf headers name ++ if sameWord h.name name then [h.value] else [] := by
  by_cases hname : sameWord h.name name <;> simp [valuesOf, List.filter_append, hname]

theorem lastPasses_append (headers : List Header) (h : Header) (name : Text)
    (test : Text → Bool) :
    lastPasses (headers ++ [h]) name test =
      if sameWord h.name name then test h.value else lastPasses headers name test := by
  rw [lastPasses, valuesOf_append]
  split_ifs <;> simp [lastPasses]

/-- Every header decides anew about the flag of its name. -/
theorem UpgradeScan.step_flags (scan : UpgradeScan) (h : Header) :
    (scan.step h).hasUpgrade = (if sameWord h.name (ascii "Upgrade") then
        strncasecmp h.value (ascii "websocket") 9 else scan.hasUpgrade) ∧
      (scan.step h).hasConnection = (if sameWord h.name (ascii "Connection") then
        strcasestr h.value (ascii "upgrade") else scan.hasConnection) ∧
      (scan.step h).key = (if sameWord h.name (ascii "Sec-WebSocket-Key") then h.value
        else scan.key) := by
  have hupgrade := hasName_eq h (ascii "Upgrade") (by decide)
  have hconnection := hasName_eq h (ascii "Connection") (by decide)
  have hkey := hasName_eq h (ascii "Sec-WebSocket-Key") (by decide)
  rw [step, hupgrade, hconnection, hkey]
  by_cases hu : sameWord h.name (ascii "Upgrade")
  · have hc := not_sameWord_of_length hu (c := ascii "Connection") (by decide)
    have hk := not_sameWord_of_length hu (c := ascii "Sec-WebSocket-Key") (by decide)
    simp [hu, hc, hk]
  · by_cases hc : sameWord h.name (ascii "Connection")
    · have hk := not_sameWord_of_length hc (c := ascii "Sec-WebSocket-Key") (by decide)
      simp [hu, hc, hk]
    · by_cases hk : sameWord h.name (ascii "Sec-WebSocket-Key")
      · simp [hu, hc, hk]
      · simp only [hu, hc, hk, Bool.false_eq_true, if_false]
        split_ifs <;> exact ⟨rfl, rfl, rfl⟩

/-- The flags tell what the last headers of their names are. -/
theorem scan_eq_last (headers : List Header) :
    (headers.foldl UpgradeScan.step ⟨false, false, [], [], []⟩).hasUpgrade = lastUpgrade headers ∧
      (headers.foldl UpgradeScan.step ⟨false, false, [], [], []⟩).hasConnection =
        lastConnection headers ∧
      (!(headers.foldl UpgradeScan.step ⟨false, false, [], [], []⟩).key.isEmpty) =
        lastKey headers := by
  induction headers using List.reverseRecOn with
  | nil => exact ⟨rfl, rfl, rfl⟩
  | append_singleton headers h ih =>
    obtain ⟨hupgrade, hconnection, hkey⟩ := ih
    obtain ⟨hu, hc, hk⟩ := UpgradeScan.step_flags
      (headers.foldl UpgradeScan.step ⟨false, false, [], [], []⟩) h
    rw [List.foldl_append, List.foldl_cons, List.foldl_nil, hu, hc, hk, hupgrade, hconnection]
    refine ⟨(lastPasses_append ..).symm, (lastPasses_append ..).symm, ?_⟩
    rw [lastKey, lastPasses_append]
    split_ifs
    · rfl
    · exact hkey

theorem isUpgrade_eq_last (headers : List Header) :
    (parseWSUpgrade headers).isUpgrade =
      (lastUpgrade headers && lastConnection headers && lastKey headers) := by
  obtain ⟨hupgrade, hconnection, hkey⟩ := scan_eq_last headers
  rw [← hupgrade, ← hconnection, ← hkey]
  rfl

theorem exists_key_of_lastKey {headers : List Header} (h : lastKey headers = true) :
    ∃ v ∈ valuesOf headers (ascii "Sec-WebSocket-Key"), v ≠ [] := by
  unfold lastKey lastPasses at h
  cases hlast : (valuesOf headers (ascii "Sec-WebSocket-Key")).getLast? with
  | none =>
    rw [hlast] at h
    cases h
  | some v =>
    rw [hlast] at h
    refine ⟨v, List.mem_of_getLast? hlast, ?_⟩
    rintro rfl
    cases h

/-- Headers of one name in the same order, whatever stands between them, give the same
answer. -/
theorem isUpgrade_of_valuesOf {headers headers' : List Header}
    (h : ∀ name, valuesOf headers' name = valuesOf headers name) :
    (parseWSUpgrade headers').isUpgrade = (parseWSUpgrade headers).isUpgrade := by
  simp only [isUpgrade_eq_last, lastUpgrade, lastConnection, lastKey, lastPasses, h]

/-- A name that occurs once has no other header behind the one that is asked for. -/
theorem lastPasses_iff_of_once {headers : List Header} {name : Text} {test : Text → Bool}
    (honce : (valuesOf headers name).length ≤ 1) :
    lastPasses headers name test = true ↔ ∃ v ∈ valuesOf headers name, test v = true := by
  unfold lastPasses
  cases hvalues : valuesOf headers name with
  | nil => simp
  | cons v rest =>
    obtain rfl : rest = [] := by simpa [hvalues] using honce
    simp

theorem hasToken_of_single {v : Text} (hsingle : tokens v = [v]) (word : Text) :
    hasToken v word = sameWord v word := by
  simp [hasToken, hsingle]

theorem isUpgrade_iff_of_plainHeaders {headers : List Header} (h : PlainHeaders headers) :
    (parseWSUpgrade headers).isUpgrade = true ↔ AsksUpgrade headers := by
  have hupgrade : lastUpgrade headers = true ↔
      ∃ v ∈ valuesOf headers (ascii "Upgrade"), hasToken v (ascii "websocket") = true := by
    rw [lastUpgrade, lastPasses_iff_of_once (h.once _ (by simp))]
    refine exists_congr fun v => and_congr_right fun hv => ?_
    rw [hasToken_of_single (h.upgrade v hv).1, (h.upgrade v hv).2]
  have hconnection : lastConnection headers = true ↔
      ∃ v ∈ valuesOf headers (ascii "Connection"), hasToken v (ascii "upgrade") = true := by
    rw [lastConnection, lastPasses_iff_of_once (h.once _ (by simp))]
    refine exists_congr fun v => and_congr_right fun hv => ?_
    rw [hasToken_of_single (h.connection v hv).1, (h.connection v hv).2]
  have hkey : lastKey headers = true ↔
      ∃ v ∈ valuesOf headers (ascii "Sec-WebSocket-Key"), v ≠ [] := by
    rw [lastKey, lastPasses_iff_of_once (h.once _ (by simp))]
    simp
  rw [isUpgrade_eq_last, Bool.and_eq_true, Bool.and_eq_true, hupgrade, hconnection, hkey]
  constructor
  · rintro ⟨⟨hu, hc⟩, hk⟩
    exact ⟨hu, hc, hk⟩
  · intro hasks
    exact ⟨⟨hasks.upgrade, hasks.connection⟩, hasks.key⟩

/-- An upgrade request is recognised as one, and nothing else is, exactly when the last headers
of the three names neither hide it nor only look like it, so always for a plain request. The
order of headers with different names does not matter. -/
theorem parseWSUpgrade_exact_iff (headers : List Header) :
    (((parseWSUpgrade headers).isUpgrade = true ↔ AsksUpgrade headers) ↔
      ¬Overlooked headers ∧ ¬Mistaken headers) ∧
    (PlainHeaders headers →
      ((parseWSUpgrade headers).isUpgrade = true ↔ AsksUpgrade headers)) ∧
    ∀ headers', (∀ name, valuesOf headers' name = valuesOf headers name) →
      (parseWSUpgrade headers').isUpgrade = (parseWSUpgrade headers).isUpgrade := by
  refine ⟨?_, isUpgrade_iff_of_plainHeaders, fun _ => isUpgrade_of_valuesOf⟩
  rw [isUpgrade_eq_last, Bool.and_eq_true, Bool.and_eq_true]
  constructor
  · intro hexact
    constructor
    · rintro ⟨hasks, hmissing⟩
      obtain ⟨⟨hupgrade, hconnection⟩, hkey⟩ := hexact.mpr hasks
      simp [hupgrade, hconnection, hkey] at hmissing
    · rintro ⟨⟨hupgrade, hconnection, hkey⟩, hnone⟩
      have hasks := hexact.mp ⟨⟨hupgrade, hconnection⟩, hkey⟩
      rcases hnone with hnone | hnone
      · obtain ⟨v, hv, htoken⟩ := hasks.upgrade
        simp [hnone v hv] at htoken
      · obtain ⟨v, hv, htoken⟩ := hasks.connection
        simp [hnone v hv] at htoken
  · rintro ⟨hseen, hright⟩
    constructor
    · rintro ⟨⟨hupgrade, hconnection⟩, hkey⟩
      have hlast := And.intro hupgrade (And.intro hconnection hkey)
      refine ⟨?_, ?_, exists_key_of_lastKey hkey⟩
      · by_contra hnone
        exact hright ⟨hlast, .inl (by simpa using hnone)⟩
      · by_contra hnone
        exact hright ⟨hlast, .inr (by simpa using hnone)⟩
    · intro hasks
      by_contra hlast
      rw [not_and_or, not_and_or, or_assoc] at hlast
      simp only [Bool.not_eq_true] at hlast
      exact hseen ⟨hasks, hlast⟩

example : PlainHeaders
    [⟨ascii "Host", ascii "localhost"⟩, ⟨ascii "Upgrade", ascii "websocket"⟩,
      ⟨ascii "Connection", ascii "Upgrade"⟩,
      ⟨ascii "Sec-WebSocket-Key", ascii "dGhlIHNhbXBsZSBub25jZQ=="⟩] :=
  ⟨by decide +kernel, by decide +kernel, by decide +kernel⟩

/-- An upgrade request whose second `Connection` header has another token. -/
def keepAliveBehind : List Header :=
  [⟨ascii "Upgrade", ascii "websocket"⟩, ⟨ascii "Connection", ascii "Upgrade"⟩,
    ⟨ascii "Sec-WebSocket-Key", ascii "dGhlIHNhbXBsZSBub25jZQ=="⟩,
    ⟨ascii "Connection", ascii "keep-alive"⟩]

theorem keepAliveBehind_overlooked :
    ¬((parseWSUpgrade keepAliveBehind).isUpgrade = true ↔ AsksUpgrade keepAliveBehind) := by
  intro hexact
  have hasks : AsksUpgrade keepAliveBehind :=
    ⟨⟨ascii "websocket", by decide, by decide⟩, ⟨ascii "Upgrade", by decide, by decide⟩,
      ⟨ascii "dGhlIHNhbXBsZSBub25jZQ==", by decide, by decide⟩⟩
  have hnot : (parseWSUpgrade keepAliveBehind).isUpgrade = false := by decide
  rw [hexact.mpr hasks] at hnot
  cases hnot

end CapyJs.Http
