import CapyJs.Codec.Utf8
import CapyJs.Worker.InferenceEnd
import CapyJs.Worker.Tagged
import Mathlib.Algebra.Order.BigOperators.Group.List
import Mathlib.Algebra.Order.Group.Nat

/-!
# Prompts and tokens on their way

A prompt travels in a field of 2048 bytes and each token in one of 64, both filled with
`snprintf`. A token becomes a JS string on its own, so its bytes have to be UTF-8 on their own.
-/
namespace CapyJs.Worker
open Transition CapyJs.Codec.Utf8

/-- What `run_inference` gives to `llama_tokenize`. -/
def InfJob.tokenized (job : InfJob) : Text := cString job.prompt

/-- The texts that `llama_token_to_piece` produces from round `i` on. -/
def pieces (llama : Llama) : ℕ → ℕ → List Text
  | 0, _ => []
  | fuel + 1, i =>
    if (llama.step i).isEog then []
    else (llama.step i).piece ::
      if i = tokenGenMax - 1 ∨ (llama.step i).decode ≠ 0 then [] else pieces llama fuel (i + 1)

def InfJob.pieces (job : InfJob) : List Text :=
  if !job.llama.context then []
  else if job.llama.tokenize < 0 then []
  else if job.llama.promptDecode ≠ 0 then []
  else Worker.pieces job.llama tokenGenMax 0

/-- All that is known of `JS_NewString`: it decodes UTF-8 up to a NUL. -/
def Decodes (newString : Text → List CodePoint) : Prop :=
  ∀ s : List CodePoint, (∀ c ∈ s, ¬IsHighSurrogate c ∧ ¬IsLowSurrogate c) → 0 ∉ s →
    newString (encode s) = s

/-- The tokens that a callback is called with, one behind the other. -/
def textPassed (newString : Text → List CodePoint) (rs : List (Result InfResult)) :
    List CodePoint :=
  rs.flatMap fun r => if r.payload.error then [] else newString r.payload.token

/-- The callback gets the text of the pieces, whatever becomes of bytes that are not UTF-8. -/
def PassedWhole (pieces : List Text) (rs : List (Result InfResult)) : Prop :=
  ∀ newString, Decodes newString → encode (textPassed newString rs) = pieces.flatten

/-! ## Fields -/

theorem snprintf_isPrefix (size : ℕ) (text : Text) : snprintf size text <+: text :=
  (List.take_prefix ..).trans (List.takeWhile_prefix _)

theorem zero_notMem_snprintf (size : ℕ) (text : Text) : 0 ∉ snprintf size text := fun h =>
  zero_notMem_cString text (List.mem_of_mem_take h)

theorem snprintf_eq_iff (size : ℕ) (text : Text) :
    snprintf (size + 1) text = text ↔ 0 ∉ text ∧ text.length ≤ size := by
  constructor
  · intro h
    refine ⟨h ▸ zero_notMem_snprintf (size + 1) text, ?_⟩
    have hlength := congrArg List.length h
    rw [snprintf, List.length_take] at hlength
    omega
  · rintro ⟨hzero, hshort⟩
    rw [snprintf, cString_eq_self hzero]
    exact List.take_of_length_le hshort

theorem tokenized_eq_iff {job : InfJob} {prompt : Text} (h : job.prompt = snprintf 2048 prompt) :
    job.tokenized = prompt ↔ 0 ∉ prompt ∧ prompt.length ≤ 2047 := by
  rw [InfJob.tokenized, h, cString_eq_self (zero_notMem_snprintf 2048 prompt)]
  exact snprintf_eq_iff 2047 prompt

/-! ## Decoders -/

theorem decodes_decode : Decodes fun text => (decode text).getD [] := by
  intro s _ _
  simp [decode_encode]

/-- A decoder may do anything with bytes that are not UTF-8. -/
theorem Decodes.update {newString : Text → List CodePoint} (h : Decodes newString) {text : Text}
    (htext : ¬IsUtf8 text) (s : List CodePoint) : Decodes (Function.update newString text s) := by
  intro t hscalar hzero
  have hne : encode t ≠ text := fun heq => htext ⟨t, hscalar, heq⟩
  rw [Function.update_of_ne hne]
  exact h t hscalar hzero

theorem Decodes.encode_apply {newString : Text → List CodePoint} (h : Decodes newString)
    {text : Text} (htext : IsUtf8 text) (hzero : 0 ∉ text) : encode (newString text) = text := by
  obtain ⟨s, hscalar, rfl⟩ := htext
  rw [h s hscalar (fun hmem => hzero (zero_mem_encode.mpr hmem))]

theorem Decodes.apply_nil {newString : Text → List CodePoint} (h : Decodes newString) :
    newString [] = [] := h [] nofun nofun

theorem Decodes.encode_flatMap {newString : Text → List CodePoint} (h : Decodes newString)
    {texts : List Text} (htexts : ∀ t ∈ texts, IsUtf8 t ∧ 0 ∉ t) :
    encode (texts.flatMap newString) = texts.flatten := by
  rw [encode, List.flatMap_assoc, ← List.flatMap_id]
  apply List.flatMap_congr
  intro t ht
  exact h.encode_apply (htexts t ht).1 (htexts t ht).2

theorem isUtf8_of_forall_decodes {texts : List Text} {bytes : Text}
    (h : ∀ newString, Decodes newString → encode (texts.flatMap newString) = bytes) {t : Text}
    (ht : t ∈ texts) : IsUtf8 t := by
  by_contra hnot
  -- two decoders, of which one makes more of `t` than the other
  let short (text : Text) : List CodePoint := (decode text).getD []
  let long := Function.update short t (0x41 :: short t)
  have hshort := h short decodes_decode
  have hlong := h long (decodes_decode.update hnot _)
  have hlength := congrArg List.length (encode_injective (hshort.trans hlong.symm))
  rw [List.length_flatMap, List.length_flatMap] at hlength
  have hmore : (short t).length < (long t).length := by simp [long]
  have hlt := List.sum_lt_sum (fun u => (short u).length) (fun u => (long u).length) ?_
    ⟨t, ht, hmore⟩
  · exact hlt.ne hlength
  intro u _
  by_cases hu : u = t
  · exact hu ▸ hmore.le
  · simp [long, Function.update_of_ne hu]

theorem eq_of_length_flatten {f : Text → Text} (hf : ∀ t, f t <+: t) {texts : List Text}
    (h : (texts.map f).flatten.length = texts.flatten.length) {t : Text} (ht : t ∈ texts) :
    f t = t := by
  induction texts with
  | nil => cases ht
  | cons t' texts ih =>
    have hhead := (hf t').length_le
    have htail : (texts.map f).flatten.length ≤ texts.flatten.length := by
      simp only [List.length_flatten, List.map_map]
      exact List.sum_le_sum fun u _ => (hf u).length_le
    simp only [List.map_cons, List.flatten_cons, List.length_append] at h
    rcases List.mem_cons.mp ht with rfl | ht
    · exact (hf t).eq_of_length (by omega)
    · exact ih (by omega) ht

/-! ## The results of a job -/

theorem textPassed_generate {newString : Text → List CodePoint} (h : Decodes newString)
    (llama : Llama) (fuel i : ℕ) (item : Item InfJob) :
    textPassed newString ((generate llama fuel i).map fun x => ⟨item.jobId, item.ref, x.1, x.2⟩) =
      ((Worker.pieces llama fuel i).map (snprintf 64)).flatMap newString := by
  induction fuel generalizing i with
  | zero => simp [generate, Worker.pieces, textPassed, h.apply_nil]
  | succ fuel ih =>
    by_cases heog : (llama.step i).isEog = true
    · simp [generate, Worker.pieces, textPassed, heog, snprintf, cString, h.apply_nil]
    · rw [Bool.not_eq_true] at heog
      by_cases hlast : i = tokenGenMax - 1
      · subst hlast
        simp [generate, Worker.pieces, textPassed, heog]
      · have hnot : (i == tokenGenMax - 1) = false := beq_eq_false_iff_ne.mpr hlast
        simp only [generate, Worker.pieces, heog, hnot, hlast, Bool.or_self, Bool.false_eq_true,
          if_false, false_or]
        split_ifs
        · simp [textPassed, h.apply_nil]
        · rw [List.map_cons, List.map_cons, List.flatMap_cons, ← ih (i + 1)]
          rfl

theorem textPassed_results (models : List Text) {newString : Text → List CodePoint}
    (h : Decodes newString) (item : Item InfJob) :
    textPassed newString ((inferenceWorker models).results item) =
      (item.job.pieces.map (snprintf 64)).flatMap newString := by
  have hcompute : (inferenceWorker models).compute item.job = runInference item.job := rfl
  rw [WorkerKind.results, hcompute, runInference, InfJob.pieces]
  split_ifs
  · rfl
  · rfl
  · rfl
  · exact textPassed_generate h item.job.llama tokenGenMax 0 item

theorem passedWhole_results_iff (models : List Text) (item : Item InfJob) :
    PassedWhole item.job.pieces ((inferenceWorker models).results item) ↔
      ∀ p ∈ item.job.pieces, 0 ∉ p ∧ p.length ≤ 63 ∧ IsUtf8 p := by
  have hpassed (newString) (h : Decodes newString) := textPassed_results models h item
  constructor
  · intro h p hp
    have hutf8 : ∀ t ∈ item.job.pieces.map (snprintf 64), IsUtf8 t := by
      intro t ht
      apply isUtf8_of_forall_decodes _ ht
      · exact item.job.pieces.flatten
      · intro newString hdecodes
        rw [← hpassed newString hdecodes]
        exact h newString hdecodes
    have htokens := h _ decodes_decode
    rw [hpassed _ decodes_decode,
      decodes_decode.encode_flatMap fun t ht => ⟨hutf8 t ht, ?_⟩] at htokens
    · have hwhole := eq_of_length_flatten (snprintf_isPrefix 64) (congrArg List.length htokens) hp
      obtain ⟨hzero, hlength⟩ := (snprintf_eq_iff 63 p).mp hwhole
      exact ⟨hzero, hlength, hwhole ▸ hutf8 _ (List.mem_map_of_mem hp)⟩
    · obtain ⟨q, -, rfl⟩ := List.mem_map.mp ht
      exact zero_notMem_snprintf 64 q
  · intro h newString hdecodes
    have hsame : item.job.pieces.map (snprintf 64) = item.job.pieces := by
      conv_rhs => rw [← List.map_id item.job.pieces]
      apply List.map_congr_left
      intro p hp
      exact (snprintf_eq_iff 63 p).mpr ⟨(h p hp).1, (h p hp).2.1⟩
    rw [hpassed newString hdecodes, hsame]
    exact hdecodes.encode_flatMap fun p hp => ⟨(h p hp).2.2, (h p hp).1⟩

/-! ## Along runs -/

theorem prompt_of_toJob {models : List Text} {packet : InfPacket} {job : InfJob}
    (h : (inferenceWorker models).toJob packet = .ok job) :
    job.prompt = snprintf 2048 (packet.prompt.getD []) := by
  simp only [inferenceWorker] at h
  split at h
  · cases h
  · split_ifs at h
    cases h
    rfl

/-- A callback that got a final result got all the results of its job. -/
theorem calls_of_final {models : List Text} {n w : ℕ} {s : State (InfPacket × InfJob) InfResult}
    {hist : List (Output (InfPacket × InfJob) InfResult)}
    (run : (manager (inferenceWorker models).tagged n).Reaches s hist)
    {item : Item (InfPacket × InfJob)} (hitem : .worker w (.accepted item) ∈ hist)
    {r : Result InfResult} (hr : r ∈ calls item.ref (events hist)) (hdone : r.isDone = true) :
    calls item.ref (events hist) = (inferenceWorker models).results item.untag := by
  obtain ⟨_, _, _, hledger⟩ := reaches_ledger run w
  have hown := mem_acceptedItems_own.mpr hitem
  have hprefix := hledger.calls_isPrefix hown
  rw [calls_events run, (hledger.home item hown).1] at hr ⊢
  obtain ⟨front, last, heq, -, hfront⟩ := (endsOnce_results models item.untag).lastDone
  rw [results_tagged, heq, List.prefix_concat_iff] at hprefix
  rcases hprefix with hall | hsome
  · rw [hall, heq]
  · rw [hfront r (hsome.subset hr)] at hdone
    cases hdone

/-- In every run: an accepted prompt is tokenized whole exactly when it has no NUL and at most
2047 bytes; and a callback that got its final result got the text of the pieces exactly when each
of them has no NUL and at most 63 bytes and is UTF-8. -/
theorem inference_text_whole_iff {models : List Text} {n w : ℕ}
    {s : State (InfPacket × InfJob) InfResult} {hist : List (Output (InfPacket × InfJob) InfResult)}
    (run : (manager (inferenceWorker models).tagged n).Reaches s hist)
    {item : Item (InfPacket × InfJob)} (hitem : .worker w (.accepted item) ∈ hist) :
    (∀ prompt, item.job.1.prompt = some prompt →
      (item.job.2.tokenized = prompt ↔ 0 ∉ prompt ∧ prompt.length ≤ 2047)) ∧
    ((∃ r ∈ calls item.ref (events hist), r.isDone = true) →
      (PassedWhole item.job.2.pieces (calls item.ref (events hist)) ↔
        ∀ p ∈ item.job.2.pieces, 0 ∉ p ∧ p.length ≤ 63 ∧ IsUtf8 p)) := by
  constructor
  · intro prompt hprompt
    have hjob := prompt_of_toJob (toJob_of_reaches run hitem)
    rw [hprompt] at hjob
    exact tokenized_eq_iff hjob
  · rintro ⟨r, hr, hdone⟩
    rw [calls_of_final run hitem hr hdone]
    exact passedWhole_results_iff models item.untag

/-- One piece of 64 bytes, and then the end. -/
def longPiece : Llama where
  context := true
  tokenize := 3
  promptDecode := 0
  step i := ⟨i == 1, List.replicate 64 97, 0⟩

/-- A prompt of 2048 bytes. -/
def longPacket : InfPacket :=
  ⟨some (ascii "m"), none, none, some (List.replicate 2048 97), longPiece⟩

/-- A job from its dispatch to the call with its final result. -/
def deliverAll : List (Label InfPacket) :=
  [Label.dispatch true longPacket, Label.enqueue] ++ List.replicate 8 (Label.thread 0 true) ++
    [Label.ready 0, Label.pop, Label.callbackReturns, Label.pop]

def deliveredAll :
    State (InfPacket × InfJob) InfResult × List (Output (InfPacket × InfJob) InfResult) :=
  ((manager (inferenceWorker [ascii "m"]).tagged 1).exec (.initial 1) deliverAll).get rfl

def longItem : Item (InfPacket × InfJob) :=
  ⟨0, ⟨0, 0⟩, longPacket, snprintf 32 (ascii "m"), snprintf 128 [], snprintf 64 [],
    snprintf 2048 (List.replicate 2048 97), longPiece⟩

theorem deliveredAll_reached :
    (manager (inferenceWorker [ascii "m"]).tagged 1).Reaches deliveredAll.1 deliveredAll.2 ∧
      .worker 0 (.accepted longItem) ∈ deliveredAll.2 ∧
      ∃ r ∈ calls longItem.ref (events deliveredAll.2), r.isDone = true := by
  refine ⟨Machine.reaches_exec deliverAll rfl (Option.some_get rfl).symm, ?_, ?_⟩
  · exact List.mem_cons_of_mem _ List.mem_cons_self
  · exact ⟨⟨0, ⟨0, 0⟩, ⟨[], false⟩, true⟩, List.mem_cons_of_mem _ List.mem_cons_self, rfl⟩

theorem inference_text_whole_iff_deliveredAll :
    longItem.job.1.prompt = some (List.replicate 2048 97) ∧
    (longItem.job.2.tokenized = List.replicate 2048 97 ↔
      0 ∉ List.replicate 2048 (97 : UInt8) ∧ (List.replicate 2048 (97 : UInt8)).length ≤ 2047) ∧
    (PassedWhole longItem.job.2.pieces (calls longItem.ref (events deliveredAll.2)) ↔
      ∀ p ∈ longItem.job.2.pieces, 0 ∉ p ∧ p.length ≤ 63 ∧ IsUtf8 p) := by
  obtain ⟨run, hitem, hdone⟩ := deliveredAll_reached
  have hwhole := inference_text_whole_iff run hitem
  exact ⟨rfl, hwhole.1 _ rfl, hwhole.2 hdone⟩

theorem deliveredAll_cut :
    longItem.job.1.prompt = some (List.replicate 2048 97) ∧
      longItem.job.2.tokenized ≠ List.replicate 2048 97 ∧
      longItem.job.2.pieces = [List.replicate 64 97] ∧
      ¬PassedWhole longItem.job.2.pieces (calls longItem.ref (events deliveredAll.2)) := by
  obtain ⟨run, hitem, r, hr, hdone⟩ := deliveredAll_reached
  refine ⟨rfl, ?_, rfl, ?_⟩
  · intro h
    have hshort := ((tokenized_eq_iff rfl).mp h).2
    rw [List.length_replicate] at hshort
    omega
  · rw [calls_of_final run hitem hr hdone]
    intro h
    have hpieces := (passedWhole_results_iff [ascii "m"] longItem.untag).mp h
    have hshort := (hpieces (List.replicate 64 97) List.mem_cons_self).2.1
    simp at hshort

end CapyJs.Worker
