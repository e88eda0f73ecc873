/-
  Ghostline.Rpc.Framing — requests on the client socket (client.go: `writeRequestPayload`;
  rpc.go: `readRequest`, `readLine`).

  A request is one line of JSON and, behind it, as many raw bytes as its `payloadBytes`
  says; requests follow each other with nothing in between. The line may be 2^20 bytes
  with its newline and the payload 2^20, and both ends check both.

  `encoding/json` is a parameter (`Json`): what it makes of a request's parameters is its
  own, up to `value`. It is taken to write one line and to read back what it wrote
  (`Json.Faithful`). A write that the connection refuses is not modelled.
-/

import Mathlib.Data.List.DropRight
import Ghostline.Lib.Buffered
import Ghostline.Lib.JsonText
import Ghostline.Text

namespace Ghostline.Rpc

open Lib.Buffered

def maxRPCFrame : Nat := 2 ^ 20
def maxRPCPayload : Nat := 2 ^ 20
def wireVersion : Int := 1

def newline : Byte := 10

/-- The envelope; `ρ` is `json.RawMessage`. -/
structure Request (ρ : Type) where
  wire : Int
  id : Int
  method : String
  params : ρ
  payloadBytes : Int
  deriving DecidableEq, Repr

/-- `json.Marshal` and `json.Unmarshal` of a request, and the value of a raw message. -/
structure Json (ρ ν : Type) where
  marshal : Request ρ → Except String (List Byte)
  unmarshal : List Byte → Except String (Request ρ)
  value : ρ → ν

variable {ρ ν : Type} (j : Json ρ ν)

structure Json.Faithful : Prop where
  oneLine : ∀ r bytes, j.marshal r = .ok bytes → newline ∉ bytes
  decodes : ∀ r bytes, j.marshal r = .ok bytes → ∃ r', j.unmarshal (bytes ++ [newline]) = .ok r' ∧
    r'.wire = r.wire ∧ r'.id = r.id ∧ r'.method = r.method ∧ j.value r'.params = j.value r.params ∧
    r'.payloadBytes = r.payloadBytes

/-! ## The two ends -/

/-- The bytes that go to the connection. -/
def writeRequestPayload (req : Request ρ) (payload : List Byte) : Except Err (List Byte) :=
  if maxRPCPayload < payload.length then .error (.sentinel .frameTooLarge)
  else
    match j.marshal { req with wire := wireVersion, payloadBytes := payload.length } with
    | .error m => .error (.other m)
    | .ok encoded =>
      if maxRPCFrame < encoded.length + 1 then .error (.sentinel .frameTooLarge)
      else .ok (encoded ++ [newline] ++ payload)

def lineErr : Stop → Err
  | .tooLarge => .sentinel .frameTooLarge
  | _ => .eof

def payloadErr : Stop → Err
  | .eof => .other "read request payload: EOF"
  | _ => .other "read request payload: unexpected EOF"

/-- The request and its payload. -/
def readRequest (b : Reader Byte) : Except Err (Request ρ × List Byte) × Reader Byte :=
  match readLine newline maxRPCFrame [] b with
  | (.error e, b) => (.error (lineErr e), b)
  | (.ok line, b) =>
    match j.unmarshal line with
    | .error m => (.error (.other ("invalid request: " ++ m)), b)
    | .ok req =>
      if req.wire ≠ wireVersion then (.error (.sentinel .protocolMismatch), b)
      else if req.id ≤ 0 ∨ req.method = "" then (.error (.other "invalid request envelope"), b)
      else if req.payloadBytes < 0 ∨ (maxRPCPayload : Int) < req.payloadBytes then
        (.error (.sentinel .frameTooLarge), b)
      else if 0 < req.payloadBytes then
        match readFull req.payloadBytes.toNat [] b with
        | (.error e, b) => (.error (payloadErr e), b)
        | (.ok payload, b) => (.ok (req, payload), b)
      else (.ok (req, []), b)

/-- One request behind the other. -/
def writeRequests : List (Request ρ × List Byte) → Except Err (List Byte)
  | [] => .ok []
  | (req, payload) :: rest =>
    match writeRequestPayload j req payload, writeRequests rest with
    | .ok bytes, .ok more => .ok (bytes ++ more)
    | .error e, _ => .error e
    | _, .error e => .error e

/-- `n` calls of `readRequest`. -/
def readRequests : Nat → Reader Byte → Except Err (List (Request ρ × List Byte)) × Reader Byte
  | 0, b => (.ok [], b)
  | n + 1, b =>
    match readRequest j b with
    | (.error e, b) => (.error e, b)
    | (.ok r, b) =>
      match readRequests n b with
      | (.error e, b) => (.error e, b)
      | (.ok rs, b) => (.ok (r :: rs), b)

/-! ## One request -/

/-- The request that was written: its method, id, parameters and payload. -/
structure Same (sent got : Request ρ × List Byte) : Prop where
  method : got.1.method = sent.1.method
  id : got.1.id = sent.1.id
  params : j.value got.1.params = j.value sent.1.params
  payload : got.2 = sent.2

variable {j}

/-- What the reader makes of a line that `json.Marshal` wrote. -/
theorem readRequest_line (hj : j.Faithful) {req : Request ρ} {payload encoded rest : List Byte} {b : Reader Byte}
    (hid : 0 < req.id) (hm : req.method ≠ "")
    (he : j.marshal { req with wire := wireVersion, payloadBytes := payload.length } = .ok encoded)
    (hc : b.content = encoded ++ newline :: (payload ++ rest)) (hl : encoded.length + 1 ≤ maxRPCFrame) :
    (payload.length ≤ maxRPCPayload → ∃ got b', readRequest j b = (.ok got, b') ∧ Same j (req, payload) got ∧
      b'.content = rest) ∧
    (maxRPCPayload < payload.length → (readRequest j b).1 = .error (.sentinel .frameTooLarge)) := by
  have hplain := hj.oneLine _ _ he
  obtain ⟨r, hr, hwire, hrid, hmethod, hparams, hbytes⟩ := hj.decodes _ _ he
  obtain ⟨b₁, hline, hcontent⟩ := readLine_line maxRPCFrame [] b hc hplain (by simpa using hl)
  simp only [List.nil_append] at hline
  simp only at hwire hrid hmethod hparams hbytes
  have h1 : ¬ r.wire ≠ wireVersion := by simp [hwire]
  have h2 : ¬ (r.id ≤ 0 ∨ r.method = "") := by
    rw [hrid, hmethod]
    rintro (h | h)
    · omega
    · exact hm h
  refine ⟨fun hp => ?_, fun hp => ?_⟩
  · have h3 : ¬ (r.payloadBytes < 0 ∨ (maxRPCPayload : Int) < r.payloadBytes) := by rw [hbytes]; omega
    simp only [readRequest, hline, hr, h1, h2, h3, if_false]
    by_cases h0 : 0 < r.payloadBytes
    · rw [if_pos h0]
      have hn : r.payloadBytes.toNat = payload.length := by rw [hbytes]; rfl
      obtain ⟨b₂, hfull, hrest⟩ := readFull_exact payload.length [] b₁ (by rw [hcontent, List.length_append]; omega)
      rw [hn, hfull, hcontent] at *
      simp only [List.take_left', List.drop_left', List.nil_append] at hrest ⊢
      exact ⟨_, b₂, rfl, ⟨hmethod, hrid, hparams, rfl⟩, hrest⟩
    · rw [if_neg h0]
      have hnil : payload = [] := List.eq_nil_of_length_eq_zero (by rw [hbytes] at h0; omega)
      subst hnil
      exact ⟨_, b₁, rfl, ⟨hmethod, hrid, hparams, rfl⟩, hcontent⟩
  · have h3 : r.payloadBytes < 0 ∨ (maxRPCPayload : Int) < r.payloadBytes := by rw [hbytes]; omega
    simp only [readRequest, hline, hr, h1, h2, h3, if_false, if_true]

theorem write_ok {req : Request ρ} {payload bytes : List Byte} (h : writeRequestPayload j req payload = .ok bytes) :
    ∃ encoded, j.marshal { req with wire := wireVersion, payloadBytes := payload.length } = .ok encoded ∧
      payload.length ≤ maxRPCPayload ∧ encoded.length + 1 ≤ maxRPCFrame ∧ bytes = encoded ++ [newline] ++ payload := by
  unfold writeRequestPayload at h
  split at h
  · cases h
  · split at h
    · cases h
    · rename_i hp encoded he
      split at h
      · cases h
      · exact ⟨encoded, he, by omega, by omega, (Except.ok.inj h).symm⟩

theorem readRequest_end {b : Reader Byte} (h : b.content = []) : (readRequest j b).1 = .error .eof := by
  have hend : (readLine newline maxRPCFrame [] b).1 = .error .eof := readLine_end maxRPCFrame b h
  generalize hq : readLine newline maxRPCFrame [] b = q at hend
  obtain ⟨line, b'⟩ := q
  simp only at hend
  subst hend
  simp [readRequest, hq, lineErr]

/-- A request that was written reads back, and what follows it stays. -/
theorem readRequest_written (hj : j.Faithful) {req : Request ρ} {payload bytes rest : List Byte} {b : Reader Byte}
    (hid : 0 < req.id) (hm : req.method ≠ "") (hw : writeRequestPayload j req payload = .ok bytes)
    (hc : b.content = bytes ++ rest) :
    ∃ got b', readRequest j b = (.ok got, b') ∧ Same j (req, payload) got ∧ b'.content = rest := by
  obtain ⟨encoded, he, hp, hl, rfl⟩ := write_ok hw
  exact (readRequest_line hj hid hm he (by simpa using hc) hl).1 hp

/-- The writer refuses for its size what the reader would refuse for its size. -/
theorem refused_alike (hj : j.Faithful) {req : Request ρ} {payload encoded rest : List Byte} {b : Reader Byte}
    (hid : 0 < req.id) (hm : req.method ≠ "")
    (he : j.marshal { req with wire := wireVersion, payloadBytes := payload.length } = .ok encoded)
    (hc : b.content = encoded ++ newline :: (payload ++ rest)) :
    writeRequestPayload j req payload = .error (.sentinel .frameTooLarge) ↔
      (readRequest j b).1 = .error (.sentinel .frameTooLarge) := by
  by_cases hl : encoded.length + 1 ≤ maxRPCFrame
  · obtain ⟨hread, hrefuse⟩ := readRequest_line hj hid hm he hc hl
    have hl' : ¬ maxRPCFrame < encoded.length + 1 := by omega
    by_cases hp : payload.length ≤ maxRPCPayload
    · -- both take it
      obtain ⟨got, b', hr, -⟩ := hread hp
      have hp' : ¬ maxRPCPayload < payload.length := by omega
      simp [writeRequestPayload, hp', he, hl', hr]
    · have hp' : maxRPCPayload < payload.length := by omega
      simp [writeRequestPayload, hp', hrefuse hp']
  · have hl' : maxRPCFrame < encoded.length + 1 := by omega
    have hline := readLine_tooLarge maxRPCFrame [] b hc (hj.oneLine _ _ he) (by simpa using hl')
    generalize hq : readLine newline maxRPCFrame [] b = q at hline
    obtain ⟨line, b'⟩ := q
    simp only at hline
    subst hline
    have hread : (readRequest j b).1 = .error (.sentinel .frameTooLarge) := by simp [readRequest, hq, lineErr]
    have hwrite : writeRequestPayload j req payload = .error (.sentinel .frameTooLarge) := by
      unfold writeRequestPayload
      split
      · rfl
      · simp [he, hl']
    simp [hread, hwrite]

/-! ## The stream -/

theorem readRequests_written (hj : j.Faithful) : ∀ (sent : List (Request ρ × List Byte)) {bytes rest : List Byte}
    {b : Reader Byte}, (∀ r ∈ sent, 0 < r.1.id ∧ r.1.method ≠ "") → writeRequests j sent = .ok bytes →
    b.content = bytes ++ rest →
    ∃ got b', readRequests j sent.length b = (.ok got, b') ∧ List.Forall₂ (Same j) sent got ∧ b'.content = rest := by
  intro sent
  induction sent with
  | nil =>
    intro bytes rest b _ hw hc
    obtain rfl := Except.ok.inj hw
    exact ⟨[], b, rfl, .nil, by simpa using hc⟩
  | cons r sent ih =>
    intro bytes rest b hv hw hc
    obtain ⟨req, payload⟩ := r
    simp only [writeRequests] at hw
    split at hw
    · rename_i first more hfirst hmore
      obtain rfl := Except.ok.inj hw
      obtain ⟨hid, hm⟩ := hv _ (.head _)
      rw [List.append_assoc] at hc
      obtain ⟨got, b₁, hr, hsame, hc₁⟩ := readRequest_written hj hid hm hfirst hc
      obtain ⟨rs, b₂, hrs, hall, hc₂⟩ := ih (fun x hx => hv x (.tail _ hx)) hmore hc₁
      exact ⟨got :: rs, b₂, by simp [readRequests, hr, hrs], .cons hsame hall, hc₂⟩
    · cases hw
    · cases hw

/-- Requests that were written one behind the other read back one by one, whatever the size
    of the buffer and the pieces the connection delivers, and nothing is left over; and the
    two ends refuse the same requests for their size. -/
theorem framing_is_self_delimiting (hj : j.Faithful) :
    (∀ (sent : List (Request ρ × List Byte)) (bytes : List Byte) (b : Reader Byte),
      (∀ r ∈ sent, 0 < r.1.id ∧ r.1.method ≠ "") → writeRequests j sent = .ok bytes → b.content = bytes →
      ∃ got b', readRequests j sent.length b = (.ok got, b') ∧ List.Forall₂ (Same j) sent got ∧ b'.content = [] ∧
        (readRequest j b').1 = .error .eof) ∧
    ∀ (req : Request ρ) (payload encoded rest : List Byte) (b : Reader Byte), 0 < req.id → req.method ≠ "" →
      j.marshal { req with wire := wireVersion, payloadBytes := payload.length } = .ok encoded →
      b.content = encoded ++ newline :: (payload ++ rest) →
      (writeRequestPayload j req payload = .error (.sentinel .frameTooLarge) ↔
        (readRequest j b).1 = .error (.sentinel .frameTooLarge)) := by
  refine ⟨fun sent bytes b hv hw hc => ?_, fun req payload encoded rest b hid hm he hc => refused_alike hj hid hm he hc⟩
  obtain ⟨got, b', hr, hall, hempty⟩ := readRequests_written hj sent hv hw (hc.trans (List.append_nil bytes).symm)
  exact ⟨got, b', hr, hall, hempty, readRequest_end hempty⟩

/-! ## An instance -/

open Lib.Decimal Lib.JsonText

/-- The beginning of an envelope. -/
def beginning (wire id : Int) : List Byte := utf8 "\x7b\"wire\":" ++ int wire ++ utf8 ",\"id\":" ++ int id

def readBeginning (text : List Byte) : Option (Int × Int × List Byte) :=
  (skip (utf8 "\x7b\"wire\":") text).bind fun text =>
    (skip (utf8 ",\"id\":") (readInt text).2).map fun rest => ((readInt text).1, readInt rest)

/-- The end of an envelope, from `payloadBytes` on. -/
def ending (payloadBytes : Int) : List Byte :=
  (if payloadBytes = 0 then [] else utf8 ",\"payloadBytes\":" ++ int payloadBytes) ++ [closing]

/-- What the end says, and the raw message in front of it, which does not end in a digit. -/
def readEnding (text : List Byte) : List Byte × Int :=
  let digits := text.dropLast.rtakeWhile (IsDigit ·)
  if digits = [] then (text.dropLast, 0)
  else (text.take (text.length - (digits.length + (utf8 ",\"payloadBytes\":").length + 1)), value digits)

theorem readBeginning_beginning (wire id : Int) {rest : List Byte} (h : ∀ b ∈ rest.head?, ¬ IsDigit b) :
    readBeginning (beginning wire id ++ rest) = some (wire, id, rest) := by
  have hid : ∀ b ∈ (utf8 ",\"id\":" ++ (int id ++ rest)).head?, ¬ IsDigit b := by
    intro b hb
    obtain rfl := Option.some.inj hb
    decide
  simp only [readBeginning, beginning, List.append_assoc, skip_append, Option.bind_some, readInt_int wire hid,
    Option.map_some, readInt_int id h]

theorem readEnding_ending {raw : List Byte} {n : Int} (hraw : ∀ b ∈ raw.getLast?, ¬ IsDigit b) (hn : 0 ≤ n) :
    readEnding (raw ++ ending n) = (raw, n) := by
  have hnone : ∀ l : List Byte, (∀ b ∈ l.getLast?, ¬ IsDigit b) → l.rtakeWhile (IsDigit ·) = [] := by
    intro l hl
    rw [List.rtakeWhile_eq_nil_iff]
    intro hne
    simpa using hl _ (List.getLast?_eq_some_getLast hne)
  unfold readEnding ending
  by_cases h0 : n = 0
  · subst h0
    simp [hnone raw hraw]
  · have hint : int n = decimal n.natAbs := by simp [int, Int.not_lt.mpr hn]
    have hall : ∀ b ∈ (decimal n.natAbs).reverse, decide (IsDigit b) = true := fun b hb =>
      decide_eq_true (isDigit_of_mem_decimal (List.mem_reverse.mp hb))
    -- the colon is no digit
    have hkey := hnone (raw ++ utf8 ",\"payloadBytes\":") (by
      intro b hb
      rw [List.getLast?_append] at hb
      obtain rfl := Option.some.inj hb
      decide)
    have hdigits : (raw ++ (utf8 ",\"payloadBytes\":" ++ decimal n.natAbs)).rtakeWhile (IsDigit ·) = decimal n.natAbs := by
      rw [List.rtakeWhile, List.reverse_eq_nil_iff] at hkey
      rw [← List.append_assoc, List.rtakeWhile, List.reverse_append, List.takeWhile_append_of_pos hall, hkey]
      simp
    have hlen : (raw ++ (utf8 ",\"payloadBytes\":" ++ decimal n.natAbs ++ [closing])).length -
        ((decimal n.natAbs).length + (utf8 ",\"payloadBytes\":").length + 1) = raw.length := by
      simp only [List.length_append, List.length_cons, List.length_nil]
      omega
    rw [if_neg h0, hint, ← List.append_assoc, List.dropLast_concat, hdigits, if_neg (decimal_ne_nil _)]
    rw [List.append_assoc, hlen, List.take_left, value_decimal]
    exact congrArg (raw, ·) (by omega)

def Request.line (r : Request (List Byte)) : List Byte :=
  beginning r.wire r.id ++ utf8 ",\"method\":" ++ str (utf8 r.method) ++
    (if r.params = [] then [] else utf8 ",\"params\":" ++ r.params) ++ ending r.payloadBytes

/-- The request in a line, if its method is one of these. -/
def toRequest (methods : List String) (line : List Byte) : Option (Request (List Byte)) := do
  let (wire, id, text) ← readBeginning line.dropLast
  let (name, text) := readStr (← skip (utf8 ",\"method\":") text)
  let method ← methods.find? (utf8 · = name)
  let (params, payloadBytes) := readEnding ((skip (utf8 ",\"params\":") text).getD text)
  some ⟨wire, id, method, params, payloadBytes⟩

/-- Requests with raw parameters. Parameters that are no JSON are refused: with them the line
    does not read back. -/
def requestJson (methods : List String) (value : List Byte → ν) : Json (List Byte) ν where
  marshal r :=
    if newline ∉ r.line ∧ toRequest methods (r.line ++ [newline]) = some r then .ok (r.line)
    else .error "invalid character"
  unmarshal line :=
    match toRequest methods line with
    | some r => .ok r
    | none => .error "invalid character"
  value := value

theorem requestJson_faithful (methods : List String) (value : List Byte → ν) : (requestJson methods value).Faithful := by
  have marshals : ∀ r bytes, (requestJson methods value).marshal r = .ok bytes →
      newline ∉ bytes ∧ toRequest methods (bytes ++ [newline]) = some r := by
    intro r bytes h
    simp only [requestJson] at h
    split at h
    · rename_i hr
      exact Except.ok.inj h ▸ hr
    · cases h
  refine ⟨fun r bytes h => (marshals r bytes h).1, fun r bytes h => ⟨r, ?_, rfl, rfl, rfl, rfl, rfl⟩⟩
  simp only [requestJson, (marshals r bytes h).2]

def askVersion : Request (List Byte) := ⟨wireVersion, 1, "version", [], 0⟩

def giveInput : Request (List Byte) := ⟨wireVersion, 2, "writeInput", utf8 "\x7b\"name\":\"s\"\x7d", 2⟩

def twoRequests : Json (List Byte) (List Byte) := requestJson ["version", "writeInput"] id

/-- A payload of two newlines between two requests without one, in a buffer of 16 bytes that
    the connection fills byte by byte. -/
def twoNewlines : Reader Byte :=
  let version := "\x7b\"wire\":1,\"id\":1,\"method\":\"version\"\x7d\n"
  let input := "\x7b\"wire\":1,\"id\":2,\"method\":\"writeInput\",\"params\":\x7b\"name\":\"s\"\x7d,\"payloadBytes\":2\x7d\n"
  ⟨16, by decide, [], utf8 (version ++ input ++ "\n\n" ++ version), List.replicate 160 0⟩

theorem framing_is_self_delimiting_newlines :
    ∃ got b', readRequests twoRequests 3 twoNewlines = (.ok got, b') ∧
      List.Forall₂ (Same twoRequests) [(askVersion, []), (giveInput, [10, 10]), (askVersion, [])] got ∧
      b'.content = [] := by
  have hwritten : writeRequests twoRequests [(askVersion, []), (giveInput, [10, 10]), (askVersion, [])] =
      .ok twoNewlines.content := by decide +kernel
  obtain ⟨got, b', hr, hall, hempty, -⟩ := (framing_is_self_delimiting (requestJson_faithful _ _)).1 _ _ twoNewlines
    (by decide) hwritten rfl
  exact ⟨got, b', hr, hall, hempty⟩

end Ghostline.Rpc
