/-
  Ghostline.Rpc.Response — responses on the client socket (rpc.go: `writeResponse`,
  `writeRawResponse`, `encodeResponse`, `newRPCError`, `rpcCode`, `decodeRPCError`;
  client.go: `readResponse`).

  A response is one line of JSON, the header, and behind it as many raw bytes as its
  `payloadBytes` says. A header that gets too long is replaced by an error, and so is a
  result that does not encode. `writeRawResponse` drops the payload for an error that it is
  given, but not for one that takes the place of the header later: then the payload follows
  a header that declares none, or an error declares a payload, which `readResponse` refuses
  (`a_payload_behind_an_error`). When a response is one frame is `one_frame_iff`.

  `encoding/json` is a parameter (`Codec`), as in `Rpc.Framing`; a write that the connection
  refuses is not modelled.
-/

import Ghostline.Rpc.Framing

namespace Ghostline.Rpc

open Lib.Buffered

def maxRPCChunk : Nat := 64 * 2 ^ 10
def maxRPCErrorMessage : Nat := 4 * 2 ^ 10

/-! ## Errors -/

/-- An `error`: the sentinels that `errors.Is` finds in it, and its text. -/
structure GoError where
  wraps : List Sentinel
  text : List Byte
  deriving DecidableEq, Repr

def GoError.of : Err → GoError
  | .sentinel s => ⟨[s], utf8 s.text⟩
  | e => ⟨[], utf8 e.text⟩

structure RpcError where
  code : List Byte
  message : List Byte
  deriving DecidableEq, Repr

/-- The codes, in the order in which `rpcCode` looks for them. -/
def codes : List (Sentinel × List Byte) :=
  [(.unavailable, utf8 "unavailable"), (.closed, utf8 "closed"), (.sessionExists, utf8 "session_exists"),
    (.sessionNotFound, utf8 "session_not_found"), (.sessionClosed, utf8 "session_closed"),
    (.invalidSessionName, utf8 "invalid_name"), (.invalidSignal, utf8 "invalid_signal"),
    (.processDone, utf8 "process_done"), (.invalidCursor, utf8 "invalid_cursor"),
    (.cursorExpired, utf8 "cursor_expired"), (.frameTooLarge, utf8 "frame_too_large"),
    (.protocolMismatch, utf8 "protocol_mismatch")]

def rpcCode (e : GoError) : List Byte :=
  match codes.find? fun p => p.1 ∈ e.wraps with
  | some p => p.2
  | none => utf8 "internal"

def decodeRPCError (e : RpcError) : GoError :=
  match codes.find? fun p => p.2 = e.code with
  | some p => ⟨[p.1], utf8 p.1.text ++ utf8 ": " ++ e.message⟩
  | none => ⟨[], e.message⟩

def newRPCError (e : GoError) : RpcError := ⟨rpcCode e, e.text.take maxRPCErrorMessage⟩

/-- The client finds in an error the first sentinel that the server found in it. -/
theorem decodeRPCError_newRPCError (e : GoError) :
    (decodeRPCError (newRPCError e)).wraps = ((codes.find? fun p => p.1 ∈ e.wraps).map Prod.fst).toList := by
  have hcodes : ∀ p ∈ codes, codes.find? (fun q => q.2 = p.2) = some p := by decide
  have hinternal : codes.find? (fun q => q.2 = utf8 "internal") = none := by decide
  cases h : codes.find? fun p => p.1 ∈ e.wraps with
  | none => simp [decodeRPCError, newRPCError, rpcCode, h, hinternal]
  | some p => simp [decodeRPCError, newRPCError, rpcCode, h, hcodes p (List.mem_of_find?_eq_some h)]

/-- The sentinel that the client finds depends on the code alone. -/
theorem decodeRPCError_wraps {e e' : RpcError} (h : e'.code = e.code) :
    (decodeRPCError e').wraps = (decodeRPCError e).wraps := by
  simp only [decodeRPCError, h]
  split <;> rfl

/-! ## Headers -/

/-- The envelope; a `result` of no bytes is none (`omitempty`). -/
structure Response where
  wire : Int
  id : Int
  result : List Byte
  error : Option RpcError
  payloadBytes : Int
  deriving DecidableEq, Repr

/-- `json.Marshal` of a result, `json.Marshal` and `json.Unmarshal` of a header, and how many
    levels a JSON text nests. -/
structure Codec (V : Type) where
  value : V → Except String (List Byte)
  depth : List Byte → Nat
  marshal : Response → Except String (List Byte)
  unmarshal : List Byte → Except String Response

/-- `encoding/json` takes no text that nests deeper. -/
def maxNestingDepth : Nat := 10000

/-- What the reader has of a header: all of it, but for the text of its error, in which
    bytes that are no UTF-8 are replaced. -/
structure Alike (sent got : Response) : Prop where
  wire : got.wire = sent.wire
  id : got.id = sent.id
  result : got.result = sent.result
  error : got.error.map RpcError.code = sent.error.map RpcError.code
  payloadBytes : got.payloadBytes = sent.payloadBytes

variable {V : Type} (c : Codec V)

/-- What the server puts into a header: numbers in their ranges and, if any, a result that
    was encoded. -/
structure Codec.Sends (r : Response) : Prop where
  wire : r.wire = wireVersion
  id : -2 ^ 63 ≤ r.id ∧ r.id < 2 ^ 63
  payloadBytes : 0 ≤ r.payloadBytes ∧ r.payloadBytes ≤ maxRPCChunk
  result : r.result = [] ∨ ∃ v, c.value v = .ok r.result

/-- No result, and an error's text is bounded. -/
structure Response.Short (r : Response) : Prop where
  result : r.result = []
  error : r.error = none ∨ ∃ e, r.error = some (newRPCError e)

structure Codec.Faithful : Prop where
  empty : c.depth [] = 0
  oneLine : ∀ r line, c.marshal r = .ok line → newline ∉ line
  encodes : ∀ r, c.Sends r → c.depth r.result ≤ maxNestingDepth → ∃ line, c.marshal r = .ok line
  short : ∀ r line, c.Sends r → r.Short → c.marshal r = .ok line → line.length + 1 ≤ maxRPCFrame
  decodes : ∀ r line, c.Sends r → c.depth r.result < maxNestingDepth → c.marshal r = .ok line →
    ∃ r', c.unmarshal (line ++ [newline]) = .ok r' ∧ Alike r r'
  /-- The header is checked for its result alone, and the line, one level deeper, when it is read. -/
  tooDeep : ∀ r, maxNestingDepth < c.depth r.result → ∃ m, c.marshal r = .error m
  refuses : ∀ r line, c.depth r.result = maxNestingDepth → c.marshal r = .ok line →
    ∃ m, c.unmarshal (line ++ [newline]) = .error m

/-! ## The two ends -/

/-- The header, before it is measured. -/
def header (id : Int) (result : Option V) (payloadBytes : Nat) (err : Option GoError) : Response :=
  match err, result with
  | some e, _ => ⟨wireVersion, id, [], some (newRPCError e), payloadBytes⟩
  | none, none => ⟨wireVersion, id, [], none, payloadBytes⟩
  | none, some v =>
    match c.value v with
    | .error m => ⟨wireVersion, id, [], some ⟨utf8 "internal", utf8 m⟩, payloadBytes⟩
    | .ok encoded => ⟨wireVersion, id, encoded, none, payloadBytes⟩

/-- What a header that gets too long is replaced by. -/
def replacement (id : Int) : Response :=
  ⟨wireVersion, id, [], some (newRPCError (.of (.sentinel .frameTooLarge))), 0⟩

def encodeResponse (id : Int) (result : Option V) (payloadBytes : Nat) (err : Option GoError) :
    Except Err (List Byte) :=
  match c.marshal (header c id result payloadBytes err) with
  | .error m => .error (.other m)
  | .ok encoded =>
    if maxRPCFrame < encoded.length + 1 then
      match c.marshal (replacement id) with
      | .error m => .error (.other m)
      | .ok encoded => .ok encoded
    else .ok encoded

/-- The bytes that go to the connection. -/
def writeResponse (id : Int) (result : Option V) (err : Option GoError) : Except Err (List Byte) :=
  match encodeResponse c id result 0 err with
  | .error e => .error e
  | .ok encoded => .ok (encoded ++ [newline])

def writeRawResponse (id : Int) (result : Option V) (data : List Byte) (err : Option GoError) :
    Except Err (List Byte) :=
  if maxRPCChunk < data.length then .error (.sentinel .frameTooLarge)
  else
    let data := if err.isSome then [] else data
    match encodeResponse c id result data.length err with
    | .error e => .error e
    | .ok encoded => .ok (encoded ++ [newline] ++ data)

/-- What `readResponse` asks of a header. -/
def Response.check (r : Response) : Except Err Unit :=
  if r.wire ≠ wireVersion then .error (.sentinel .protocolMismatch)
  else if r.id ≤ 0 ∧ r.id ≠ -1 then .error (.other "ghostline: invalid RPC response ID")
  else if r.payloadBytes < 0 ∨ (maxRPCPayload : Int) < r.payloadBytes then .error (.sentinel .frameTooLarge)
  else if r.error ≠ none ∧ (r.result.length ≠ 0 ∨ r.payloadBytes ≠ 0) then
    .error (.other "ghostline: invalid RPC error response")
  else .ok ()

def readResponse (b : Reader Byte) : Except Err Response × Reader Byte :=
  match readLine newline maxRPCFrame [] b with
  | (.error e, b) => (.error (lineErr e), b)
  | (.ok line, b) =>
    match c.unmarshal line with
    | .error m => (.error (.other m), b)
    | .ok r =>
      match r.check with
      | .error e => (.error e, b)
      | .ok () => (.ok r, b)

/-- One frame: `readResponse` takes its header, what the header declares is there behind it
    and nothing else, and a header with an error has neither a payload nor a result. -/
def OneFrame (id : Int) (out : Except Err (List Byte)) : Prop :=
  ∃ bytes, out = .ok bytes ∧ ∀ (b : Reader Byte) (rest : List Byte), b.content = bytes ++ rest →
    ∃ r b₁ payload b₂, readResponse c b = (.ok r, b₁) ∧ r.id = id ∧
      readFull r.payloadBytes.toNat [] b₁ = (.ok payload, b₂) ∧ b₂.content = rest ∧
      (r.error ≠ none → payload = [] ∧ r.result = [])

variable {c}

/-! ## One header -/

theorem Alike.check_eq {sent got : Response} (h : Alike sent got) : got.check = sent.check := by
  have herr : (got.error ≠ none) = (sent.error ≠ none) := by
    have := congrArg Option.isSome h.error
    simp only [Option.isSome_map] at this
    simp only [ne_eq, ← Option.isSome_iff_ne_none, this]
  simp only [Response.check, h.wire, h.id, h.result, h.payloadBytes, herr]

theorem readResponse_end {b : Reader Byte} (h : b.content = []) : (readResponse c b).1 = .error .eof := by
  have hend : (readLine newline maxRPCFrame [] b).1 = .error .eof := readLine_end maxRPCFrame b h
  generalize hq : readLine newline maxRPCFrame [] b = q at hend
  obtain ⟨line, b'⟩ := q
  simp only at hend
  subst hend
  simp [readResponse, hq, lineErr]

/-- What the reader makes of a header. -/
theorem readResponse_header (hc : c.Faithful) {r : Response} {line rest : List Byte} {b : Reader Byte}
    (hr : c.Sends r) (hd : c.depth r.result < maxNestingDepth) (hm : c.marshal r = .ok line)
    (hl : line.length + 1 ≤ maxRPCFrame) (hb : b.content = line ++ newline :: rest) :
    ∃ r' b', Alike r r' ∧ b'.content = rest ∧ readResponse c b = (r.check.map fun _ => r', b') := by
  obtain ⟨r', hr', halike⟩ := hc.decodes r line hr hd hm
  obtain ⟨b', hline, hrest⟩ := readLine_line maxRPCFrame [] b hb (hc.oneLine r line hm) (by simpa using hl)
  refine ⟨r', b', halike, hrest, ?_⟩
  simp only [List.nil_append] at hline
  simp only [readResponse, hline, hr', halike.check_eq]
  cases r.check <;> rfl

theorem check_ok_iff {r : Response} (hw : r.wire = wireVersion)
    (hp : 0 ≤ r.payloadBytes ∧ r.payloadBytes ≤ maxRPCChunk) :
    r.check = .ok () ↔ (0 < r.id ∨ r.id = -1) ∧ (r.error ≠ none → r.result = [] ∧ r.payloadBytes = 0) := by
  have h3 : ¬ (r.payloadBytes < 0 ∨ (maxRPCPayload : Int) < r.payloadBytes) := by
    have : maxRPCChunk ≤ maxRPCPayload := by decide
    omega
  simp only [Response.check, hw, ne_eq, not_true_eq_false, if_false, h3, List.length_eq_zero_iff]
  split
  · simp only [reduceCtorEq, false_iff, not_and]
    omega
  · split
    · rename_i h
      simp only [reduceCtorEq, false_iff, not_and]
      exact fun _ hn => by have := hn h.1; tauto
    · simp only [true_iff]
      refine ⟨by omega, fun he => ?_⟩
      tauto

/-- A header and what follows it. -/
theorem oneFrame_header (hc : c.Faithful) {r : Response} {line : List Byte} (data : List Byte) (hr : c.Sends r)
    (hd : c.depth r.result < maxNestingDepth) (hm : c.marshal r = .ok line) (hl : line.length + 1 ≤ maxRPCFrame) :
    OneFrame c r.id (.ok (line ++ [newline] ++ data)) ↔
      ((0 < r.id ∨ r.id = -1) ∧ (r.error ≠ none → r.result = [] ∧ r.payloadBytes = 0)) ∧
        r.payloadBytes = data.length := by
  rw [← check_ok_iff hr.wire hr.payloadBytes]
  have hsplit : ∀ rest, line ++ [newline] ++ data ++ rest = line ++ newline :: (data ++ rest) := by simp
  constructor
  · rintro ⟨_, hout, hall⟩
    obtain rfl := Except.ok.inj hout
    -- behind the data as many bytes as the header declares: what is read is then not short
    obtain ⟨p, hpay⟩ := Int.eq_ofNat_of_zero_le hr.payloadBytes.1
    obtain ⟨got, b₁, payload, b₂, hgot, -, hfull, hrest, -⟩ := hall (.ofList _) (List.replicate p 0) rfl
    obtain ⟨r', b', halike, hcontent, hread⟩ := readResponse_header hc hr hd hm hl (b := .ofList _) (hsplit _)
    rw [hgot] at hread
    cases hcheck : r.check with
    | error e => simp [hcheck, Except.map] at hread
    | ok u =>
      simp only [hcheck, Except.map, Prod.mk.injEq, Except.ok.injEq] at hread
      obtain ⟨rfl, rfl⟩ := hread
      refine ⟨rfl, ?_⟩
      have hn : got.payloadBytes.toNat = p := by rw [halike.payloadBytes, hpay]; rfl
      obtain ⟨b₃, hexact, hdrop⟩ := readFull_exact p [] b₁ (by simp [hcontent])
      rw [hn, hexact] at hfull
      obtain ⟨-, rfl⟩ := Prod.mk.inj hfull
      have hlen := congrArg List.length (hdrop.symm.trans hrest)
      simp only [hcontent, List.length_drop, List.length_append, List.length_replicate] at hlen
      omega
  · rintro ⟨hcheck, hlen⟩
    refine ⟨_, rfl, fun b rest hb => ?_⟩
    obtain ⟨r', b₁, halike, hcontent, hread⟩ := readResponse_header hc hr hd hm hl (hb.trans (hsplit rest))
    have hn : r'.payloadBytes.toNat = data.length := by rw [halike.payloadBytes, hlen]; rfl
    obtain ⟨b₂, hfull, hdrop⟩ := readFull_exact data.length [] b₁ (by simp [hcontent])
    rw [hcontent] at hfull hdrop
    simp only [List.nil_append, List.take_left', List.drop_left'] at hfull hdrop
    rw [hcheck] at hread
    refine ⟨r', b₁, data, b₂, hread, halike.id, by rw [hn, hfull], hdrop, fun he => ?_⟩
    have hsame := halike.check_eq.trans hcheck
    have hok := (check_ok_iff (halike.wire.trans hr.wire) (halike.payloadBytes ▸ hr.payloadBytes)).mp hsame
    obtain ⟨hnone, hzero⟩ := hok.2 he
    exact ⟨List.eq_nil_of_length_eq_zero (by rw [halike.payloadBytes] at hzero; omega), hnone⟩

/-- A header that the reader's `json.Unmarshal` refuses. -/
theorem not_oneFrame_refused (hc : c.Faithful) {r : Response} {line data : List Byte} {id : Int}
    (hd : c.depth r.result = maxNestingDepth) (hm : c.marshal r = .ok line) (hl : line.length + 1 ≤ maxRPCFrame) :
    ¬ OneFrame c id (.ok (line ++ [newline] ++ data)) := by
  rintro ⟨_, hout, hall⟩
  obtain rfl := Except.ok.inj hout
  obtain ⟨m, hrefused⟩ := hc.refuses r line hd hm
  have hb : (Reader.ofList (line ++ newline :: data)).content = line ++ newline :: data := rfl
  obtain ⟨got, b₁, -, -, hgot, -⟩ := hall _ [] (hb.trans (by simp))
  obtain ⟨b', hline, -⟩ := readLine_line maxRPCFrame [] _ hb (hc.oneLine r line hm) (by simpa using hl)
  simp only [List.nil_append] at hline
  simp only [readResponse, hline, hrefused] at hgot
  cases hgot

/-! ## Every response -/

/-- The header is no longer than a frame may be. -/
def Codec.fits (c : Codec V) (r : Response) : Bool :=
  match c.marshal r with
  | .error _ => false
  | .ok line => line.length + 1 ≤ maxRPCFrame

theorem fits_short (hc : c.Faithful) {r : Response} (hr : c.Sends r) (h : r.Short) : c.fits r = true := by
  obtain ⟨line, hm⟩ := hc.encodes r hr (by simp [h.result, hc.empty])
  simpa [Codec.fits, hm] using hc.short r line hr h hm

theorem replacement_sends {id : Int} (hid : -2 ^ 63 ≤ id ∧ id < 2 ^ 63) : c.Sends (replacement id) :=
  ⟨rfl, hid, by simp [replacement], .inl rfl⟩

theorem replacement_short (id : Int) : (replacement id).Short := ⟨rfl, .inr ⟨_, rfl⟩⟩

/-- What is written behind a header, or behind its replacement. -/
theorem oneFrame_encoded (hc : c.Faithful) {id : Int} {result : Option V} {data : List Byte} {err : Option GoError}
    {r : Response} (hh : header c id result data.length err = r) (hr : c.Sends r) (hid : r.id = id)
    (hpay : r.payloadBytes = data.length) (herr : r.error ≠ none → r.result = []) :
    OneFrame c id (match encodeResponse c id result data.length err with
      | .error e => .error e
      | .ok encoded => .ok (encoded ++ [newline] ++ data)) ↔
    (0 < id ∨ id = -1) ∧ c.depth r.result ≤ maxNestingDepth ∧
      if c.fits r then c.depth r.result < maxNestingDepth ∧ (r.error ≠ none → data = []) else data = [] := by
  unfold encodeResponse
  rw [hh]
  by_cases hdeep : c.depth r.result ≤ maxNestingDepth
  · obtain ⟨line, hm⟩ := hc.encodes r hr hdeep
    simp only [hm, Codec.fits, decide_eq_true_eq, hdeep, true_and]
    by_cases hl : line.length + 1 ≤ maxRPCFrame
    · simp only [hl, if_true, if_neg (Nat.not_lt.mpr hl)]
      by_cases hd : c.depth r.result < maxNestingDepth
      · have hone := oneFrame_header hc data hr hd hm hl
        rw [hid] at hone
        rw [hone, hpay]
        simp only [and_true, hd, true_and, Int.natCast_eq_zero, List.length_eq_zero_iff]
        exact and_congr_right fun _ => ⟨fun h he => (h he).2, fun h he => ⟨herr he, h he⟩⟩
      · simp only [hd, false_and, and_false, iff_false]
        exact not_oneFrame_refused hc (by omega) hm hl
    · have hsends : c.Sends (replacement id) := replacement_sends (hid ▸ hr.id)
      obtain ⟨line', hm'⟩ := hc.encodes _ hsends (by simp [replacement, hc.empty])
      have hone := oneFrame_header hc data hsends (by rw [replacement, hc.empty]; decide) hm'
        (hc.short _ _ hsends (replacement_short id) hm')
      simp only [hl, if_false, if_pos (Nat.lt_of_not_le hl), hm']
      rw [show (replacement id).id = id from rfl] at hone
      rw [hone]
      simp only [replacement, ne_eq, reduceCtorEq, not_false_eq_true, and_self, imp_self, and_true]
      refine and_congr_right fun _ => ⟨fun h => List.eq_nil_of_length_eq_zero (by omega), fun h => by rw [h]; rfl⟩
  · obtain ⟨m, hm⟩ := hc.tooDeep r (by omega)
    simp only [hm, hdeep, false_and, and_false, iff_false]
    rintro ⟨_, h, -⟩
    cases h

/-- Whether the result gets to the reader, or an error takes its place in front of no payload. -/
def Delivers (c : Codec V) (id : Int) (result : Option V) (payloadBytes : Nat) : Prop :=
  match result with
  | none => True
  | some v =>
    match c.value v with
    | .error _ => payloadBytes = 0
    | .ok encoded => c.depth encoded ≤ maxNestingDepth ∧
        if c.fits ⟨wireVersion, id, encoded, none, payloadBytes⟩ then c.depth encoded < maxNestingDepth
        else payloadBytes = 0

theorem writeResponse_eq (id : Int) (result : Option V) (err : Option GoError) :
    writeResponse c id result err = writeRawResponse c id result [] err := by
  cases err <;> simp [writeResponse, writeRawResponse]

theorem oneFrame_raw (hc : c.Faithful) {id : Int} (hid : -2 ^ 63 ≤ id ∧ id < 2 ^ 63) (result : Option V)
    {data : List Byte} (hdata : data.length ≤ maxRPCChunk) (err : Option GoError) :
    OneFrame c id (writeRawResponse c id result data err) ↔
      (0 < id ∨ id = -1) ∧ (err = none → Delivers c id result data.length) := by
  have hzero : c.depth [] < maxNestingDepth := by rw [hc.empty]; decide
  have hpay : (0 : Int) ≤ data.length ∧ (data.length : Int) ≤ maxRPCChunk := by omega
  unfold writeRawResponse
  rw [if_neg (Nat.not_lt.mpr hdata)]
  cases err with
  | some e =>
    have hh : header c id result ([] : List Byte).length (some e) =
        ⟨wireVersion, id, [], some (newRPCError e), ([] : List Byte).length⟩ := rfl
    have hr : c.Sends ⟨wireVersion, id, [], some (newRPCError e), ([] : List Byte).length⟩ :=
      ⟨rfl, hid, by simp, .inl rfl⟩
    have hone := oneFrame_encoded hc hh hr rfl rfl fun _ => rfl
    rw [if_pos (fits_short hc hr ⟨rfl, .inr ⟨e, rfl⟩⟩)] at hone
    simp only [Option.isSome_some, if_true]
    rw [hone]
    simp [hzero, Nat.le_of_lt hzero]
  | none =>
    simp only [Option.isSome_none, Bool.false_eq_true, if_false, true_imp_iff]
    cases result with
    | none =>
      have hh : header c id none data.length none = ⟨wireVersion, id, [], none, data.length⟩ := rfl
      have hr : c.Sends ⟨wireVersion, id, [], none, data.length⟩ := ⟨rfl, hid, hpay, .inl rfl⟩
      have hone := oneFrame_encoded hc hh hr rfl rfl fun _ => rfl
      rw [if_pos (fits_short hc hr ⟨rfl, .inl rfl⟩)] at hone
      rw [hone]
      simp [hzero, Nat.le_of_lt hzero, Delivers]
    | some v =>
      cases hv : c.value v with
      | error m =>
        have hh : header c id (some v) data.length none =
            ⟨wireVersion, id, [], some ⟨utf8 "internal", utf8 m⟩, data.length⟩ := by simp [header, hv]
        rw [oneFrame_encoded hc hh ⟨rfl, hid, hpay, .inl rfl⟩ rfl rfl fun _ => rfl]
        simp only [Delivers, hv]
        simp [hzero, Nat.le_of_lt hzero]
      | ok encoded =>
        have hh : header c id (some v) data.length none = ⟨wireVersion, id, encoded, none, data.length⟩ := by
          simp [header, hv]
        rw [oneFrame_encoded hc hh ⟨rfl, hid, hpay, .inr ⟨v, hv⟩⟩ rfl rfl fun h => absurd rfl h]
        simp only [Delivers, hv]
        simp

/-- When `writeResponse` and `writeRawResponse` write one frame: for an id that the reader
    takes, and unless they are given an error, a result that encodes and does not nest too
    deep; where an error takes the place of the result, for no payload. -/
theorem one_frame_iff (hc : c.Faithful) (id : Int) (hid : -2 ^ 63 ≤ id ∧ id < 2 ^ 63) (result : Option V)
    (data : List Byte) (hdata : data.length ≤ maxRPCChunk) (err : Option GoError) :
    (OneFrame c id (writeResponse c id result err) ↔
      (0 < id ∨ id = -1) ∧ (err = none → Delivers c id result 0)) ∧
    (OneFrame c id (writeRawResponse c id result data err) ↔
      (0 < id ∨ id = -1) ∧ (err = none → Delivers c id result data.length)) := by
  refine ⟨?_, oneFrame_raw hc hid result hdata err⟩
  rw [writeResponse_eq]
  exact oneFrame_raw hc hid result (Nat.zero_le _) err

/-- A result that gets to the reader. -/
theorem readResponse_written (hc : c.Faithful) {id : Int} (hid : 0 < id ∧ id < 2 ^ 63) {v : V} {raw data : List Byte}
    (hv : c.value v = .ok raw) (hd : c.depth raw < maxNestingDepth) (hdata : data.length ≤ maxRPCChunk)
    (hfits : c.fits ⟨wireVersion, id, raw, none, data.length⟩ = true) :
    ∃ bytes, writeRawResponse c id (some v) data none = .ok bytes ∧
      ∀ (b : Reader Byte) (rest : List Byte), b.content = bytes ++ rest →
        ∃ r b', readResponse c b = (.ok r, b') ∧ b'.content = data ++ rest ∧ r.id = id ∧ r.result = raw ∧
          r.error = none ∧ r.payloadBytes = data.length := by
  have hr : c.Sends ⟨wireVersion, id, raw, none, data.length⟩ :=
    ⟨rfl, by simp only; omega, by simp only; omega, .inr ⟨v, hv⟩⟩
  obtain ⟨line, hm⟩ := hc.encodes _ hr (Nat.le_of_lt hd)
  have hl : line.length + 1 ≤ maxRPCFrame := by simpa [Codec.fits, hm] using hfits
  have hcheck := (check_ok_iff hr.wire hr.payloadBytes).mpr ⟨.inl hid.1, fun h => absurd rfl h⟩
  refine ⟨line ++ [newline] ++ data, ?_, fun b rest hb => ?_⟩
  · simp [writeRawResponse, Nat.not_lt.mpr hdata, encodeResponse, header, hv, hm, Nat.not_lt.mpr hl]
  · obtain ⟨r', b', halike, hrest, hread⟩ := readResponse_header hc hr hd hm hl
      (hb.trans (show _ = line ++ newline :: (data ++ rest) by simp))
    rw [hcheck] at hread
    exact ⟨r', b', hread, hrest, halike.id, halike.result, by simpa using halike.error, halike.payloadBytes⟩

/-! ## An instance -/

theorem rpcCode_length (e : GoError) : (rpcCode e).length ≤ 17 := by
  have hcodes : ∀ p ∈ codes, p.2.length ≤ 17 := by decide
  unfold rpcCode
  split
  · rename_i p h
    exact hcodes p (List.mem_of_find?_eq_some h)
  · decide

open Lib.Decimal Lib.JsonText

def RpcError.line (e : RpcError) : List Byte :=
  utf8 ",\"error\":\x7b\"code\":" ++ str e.code ++ utf8 ",\"message\":" ++ str e.message ++ [closing]

/-- The header; a result comes without an error. -/
def Response.line (r : Response) : List Byte :=
  beginning r.wire r.id ++ (r.error.elim [] RpcError.line) ++
    (if r.result = [] then [] else utf8 ",\"result\":" ++ r.result) ++ ending r.payloadBytes

def readError (text : List Byte) : Option RpcError × List Byte :=
  match skip (utf8 ",\"error\":\x7b\"code\":") text with
  | none => (none, text)
  | some text =>
    let message := readStr ((readStr text).2.drop (utf8 ",\"message\":").length)
    (some ⟨(readStr text).1, message.1⟩, message.2.drop 1)

def toResponse (line : List Byte) : Option Response :=
  (readBeginning line.dropLast).map fun (wire, id, text) =>
    let (error, text) := readError text
    let (result, payloadBytes) := readEnding ((skip (utf8 ",\"result\":") text).getD text)
    ⟨wire, id, result, error, payloadBytes⟩

/-- Headers with raw results. A result that is no JSON is refused: with it the line does not
    read back. No result here nests so deep that it counts. -/
def jsonCodec (value : V → Except String (List Byte)) : Codec V where
  value := value
  depth _ := 0
  marshal r :=
    if newline ∉ r.line ∧ toResponse (r.line ++ [newline]) = some r then .ok r.line else .error "invalid character"
  unmarshal line :=
    match toResponse line with
    | none => .error "invalid character"
    | some r => .ok r

/-- The text of a string or an object. -/
structure IsValue (raw : List Byte) : Prop where
  printable : Printable raw
  last : ∀ b ∈ raw.getLast?, ¬ IsDigit b

theorem isValue_object {front : List Byte} (h : Printable front) : IsValue (front ++ [closing]) := by
  refine ⟨printable_append.mpr ⟨h, by decide⟩, fun b hb => ?_⟩
  rw [List.getLast?_concat] at hb
  obtain rfl := Option.some.inj hb
  decide

theorem readError_line (error : Option RpcError) {rest : List Byte}
    (h : skip (utf8 ",\"error\":\x7b\"code\":") rest = none) :
    readError (error.elim [] RpcError.line ++ rest) = (error, rest) := by
  cases error with
  | none => simp only [Option.elim_none, List.nil_append, readError, h]
  | some e => simp [readError, RpcError.line, List.drop_left']

theorem ending_front (n : Int) : ending n = [closing] ∨ ∃ rest, ending n = utf8 ",\"payloadBytes\":" ++ rest := by
  unfold ending
  split
  · exact .inl rfl
  · exact .inr ⟨_, List.append_assoc _ _ _⟩

/-- What is written is read. -/
theorem toResponse_line {r : Response} (h : ∀ b ∈ r.result.getLast?, ¬ IsDigit b) (hn : 0 ≤ r.payloadBytes) :
    toResponse (r.line ++ [newline]) = some r := by
  obtain ⟨wire, id, result, error, n⟩ := r
  -- behind the error: no other one, and the result
  have tail : ∀ text, text = (if result = [] then [] else utf8 ",\"result\":" ++ result) ++ ending n →
      skip (utf8 ",\"error\":\x7b\"code\":") text = none ∧ (skip (utf8 ",\"result\":") text).getD text = result ++ ending n ∧
        ∀ b ∈ (error.elim [] RpcError.line ++ text).head?, ¬ IsDigit b := by
    intro text htext
    have comma : ∀ (l : List Byte) b, b ∈ (error.elim [] RpcError.line ++ 0x2c :: l).head? → ¬ IsDigit b := by
      intro l b hb
      cases error <;> obtain rfl := Option.some.inj hb <;> decide
    by_cases hr : result = []
    · rw [if_pos hr, List.nil_append] at htext
      rcases ending_front n with he | ⟨rest, he⟩ <;> rw [he] at htext <;> subst htext
      · refine ⟨rfl, by rw [hr, he]; rfl, fun b hb => ?_⟩
        cases error <;> obtain rfl := Option.some.inj hb <;> decide
      · exact ⟨rfl, by rw [hr, he]; rfl, comma _⟩
    · rw [if_neg hr, List.append_assoc] at htext
      subst htext
      exact ⟨rfl, by rw [skip_append]; rfl, comma _⟩
  obtain ⟨herror, hresult, hhead⟩ := tail _ rfl
  rw [toResponse, List.dropLast_concat, Response.line, List.append_assoc, List.append_assoc,
    readBeginning_beginning wire id hhead, Option.map_some]
  simp only [readError_line error herror, hresult, readEnding_ending h hn]

theorem printable_line {r : Response} (h : Printable r.result) : Printable r.line := by
  have hnil : Printable [] := List.forall_mem_nil _
  have hlit : ∀ s, Printable (utf8 s) → ∀ t, Printable t → Printable (utf8 s ++ t) := fun s hs t ht =>
    printable_append.mpr ⟨hs, ht⟩
  simp only [Response.line, beginning, ending, printable_append]
  refine ⟨⟨⟨⟨⟨⟨by decide, printable_int _⟩, by decide⟩, printable_int _⟩, ?_⟩, ?_⟩, ?_, by decide⟩
  · cases r.error with
    | none => exact hnil
    | some e =>
      simp only [Option.elim_some, RpcError.line, printable_append]
      exact ⟨⟨⟨⟨by decide, (str_bounds _).1⟩, by decide⟩, (str_bounds _).1⟩, by decide⟩
  · split
    · exact hnil
    · exact hlit _ (by decide) _ h
  · split
    · exact hnil
    · exact hlit _ (by decide) _ (printable_int _)

theorem length_line {r : Response} (h : c.Sends r) : r.result.length ≤ r.line.length ∧ r.line.length ≤
    128 + r.result.length + r.error.elim 0 fun e => 6 * e.code.length + 6 * e.message.length + 64 := by
  have h1 : (int r.wire).length ≤ 21 := length_int (by rw [h.wire]; decide)
  have h2 : (int r.id).length ≤ 21 := length_int (by have := h.id; omega)
  have hchunk : maxRPCChunk = 2 ^ 16 := rfl
  have h3 : (int r.payloadBytes).length ≤ 21 := length_int (by have := h.payloadBytes; omega)
  have hbegin : (beginning r.wire r.id).length ≤ 56 := by
    have : (utf8 "\x7b\"wire\":").length = 8 ∧ (utf8 ",\"id\":").length = 6 := by decide
    simp only [beginning, List.length_append]
    omega
  have hend : (ending r.payloadBytes).length ≤ 38 := by
    have : (utf8 ",\"payloadBytes\":").length = 16 := by decide
    unfold ending
    split <;> simp only [List.length_append, List.length_cons, List.length_nil] <;> omega
  have hresult : r.result.length ≤ (if r.result = [] then [] else utf8 ",\"result\":" ++ r.result).length ∧
      (if r.result = [] then [] else utf8 ",\"result\":" ++ r.result).length ≤ 10 + r.result.length := by
    have : (utf8 ",\"result\":").length = 10 := by decide
    split
    · rename_i hr
      simp [hr]
    · rw [List.length_append]
      omega
  have herror : (r.error.elim [] RpcError.line).length ≤
      r.error.elim 0 fun e => 6 * e.code.length + 6 * e.message.length + 64 := by
    cases r.error with
    | none => exact Nat.le_refl _
    | some e =>
      have hcode := (str_bounds e.code).2.2
      have hmessage := (str_bounds e.message).2.2
      have : (utf8 ",\"error\":\x7b\"code\":").length = 17 ∧ (utf8 ",\"message\":").length = 11 := by decide
      simp only [Option.elim_some, RpcError.line, List.length_append, List.length_cons, List.length_nil]
      omega
  simp only [Response.line, List.length_append]
  omega

theorem jsonCodec_marshal {value : V → Except String (List Byte)} {r : Response} {line : List Byte}
    (h : (jsonCodec value).marshal r = .ok line) :
    line = r.line ∧ newline ∉ line ∧ toResponse (line ++ [newline]) = some r := by
  obtain ⟨hr, h⟩ | ⟨-, h⟩ := ite_eq_iff.mp h
  · obtain rfl := Except.ok.inj h
    exact ⟨rfl, hr⟩
  · cases h

theorem jsonCodec_faithful {value : V → Except String (List Byte)} (hvalue : ∀ v raw, value v = .ok raw → IsValue raw) :
    (jsonCodec value).Faithful where
  empty := rfl
  oneLine r line h := (jsonCodec_marshal h).2.1
  encodes r hr _ := by
    have hresult : IsValue r.result := by
      rcases hr.result with h | ⟨v, h⟩
      · rw [h]
        exact ⟨List.forall_mem_nil _, fun b hb => by cases hb⟩
      · exact hvalue v _ h
    have hline : newline ∉ r.line := fun hmem => absurd (printable_line hresult.printable _ hmem) (by decide)
    exact ⟨r.line, if_pos ⟨hline, toResponse_line hresult.last hr.payloadBytes.1⟩⟩
  short r line hr hs h := by
    have hlen := (length_line hr).2
    rw [hs.result] at hlen
    have hframe : maxRPCFrame = 2 ^ 20 := rfl
    rw [(jsonCodec_marshal h).1]
    rcases hs.error with he | ⟨e, he⟩
    · rw [he] at hlen
      simp only [List.length_nil, Option.elim_none] at hlen
      omega
    · have hcode := rpcCode_length e
      have hmessage : (e.text.take maxRPCErrorMessage).length ≤ 2 ^ 12 := List.length_take_le _ _
      rw [he] at hlen
      simp only [List.length_nil, Option.elim_some, newRPCError] at hlen
      omega
  decodes r line _ _ h := by
    refine ⟨r, ?_, ⟨rfl, rfl, rfl, rfl, rfl⟩⟩
    simp only [jsonCodec, (jsonCodec_marshal h).2.2]
  tooDeep r h := absurd h (by simp [jsonCodec])
  refuses r line h := absurd h (by simp [jsonCodec, maxNestingDepth])

theorem jsonCodec_fits {value : V → Except String (List Byte)} (hvalue : ∀ v raw, value v = .ok raw → IsValue raw)
    {r : Response} (hr : (jsonCodec value).Sends r) :
    (jsonCodec value).fits r = decide (r.line.length + 1 ≤ maxRPCFrame) := by
  obtain ⟨line, hm⟩ := (jsonCodec_faithful hvalue).encodes r hr (Nat.zero_le _)
  simp only [Codec.fits, hm, (jsonCodec_marshal hm).1]

/-- `sizeResult` -/
def sizeLine (s : Size) : List Byte :=
  utf8 "\x7b\"columns\":" ++ int s.columns ++ utf8 ",\"rows\":" ++ int s.rows ++ [closing]

def readSize (text : List Byte) : Size :=
  let columns := readInt (text.drop (utf8 "\x7b\"columns\":").length)
  ⟨columns.1, (readInt (columns.2.drop (utf8 ",\"rows\":").length)).1⟩

theorem isValue_sizeLine (s : Size) : IsValue (sizeLine s) := by
  refine isValue_object ?_
  simp only [printable_append, printable_int]
  decide

theorem readSize_line (s : Size) (rest : List Byte) : readSize (sizeLine s ++ rest) = s := by
  have hcolumns : readInt (int s.columns ++ (utf8 ",\"rows\":" ++ (int s.rows ++ ([closing] ++ rest)))) =
      (s.columns, utf8 ",\"rows\":" ++ (int s.rows ++ ([closing] ++ rest))) := readInt_int_cons _ (by decide) _
  have hrows : readInt (int s.rows ++ ([closing] ++ rest)) = (s.rows, [closing] ++ rest) :=
    readInt_int_cons _ (by decide) _
  simp only [readSize, sizeLine, List.append_assoc, List.drop_left, hcolumns, hrows]

/-- Texts in quotes, and a channel, which does not encode. -/
def quoted : Option (List Byte) → Except String (List Byte)
  | none => .error "json: unsupported type: chan int"
  | some text => .ok (str text)

theorem isValue_str (s : List Byte) : IsValue (str s) := by
  refine ⟨(str_bounds s).1, fun b hb => ?_⟩
  rw [str, List.getLast?_concat] at hb
  obtain rfl := Option.some.inj hb
  decide

theorem quoted_isValue (v : Option (List Byte)) (raw : List Byte) (h : quoted v = .ok raw) : IsValue raw := by
  cases v with
  | none => cases h
  | some text =>
    obtain rfl := Except.ok.inj h
    exact isValue_str text

theorem not_delivers_long {text : List Byte} (h : 2 ^ 20 ≤ text.length) :
    ¬ Delivers (jsonCodec quoted) 1 (some (some text)) 1 := by
  have hsends : (jsonCodec quoted).Sends ⟨wireVersion, 1, str text, none, (1 : Nat)⟩ :=
    ⟨rfl, by simp only; omega, by simp only [maxRPCChunk]; omega, .inr ⟨some text, rfl⟩⟩
  rintro ⟨-, hfits⟩
  have hlong := (length_line hsends).1
  have htext := (str_bounds text).2.1
  have hframe : maxRPCFrame = 2 ^ 20 := rfl
  simp only at hlong
  rw [if_neg] at hfits
  · cases hfits
  · rw [jsonCodec_fits quoted_isValue hsends, decide_eq_true_eq]
    omega

/-- A payload of one byte with a result that does not encode, and with one that is too long:
    the header carries an error, and the payload is written. -/
theorem a_payload_behind_an_error :
    ¬ OneFrame (jsonCodec quoted) 1 (writeRawResponse (jsonCodec quoted) 1 (some none) [120] none) ∧
    ¬ OneFrame (jsonCodec quoted) 1
      (writeRawResponse (jsonCodec quoted) 1 (some (some (List.replicate (2 ^ 20) 120))) [120] none) := by
  have hframe : ∀ result, ¬ Delivers (jsonCodec quoted) 1 result 1 →
      ¬ OneFrame (jsonCodec quoted) 1 (writeRawResponse (jsonCodec quoted) 1 result [120] none) := fun result hd h =>
    hd (((oneFrame_raw (jsonCodec_faithful quoted_isValue) (by decide) result (by decide) none).mp h).2 rfl)
  refine ⟨hframe _ ?_, hframe _ ?_⟩
  · simp [Delivers, jsonCodec, quoted]
  · exact not_delivers_long (List.length_replicate).ge

theorem one_frame_iff_quoted :
    writeRawResponse (jsonCodec quoted) 7 (some (some [120])) [10, 120] none =
      .ok (utf8 "\x7b\"wire\":1,\"id\":7,\"result\":\"x\",\"payloadBytes\":2\x7d\n\nx") ∧
    OneFrame (jsonCodec quoted) 7 (writeRawResponse (jsonCodec quoted) 7 (some (some [120])) [10, 120] none) := by
  refine ⟨by decide +kernel, (one_frame_iff (jsonCodec_faithful quoted_isValue) 7 (by decide) (some (some [120]))
    [10, 120] (by decide) none).2.mpr ⟨by decide, fun _ => ?_⟩⟩
  refine ⟨by decide, ?_⟩
  rw [if_pos (by decide +kernel)]
  decide

end Ghostline.Rpc
