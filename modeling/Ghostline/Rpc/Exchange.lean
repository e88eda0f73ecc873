/-
  Ghostline.Rpc.Exchange — a blob from the session to the client (server.go: `serveBlob`, and
  `handle` for its methods; client.go: `readBlobOnceWithMetadata`).

  The server reads the open request, asks the session for the blob, announces its size with
  what else there is to know about it, and then hands out the bytes from its own offset, as
  many as each request asks for. It marks the chunk that reaches the end.

  Client and server run side by side on one connection that loses nothing and delivers in
  pieces of any size: a read of what has not arrived waits. Every run ends and the client has
  the blob then (`blob_streaming_is_identity`), for what the open response can carry: a
  cursor with a text (`a_cursor_without_a_text`), a format that is text and not too long.

  The monitor that watches the connection while the session works, deadlines, the session
  itself and the methods that `handle` serves elsewhere are not modelled.
-/

import Ghostline.Lib.Machine
import Ghostline.Output.CursorText
import Ghostline.Rpc.Blob

namespace Ghostline.Rpc

open Lib.Buffered

/-! ## The server -/

structure Checkpoint where
  replay : List Byte
  cursor : Cursor
  deriving DecidableEq, Repr

structure AtomicState where
  format : List Byte
  payload : List Byte
  cursor : Cursor
  size : Size
  deriving DecidableEq, Repr

/-- What the session answers. -/
structure Blobs where
  replay : Except GoError (List Byte)
  checkpoint : Except GoError Checkpoint
  atomicState : Except GoError AtomicState

/-- The bytes of the blob, and what is sent ahead of them but for their number. -/
def Blobs.open (s : Blobs) (method : String) : Except GoError (List Byte × BlobOpenResult) :=
  let opened : BlobOpenResult := ⟨0, 0, [], none⟩
  if method = "replay" then s.replay.map fun data => (data, opened)
  else if method = "checkpoint" then
    s.checkpoint.map fun checkpoint => (checkpoint.replay, { opened with cursor := checkpoint.cursor })
  else if method = "state.atomic" then
    s.atomicState.map fun state =>
      (state.payload,
        { opened with
          cursor := state.cursor
          format := state.format
          grid := if state.size ≠ (0 : Size) then some state.size else none })
  else .ok ([], opened)

inductive Serving where
  /-- `handle`, at the head of its loop. -/
  | accepting
  /-- `serveBlob`, at the head of its loop. -/
  | serving (data : List Byte) (offset : Nat)
  /-- With the request of another method. -/
  | elsewhere
  | ended
  deriving DecidableEq, Repr

structure Server where
  phase : Serving
  reader : Reader Byte

def blobMethods : List String := ["replay", "checkpoint", "state.atomic"]

/-- What goes out of a response whose error is not looked at. -/
def sent : Except Err (List Byte) → List Byte
  | .ok bytes => bytes
  | .error _ => []

variable (J : BlobJson) (session : Except GoError Blobs)

def Server.accept (s : Server) : Server × List Byte :=
  match readRequest J.requests s.reader with
  | (.error e, b) => (⟨.ended, b⟩, sent (writeResponse J.responses (-1) none (some (.of e))))
  | (.ok (req, payload), b) =>
    if req.method ∉ blobMethods then (⟨.elsewhere, b⟩, [])
    else if payload.length ≠ 0 then
      (⟨.ended, b⟩, sent (writeResponse J.responses req.id none
        (some (failure "blob open request cannot contain a payload"))))
    else
      match session.bind fun blobs => blobs.open req.method with
      | .error e => (⟨.ended, b⟩, sent (writeResponse J.responses req.id none (some e)))
      | .ok (data, opened) =>
        match writeResponse J.responses req.id (some (.opened { opened with size := data.length })) none with
        | .error _ => (⟨.ended, b⟩, [])
        | .ok bytes => (⟨.serving data 0, b⟩, bytes)

def Server.serve (s : Server) (data : List Byte) (offset : Nat) : Server × List Byte :=
  match readRequest J.requests s.reader with
  | (.error e, b) => (⟨.ended, b⟩, sent (writeResponse J.responses (-1) none (some (.of e))))
  | (.ok (next, payload), b) =>
    let refuse (err : GoError) : Server × List Byte :=
      (⟨.serving data offset, b⟩, sent (writeResponse J.responses next.id none (some err)))
    if payload.length ≠ 0 then refuse (failure "blob control request cannot contain a payload")
    else if next.method = "blob.close" then (⟨.ended, b⟩, sent (writeResponse J.responses next.id none none))
    else if next.method = "blob.read" then
      match J.requests.value next.params with
      | .error m => refuse (failure m)
      | .ok readParams =>
        if readParams.maxBytes ≤ 0 ∨ (maxRPCChunk : Int) < readParams.maxBytes then
          refuse (failure "invalid blob chunk size")
        else
          let stop := min (offset + readParams.maxBytes.toNat) data.length
          let chunk := (data.drop offset).take (stop - offset)
          match writeRawResponse J.responses next.id (some (.read ⟨stop = data.length⟩)) chunk none with
          | .error _ => (⟨.ended, b⟩, [])
          | .ok bytes => (⟨if stop = data.length then .ended else .serving data stop, b⟩, bytes)
    else refuse (failure ("unknown blob method: " ++ next.method))

/-- The next request, and the response. -/
def Server.step (s : Server) : Server × List Byte :=
  match s.phase with
  | .accepting => s.accept J session
  | .serving data offset => s.serve J data offset
  | .elsewhere | .ended => (s, [])

/-! ## Both sides -/

inductive Side where
  | client
  | server
  deriving DecidableEq, Repr

structure Exchange where
  client : Client
  server : Server

/-- All of what the client reads next has arrived. -/
def Client.ready (s : Client) : Bool :=
  match s.phase with
  | .opening | .reading =>
    match (readResponse J.responses s.reader).1 with
    | .error .eof => false
    | _ => true
  | .filling chunkBytes _ => chunkBytes ≤ s.reader.content.length
  | .returned _ | .failed _ => false

/-- A whole request has arrived. -/
def Server.ready (s : Server) : Bool :=
  match s.phase with
  | .accepting | .serving _ _ =>
    match (readRequest J.requests s.reader).1 with
    | .error .eof => false
    | .error e => e ≠ payloadErr .eof ∧ e ≠ payloadErr .unexpectedEof
    | .ok _ => true
  | .elsewhere | .ended => false

variable (ctx : Option GoError)

def Exchange.step (s : Exchange) : Side → Option Exchange
  | .client =>
    if s.client.ready J then
      let (client, out) := s.client.step J ctx
      some ⟨client, { s.server with reader := s.server.reader.feed out }⟩
    else none
  | .server =>
    if s.server.ready J then
      let (server, out) := s.server.step J session
      some ⟨{ s.client with reader := s.client.reader.feed out }, server⟩
    else none

/-- The open request is on its way. -/
def Exchange.start (method : String) (params : List Byte) (up down : Reader Byte) : Exchange :=
  let (client, out) := Client.start J ctx method params down
  ⟨client, ⟨.accepting, up.feed out⟩⟩

/-- A call on a connection on which nothing has been sent. -/
def exchange : Lib.Machine Exchange Side where
  init s := ∃ method params up down, up.content = [] ∧ down.content = [] ∧
    s = Exchange.start J ctx method params up down
  step := Exchange.step J session ctx

/-! ## What is to arrive -/

/-- What the call is to return. -/
def Blobs.value (s : Blobs) (method : String) : Except GoError BlobValue :=
  if method = "replay" then s.replay.map fun data => ⟨data, 0, [], 0⟩
  else if method = "checkpoint" then s.checkpoint.map fun checkpoint => ⟨checkpoint.replay, checkpoint.cursor, [], 0⟩
  else s.atomicState.map fun state => ⟨state.payload, state.cursor, state.format, state.size⟩

/-- What the server sends ahead of it. -/
def BlobValue.opened (v : BlobValue) : BlobOpenResult :=
  ⟨v.data.length, v.cursor, v.format, if v.grid ≠ 0 then some v.grid else none⟩

/-- A cursor with a text that reads back. -/
def Cursor.Readable (c : Cursor) : Prop := c = 0 ∨ 0 < c.generation ∧ c.generation < 2 ^ 64 ∧ c.offset < 2 ^ 63

/-- What JSON carries of an open response: numbers of 64 bits, a cursor with a text that reads
    back, and a format that is UTF-8. -/
structure BlobOpenResult.Sendable (o : BlobOpenResult) : Prop where
  size : 0 ≤ o.size ∧ o.size < 2 ^ 63
  cursor : Cursor.Readable o.cursor
  format : ∃ text, o.format = utf8 text
  grid : ∀ g, o.grid = some g → (-2 ^ 63 ≤ g.columns ∧ g.columns < 2 ^ 63) ∧ -2 ^ 63 ≤ g.rows ∧ g.rows < 2 ^ 63

structure BlobJson.Faithful : Prop where
  requests : J.requests.Faithful
  responses : J.responses.Faithful
  asks : ∃ raw line, J.params ⟨maxRPCChunk, false⟩ = .ok raw ∧ J.requests.value raw = .ok ⟨maxRPCChunk, false⟩ ∧
    J.requests.marshal ⟨wireVersion, 1, "blob.read", raw, 0⟩ = .ok line ∧ line.length + 1 ≤ maxRPCFrame
  opens : ∀ o : BlobOpenResult, o.Sendable → ∃ raw, J.responses.value (.opened o) = .ok raw ∧
    J.responses.depth raw < maxNestingDepth ∧ J.opened raw = .ok o
  reads : ∀ r, ∃ raw, J.responses.value (.read r) = .ok raw ∧ J.responses.depth raw < maxNestingDepth ∧
    J.read raw = .ok r ∧ ∀ n : Nat, n ≤ maxRPCChunk → J.responses.fits ⟨wireVersion, 1, raw, none, n⟩ = true

/-- The open response is no longer than a frame. -/
def BlobJson.FitsOpen (v : BlobValue) : Prop :=
  ∀ raw, J.responses.value (.opened v.opened) = .ok raw → J.responses.fits ⟨wireVersion, 1, raw, none, 0⟩ = true

variable {J session ctx}

theorem Blobs.open_value {s : Blobs} {method : String} {v : BlobValue} (hm : method ∈ blobMethods)
    (h : s.value method = .ok v) : s.open method = .ok (v.data, { v.opened with size := 0 }) := by
  have hcases : method = "replay" ∨ method = "checkpoint" ∨ method = "state.atomic" := by
    simpa [blobMethods] using hm
  rcases hcases with rfl | rfl | rfl
  · cases hs : s.replay with
    | error e => simp [Blobs.value, hs, Except.map] at h
    | ok data =>
      obtain rfl : _ = v := by simpa [Blobs.value, hs, Except.map] using h
      simp [Blobs.open, BlobValue.opened, hs, Except.map]
  · cases hs : s.checkpoint with
    | error e => simp [Blobs.value, hs, Except.map] at h
    | ok checkpoint =>
      obtain rfl : _ = v := by simpa [Blobs.value, hs, Except.map] using h
      simp [Blobs.open, BlobValue.opened, hs, Except.map]
  · cases hs : s.atomicState with
    | error e => simp [Blobs.value, hs, Except.map] at h
    | ok state =>
      obtain rfl : _ = v := by simpa [Blobs.value, hs, Except.map] using h
      simp [Blobs.open, BlobValue.opened, hs, Except.map]

/-! ## Messages that arrive -/

/-- The bytes are a request with this method, whose parameters decode so. -/
def Asks (J : BlobJson) (method : String) (P : Except String ChunkReadParams → Prop) (bytes : List Byte) : Prop :=
  ∀ b : Reader Byte, b.content = bytes → ∃ req b', readRequest J.requests b = (.ok (req, []), b') ∧ b'.content = [] ∧
    req.id = 1 ∧ req.method = method ∧ P (J.requests.value req.params)

/-- The bytes are a response with this result and this payload. -/
def Replies (J : BlobJson) (raw data bytes : List Byte) : Prop :=
  ∀ b : Reader Byte, b.content = bytes → ∃ r b', readResponse J.responses b = (.ok r, b') ∧ b'.content = data ∧
    r.id = 1 ∧ r.result = raw ∧ r.error = none ∧ r.payloadBytes = data.length

theorem asks_written (hJ : J.Faithful) {method : String} {params bytes : List Byte} (hm : method ≠ "")
    (hw : writeRequestPayload J.requests ⟨0, 1, method, params, 0⟩ [] = .ok bytes) :
    Asks J method (· = J.requests.value params) bytes := by
  intro b hb
  obtain ⟨⟨req, payload⟩, b', hread, hsame, hrest⟩ := readRequest_written hJ.requests Int.one_pos hm hw
    (hb.trans (List.append_nil bytes).symm)
  obtain rfl : payload = [] := hsame.payload
  exact ⟨req, b', hread, hrest, hsame.id, hsame.method, hsame.params⟩

/-- The client's request for a chunk. -/
theorem ask_writes (hJ : J.Faithful) (ctx : Option GoError) : ∃ bytes,
    (∀ s : Client, s.ask J ctx = ({ s with phase := .reading, asked := s.asked + 1 }, bytes)) ∧
      Asks J "blob.read" (· = .ok ⟨maxRPCChunk, false⟩) bytes := by
  obtain ⟨raw, line, hparams, hvalue, hm, hl⟩ := hJ.asks
  have hw : writeRequestPayload J.requests ⟨0, 1, "blob.read", raw, 0⟩ [] = .ok (line ++ [newline] ++ []) := by
    simp only [writeRequestPayload, List.length_nil, Nat.not_lt_zero, if_false, Nat.cast_zero, hm, Nat.not_lt.mpr hl]
  refine ⟨_, fun s => ?_, hvalue ▸ asks_written hJ (by decide) hw⟩
  simp only [Client.ask, hparams, hw]

theorem replies_written (hJ : J.Faithful) {result : BlobResult} {raw data : List Byte}
    (hv : J.responses.value result = .ok raw) (hd : J.responses.depth raw < maxNestingDepth)
    (hdata : data.length ≤ maxRPCChunk) (hfits : J.responses.fits ⟨wireVersion, 1, raw, none, data.length⟩ = true) :
    ∃ bytes, writeRawResponse J.responses 1 (some result) data none = .ok bytes ∧ Replies J raw data bytes := by
  obtain ⟨bytes, hw, hread⟩ := readResponse_written hJ.responses (by decide) hv hd hdata hfits
  refine ⟨bytes, hw, fun b hb => ?_⟩
  simpa using hread b [] (hb.trans (List.append_nil bytes).symm)

/-! ## Reads -/

theorem Client.idle {s : Client} (hp : s.phase = .opening ∨ s.phase = .reading) (h : s.reader.content = []) :
    s.ready J = false := by
  rcases hp with hp | hp <;> simp [Client.ready, hp, readResponse_end h]

theorem Server.idle {s : Server} (h : s.reader.content = []) : s.ready J = false := by
  cases hp : s.phase <;> simp [Server.ready, hp, readRequest_end h]

theorem Client.ready_reply {s : Client} {raw data : List Byte} (hp : s.phase = .opening ∨ s.phase = .reading)
    (h : Replies J raw data s.reader.content) : s.ready J = true := by
  obtain ⟨r, b', hread, -⟩ := h s.reader rfl
  rcases hp with hp | hp <;> simp [Client.ready, hp, hread]

theorem Server.ready_request {s : Server} {method : String} {P : Except String ChunkReadParams → Prop}
    (hp : s.phase = .accepting ∨ ∃ data offset, s.phase = .serving data offset)
    (h : Asks J method P s.reader.content) : s.ready J = true := by
  obtain ⟨req, b', hread, -⟩ := h s.reader rfl
  rcases hp with hp | ⟨data, offset, hp⟩ <;> simp [Server.ready, hp, hread]

/-- The open request. -/
theorem Server.accept_writes {s : Server} {blobs : Blobs} {method : String} {v : BlobValue} {out : List Byte}
    {P : Except String ChunkReadParams → Prop} (hm : method ∈ blobMethods) (hv : blobs.value method = .ok v)
    (hw : writeResponse J.responses 1 (some (.opened v.opened)) none = .ok out) (h : Asks J method P s.reader.content) :
    ∃ b', s.accept J (.ok blobs) = (⟨.serving v.data 0, b'⟩, out) ∧ b'.content = [] := by
  obtain ⟨req, b', hread, hrest, hid, hmethod, -⟩ := h s.reader rfl
  refine ⟨b', ?_, hrest⟩
  have hbind : (Except.ok blobs : Except GoError Blobs).bind (fun blobs => blobs.open method) =
      .ok (v.data, { v.opened with size := 0 }) := Blobs.open_value hm hv
  have hwrite : writeResponse J.responses 1
      (some (.opened ⟨v.data.length, v.opened.cursor, v.opened.format, v.opened.grid⟩)) none = .ok out := hw
  simp only [Server.accept, hread, hmethod, hm, not_true_eq_false, if_false, List.length_nil, ne_eq, hbind, hid, hwrite]

theorem Server.accept_blob (hJ : J.Faithful) {s : Server} {blobs : Blobs} {method : String} {v : BlobValue}
    {P : Except String ChunkReadParams → Prop} (hm : method ∈ blobMethods) (hv : blobs.value method = .ok v)
    (hsend : v.opened.Sendable) (hfits : J.FitsOpen v) (h : Asks J method P s.reader.content) :
    ∃ b' raw out, s.accept J (.ok blobs) = (⟨.serving v.data 0, b'⟩, out) ∧ b'.content = [] ∧
      J.opened raw = .ok v.opened ∧ Replies J raw [] out := by
  obtain ⟨raw, hvalue, hdepth, hopened⟩ := hJ.opens v.opened hsend
  obtain ⟨out, hw, hreplies⟩ := replies_written hJ hvalue hdepth
    (show ([] : List Byte).length ≤ maxRPCChunk from Nat.zero_le _) (hfits raw hvalue)
  rw [← writeResponse_eq] at hw
  obtain ⟨b', haccept, hrest⟩ := Server.accept_writes hm hv hw h
  exact ⟨b', raw, out, haccept, hrest, hopened, hreplies⟩

/-- Where the chunk from `offset` on stops. -/
def BlobValue.stop (v : BlobValue) (offset : Nat) : Nat := min (offset + maxRPCChunk) v.data.length

def BlobValue.chunk (v : BlobValue) (offset : Nat) : List Byte := (v.data.drop offset).take (v.stop offset - offset)

/-- The server behind that chunk. -/
def BlobValue.behind (v : BlobValue) (offset : Nat) : Serving :=
  if v.stop offset = v.data.length then .ended else .serving v.data (v.stop offset)

theorem BlobValue.chunk_length (v : BlobValue) (offset : Nat) : (v.chunk offset).length = v.stop offset - offset := by
  simp only [BlobValue.chunk, List.length_take, List.length_drop]
  unfold BlobValue.stop
  omega

theorem BlobValue.stop_bounds {v : BlobValue} {offset : Nat} (h : offset ≤ v.data.length) :
    offset ≤ v.stop offset ∧ v.stop offset ≤ v.data.length ∧ v.stop offset ≤ offset + maxRPCChunk :=
  ⟨Nat.le_min.mpr ⟨Nat.le_add_right _ _, h⟩, Nat.min_le_right _ _, Nat.min_le_left _ _⟩

/-- A request for a chunk. -/
theorem Server.serve_chunk (hJ : J.Faithful) {s : Server} (v : BlobValue) (offset : Nat)
    (h : Asks J "blob.read" (· = .ok ⟨maxRPCChunk, false⟩) s.reader.content) :
    ∃ b' raw out, s.serve J v.data offset = (⟨v.behind offset, b'⟩, out) ∧ b'.content = [] ∧
      J.read raw = .ok ⟨v.stop offset = v.data.length⟩ ∧ Replies J raw (v.chunk offset) out := by
  obtain ⟨req, b', hread, hrest, hid, hmethod, hparams⟩ := h s.reader rfl
  obtain ⟨raw, hvalue, hdepth, hdecode, hfits⟩ := hJ.reads ⟨v.stop offset = v.data.length⟩
  have hlen : (v.chunk offset).length ≤ maxRPCChunk := by
    rw [v.chunk_length]
    unfold BlobValue.stop
    omega
  obtain ⟨bytes, hw, hreplies⟩ := replies_written hJ hvalue hdepth hlen (hfits _ hlen)
  refine ⟨b', raw, bytes, ?_, hrest, hdecode, hreplies⟩
  have hrange : ¬ ((maxRPCChunk : Int) ≤ 0 ∨ (maxRPCChunk : Int) < maxRPCChunk) := by decide
  have hwrite : writeRawResponse J.responses 1
      (some (.read ⟨min (offset + (maxRPCChunk : Int).toNat) v.data.length = v.data.length⟩))
      ((v.data.drop offset).take (min (offset + (maxRPCChunk : Int).toNat) v.data.length - offset)) none =
      .ok bytes := hw
  simp only [Server.serve, hread, List.length_nil, ne_eq, not_true_eq_false, if_false, hmethod, if_true, hparams,
    hrange, hid, hwrite, show ("blob.read" = "blob.close") = False by decide]
  rfl

/-- The response to the open request. -/
theorem Client.step_opening (hJ : J.Faithful) (ctx : Option GoError) {s : Client} {v : BlobValue} {raw : List Byte}
    (hp : s.phase = .opening) (hopened : J.opened raw = .ok v.opened) (h : Replies J raw [] s.reader.content) :
    ∃ b' out, s.step J ctx =
        ({ s with phase := .reading, opened := v.opened, data := [], asked := s.asked + 1, reader := b' }, out) ∧
      b'.content = [] ∧ Asks J "blob.read" (· = .ok ⟨maxRPCChunk, false⟩) out := by
  obtain ⟨out, hask, hasks⟩ := ask_writes hJ ctx
  obtain ⟨r, b', hread, hrest, hid, hresult, herr, hpay⟩ := h s.reader rfl
  refine ⟨b', out, ?_, hrest, hasks⟩
  have hsize : ¬ v.opened.size < 0 := Int.not_lt.mpr (Int.natCast_nonneg _)
  simp only [Client.step, hp, Client.receiveOpened, hread, hid, ne_eq, not_true_eq_false, if_false, herr, hpay,
    List.length_nil, Nat.cast_zero, hresult, hopened, hsize, hask]

/-- How far the client is. -/
structure Client.At (v : BlobValue) (offset : Nat) (s : Client) : Prop where
  inside : offset = 0 ∨ offset < v.data.length
  opened : s.opened = v.opened
  data : s.data = v.data.take offset

theorem Client.At.inside_le {s : Client} {v : BlobValue} {offset : Nat} (h : s.At v offset) :
    offset ≤ v.data.length := by
  rcases h.inside with rfl | h
  · exact Nat.zero_le _
  · exact Nat.le_of_lt h

/-- The header of a chunk. -/
theorem Client.step_reading (ctx : Option GoError) {s : Client} {v : BlobValue} {offset : Nat} {raw : List Byte}
    (hs : s.At v offset) (hp : s.phase = .reading) (hdecode : J.read raw = .ok ⟨v.stop offset = v.data.length⟩)
    (h : Replies J raw (v.chunk offset) s.reader.content) :
    ∃ b', s.step J ctx =
        ({ s with phase := .filling (v.chunk offset).length (v.stop offset = v.data.length), reader := b' }, []) ∧
      b'.content = v.chunk offset := by
  obtain ⟨r, b', hread, hrest, hid, hresult, herr, hpay⟩ := h s.reader rfl
  refine ⟨b', ?_, hrest⟩
  have hlen := v.chunk_length offset
  have hbounds := BlobValue.stop_bounds hs.inside_le
  have hsize : ¬ ((maxRPCChunk : Int) < (v.chunk offset).length ∨
      s.opened.size - (v.chunk offset).length < s.data.length) := by
    rw [hs.opened, hs.data, hlen]
    simp only [BlobValue.opened, List.length_take]
    omega
  have hstep : s.step J ctx = s.receiveHeader J ctx := by
    unfold Client.step
    rw [hp]
  rw [hstep]
  unfold Client.receiveHeader
  rw [hread]
  dsimp only
  rw [if_neg (not_not.mpr hid), herr]
  dsimp only
  rw [hresult, hdecode]
  dsimp only
  rw [hpay, if_neg hsize, Int.toNat_natCast]

theorem Client.step_last (ctx : Option GoError) {s : Client} {n : Nat} {chunk : List Byte} {b : Reader Byte}
    (hp : s.phase = .filling n true) (h : readFull n [] s.reader = (.ok chunk, b))
    (hsize : ((s.data ++ chunk).length : Int) = s.opened.size) :
    (s.step J ctx).1.phase =
        .returned ⟨s.data ++ chunk, s.opened.cursor, s.opened.format, s.opened.grid.getD 0⟩ ∧
      (s.step J ctx).2 = [] := by
  simp only [Client.step, hp, Client.receiveChunk, h, hsize, ne_eq, not_true_eq_false, if_true, if_false, and_self]

theorem Client.step_more (ctx : Option GoError) {s : Client} {n : Nat} {chunk : List Byte} {b : Reader Byte}
    (hp : s.phase = .filling n false) (h : readFull n [] s.reader = (.ok chunk, b)) (hn : n ≠ 0) :
    s.step J ctx = { s with reader := b, data := s.data ++ chunk }.ask J ctx := by
  simp only [Client.step, hp, Client.receiveChunk, h, hn, Bool.false_eq_true, if_false]

/-- The bytes of a chunk. -/
theorem Client.step_filling (hJ : J.Faithful) (ctx : Option GoError) {s : Client} {v : BlobValue} {offset : Nat}
    (hs : s.At v offset) (hp : s.phase = .filling (v.chunk offset).length (v.stop offset = v.data.length))
    (h : s.reader.content = v.chunk offset) :
    (v.stop offset = v.data.length ∧ (s.step J ctx).1.phase = .returned v ∧ (s.step J ctx).2 = []) ∨
      (v.stop offset < v.data.length ∧ offset < v.stop offset ∧ (s.step J ctx).1.At v (v.stop offset) ∧
        (s.step J ctx).1.phase = .reading ∧ (s.step J ctx).1.reader.content = [] ∧
        Asks J "blob.read" (· = .ok ⟨maxRPCChunk, false⟩) (s.step J ctx).2) := by
  obtain ⟨out, hask, hasks⟩ := ask_writes hJ ctx
  obtain ⟨b', hfull, hrest⟩ := readFull_exact (v.chunk offset).length [] s.reader (Nat.le_of_eq (by rw [h]))
  rw [h, List.take_length, List.nil_append] at hfull
  rw [h, List.drop_length] at hrest
  have hlen := v.chunk_length offset
  have hle := BlobValue.stop_bounds hs.inside_le
  have hdata : s.data ++ v.chunk offset = v.data.take (v.stop offset) := by
    rw [hs.data, BlobValue.chunk, ← List.take_add, Nat.add_sub_cancel' hle.1]
  by_cases he : v.stop offset = v.data.length
  · refine .inl ⟨he, ?_⟩
    rw [decide_eq_true he] at hp
    have hgrid : v.opened.grid.getD 0 = v.grid := by
      show (if v.grid ≠ 0 then some v.grid else none).getD 0 = v.grid
      split
      · rfl
      · rename_i h0
        exact (not_not.mp h0).symm
    have hall : s.data ++ v.chunk offset = v.data := by rw [hdata, he, List.take_length]
    obtain ⟨hphase, hout⟩ := Client.step_last (J := J) ctx hp hfull (by rw [hall, hs.opened]; rfl)
    rw [hall, hs.opened, hgrid] at hphase
    exact ⟨hphase, hout⟩
  · have hlt : v.stop offset < v.data.length := by omega
    have hpos : offset < v.stop offset := Nat.lt_min.mpr ⟨Nat.lt_add_of_pos_right (by decide), by omega⟩
    rw [decide_eq_false he] at hp
    refine .inr ⟨hlt, hpos, ?_⟩
    rw [Client.step_more ctx hp hfull (by omega), hask]
    exact ⟨⟨.inr hlt, hs.opened, hdata⟩, rfl, hrest, hasks⟩

/-! ## Every run -/

/-- How many steps are left when the client asks for the chunk from `offset` on. -/
def BlobValue.left (v : BlobValue) (offset : Nat) : Nat := 3 * ((v.data.length - offset) / maxRPCChunk + 1)

theorem BlobValue.left_pos (v : BlobValue) (offset : Nat) : 3 ≤ v.left offset :=
  Nat.le_mul_of_pos_right 3 (Nat.succ_pos _)

theorem BlobValue.left_stop {v : BlobValue} {offset : Nat} (h : v.stop offset < v.data.length) :
    v.left offset = v.left (v.stop offset) + 3 := by
  have hstop : v.stop offset = offset + maxRPCChunk := by
    unfold BlobValue.stop at h ⊢
    omega
  rw [hstop] at h ⊢
  have : v.data.length - offset = v.data.length - (offset + maxRPCChunk) + maxRPCChunk := by omega
  unfold BlobValue.left
  rw [this, Nat.add_div_right _ (by decide)]
  omega

/-- The states of an exchange, with the steps that are left: one side reads and the other
    has nothing to read. -/
inductive Stage (J : BlobJson) (method : String) (v : BlobValue) : Nat → Exchange → Prop
  | opening {s : Exchange} : s.client.phase = .opening → s.server.phase = .accepting →
      Asks J method (fun _ => True) s.server.reader.content → s.client.reader.content = [] →
      Stage J method v (v.left 0 + 2) s
  | opened {s : Exchange} (raw : List Byte) : s.client.phase = .opening → s.server.phase = .serving v.data 0 →
      s.server.reader.content = [] → J.opened raw = .ok v.opened → Replies J raw [] s.client.reader.content →
      Stage J method v (v.left 0 + 1) s
  | asked {s : Exchange} (offset : Nat) : s.client.At v offset → s.client.phase = .reading →
      s.server.phase = .serving v.data offset →
      Asks J "blob.read" (· = .ok ⟨maxRPCChunk, false⟩) s.server.reader.content → s.client.reader.content = [] →
      Stage J method v (v.left offset) s
  | answered {s : Exchange} (offset : Nat) (raw : List Byte) : s.client.At v offset → s.client.phase = .reading →
      s.server.phase = v.behind offset → s.server.reader.content = [] →
      J.read raw = .ok ⟨v.stop offset = v.data.length⟩ → Replies J raw (v.chunk offset) s.client.reader.content →
      Stage J method v (v.left offset - 1) s
  | filling {s : Exchange} (offset : Nat) : s.client.At v offset →
      s.client.phase = .filling (v.chunk offset).length (v.stop offset = v.data.length) →
      s.server.phase = v.behind offset → s.server.reader.content = [] → s.client.reader.content = v.chunk offset →
      Stage J method v (v.left offset - 2) s
  | returned {s : Exchange} : s.client.phase = .returned v → s.server.reader.content = [] → Stage J method v 0 s

variable {s s' : Exchange} {method : String} {v : BlobValue} {n : Nat}

theorem step_client (h : s.step J session ctx .client = some s') : s.client.ready J = true ∧
    s' = ⟨(s.client.step J ctx).1, { s.server with reader := s.server.reader.feed (s.client.step J ctx).2 }⟩ := by
  simp only [Exchange.step, Option.ite_none_right_eq_some, Option.some.injEq] at h
  exact ⟨h.1, h.2.symm⟩

theorem step_server (h : s.step J session ctx .server = some s') : s.server.ready J = true ∧
    s' = ⟨{ s.client with reader := s.client.reader.feed (s.server.step J session).2 },
      (s.server.step J session).1⟩ := by
  simp only [Exchange.step, Option.ite_none_right_eq_some, Option.some.injEq] at h
  exact ⟨h.1, h.2.symm⟩

/-- What has arrived where nothing was to be read. -/
theorem feed_empty {b : Reader Byte} (h : b.content = []) (bytes : List Byte) : (b.feed bytes).content = bytes := by
  rw [b.feed_content, h, List.nil_append]

theorem Stage.client (hJ : J.Faithful) (h : Stage J method v n s) (he : s.step J session ctx .client = some s') :
    ∃ k < n, Stage J method v k s' := by
  obtain ⟨hready, rfl⟩ := step_client he
  cases h with
  | opening hc hs hup hdown => simp [Client.idle (.inl hc) hdown] at hready
  | asked offset hat hc hs hup hdown => simp [Client.idle (.inr hc) hdown] at hready
  | returned hc hup => simp [Client.ready, hc] at hready
  | opened raw hc hs hup hopened hreply =>
    obtain ⟨b', out, hstep, hrest, hasks⟩ := Client.step_opening hJ ctx hc hopened hreply
    refine ⟨v.left 0, by omega, ?_⟩
    rw [hstep]
    exact .asked 0 ⟨.inl rfl, rfl, rfl⟩ rfl hs (by rw [feed_empty hup]; exact hasks) hrest
  | answered offset raw hat hc hs hup hdecode hreply =>
    obtain ⟨b', hstep, hrest⟩ := Client.step_reading ctx hat hc hdecode hreply
    refine ⟨v.left offset - 2, by have := v.left_pos offset; omega, ?_⟩
    rw [hstep]
    exact .filling offset ⟨hat.inside, hat.opened, hat.data⟩ rfl hs (feed_empty hup _) hrest
  | filling offset hat hc hs hup hdown =>
    rcases Client.step_filling hJ ctx hat hc hdown with ⟨-, hreturned, hout⟩ | ⟨hlt, -, hat', hreading, hrest, hasks⟩
    · refine ⟨0, by have := v.left_pos offset; omega, .returned hreturned ?_⟩
      rw [hout]
      exact feed_empty hup _
    · have hleft := BlobValue.left_stop hlt
      refine ⟨v.left (v.stop offset), by omega, .asked _ hat' hreading ?_ ?_ hrest⟩
      · simpa [BlobValue.behind, Nat.ne_of_lt hlt] using hs
      · rw [feed_empty hup]
        exact hasks

theorem Stage.server (hJ : J.Faithful) {blobs : Blobs} (hm : method ∈ blobMethods) (hv : blobs.value method = .ok v)
    (hsend : v.opened.Sendable) (hfits : J.FitsOpen v) (h : Stage J method v n s)
    (he : s.step J (.ok blobs) ctx .server = some s') : ∃ k < n, Stage J method v k s' := by
  obtain ⟨hready, rfl⟩ := step_server he
  cases h with
  | opened raw hc hs hup | answered offset raw hat hc hs hup | filling offset hat hc hs hup | returned hc hup =>
    simp [Server.idle hup] at hready
  | opening hc hs hup hdown =>
    obtain ⟨b', raw, out, haccept, hrest, hopened, hreplies⟩ := Server.accept_blob hJ hm hv hsend hfits hup
    have hstep : s.server.step J (.ok blobs) = (⟨.serving v.data 0, b'⟩, out) := by simp only [Server.step, hs, haccept]
    refine ⟨v.left 0 + 1, by omega, ?_⟩
    rw [hstep]
    exact .opened raw hc rfl hrest hopened (by rw [feed_empty hdown]; exact hreplies)
  | asked offset hat hc hs hup hdown =>
    obtain ⟨b', raw, out, hserve, hrest, hdecode, hreplies⟩ := Server.serve_chunk hJ v offset hup
    have hstep : s.server.step J (.ok blobs) = (⟨v.behind offset, b'⟩, out) := by simp only [Server.step, hs, hserve]
    refine ⟨v.left offset - 1, by have := v.left_pos offset; omega, ?_⟩
    rw [hstep]
    exact .answered offset raw ⟨hat.inside, hat.opened, hat.data⟩ hc rfl hrest hdecode
      (by rw [feed_empty hdown]; exact hreplies)

/-- Nothing waits for ever: before the client returns, one side has what it reads. -/
theorem Stage.enabled (session : Except GoError Blobs) (ctx : Option GoError) (h : Stage J method v n s) :
    s.client.phase = .returned v ∨ s.client.phase.ended = false ∧ ∃ side s', s.step J session ctx side = some s' := by
  have client : s.client.ready J = true → ∃ side s', s.step J session ctx side = some s' := fun hr =>
    ⟨.client, _, if_pos hr⟩
  have server : s.server.ready J = true → ∃ side s', s.step J session ctx side = some s' := fun hr =>
    ⟨.server, _, if_pos hr⟩
  cases h with
  | returned hc => exact .inl hc
  | opening hc hs hup => exact .inr ⟨by rw [hc]; rfl, server (Server.ready_request (.inl hs) hup)⟩
  | opened raw hc hs hup hopened hreply => exact .inr ⟨by rw [hc]; rfl, client (Client.ready_reply (.inl hc) hreply)⟩
  | asked offset hat hc hs hup => exact .inr ⟨by rw [hc]; rfl, server (Server.ready_request (.inr ⟨_, _, hs⟩) hup)⟩
  | answered offset raw hat hc hs hup hdecode hreply =>
    exact .inr ⟨by rw [hc]; rfl, client (Client.ready_reply (.inr hc) hreply)⟩
  | filling offset hat hc hs hup hdown => exact .inr ⟨by rw [hc]; rfl, client (by simp [Client.ready, hc, hdown])⟩

theorem start_asks (hJ : J.Faithful) (ctx : Option GoError) {params bytes : List Byte} (hm : method ∈ blobMethods)
    (hopen : writeRequestPayload J.requests ⟨0, 1, method, params, 0⟩ [] = .ok bytes) {up : Reader Byte}
    (hup : up.content = []) (down : Reader Byte) :
    Exchange.start J ctx method params up down =
        ⟨⟨.opening, ⟨0, 0, [], none⟩, [], 0, down⟩, ⟨.accepting, up.feed bytes⟩⟩ ∧
      Asks J method (fun _ => True) (up.feed bytes).content := by
  have hne : method ≠ "" := by
    rintro rfl
    exact absurd hm (by decide)
  refine ⟨by simp only [Exchange.start, Client.start, hopen], ?_⟩
  rw [feed_empty hup]
  intro b hb
  obtain ⟨req, b', hread, hrest, hid, hmethod, -⟩ := asks_written hJ hne hopen b hb
  exact ⟨req, b', hread, hrest, hid, hmethod, trivial⟩

theorem Stage.start (hJ : J.Faithful) (ctx : Option GoError) {params bytes : List Byte} (hm : method ∈ blobMethods)
    (hopen : writeRequestPayload J.requests ⟨0, 1, method, params, 0⟩ [] = .ok bytes) {up down : Reader Byte}
    (hup : up.content = []) (hdown : down.content = []) (v : BlobValue) :
    Stage J method v (v.left 0 + 2) (Exchange.start J ctx method params up down) := by
  obtain ⟨hs, hasks⟩ := start_asks hJ ctx hm hopen hup down
  rw [hs]
  exact .opening rfl rfl hasks hdown

/-- The exchange ends with the blob at the client, whichever side moves when, after three
    steps a chunk and two for the open request; until then one side can move. -/
theorem blob_streaming_is_identity (hJ : J.Faithful) (ctx : Option GoError) {blobs : Blobs} {method : String}
    {params bytes : List Byte} {v : BlobValue} (hm : method ∈ blobMethods) (hv : blobs.value method = .ok v)
    (hsend : v.opened.Sendable) (hfits : J.FitsOpen v)
    (hopen : writeRequestPayload J.requests ⟨0, 1, method, params, 0⟩ [] = .ok bytes) {up down : Reader Byte}
    (hup : up.content = []) (hdown : down.content = []) :
    (∃ es s, (exchange J (.ok blobs) ctx).run Lib.Machine.always (.start J ctx method params up down) es = some s ∧
      s.client.phase = .returned v) ∧
    ∀ es s, (exchange J (.ok blobs) ctx).run Lib.Machine.always (.start J ctx method params up down) es = some s →
      es.length ≤ 3 * (v.data.length / maxRPCChunk + 1) + 2 ∧
      (s.client.phase = .returned v ∨
        s.client.phase.ended = false ∧ ∃ side s', (exchange J (.ok blobs) ctx).step s side = some s') := by
  have hstart := Stage.start hJ ctx hm hopen hup hdown v
  have hstep : ∀ n s side s', Stage J method v n s → Exchange.step J (.ok blobs) ctx s side = some s' →
      ∃ k < n, Stage J method v k s' := by
    intro n s side s' h he
    cases side with
    | client => exact h.client hJ he
    | server => exact h.server hJ hm hv hsend hfits he
  refine ⟨?_, fun es s hrun => ?_⟩
  · refine (exchange J (.ok blobs) ctx).exists_run (Stage J method v) (·.client.phase = .returned v)
      (fun n s h => (h.enabled (.ok blobs) ctx).imp_right ?_) hstart
    rintro ⟨-, side, s', he⟩
    exact ⟨side, s', rfl, he, .inr (hstep n s side s' h he)⟩
  · obtain ⟨k, hk, hle⟩ := (exchange J (.ok blobs) ctx).run_countdown (Stage J method v) hstep hstart hrun
    refine ⟨?_, hk.enabled _ _⟩
    have : v.left 0 = 3 * (v.data.length / maxRPCChunk + 1) := rfl
    omega

/-! ## An instance -/

open Lib.Decimal Lib.JsonText

def chunkParams (p : ChunkReadParams) : List Byte :=
  utf8 "\x7b\"maxBytes\":" ++ int p.maxBytes ++ (if p.sized then utf8 ",\"sized\":true" else []) ++ [closing]

def readChunkParams (raw : List Byte) : Except String ChunkReadParams :=
  match skip (utf8 "\x7b\"maxBytes\":") raw with
  | none => .error "invalid character"
  | some text => .ok ⟨(readInt text).1, (readInt text).2 != [closing]⟩

def noText : String :=
  "json: error calling MarshalText for type ghostline.Cursor: ghostline: invalid output cursor"

def BlobOpenResult.line (o : BlobOpenResult) (cursor : List Byte) : List Byte :=
  utf8 "\x7b\"size\":" ++ int o.size ++ utf8 ",\"cursor\":" ++ str cursor ++
    (if o.format = [] then [] else utf8 ",\"format\":" ++ str o.format) ++
    (o.grid.elim [] fun g => utf8 ",\"grid\":" ++ sizeLine g) ++ [closing]

/-- Results; a cursor without a text does not encode. -/
def blobLine : BlobResult → Except String (List Byte)
  | .opened o =>
    match o.cursor.marshalText with
    | .error _ => .error noText
    | .ok cursor => .ok (o.line cursor)
  | .read r => .ok (utf8 (if r.eof then "\x7b\"eof\":true\x7d" else "\x7b\x7d"))

def readOpened (raw : List Byte) : Except String BlobOpenResult :=
  let size := readInt (raw.drop (utf8 "\x7b\"size\":").length)
  let cursor := readStr (size.2.drop (utf8 ",\"cursor\":").length)
  let format := ((skip (utf8 ",\"format\":") cursor.2).map readStr).getD ([], cursor.2)
  match Cursor.unmarshalText (some 0) cursor.1 with
  | (some c, none) => .ok ⟨size.1, c, format.1, (skip (utf8 ",\"grid\":") format.2).map readSize⟩
  | _ => .error "ghostline: invalid output cursor"

def blobJson : BlobJson where
  requests := requestJson ["state.atomic", "checkpoint", "blob.read"] readChunkParams
  responses := jsonCodec blobLine
  params p := .ok (chunkParams p)
  opened := readOpened
  read raw := .ok ⟨raw != utf8 "\x7b\x7d"⟩

theorem readOpened_line {o : BlobOpenResult} {cursor : List Byte}
    (h : Cursor.unmarshalText (some 0) cursor = (some o.cursor, none)) : readOpened (o.line cursor) = .ok o := by
  obtain ⟨size, c, format, grid⟩ := o
  have hsize : ∀ rest, readInt (int size ++ (utf8 ",\"cursor\":" ++ rest)) = (size, utf8 ",\"cursor\":" ++ rest) :=
    fun rest => readInt_int_cons _ (by decide) _
  have hgrid : (skip (utf8 ",\"grid\":") ((grid.elim [] fun g => utf8 ",\"grid\":" ++ sizeLine g) ++ [closing])).map readSize =
      grid := by
    cases grid with
    | none => rfl
    | some g => simp only [Option.elim_some, List.append_assoc, skip_append, Option.map_some, readSize_line]
  by_cases hformat : format = []
  · have hskip : skip (utf8 ",\"format\":") ((grid.elim [] fun g => utf8 ",\"grid\":" ++ sizeLine g) ++ [closing]) = none := by
      cases grid <;> rfl
    simp only [readOpened, BlobOpenResult.line, hformat, if_true, List.append_assoc, List.nil_append, List.drop_left, hsize,
      readStr_str, hskip, Option.map_none, Option.getD_none, h, hgrid]
  · simp only [readOpened, BlobOpenResult.line, hformat, if_false, List.append_assoc, List.drop_left, hsize,
      readStr_str, skip_append, Option.map_some, Option.getD_some, h, hgrid]

theorem blobLine_isValue (v : BlobResult) (raw : List Byte) (h : blobLine v = .ok raw) : IsValue raw := by
  cases v with
  | read r =>
    obtain rfl := Except.ok.inj h
    cases r.eof
    · exact isValue_object (show Printable (utf8 "\x7b") by decide)
    · exact isValue_object (show Printable (utf8 "\x7b\"eof\":true") by decide)
  | opened o =>
    simp only [blobLine] at h
    split at h
    · cases h
    · obtain rfl := Except.ok.inj h
      refine isValue_object ?_
      simp only [printable_append]
      refine ⟨⟨⟨⟨⟨by decide, printable_int _⟩, by decide⟩, (str_bounds _).1⟩, ?_⟩, ?_⟩
      · split
        · exact List.forall_mem_nil _
        · exact printable_append.mpr ⟨by decide, (str_bounds _).1⟩
      · cases o.grid with
        | none => exact List.forall_mem_nil _
        | some g =>
          exact printable_append.mpr ⟨by decide, (isValue_sizeLine g).printable⟩

theorem blobJson_fits {result : BlobResult} {raw : List Byte} (h : blobLine result = .ok raw)
    (hlen : raw.length ≤ 2 ^ 10) {n : Nat} (hn : n ≤ maxRPCChunk) :
    blobJson.responses.fits ⟨wireVersion, 1, raw, none, n⟩ = true := by
  have hsends : (jsonCodec blobLine).Sends ⟨wireVersion, 1, raw, none, n⟩ :=
    ⟨rfl, by simp only; omega, by simp only; omega, .inr ⟨result, h⟩⟩
  have hline := (length_line hsends).2
  have hframe : maxRPCFrame = 2 ^ 20 := rfl
  simp only [Option.elim_none] at hline
  rw [blobJson, jsonCodec_fits blobLine_isValue hsends, decide_eq_true_eq]
  omega

theorem blobJson_faithful : blobJson.Faithful where
  requests := requestJson_faithful _ _
  responses := jsonCodec_faithful blobLine_isValue
  asks := ⟨utf8 "\x7b\"maxBytes\":65536\x7d",
    utf8 "\x7b\"wire\":1,\"id\":1,\"method\":\"blob.read\",\"params\":\x7b\"maxBytes\":65536\x7d\x7d", by decide +kernel⟩
  opens o ho := by
    have hcursor : ¬ (o.cursor.generation = 0 ∧ o.cursor.offset ≠ 0) ∧ o.cursor.generation < 2 ^ 64 ∧ o.cursor.offset < 2 ^ 63 := by
      rcases ho.cursor with h | ⟨h0, hg, hoff⟩
      · rw [h]
        decide
      · exact ⟨fun h => absurd h.1 (Nat.ne_of_gt h0), hg, hoff⟩
    have htext : o.cursor.marshalText = .ok o.cursor.string := if_neg hcursor.1
    refine ⟨o.line o.cursor.string, ?_, show 0 < maxNestingDepth by decide, ?_⟩
    · simp only [blobJson, jsonCodec, blobLine, htext]
    · exact readOpened_line (unmarshalText_marshalText hcursor.2.1 hcursor.2.2 htext)
  reads r := by
    obtain ⟨eof⟩ := r
    refine ⟨_, rfl, show 0 < maxNestingDepth by decide, ?_, fun n hn => ?_⟩
    · cases eof <;> rfl
    · exact blobJson_fits (show blobLine (.read ⟨eof⟩) = _ from rfl) (by cases eof <;> decide) hn

/-- A state with these bytes. -/
def vtState (data : List Byte) : BlobValue := ⟨data, ⟨3, 5⟩, utf8 "vt", ⟨80, 24⟩⟩

def atomicOnly (v : BlobValue) : Blobs :=
  ⟨.error (failure ""), .error (failure ""), .ok ⟨v.format, v.data, v.cursor, v.grid⟩⟩

theorem vtState_sendable {data : List Byte} (h : data.length < 2 ^ 63) : (vtState data).opened.Sendable := by
  have hcursor : Cursor.Readable ⟨3, 5⟩ := .inr (by decide)
  refine ⟨?_, hcursor, ⟨"vt", rfl⟩, fun g hg => ?_⟩
  · simp only [BlobValue.opened, vtState]
    omega
  · obtain rfl : (⟨80, 24⟩ : Size) = g := Option.some.inj hg
    decide

theorem vtState_line (data : List Byte) : blobLine (.opened (vtState data).opened) = .ok (utf8 "\x7b\"size\":" ++
    (int data.length ++ utf8 ",\"cursor\":\"v1:3:5\",\"format\":\"vt\",\"grid\":\x7b\"columns\":80,\"rows\":24\x7d\x7d")) := by
  show Except.ok (BlobOpenResult.line ⟨data.length, ⟨3, 5⟩, utf8 "vt", some ⟨80, 24⟩⟩ (Cursor.string ⟨3, 5⟩)) = _
  simp only [BlobOpenResult.line, List.append_assoc]
  refine congrArg (fun rest => Except.ok (utf8 "\x7b\"size\":" ++ (int data.length ++ rest))) ?_
  decide +kernel

theorem vtState_fits {data : List Byte} (h : data.length < 2 ^ 63) : blobJson.FitsOpen (vtState data) := by
  intro raw hraw
  refine blobJson_fits (show blobLine (.opened (vtState data).opened) = .ok raw from hraw) ?_ (Nat.zero_le _)
  obtain rfl := Except.ok.inj ((vtState_line data).symm.trans hraw)
  have hsize := length_int (show (data.length : Int).natAbs < 10 ^ 20 by omega)
  rw [List.length_append, List.length_append]
  refine Nat.le_trans (Nat.add_le_add_left (Nat.add_le_add_right hsize _) _) ?_
  decide +kernel

/-- Two whole chunks. -/
theorem blob_streaming_is_identity_chunks : ∃ es s,
    (exchange blobJson (.ok (atomicOnly (vtState (List.replicate (2 * maxRPCChunk) 7)))) none).run Lib.Machine.always
      (.start blobJson none "state.atomic" [] (.ofList []) (.ofList [])) es = some s ∧
    s.client.phase = .returned (vtState (List.replicate (2 * maxRPCChunk) 7)) := by
  have hopen : writeRequestPayload blobJson.requests ⟨0, 1, "state.atomic", [], 0⟩ [] =
      .ok (utf8 "\x7b\"wire\":1,\"id\":1,\"method\":\"state.atomic\"\x7d\n") := by decide +kernel
  have hv : ∀ data, (atomicOnly (vtState data)).value "state.atomic" = .ok (vtState data) := fun _ => rfl
  have hlen : (List.replicate (2 * maxRPCChunk) (7 : Byte)).length < 2 ^ 63 := by
    rw [List.length_replicate]
    decide
  exact (blob_streaming_is_identity blobJson_faithful none (by decide) (hv _) (vtState_sendable hlen)
    (vtState_fits hlen) hopen rfl rfl).1

/-! ## What is not carried -/

/-- A response whose result does not encode is an error to the reader. -/
theorem readResponse_unencoded {V : Type} {c : Codec V} (hc : c.Faithful) {v : V} {m : String}
    (hv : c.value v = .error m) (hfits : c.fits ⟨wireVersion, 1, [], some ⟨utf8 "internal", utf8 m⟩, 0⟩ = true) :
    ∃ bytes, writeResponse c 1 (some v) none = .ok bytes ∧ ∀ b : Reader Byte, b.content = bytes →
      ∃ r b' e, readResponse c b = (.ok r, b') ∧ r.id = 1 ∧ r.error = some e := by
  have hr : c.Sends ⟨wireVersion, 1, [], some ⟨utf8 "internal", utf8 m⟩, 0⟩ :=
    ⟨rfl, by simp only; omega, by simp only; omega, .inl rfl⟩
  have hd : c.depth [] < maxNestingDepth := by rw [hc.empty]; decide
  obtain ⟨line, hm⟩ := hc.encodes _ hr (Nat.le_of_lt hd)
  have hl : line.length + 1 ≤ maxRPCFrame := by simpa [Codec.fits, hm] using hfits
  refine ⟨line ++ [newline], ?_, fun b hb => ?_⟩
  · simp only [writeResponse, encodeResponse, header, hv, Nat.cast_zero, hm, Nat.not_lt.mpr hl, if_false]
  · obtain ⟨r, b', halike, -, hread⟩ := readResponse_header hc hr hd hm hl hb
    have hcheck := (check_ok_iff hr.wire hr.payloadBytes).mpr ⟨.inl Int.one_pos, fun _ => ⟨rfl, rfl⟩⟩
    rw [hcheck] at hread
    obtain ⟨e, he, -⟩ := Option.map_eq_some_iff.mp halike.error
    exact ⟨r, b', e, hread, halike.id, he⟩

/-- The client fails if the open response cannot be encoded. -/
theorem exchange_unencoded (hJ : J.Faithful) {blobs : Blobs} {params bytes : List Byte} {m : String}
    (hm : method ∈ blobMethods) (hv : blobs.value method = .ok v)
    (hvalue : J.responses.value (.opened v.opened) = .error m)
    (hfits : J.responses.fits ⟨wireVersion, 1, [], some ⟨utf8 "internal", utf8 m⟩, 0⟩ = true)
    (hopen : writeRequestPayload J.requests ⟨0, 1, method, params, 0⟩ [] = .ok bytes) {up down : Reader Byte}
    (hup : up.content = []) (hdown : down.content = []) :
    ∃ s err, (exchange J (.ok blobs) ctx).run Lib.Machine.always (.start J ctx method params up down)
      [.server, .client] = some s ∧ s.client.phase = .failed err := by
  obtain ⟨hs, hasks⟩ := start_asks hJ ctx hm hopen hup down
  obtain ⟨out, hw, hreply⟩ := readResponse_unencoded hJ.responses hvalue hfits
  obtain ⟨b', haccept, -⟩ := Server.accept_writes (s := ⟨.accepting, up.feed bytes⟩) hm hv hw hasks
  have hready : (Server.mk .accepting (up.feed bytes)).ready J = true := Server.ready_request (.inl rfl) hasks
  obtain ⟨r, b'', e, hread, hid, herr⟩ := hreply (down.feed out) (feed_empty hdown out)
  let opened : Exchange := ⟨⟨.opening, ⟨0, 0, [], none⟩, [], 0, down.feed out⟩, ⟨.serving v.data 0, b'⟩⟩
  have h1 : Exchange.step J (.ok blobs) ctx (.start J ctx method params up down) .server = some opened := by
    rw [hs]
    simp only [Exchange.step, hready, if_true, Server.step, haccept, opened]
  let failed : Exchange :=
    ⟨{ opened.client with phase := .failed (contextErr ctx (decodeRPCError e)), reader := b'' },
      { opened.server with reader := opened.server.reader.feed [] }⟩
  have hfail : opened.client.step J ctx = (failed.client, []) := by
    simp only [Client.step, opened, failed, Client.receiveOpened, hread, hid, ne_eq, not_true_eq_false, if_false, herr,
      Client.fail]
  have h2 : opened.step J (.ok blobs) ctx .client = some failed := by
    have hread' : opened.client.ready J = true := by simp [Client.ready, opened, hread]
    simp only [Exchange.step, hread', if_true, hfail, failed]
  refine ⟨failed, _, ?_, rfl⟩
  simp only [Lib.Machine.run, Lib.Machine.always, exchange, h1, h2, if_true, Option.bind_some]

/-- A checkpoint whose cursor has an offset in no generation. -/
def noGeneration : Blobs := ⟨.error (failure ""), .ok ⟨[7], ⟨0, 1⟩⟩, .error (failure "")⟩

theorem a_cursor_without_a_text : ∃ s err,
    (exchange blobJson (.ok noGeneration) none).run Lib.Machine.always
      (.start blobJson none "checkpoint" [] (.ofList []) (.ofList [])) [.server, .client] = some s ∧
    s.client.phase = .failed err := by
  have hopen : writeRequestPayload blobJson.requests ⟨0, 1, "checkpoint", [], 0⟩ [] =
      .ok (utf8 "\x7b\"wire\":1,\"id\":1,\"method\":\"checkpoint\"\x7d\n") := by decide +kernel
  have hv : noGeneration.value "checkpoint" = .ok ⟨[7], ⟨0, 1⟩, [], 0⟩ := rfl
  exact exchange_unencoded blobJson_faithful (by decide) hv rfl (by decide +kernel) hopen rfl rfl

end Ghostline.Rpc
