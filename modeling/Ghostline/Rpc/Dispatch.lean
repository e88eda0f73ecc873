/-
  Ghostline.Rpc.Dispatch — the requests that are one call of the hub (server.go: `handle`,
  `dispatchRequest`, `dispatch`, `session`, `namedSession`; session.go: `normalizeSignal`).

  A connection is served request by request. The methods that stream take the connection over,
  a request that cannot be read ends it with a response under no request's id, and every other
  one is answered, with what the hub or the session returned.

  - The hub is a parameter (`Hub`): its sessions by their handles, and what its own methods and
    those of a session do to a state of any type.
  - So are other connections: before a request is dispatched, and between the moment its session
    is found and the moment that is called, the state may have become any other (`Moment`). For
    `wait` this is the time it waits.
  - `decode` reads a raw message at the type that the method asks for. `Params` has what it makes
    of one message at each of these types.
  - `metadataResult`, `sizeResult` and `cursorResult` have the fields of what they carry and are
    not told apart from it.

  Written one behind the other, requests are answered one by one and in order, under their own
  ids, and the hub has then been called once for each and in this order
  (`requests_are_answered_in_order`). `wait` is left out there: while it waits a second
  goroutine reads from the connection (`Rpc.Monitor`), and what it reads is lost.

  The deadline of an idle connection and writes that it refuses are not modelled.
-/

import Ghostline.Handoff.Identity
import Ghostline.Rpc.Response
import Ghostline.Terminal.Vt

namespace Ghostline.Rpc.Service

open Lib.Buffered Handoff Terminal

/-! ## The hub -/

structure ProcessSpec where
  path : String
  args : List String
  directory : String
  environment : List String
  shellCommand : String
  deriving DecidableEq, Repr

structure SessionOptions where
  name : String
  process : ProcessSpec
  size : Size
  vtScrollbackMaxBytes : Nat
  deriving DecidableEq, Repr

structure SessionMetadata where
  process : List Byte
  commandLine : List Byte
  directory : List Byte
  shell : Option ShellMetadata
  deriving DecidableEq, Repr

structure ProtocolLimits where
  maxHeaderBytes : Nat
  maxPayloadBytes : Nat
  maxChunkBytes : Nat
  deriving DecidableEq, Repr

structure VersionResult where
  version : String
  tagVersion : String
  capabilities : List String
  limits : ProtocolLimits
  maxClientConnections : Nat
  deriving DecidableEq, Repr

/-- The types of the results. -/
inductive Kind where
  | version
  | info
  | status
  | metadata
  | size
  | cursor
  | sessions
  deriving DecidableEq, Repr

def Kind.Value : Kind → Type
  | .version => VersionResult
  | .info => SessionInfo
  | .status => Status
  | .metadata => SessionMetadata
  | .size => Size
  | .cursor => Cursor
  | .sessions => List SessionInfo

/-- A result, at its type. -/
abbrev Reply := (k : Kind) × k.Value

/-- What a call returns besides an error. -/
abbrev Want : Option Kind → Type
  | none => Unit
  | some k => k.Value

/-- The calls of a session that are one request. -/
inductive Op where
  | status
  | metadata
  | size
  | signal (signal : Int)
  | writeInput (data : List Byte)
  | resize (size : Size)
  | outputCursor
  | rotateOutput
  | pruneOutput (before : Cursor)
  | terminate
  | delete
  deriving DecidableEq, Repr

def Op.kind : Op → Option Kind
  | .status => some .status
  | .metadata => some .metadata
  | .size => some .size
  | .outputCursor | .rotateOutput => some .cursor
  | .signal _ | .writeInput _ | .resize _ | .pruneOutput _ | .terminate | .delete => none

/-- `Hub` and, for a session of it, its `sessionBackend`. -/
structure Hub (σ η : Type) where
  start : SessionOptions → σ → Except GoError η × σ
  get : String → σ → Except GoError η
  list : σ → Except GoError (List η)
  info : η → SessionInfo
  call : (o : Op) → η → σ → Except GoError (Want o.kind) × σ

/-- Of a `syscall.Signal`. -/
def normalizeSignal (signal : Int) : Except GoError Int :=
  if signal ≤ 0 then .error ⟨[.invalidSignal], utf8 (Sentinel.invalidSignal.text ++ ": syscall.Signal")⟩ else .ok signal

variable {σ η : Type}

/-- The method of `Session`: the backend's, but for `Signal`. -/
def Hub.session (H : Hub σ η) : (o : Op) → η → σ → Except GoError (Want o.kind) × σ
  | .signal signal, h, s =>
    match normalizeSignal signal with
    | .error e => (.error e, s)
    | .ok native => H.call (.signal native) h s
  | o, h, s => H.call o h s

/-- What the other connections do to the state before the request is dispatched, and between
    finding the session and calling it; and whether the client is gone when `Wait` returns. -/
structure Moment (σ : Type) where
  before : σ → σ
  between : σ → σ
  gone : Bool

/-! ## One request -/

structure CreateParams where
  name : String
  dir : String
  path : String
  args : List String
  shellCommand : String
  cols : Int
  rows : Int
  env : List String
  vtScrollbackMaxBytes : Nat
  deriving DecidableEq, Repr

structure Params where
  name : Except String String
  create : Except String CreateParams
  signal : Except String (String × Int)
  input : Except String String
  resize : Except String (String × Size)
  prune : Except String (String × Cursor)

def decode {α : Type} (value : Except String α) : Except GoError α := value.mapError fun m => .of (.other m)

def protocolVersion : String := "1.0.0"
def protocolCapabilities : List String := ["raw-payload-v1", "pull-stream-v1", "atomic-state-v1"]
def currentProtocolLimits : ProtocolLimits := ⟨maxRPCFrame, maxRPCPayload, maxRPCChunk⟩

/-- What the server knows of itself. -/
structure Build where
  tagVersion : String
  maxClientConnections : Nat
  deriving DecidableEq, Repr

def Build.version (build : Build) : VersionResult :=
  ⟨protocolVersion, build.tagVersion, protocolCapabilities, currentProtocolLimits, build.maxClientConnections⟩

def CreateParams.options (p : CreateParams) : SessionOptions :=
  ⟨p.name, ⟨p.path, p.args, p.dir, p.env, p.shellCommand⟩, ⟨p.cols, p.rows⟩, p.vtScrollbackMaxBytes⟩

/-- A result for the wire, or none. -/
def reply : {want : Option Kind} → Want want → Option Reply
  | none, _ => none
  | some k, v => some ⟨k, v⟩

abbrev Answer := Except GoError (Option Reply)

variable (H : Hub σ η) (build : Build)

/-- A method of the session with this name. -/
def onSession (m : Moment σ) (name : Except GoError String) (s : σ) (o : Op) : Answer × σ :=
  match name with
  | .error e => (.error e, s)
  | .ok name =>
    match H.get name s with
    | .error e => (.error e, s)
    | .ok h =>
      let (result, s) := H.session o h (m.between s)
      (result.map reply, s)

def dispatch (m : Moment σ) (method : String) (raw : Params) (payload : List Byte) (s : σ) : Answer × σ :=
  let s := m.before s
  if method ≠ "writeInput" ∧ payload ≠ [] then (.error (.of (.other "RPC method does not accept a payload")), s)
  else
    match method with
    | "version" => (.ok (some ⟨.version, build.version⟩), s)
    | "create" =>
      match decode raw.create with
      | .error e => (.error e, s)
      | .ok params =>
        match H.start params.options s with
        | (.error e, s) => (.error e, s)
        | (.ok h, s) => (.ok (some ⟨.info, H.info h⟩), s)
    | "created" =>
      match decode raw.name with
      | .error e => (.error e, s)
      | .ok name =>
        match H.get name s with
        | .error e => (.error e, s)
        | .ok h => (.ok (some ⟨.info, H.info h⟩), s)
    | "status" => onSession H m (decode raw.name) s .status
    | "metadata" => onSession H m (decode raw.name) s .metadata
    | "size" => onSession H m (decode raw.name) s .size
    | "signal" =>
      match decode raw.signal with
      | .error e => (.error e, s)
      | .ok (name, signal) => onSession H m (.ok name) s (.signal signal)
    | "wait" =>
      match decode raw.name with
      | .error e => (.error e, s)
      | .ok name =>
        match H.get name s with
        | .error e => (.error e, s)
        | .ok h =>
          -- what `Wait` returns is not looked at
          let s := m.between s
          if m.gone then (.error (.of .canceled), s)
          else
            let (result, s) := H.session .status h s
            (result.map reply, s)
    | "terminate" => onSession H m (decode raw.name) s .terminate
    | "delete" => onSession H m (decode raw.name) s .delete
    | "writeInput" => onSession H m (decode raw.input) s (.writeInput payload)
    | "resize" =>
      match decode raw.resize with
      | .error e => (.error e, s)
      | .ok (name, size) => onSession H m (.ok name) s (.resize size)
    | "output.rotate" => onSession H m (decode raw.name) s .rotateOutput
    | "output.cursor" => onSession H m (decode raw.name) s .outputCursor
    | "output.prune" =>
      match decode raw.prune with
      | .error e => (.error e, s)
      | .ok (name, before) => onSession H m (.ok name) s (.pruneOutput before)
    | "list" =>
      match H.list s with
      | .error e => (.error e, s)
      | .ok sessions => (.ok (some ⟨.sessions, sessions.map H.info⟩), s)
    | method => (.error (.of (.other ("unknown method: " ++ method))), s)

/-! ## One connection -/

def Answer.result : Answer → Option Reply
  | .error _ => none
  | .ok r => r

def Answer.err : Answer → Option GoError
  | .error e => some e
  | .ok _ => none

variable {ρ : Type} (j : Json ρ Params) (c : Codec Reply)

inductive Fate (ρ : Type) where
  /-- The next request is read. -/
  | serving
  | closed
  /-- `serveOutput` or `serveBlob` has taken the connection over. -/
  | streaming (req : Request ρ)
  deriving DecidableEq, Repr

structure Served (σ ρ : Type) where
  /-- What was written to the connection. -/
  out : List Byte
  state : σ
  reader : Reader Byte
  fate : Fate ρ

/-- Of a write whose error ends the connection, or is ignored. -/
def written : Except Err (List Byte) → List Byte
  | .error _ => []
  | .ok bytes => bytes

def streams (method : String) : Bool := ["output", "replay", "checkpoint", "state.atomic"].contains method

def streamRefusal (method : String) : String :=
  if method = "output" then "output open request cannot contain a payload"
  else "blob open request cannot contain a payload"

/-- The connection up to the given number of requests, one for each moment. -/
def handle : List (Moment σ) → Reader Byte → σ → Served σ ρ
  | [], b, s => ⟨[], s, b, .serving⟩
  | m :: ms, b, s =>
    match readRequest j b with
    | (.error e, b) => ⟨written (writeResponse c (-1) none (some (.of e))), s, b, .closed⟩
    | (.ok (req, payload), b) =>
      if streams req.method then
        if payload ≠ [] then
          ⟨written (writeResponse c req.id none (some (.of (.other (streamRefusal req.method))))), s, b, .closed⟩
        else ⟨[], s, b, .streaming req⟩
      else
        let (answer, s) := dispatch H build m req.method (j.value req.params) payload s
        match writeResponse c req.id answer.result answer.err with
        | .error _ => ⟨[], s, b, .closed⟩
        | .ok bytes =>
          let rest := handle ms b s
          { rest with out := bytes ++ rest.out }

/-! ## What the client reads -/

/-- The response to a request: what was asked for or an error, if that gets too long. -/
def response (id : Int) (answer : Answer) : Response :=
  let r := header c id answer.result 0 answer.err
  if c.fits r then r else replacement id

/-- `n` calls of `readResponse`, for responses without a payload. -/
def readResponses : Nat → Reader Byte → Except Err (List Response) × Reader Byte
  | 0, b => (.ok [], b)
  | n + 1, b =>
    match readResponse c b with
    | (.error e, b) => (.error e, b)
    | (.ok r, b) =>
      match readResponses n b with
      | (.error e, b) => (.error e, b)
      | (.ok rs, b) => (.ok (r :: rs), b)

/-- These bytes are read as these responses, wherever they are read. -/
def Carries (bytes : List Byte) (responses : List Response) : Prop :=
  ∀ (b : Reader Byte) (rest : List Byte), b.content = bytes ++ rest →
    ∃ got b', readResponses c responses.length b = (.ok got, b') ∧ List.Forall₂ Alike responses got ∧ b'.content = rest

/-- No result nests as deep as `encoding/json` refuses to read. -/
def Shallow : Prop := ∀ v raw, c.value v = .ok raw → c.depth raw < maxNestingDepth

variable {c}

theorem carries_nil : Carries c [] [] := fun b rest hb => ⟨[], b, rfl, .nil, by simpa using hb⟩

theorem readResponses_add {n k : Nat} {b b₁ b₂ : Reader Byte} {got got' : List Response}
    (h : readResponses c n b = (.ok got, b₁)) (h' : readResponses c k b₁ = (.ok got', b₂)) :
    readResponses c (n + k) b = (.ok (got ++ got'), b₂) := by
  induction n generalizing b got with
  | zero =>
    obtain ⟨hgot, rfl⟩ := Prod.mk.inj h
    obtain rfl := Except.ok.inj hgot
    simpa using h'
  | succ n ih =>
    rw [Nat.add_right_comm]
    simp only [readResponses] at h ⊢
    split at h
    · cases h
    · rename_i r b' hr
      split at h
      · cases h
      · rename_i rs b'' hrs
        obtain ⟨hgot, rfl⟩ := Prod.mk.inj h
        obtain rfl := Except.ok.inj hgot
        simp only [ih hrs, List.cons_append]

theorem Carries.append {bytes more : List Byte} {rs rs' : List Response} (h : Carries c bytes rs)
    (h' : Carries c more rs') : Carries c (bytes ++ more) (rs ++ rs') := by
  intro b rest hb
  rw [List.append_assoc] at hb
  obtain ⟨got, b₁, hread, hall, hb₁⟩ := h b _ hb
  obtain ⟨got', b₂, hread', hall', hb₂⟩ := h' b₁ rest hb₁
  refine ⟨got ++ got', b₂, ?_, List.rel_append hall hall', hb₂⟩
  rw [List.length_append]
  exact readResponses_add hread hread'

/-- A header that fits is read as itself. -/
theorem carries_header (hc : c.Faithful) {r : Response} {line : List Byte} (hr : c.Sends r)
    (hd : c.depth r.result < maxNestingDepth) (hm : c.marshal r = .ok line) (hl : line.length + 1 ≤ maxRPCFrame)
    (hcheck : r.check = .ok ()) : Carries c (line ++ [newline]) [r] := by
  intro b rest hb
  rw [List.append_assoc] at hb
  obtain ⟨r', b', halike, hrest, hread⟩ := readResponse_header hc hr hd hm hl hb
  refine ⟨[r'], b', ?_, .cons halike .nil, hrest⟩
  simp [readResponses, hread, hcheck, Except.map]

/-- The header of an answer, before it is measured. -/
theorem header_sends (hc : c.Faithful) (hs : Shallow c) {id : Int} (hid : (0 < id ∨ id = -1) ∧ id < 2 ^ 63)
    (a : Answer) : ∃ r, header c id a.result 0 a.err = r ∧ c.Sends r ∧ c.depth r.result < maxNestingDepth ∧
      r.check = .ok () := by
  have hempty : c.depth [] < maxNestingDepth := by rw [hc.empty]; decide
  have hrange : -2 ^ 63 ≤ id ∧ id < 2 ^ 63 := by omega
  -- the reader asks no more of a header without a payload than that an error stands alone
  have htaken : ∀ r : Response, r.wire = wireVersion → r.id = id → r.payloadBytes = 0 →
      (r.error ≠ none → r.result = []) → r.check = .ok () := fun r hw hi hp he =>
    (check_ok_iff hw (by rw [hp]; decide)).mpr ⟨hi ▸ hid.1, fun h => ⟨he h, hp⟩⟩
  cases a with
  | error e =>
    exact ⟨_, rfl, ⟨rfl, hrange, by simp [header, Answer.err], .inl rfl⟩, hempty, htaken _ rfl rfl rfl fun _ => rfl⟩
  | ok result =>
    cases result with
    | none =>
      exact ⟨_, rfl, ⟨rfl, hrange, by simp [header, Answer.err, Answer.result], .inl rfl⟩, hempty,
        htaken _ rfl rfl rfl fun _ => rfl⟩
    | some v =>
      simp only [header, Answer.err, Answer.result]
      cases hv : c.value v with
      | error m => exact ⟨_, rfl, ⟨rfl, hrange, by simp, .inl rfl⟩, hempty, htaken _ rfl rfl rfl fun _ => rfl⟩
      | ok raw =>
        exact ⟨_, rfl, ⟨rfl, hrange, by simp, .inr ⟨v, hv⟩⟩, hs v raw hv, htaken _ rfl rfl rfl fun h => absurd rfl h⟩

/-- An answer is always written, and read as the response that it is. -/
theorem carries_response (hc : c.Faithful) (hs : Shallow c) {id : Int} (hid : (0 < id ∨ id = -1) ∧ id < 2 ^ 63)
    (a : Answer) : ∃ bytes, writeResponse c id a.result a.err = .ok bytes ∧ Carries c bytes [response c id a] := by
  obtain ⟨r, hr, hsends, hd, hcheck⟩ := header_sends hc hs hid a
  obtain ⟨line, hm⟩ := hc.encodes r hsends (Nat.le_of_lt hd)
  simp only [response, writeResponse, encodeResponse, hr, hm, Codec.fits, decide_eq_true_eq]
  by_cases hl : line.length + 1 ≤ maxRPCFrame
  · rw [if_pos hl, if_neg (Nat.not_lt.mpr hl)]
    exact ⟨_, rfl, carries_header hc hsends hd hm hl hcheck⟩
  · have hsends' : c.Sends (replacement id) := replacement_sends (by omega)
    have hd' : c.depth (replacement id).result < maxNestingDepth := by rw [replacement, hc.empty]; decide
    obtain ⟨line', hm'⟩ := hc.encodes _ hsends' (Nat.le_of_lt hd')
    rw [if_neg hl, if_pos (Nat.lt_of_not_le hl), hm']
    exact ⟨_, rfl, carries_header hc hsends' hd' hm' (hc.short _ _ hsends' (replacement_short id) hm')
      ((check_ok_iff rfl hsends'.payloadBytes).mpr ⟨hid.1, fun _ => ⟨rfl, rfl⟩⟩)⟩

/-! ## One request behind the other -/

/-- A request with an id of its own that is neither a stream's nor `wait`. -/
structure Ordinary (req : Request ρ) : Prop where
  id : 0 < req.id ∧ req.id < 2 ^ 63
  named : req.method ≠ ""
  streams : streams req.method = false
  wait : req.method ≠ "wait"

/-- The calls of the hub that the requests are, in their order. -/
def serve : List (Moment σ) → List (Request ρ × List Byte) → σ → List Answer × σ
  | m :: ms, (req, payload) :: rest, s =>
    let (answer, s) := dispatch H build m req.method (j.value req.params) payload s
    let (answers, s) := serve ms rest s
    (answer :: answers, s)
  | _, _, s => ([], s)

variable (c) in
/-- The responses to these requests. -/
def responses (sent : List (Request ρ × List Byte)) (answers : List Answer) : List Response :=
  List.zipWith (fun r a => response c r.1.id a) sent answers

/-- A request that has been read is answered, and the connection goes on. -/
theorem handle_request (hc : c.Faithful) (hs : Shallow c) {req : Request ρ} {got : Request ρ × List Byte}
    {payload : List Byte} (hid : 0 < req.id ∧ req.id < 2 ^ 63) (hstreams : streams req.method = false)
    (hsame : Same j (req, payload) got) {b b' : Reader Byte}
    (hread : readRequest j b = (.ok got, b')) (m : Moment σ) (s : σ) :
    ∃ bytes, Carries c bytes [response c req.id (dispatch H build m req.method (j.value req.params) payload s).1] ∧
      ∀ ms, handle H build j c (m :: ms) b s =
        let rest := handle H build j c ms b' (dispatch H build m req.method (j.value req.params) payload s).2
        { rest with out := bytes ++ rest.out } := by
  obtain ⟨got, data⟩ := got
  obtain ⟨hmethod, hsameId, hparams, hdata⟩ := hsame
  simp only at hmethod hsameId hparams hdata
  obtain ⟨bytes, hw, hcarries⟩ := carries_response hc hs ⟨.inl hid.1, hid.2⟩
    (dispatch H build m req.method (j.value req.params) payload s).1
  refine ⟨bytes, hcarries, fun ms => ?_⟩
  simp only [handle, hread, hmethod, hsameId, hparams, hdata, hstreams, hw]
  rfl

/-- A request that cannot be read has one response and is the last. -/
theorem handle_unread (hc : c.Faithful) (hs : Shallow c) {b b' : Reader Byte} {e : Err}
    (hread : readRequest j b = (.error e, b')) (m : Moment σ) (ms : List (Moment σ)) (s : σ) :
    ∃ bytes, Carries c bytes [response c (-1) (.error (.of e))] ∧
      handle H build j c (m :: ms) b s = ⟨bytes, s, b', .closed⟩ := by
  obtain ⟨bytes, hw, hcarries⟩ := carries_response hc hs ⟨.inr rfl, by decide⟩ (.error (.of e))
  refine ⟨bytes, hcarries, ?_⟩
  simp only [Answer.result, Answer.err] at hw
  simp [handle, hread, hw, written]

/-- Requests that were written are answered, and the connection goes on behind them. -/
theorem handle_written (hj : j.Faithful) (hc : c.Faithful) (hs : Shallow c) :
    ∀ (sent : List (Request ρ × List Byte)) (ms : List (Moment σ)) (s : σ) {b : Reader Byte} {bytes rest : List Byte},
      (∀ r ∈ sent, Ordinary r.1) → ms.length = sent.length → writeRequests j sent = .ok bytes →
      b.content = bytes ++ rest → ∃ out b', Carries c out (responses c sent (serve H build j ms sent s).1) ∧
        b'.content = rest ∧ ∀ more, handle H build j c (ms ++ more) b s =
          let last := handle H build j c more b' (serve H build j ms sent s).2
          { last with out := out ++ last.out } := by
  intro sent
  induction sent with
  | nil =>
    intro ms s b bytes rest _ hlen hw hb
    obtain rfl := List.length_eq_zero_iff.mp hlen
    obtain rfl := Except.ok.inj hw
    exact ⟨[], b, carries_nil, by simpa using hb, fun _ => rfl⟩
  | cons r sent ih =>
    intro ms s b bytes rest hord hlen hw hb
    obtain ⟨m, ms, rfl⟩ := List.exists_cons_of_length_eq_add_one hlen
    obtain ⟨req, payload⟩ := r
    have hreq := hord _ (.head _)
    simp only [writeRequests] at hw
    split at hw
    · rename_i first others hfirst hothers
      obtain rfl := Except.ok.inj hw
      rw [List.append_assoc] at hb
      obtain ⟨got, b₁, hread, hsame, hb₁⟩ := readRequest_written hj hreq.id.1 hreq.named hfirst hb
      obtain ⟨line, hcarries, hhandle⟩ := handle_request H build j hc hs hreq.id hreq.streams hsame hread m s
      obtain ⟨out, b', hcarries', hrest, hhandle'⟩ := ih ms
        (dispatch H build m req.method (j.value req.params) payload s).2 (fun x hx => hord x (.tail _ hx))
        (Nat.succ.inj hlen) hothers hb₁
      refine ⟨line ++ out, b', hcarries.append hcarries', hrest, fun more => ?_⟩
      rw [List.cons_append, hhandle, hhandle']
      simp [serve]
    · cases hw
    · cases hw

/-- Requests written one behind the other, in whatever pieces they arrive and whatever other
    connections do in between: each is answered, in order and under its own id, with what the
    hub returned when it was called, once for each and in this order; what is behind them is
    left in the connection, and if that is no request it is answered once, under no request's
    id, and changes nothing. -/
theorem requests_are_answered_in_order (hj : j.Faithful) (hc : c.Faithful) (hs : Shallow c)
    (sent : List (Request ρ × List Byte)) (ms : List (Moment σ)) (s : σ) (b : Reader Byte) (bytes rest : List Byte)
    (hsent : ∀ r ∈ sent, Ordinary r.1) (hms : ms.length = sent.length) (hw : writeRequests j sent = .ok bytes)
    (hb : b.content = bytes ++ rest) :
    let calls := serve H build j ms sent s
    let served := handle H build j c ms b s
    (served.fate = .serving ∧ served.state = calls.2 ∧ served.reader.content = rest ∧
      Carries c served.out (responses c sent calls.1)) ∧
    ∀ (e : Err) (m : Moment σ), (readRequest j served.reader).1 = .error e →
      let closed := handle H build j c (ms ++ [m]) b s
      closed.fate = .closed ∧ closed.state = calls.2 ∧
        Carries c closed.out (responses c sent calls.1 ++ [response c (-1) (.error (.of e))]) := by
  intro calls served
  obtain ⟨out, b', hcarries, hrest, hhandle⟩ := handle_written H build j hj hc hs sent ms s hsent hms hw hb
  have hserved : served = ⟨out, calls.2, b', .serving⟩ := by simpa [handle] using hhandle []
  refine ⟨?_, ?_⟩
  · rw [hserved]
    exact ⟨rfl, rfl, hrest, hcarries⟩
  · intro e m he closed
    rw [hserved] at he
    have hread : readRequest j b' = (.error e, (readRequest j b').2) := Prod.ext he rfl
    obtain ⟨last, hlast, hclosed⟩ := handle_unread H build j hc hs hread m [] calls.2
    have hall : closed = ⟨out ++ last, calls.2, (readRequest j b').2, .closed⟩ := by
      simp only [closed, hhandle [m]]
      rw [hclosed]
    rw [hall]
    exact ⟨rfl, rfl, hcarries.append hlast⟩

/-! ## An instance -/

/-- A hub with one session, of which there is only its size. -/
def oneSession : Hub Size Unit where
  start _ s := (.error (.of (.sentinel .sessionExists)), s)
  get name _ := if name = "s" then .ok () else .error (.of (.sentinel .sessionNotFound))
  list _ := .ok [()]
  info _ := ⟨"s", 0⟩
  call
    | .size, _, s => (.ok s, s)
    | .resize size, _, _ => (.ok (), size)
    | _, _, s => (.error (.of (.sentinel .sessionClosed)), s)

open Lib.JsonText

/-- `nameParams` and `resizeParams`, for that session. -/
def sizeParams (raw : List Byte) : Params :=
  let missing {α : Type} : Except String α := .error "unexpected end of JSON input"
  let size (text : List Byte) : Size :=
    ⟨(readInt text).1, (readInt ((readInt text).2.drop (utf8 ",\"rows\":").length)).1⟩
  { name := if (utf8 "\x7b\"name\":\"s\"").isPrefixOf raw then .ok "s" else missing
    create := missing
    signal := missing
    input := missing
    resize := ((skip (utf8 "\x7b\"name\":\"s\",\"cols\":") raw).map fun text => .ok ("s", size text)).getD missing
    prune := missing }

def askResize : Request (List Byte) :=
  ⟨wireVersion, 1, "resize", utf8 "\x7b\"name\":\"s\",\"cols\":132,\"rows\":43\x7d", 0⟩

def askSize : Request (List Byte) := ⟨wireVersion, 2, "size", utf8 "\x7b\"name\":\"s\"\x7d", 0⟩

def sizeRequests : Json (List Byte) Params := requestJson ["resize", "size"] sizeParams

/-- Sizes, and nothing else. -/
def sizeReply : Reply → Except String (List Byte)
  | ⟨.size, size⟩ => .ok (sizeLine size)
  | _ => .error "unsupported type"

def sizeCodec : Codec Reply := jsonCodec sizeReply

theorem sizeCodec_faithful : sizeCodec.Faithful := by
  refine jsonCodec_faithful fun v raw h => ?_
  obtain ⟨k, v⟩ := v
  cases k with
  | size =>
    obtain rfl := Except.ok.inj h
    exact isValue_sizeLine v
  | _ => cases h

theorem sizeCodec_shallow : Shallow sizeCodec := by
  intro _ _ _
  show 0 < maxNestingDepth
  decide

/-- Nobody else is there. -/
def quiet {σ : Type} : Moment σ := ⟨id, id, false⟩

/-- The two requests, one behind the other. -/
def resizeAndSize : List Byte :=
  utf8 ("\x7b\"wire\":1,\"id\":1,\"method\":\"resize\",\"params\":\x7b\"name\":\"s\",\"cols\":132,\"rows\":43\x7d\x7d\n" ++
    "\x7b\"wire\":1,\"id\":2,\"method\":\"size\",\"params\":\x7b\"name\":\"s\"\x7d\x7d\n")

/-- A request to resize with one for the size right behind it, and then the client is gone. -/
theorem requests_are_answered_in_order_resize :
    ∃ closed : Served Size (List Byte),
      handle oneSession ⟨"", 1⟩ sizeRequests sizeCodec [quiet, quiet, quiet] (.ofList resizeAndSize) ⟨80, 24⟩ = closed ∧
        closed.fate = .closed ∧ closed.state = ⟨132, 43⟩ ∧
      Carries sizeCodec closed.out [response sizeCodec 1 (.ok none),
        response sizeCodec 2 (.ok (some ⟨.size, (⟨132, 43⟩ : Size)⟩)), response sizeCodec (-1) (.error (.of .eof))] := by
  have hordinary : ∀ r ∈ [(askResize, ([] : List Byte)), (askSize, [])], Ordinary r.1 := by
    intro r hr
    simp only [List.mem_cons, List.not_mem_nil, or_false] at hr
    rcases hr with rfl | rfl <;> exact ⟨by decide, by decide, by decide, by decide⟩
  have hwritten : writeRequests sizeRequests [(askResize, []), (askSize, [])] = .ok resizeAndSize := by decide +kernel
  have hcalls : serve oneSession ⟨"", 1⟩ sizeRequests [quiet, quiet] [(askResize, []), (askSize, [])] ⟨80, 24⟩ =
      ([.ok none, .ok (some ⟨.size, (⟨132, 43⟩ : Size)⟩)], ⟨132, 43⟩) := by rfl
  obtain ⟨⟨-, -, hrest, -⟩, hclosed⟩ := requests_are_answered_in_order oneSession ⟨"", 1⟩ sizeRequests
    (requestJson_faithful _ _) sizeCodec_faithful sizeCodec_shallow [(askResize, []), (askSize, [])] [quiet, quiet]
    ⟨80, 24⟩ (.ofList resizeAndSize) _ [] hordinary rfl hwritten (by rfl)
  have h := hclosed .eof quiet (readRequest_end hrest)
  rw [hcalls] at h
  exact ⟨_, rfl, h⟩

end Ghostline.Rpc.Service
