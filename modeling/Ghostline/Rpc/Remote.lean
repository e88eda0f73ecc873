/-
  Ghostline.Rpc.Remote — the handles of a client (client.go: `callOncePayload`, `Start`, `Get`,
  `List`, `wait`, and the methods of `remoteSession` that are one request; session.go: the
  methods of `Session`).

  A handle of a client is the name of its session. Each of its calls is one request on a
  connection of its own, which the server answers with the same call of the session that its
  hub then has under this name (`Rpc.Dispatch`).

  `encoding/json` is a parameter on both ends (`Peer`). It is taken to give back what it was
  given, texts that are no UTF-8 apart: of these nothing is said.

  A remote call does to the hub what the local one does and returns what that returned: a
  result, unless it gets too long for a frame, or an error, of which the first sentinel and the
  text are left (`a_remote_call_is_the_local_call`). The request that does not fit into its
  frame is not sent. `Wait` is the exception: over the wire it is made of a status, which has
  no error but an exit, and no exit beside an error (`remote_wait_is_the_status`).

  The context is one that nobody cancels, and the server is there: dialing, and what
  `callRetryable` does when that fails, are not modelled.
-/

import Ghostline.Rpc.Dispatch

namespace Ghostline.Rpc.Service

open Lib.Buffered Handoff Terminal

/-! ## Requests -/

/-- The parameters that the client encodes. -/
inductive Ask where
  | absent
  | name (name : String)
  | create (params : CreateParams)
  | signal (name : String) (signal : Int)
  | input (name : String)
  | resize (name : String) (size : Size)
  | prune (name : String) (before : Cursor)
  deriving DecidableEq, Repr

/-- The server reads these parameters at the type that the client wrote. -/
def Ask.Decodes : Ask → Params → Prop
  | .absent, _ => True
  | .name n, p => p.name = .ok n
  | .create params, p => p.create = .ok params
  | .signal n native, p => p.signal = .ok (n, native)
  | .input n, p => p.input = .ok n
  | .resize n size, p => p.resize = .ok (n, size)
  | .prune n before, p => p.prune = .ok (n, before)

def IsText (t : List Byte) : Prop := ∃ s : String, utf8 s = t

/-- What `encoding/json` does not change. -/
def Kind.Plain : (k : Kind) → k.Value → Prop
  | .metadata, (m : SessionMetadata) => IsText m.process ∧ IsText m.commandLine ∧ IsText m.directory
  | _, _ => True

/-- `encoding/json` on both ends. -/
structure Peer (ρ : Type) where
  json : Json ρ Params
  codec : Codec Reply
  encode : Ask → Except String ρ
  unmarshal : (k : Kind) → List Byte → Except String k.Value

structure Peer.Faithful {ρ : Type} (P : Peer ρ) : Prop where
  json : P.json.Faithful
  codec : P.codec.Faithful
  shallow : Shallow P.codec
  asks : ∀ a raw, P.encode a = .ok raw → a.Decodes (P.json.value raw)
  reads : ∀ k v raw, P.codec.value ⟨k, v⟩ = .ok raw → raw ≠ [] ∧ (k.Plain v → P.unmarshal k raw = .ok v)

/-- A connection, that delivers in pieces of any size. -/
structure Net where
  toServer : List Byte → Reader Byte
  toClient : List Byte → Reader Byte
  toServer_content : ∀ bytes, (toServer bytes).content = bytes
  toClient_content : ∀ bytes, (toClient bytes).content = bytes

/-! ## One call -/

/-- The zero time, in nanoseconds. -/
def zeroTime : Int := -62135596800 * 10 ^ 9

def Kind.zero : (k : Kind) → k.Value
  | .version => (⟨"", "", [], ⟨0, 0, 0⟩, 0⟩ : VersionResult)
  | .info => (⟨"", zeroTime⟩ : SessionInfo)
  | .status => (⟨false, none⟩ : Status)
  | .metadata => (⟨[], [], [], none⟩ : SessionMetadata)
  | .size => (0 : Size)
  | .cursor => (0 : Cursor)
  | .sessions => ([] : List SessionInfo)

variable {ρ σ η : Type} (P : Peer ρ)

/-- What the client makes of a response. -/
def receive (want : Option Kind) (r : Response) : Except GoError (Want want) :=
  if r.id ≠ 1 then .error (.of (.other "ghostline: mismatched RPC response ID"))
  else
    match r.error with
    | some e => .error (decodeRPCError e)
    | none =>
      if r.payloadBytes ≠ 0 then .error (.of (.other "ghostline: unexpected RPC response payload"))
      else
        match want with
        | none => .ok ()
        | some k =>
          if r.result = [] then .ok k.zero else (P.unmarshal k r.result).mapError fun m => .of (.other m)

/-- The request of a call, as it is sent. -/
def request (method : String) (params : Ask) (payload : List Byte) : Except Err (List Byte) :=
  match P.encode params with
  | .error m => .error (.other m)
  | .ok raw => writeRequestPayload P.json ⟨wireVersion, 1, method, raw, 0⟩ payload

variable (net : Net) (H : Hub σ η) (build : Build) (m : Moment σ)

def callOncePayload (method : String) (params : Ask) (payload : List Byte) (want : Option Kind) (s : σ) :
    Except GoError (Want want) × σ :=
  match request P method params payload with
  | .error e => (.error (.of e), s)
  | .ok bytes =>
    let served := handle H build P.json P.codec [m] (net.toServer bytes) s
    match readResponse P.codec (net.toClient served.out) with
    | (.error e, _) => (.error (.of e), served.state)
    | (.ok r, _) => (receive P want r, served.state)

/-! ## The handles -/

def Op.method : Op → String
  | .status => "status"
  | .metadata => "metadata"
  | .size => "size"
  | .signal _ => "signal"
  | .writeInput _ => "writeInput"
  | .resize _ => "resize"
  | .outputCursor => "output.cursor"
  | .rotateOutput => "output.rotate"
  | .pruneOutput _ => "output.prune"
  | .terminate => "terminate"
  | .delete => "delete"

def Op.params (name : String) : Op → Ask
  | .signal native => .signal name native
  | .writeInput _ => .input name
  | .resize grid => .resize name grid
  | .pruneOutput before => .prune name before
  | .status | .metadata | .size | .outputCursor | .rotateOutput | .terminate | .delete => .name name

def Op.payload : Op → List Byte
  | .writeInput data => data
  | _ => []

/-- The methods of `remoteSession`. -/
def remoteSession (name : String) (o : Op) (s : σ) : Except GoError (Want o.kind) × σ :=
  callOncePayload P net H build m o.method (o.params name) o.payload o.kind s

/-- What `Session` asks of a call before it hands it to its backend. -/
def Op.check : Op → Except GoError Unit
  | .signal native => (normalizeSignal native).map fun _ => ()
  | _ => .ok ()

/-- The methods of `Session` for the handle of a client. -/
def remote (name : String) (o : Op) (s : σ) : Except GoError (Want o.kind) × σ :=
  match o.check with
  | .error e => (.error e, s)
  | .ok () => remoteSession P net H build m name o s

/-- The same method of the session that the hub has under this name, called in this process. -/
def direct (name : String) (o : Op) (s : σ) : Except GoError (Want o.kind) × σ :=
  let s := m.before s
  match H.get name s with
  | .error e => (.error e, s)
  | .ok h => H.session o h (m.between s)

/-- A handle as `Start`, `Get` and `List` return it. -/
structure Handle where
  name : String
  info : SessionInfo
  deriving DecidableEq, Repr

def SessionOptions.params (o : SessionOptions) : CreateParams :=
  { name := o.name, dir := o.process.directory, path := o.process.path, args := o.process.args,
    shellCommand := o.process.shellCommand, cols := o.size.columns, rows := o.size.rows, env := o.process.environment,
    vtScrollbackMaxBytes := o.vtScrollbackMaxBytes }

def start (options : SessionOptions) (s : σ) : Except GoError Handle × σ :=
  let (result, s) := callOncePayload P net H build m "create" (.create options.params) [] (some .info) s
  (result.map fun info => ⟨options.name, info⟩, s)

def get (name : String) (s : σ) : Except GoError Handle × σ :=
  let (result, s) := callOncePayload P net H build m "created" (.name name) [] (some .info) s
  (result.map fun info => ⟨name, info⟩, s)

def list (s : σ) : Except GoError (List Handle) × σ :=
  let (result, s) := callOncePayload P net H build m "list" .absent [] (some .sessions) s
  (result.map fun infos => List.map (fun info : SessionInfo => ⟨info.name, info⟩) infos, s)

/-- `wait` of a handle: no error, or the exit. -/
def wait (name : String) (s : σ) : Except GoError (Option ExitError) × σ :=
  let (result, s) := callOncePayload P net H build m "wait" (.name name) [] (some .status) s
  (result.map Status.exit, s)

/-! ## What arrives -/

/-- The error that the client has for one of the server: with its first sentinel, if any. -/
def GoError.Arrives (sent got : GoError) : Prop :=
  got.wraps = ((codes.find? fun p => p.1 ∈ sent.wraps).map Prod.fst).toList

/-- What the client has for what the server's call returned. A result that does not encode, or
    that gets too long, is an error. -/
def Arrives (want : Option Kind) (sent got : Except GoError (Want want)) : Prop :=
  match sent with
  | .error e => ∃ e', got = .error e' ∧ GoError.Arrives e e'
  | .ok v =>
    match want with
    | none => got = .ok v
    | some k =>
      match P.codec.value ⟨k, v⟩ with
      | .error _ => ∃ e', got = .error e'
      | .ok raw =>
        if P.codec.fits ⟨wireVersion, 1, raw, none, 0⟩ then k.Plain v → got = .ok v
        else ∃ e', got = .error e' ∧ e'.wraps = [.frameTooLarge]

/-- The result is encoded and fits into a response. -/
def Peer.Fits (P : Peer ρ) (r : Reply) : Prop :=
  ∃ raw, P.codec.value r = .ok raw ∧ P.codec.fits ⟨wireVersion, 1, raw, none, 0⟩ = true

variable {P}

theorem Arrives.fits {k : Kind} {v : k.Value} {got : Except GoError k.Value} (h : Arrives P (some k) (.ok v) got)
    (hfits : P.Fits ⟨k, v⟩) (hplain : k.Plain v) : got = .ok v := by
  obtain ⟨raw, hraw, hfits⟩ := hfits
  simp only [Arrives, hraw, hfits, if_true] at h
  exact h hplain

/-- The client receives an error as the server's. -/
theorem receive_error {want : Option Kind} {r r' : Response} {e : RpcError} (halike : Alike r r') (hid : r.id = 1)
    (he : r.error = some e) : ∃ e', receive P want r' = .error e' ∧ e'.wraps = (decodeRPCError e).wraps := by
  have herr := halike.error
  rw [he] at herr
  obtain ⟨e', he', hcode⟩ := Option.map_eq_some_iff.mp herr
  refine ⟨decodeRPCError e', ?_, decodeRPCError_wraps hcode⟩
  simp [receive, halike.id, hid, he']

/-- What the client makes of the response to a call. -/
theorem receive_arrives (hP : P.Faithful) {want : Option Kind} (result : Except GoError (Want want)) {r : Response}
    (h : Alike (response P.codec 1 (result.map reply)) r) : Arrives P want result (receive P want r) := by
  have herror : ∀ (e : RpcError) (sent : Response), sent.id = 1 → sent.error = some e → Alike sent r →
      ∃ e', receive P want r = .error e' ∧ e'.wraps = (decodeRPCError e).wraps := fun e sent hid he halike =>
    receive_error halike hid he
  cases result with
  | error e =>
    have hfits : P.codec.fits ⟨wireVersion, 1, [], some (newRPCError e), 0⟩ = true :=
      fits_short hP.codec ⟨rfl, by simp, by simp, .inl rfl⟩ ⟨rfl, .inr ⟨e, rfl⟩⟩
    simp only [Except.map, response, Answer.result, Answer.err, header, Nat.cast_zero, hfits, if_true] at h
    obtain ⟨e', he', hwraps⟩ := herror _ _ rfl rfl h
    exact ⟨e', he', hwraps.trans (decodeRPCError_newRPCError e)⟩
  | ok v =>
    cases want with
    | none =>
      have hfits : P.codec.fits ⟨wireVersion, 1, [], none, 0⟩ = true :=
        fits_short hP.codec ⟨rfl, by simp, by simp, .inl rfl⟩ ⟨rfl, .inl rfl⟩
      simp only [Except.map, response, reply, Answer.result, Answer.err, header, Nat.cast_zero, hfits, if_true] at h
      have hnone : r.error = none := by simpa using h.error
      simp [Arrives, receive, h.id, hnone, h.payloadBytes]
    | some k =>
      simp only [Except.map, response, reply, Answer.result, Answer.err, header, Nat.cast_zero] at h
      simp only [Arrives]
      cases hv : P.codec.value ⟨k, v⟩ with
      | error text =>
        simp only [hv] at h
        -- the error of the encoder, or the one for its length
        split at h
        · obtain ⟨e', he', -⟩ := herror _ _ rfl rfl h
          exact ⟨e', he'⟩
        · obtain ⟨e', he', -⟩ := herror _ _ rfl rfl h
          exact ⟨e', he'⟩
      | ok raw =>
        obtain ⟨hraw, hread⟩ := hP.reads k v raw hv
        simp only [hv] at h
        split at h <;> rename_i hfits
        · simp only [hfits, if_true]
          intro hplain
          have hnone : r.error = none := by simpa using h.error
          simp [receive, h.id, hnone, h.payloadBytes, h.result, hraw, hread hplain, Except.mapError]
        · simp only [hfits]
          obtain ⟨e', he', hwraps⟩ := herror _ _ rfl rfl h
          exact ⟨e', he', hwraps.trans (by decide)⟩

/-- A request that is sent comes to the hub's call, and what that returned arrives. -/
theorem call_arrives (hP : P.Faithful) {method : String} {params : Ask} {payload bytes : List Byte}
    (want : Option Kind) (result : Except GoError (Want want)) {s s' : σ} (hmethod : method ≠ "")
    (hstreams : streams method = false) (hreq : request P method params payload = .ok bytes)
    (hd : ∀ p, params.Decodes p → dispatch H build m method p payload s = (result.map reply, s')) :
    (callOncePayload P net H build m method params payload want s).2 = s' ∧
      Arrives P want result (callOncePayload P net H build m method params payload want s).1 := by
  simp only [callOncePayload, hreq]
  simp only [request] at hreq
  split at hreq
  · cases hreq
  · rename_i raw hraw
    -- the server reads the request that the client wrote
    obtain ⟨got, b', hread, hsame, -⟩ := readRequest_written hP.json Int.one_pos hmethod hreq
      ((net.toServer_content bytes).trans (List.append_nil bytes).symm)
    obtain ⟨out, hcarries, hhandle⟩ := handle_request H build P.json hP.codec hP.shallow ⟨Int.one_pos, by simp⟩ hstreams
      hsame hread m s
    rw [hhandle []]
    simp only [hd _ (hP.asks _ _ hraw), handle, List.append_nil] at hcarries ⊢
    -- and the client the response that the server wrote
    obtain ⟨rs, b'', hrs, hall, -⟩ := hcarries (net.toClient out) [] (by rw [net.toClient_content, List.append_nil])
    simp only [List.length_cons, List.length_nil, readResponses] at hrs
    rcases hr : readResponse P.codec (net.toClient out) with ⟨_ | r, b₁⟩ <;> rw [hr] at hrs
    · cases hrs
    · obtain ⟨hrs, -⟩ := Prod.mk.inj hrs
      obtain rfl := Except.ok.inj hrs
      exact ⟨rfl, receive_arrives hP result (List.forall₂_cons.mp hall).1⟩

theorem onSession_direct (o : Op) (name : String) (s : σ) :
    onSession H m (.ok name) (m.before s) o = ((direct H m name o s).1.map reply, (direct H m name o s).2) := by
  simp only [onSession, direct]
  cases H.get name (m.before s) <;> rfl

/-- The server's call for a request is the local one. -/
theorem dispatch_op (o : Op) (name : String) (s : σ) {p : Params} (h : (o.params name).Decodes p) :
    dispatch H build m o.method p o.payload s = ((direct H m name o s).1.map reply, (direct H m name o s).2) := by
  rw [← onSession_direct]
  obtain ⟨n, create, signal, input, resize, prune⟩ := p
  cases o <;> simp only [Op.params, Ask.Decodes] at h <;> subst h
  case writeInput data =>
    unfold dispatch
    refine if_neg ?_
    intro hrefused
    exact hrefused.1 rfl
  all_goals rfl

/-! ## An instance -/

/-- Sizes, a session of 1970, and the status of a stopped session with no exit. -/
def plainReply : Reply → Except String (List Byte)
  | ⟨.size, (size : Size)⟩ => .ok (sizeLine size)
  | ⟨.info, (info : SessionInfo)⟩ =>
    if info = ⟨"s", 0⟩ then .ok (utf8 "\x7b\"info\":\x7b\"name\":\"s\",\"createdAt\":\"1970-01-01T00:00:00Z\"\x7d\x7d")
    else .error "unsupported value"
  | ⟨.status, (status : Status)⟩ =>
    if status = ⟨false, none⟩ then .ok (utf8 "\x7b\"alive\":false\x7d") else .error "unsupported value"
  | _ => .error "unsupported type"

def readReply : (k : Kind) → List Byte → Except String k.Value
  | .size, raw => .ok (readSize raw)
  | .info, _ => .ok (⟨"s", 0⟩ : SessionInfo)
  | .status, _ => .ok (⟨false, none⟩ : Status)
  | _, _ => .error "unsupported type"

/-- What is written is an object, and read back. -/
theorem plainReply_reads {k : Kind} {v : k.Value} {raw : List Byte} (h : plainReply ⟨k, v⟩ = .ok raw) :
    IsValue raw ∧ raw ≠ [] ∧ readReply k raw = .ok v := by
  cases k with
  | size =>
    obtain rfl := Except.ok.inj h
    have hread := readSize_line v []
    rw [List.append_nil] at hread
    exact ⟨isValue_sizeLine v, by simp [sizeLine], congrArg Except.ok hread⟩
  | info | status =>
    simp only [plainReply] at h
    split at h
    · rename_i hv
      obtain rfl := Except.ok.inj h
      exact ⟨⟨by decide, fun b hb => by cases hb; decide⟩, by decide, congrArg Except.ok hv.symm⟩
    · cases h
  | _ => cases h

/-- A peer that knows three requests, about one session. -/
def plainPeer : Peer (List Byte) where
  json := requestJson ["size", "created", "wait"] sizeParams
  codec := jsonCodec plainReply
  encode params := if params = .name "s" then .ok (utf8 "\x7b\"name\":\"s\"\x7d") else .error "unsupported value"
  unmarshal := readReply

theorem plainPeer_faithful : plainPeer.Faithful where
  json := requestJson_faithful _ _
  codec := jsonCodec_faithful fun _ _ h => (plainReply_reads h).1
  shallow := by
    intro _ _ _
    show 0 < maxNestingDepth
    decide
  asks params raw h := by
    simp only [plainPeer] at h
    split at h
    · rename_i hparams
      obtain rfl := Except.ok.inj h
      subst hparams
      exact (show (sizeParams (utf8 "\x7b\"name\":\"s\"\x7d")).name = .ok "s" by rfl)
    · cases h
  reads k v raw h := ⟨(plainReply_reads h).2.1, fun _ => (plainReply_reads h).2.2⟩

def listNet : Net := ⟨.ofList, .ofList, fun _ => rfl, fun _ => rfl⟩

/-- A hub with one session, of which there is what is on record. -/
def recorded : Hub SessionState Unit where
  start _ s := (.error (.of (.sentinel .sessionExists)), s)
  get name s := if name = s.name then .ok () else .error (.of (.sentinel .sessionNotFound))
  list _ := .ok [()]
  info _ := ⟨"s", 0⟩
  call
    | .status, _, s => ((Handoff.status s).mapError .of, s)
    | .size, _, s => (.ok s.size, s)
    | _, _, s => (.error (.of (.sentinel .sessionClosed)), s)

/-! ## The calls -/

/-- Every call of a client's handle: what `Session` refuses and what does not fit into a frame
    is an error of the client, and the hub is not called. Every other one does to the hub what
    the call of the session that the hub then has under this name does, and what that returned
    arrives. -/
theorem a_remote_call_is_the_local_call (hP : P.Faithful) (name : String) (o : Op) (s : σ) :
    match o.check, request P o.method (o.params name) o.payload with
    | .error e, _ => remote P net H build m name o s = (.error e, s)
    | .ok (), .error e => remote P net H build m name o s = (.error (.of e), s)
    | .ok (), .ok _ => (remote P net H build m name o s).2 = (direct H m name o s).2 ∧
        Arrives P o.kind (direct H m name o s).1 (remote P net H build m name o s).1 := by
  cases hcheck : o.check with
  | error e => simp [remote, hcheck]
  | ok u =>
    simp only [remote, hcheck, remoteSession]
    cases hreq : request P o.method (o.params name) o.payload with
    | error e => simp [callOncePayload, hreq]
    | ok bytes =>
      have hmethod : o.method ≠ "" := by cases o <;> simp [Op.method]
      have hstreams : streams o.method = false := by cases o <;> rfl
      exact call_arrives net H build m hP o.kind _ hmethod hstreams hreq fun p hp => dispatch_op H build m o name s hp

/-- The size of a session that has stopped. -/
theorem a_remote_call_is_the_local_call_size :
    remote plainPeer listNet recorded ⟨"", 1⟩ quiet "s" .size (stopped .success) = (.ok ⟨80, 24⟩, stopped .success) := by
  have hreq : request plainPeer "size" (.name "s") [] =
      .ok (utf8 "\x7b\"wire\":1,\"id\":1,\"method\":\"size\",\"params\":\x7b\"name\":\"s\"\x7d\x7d\n") := by decide +kernel
  have hfits : plainPeer.Fits ⟨.size, (⟨80, 24⟩ : Size)⟩ := ⟨_, rfl, by decide +kernel⟩
  have h := a_remote_call_is_the_local_call listNet recorded ⟨"", 1⟩ quiet plainPeer_faithful "s" .size (stopped .success)
  rw [show Op.check .size = .ok () from rfl] at h
  simp only [Op.method, Op.params, Op.payload, hreq] at h
  obtain ⟨hstate, harrives⟩ := h
  exact Prod.ext (Arrives.fits harrives hfits trivial) hstate

theorem dispatch_create (options : SessionOptions) (s : σ) {p : Params} (h : p.create = .ok options.params) :
    dispatch H build m "create" p [] s =
      (((H.start options (m.before s)).1.map H.info).map fun info => some ⟨.info, info⟩,
        (H.start options (m.before s)).2) := by
  have hcreate : decode p.create = .ok options.params := by rw [h]; rfl
  conv_lhs => whnf
  rw [hcreate]
  conv_lhs => whnf
  rw [show options.params.options = options from rfl]
  rcases H.start options (m.before s) with ⟨_ | h, s'⟩ <;> rfl

theorem dispatch_created (name : String) (s : σ) {p : Params} (h : p.name = .ok name) :
    dispatch H build m "created" p [] s =
      (((H.get name (m.before s)).map H.info).map fun info => some ⟨.info, info⟩, m.before s) := by
  have hname : decode p.name = .ok name := by rw [h]; rfl
  conv_lhs => whnf
  rw [hname]
  conv_lhs => whnf
  cases H.get name (m.before s) <;> rfl

theorem dispatch_list (p : Params) (s : σ) :
    dispatch H build m "list" p [] s =
      (((H.list (m.before s)).map (List.map H.info)).map fun infos => some ⟨.sessions, infos⟩, m.before s) := by
  conv_lhs => whnf
  cases H.list (m.before s) <;> rfl

/-- `Start`, `Get` and `List` of a client do what those of the hub do, and return its sessions
    by the names and creation times that they have there. -/
theorem the_remote_hub_is_the_hub (hP : P.Faithful) (s : σ) :
    (∀ options bytes, request P "create" (.create options.params) [] = .ok bytes →
      (start P net H build m options s).2 = (H.start options (m.before s)).2 ∧
      ∃ got, Arrives P (some .info) ((H.start options (m.before s)).1.map H.info) got ∧
        (start P net H build m options s).1 = got.map fun info => ⟨options.name, info⟩) ∧
    (∀ name bytes, request P "created" (.name name) [] = .ok bytes →
      (get P net H build m name s).2 = m.before s ∧
      ∃ got, Arrives P (some .info) ((H.get name (m.before s)).map H.info) got ∧
        (get P net H build m name s).1 = got.map fun info => ⟨name, info⟩) ∧
    ∀ bytes, request P "list" .absent [] = .ok bytes →
      (list P net H build m s).2 = m.before s ∧
      ∃ got, Arrives P (some .sessions) ((H.list (m.before s)).map (List.map H.info)) got ∧
        (list P net H build m s).1 = got.map fun infos => List.map (fun info : SessionInfo => ⟨info.name, info⟩) infos := by
  refine ⟨fun options bytes hreq => ?_, fun name bytes hreq => ?_, fun bytes hreq => ?_⟩
  · obtain ⟨hstate, harrives⟩ := call_arrives net H build m hP (some .info) _ (by decide) (by decide) hreq
      fun p hp => dispatch_create H build m options s hp
    exact ⟨hstate, _, harrives, rfl⟩
  · obtain ⟨hstate, harrives⟩ := call_arrives net H build m hP (some .info) _ (by decide) (by decide) hreq
      fun p hp => dispatch_created H build m name s hp
    exact ⟨hstate, _, harrives, rfl⟩
  · obtain ⟨hstate, harrives⟩ := call_arrives net H build m hP (some .sessions) _ (by decide) (by decide) hreq
      fun p _ => dispatch_list H build m p s
    exact ⟨hstate, _, harrives, rfl⟩

theorem the_remote_hub_is_the_hub_get :
    get plainPeer listNet recorded ⟨"", 1⟩ quiet "s" (stopped .success) = (.ok ⟨"s", "s", 0⟩, stopped .success) := by
  have hreq : request plainPeer "created" (.name "s") [] =
      .ok (utf8 "\x7b\"wire\":1,\"id\":1,\"method\":\"created\",\"params\":\x7b\"name\":\"s\"\x7d\x7d\n") := by decide +kernel
  have hfits : plainPeer.Fits ⟨.info, (⟨"s", 0⟩ : SessionInfo)⟩ := ⟨_, rfl, by decide +kernel⟩
  obtain ⟨hstate, got, harrives, hgot⟩ := (the_remote_hub_is_the_hub listNet recorded ⟨"", 1⟩ quiet plainPeer_faithful
    (stopped .success)).2.1 "s" _ hreq
  rw [Arrives.fits harrives hfits trivial] at hgot
  exact Prod.ext hgot hstate

/-! ## Wait -/

theorem dispatch_wait {name : String} {s : σ} {h : η} {p : Params} (hp : p.name = .ok name)
    (hget : H.get name (m.before s) = .ok h) (hgone : m.gone = false) :
    dispatch H build m "wait" p [] s =
      ((H.call .status h (m.between (m.before s))).1.map fun status => some ⟨.status, status⟩,
        (H.call .status h (m.between (m.before s))).2) := by
  have hname : decode p.name = .ok name := by rw [hp]; rfl
  conv_lhs => whnf
  rw [hname]
  conv_lhs => whnf
  rw [hget]
  show (if m.gone = true then _ else _) = _
  rw [hgone]
  rfl

/-- Whether the call says that all is well, and the exit that is in what it returned. -/
def remoteTells (got : Except GoError (Option ExitError)) : Bool × Option ExitError :=
  match got with
  | .error _ => (false, none)
  | .ok none => (true, none)
  | .ok (some e) => (false, some e)

/-- The same of a call in this process, which joins the error of the output with the exit. -/
def localTells (got : Option Err × Handoff.Outcome) : Bool × Option ExitError :=
  (got.1.isNone && decide (got.2 = .success), got.2.exitError)

/-- `Wait` of a client's handle for a session that has stopped: it tells what `Wait` in the
    server's process tells unless the output has failed and the process has left an exit, which
    is then lost, or the output has not failed and waiting for the process has, which is then
    no error at all. -/
theorem remote_wait_is_the_status (hP : P.Faithful) (view : η → σ → SessionState)
    (hview : ∀ h s, H.call .status h s = ((Handoff.status (view h s)).mapError GoError.of, s))
    (name : String) (s : σ) (h : η) (bytes : List Byte) (err : Option Err) (outcome : Handoff.Outcome)
    (hreq : request P "wait" (.name name) [] = .ok bytes) (hget : H.get name (m.before s) = .ok h)
    (hgone : m.gone = false) (hwait : Handoff.wait (view h (m.between (m.before s))) = some (err, outcome))
    (hfits : P.Fits ⟨.status, (⟨false, outcome.exitError⟩ : Status)⟩) :
    remoteTells (wait P net H build m name s).1 = localTells (err, outcome) ↔
      ¬ ((err ≠ none ∧ outcome.exitError ≠ none) ∨ (err = none ∧ ∃ text, outcome = .other text)) := by
  obtain ⟨-, harrives⟩ := call_arrives net H build m hP (some .status) _ (by decide) (by decide) hreq
    fun p hp => dispatch_wait H build m hp hget hgone
  have hdone : (view h (m.between (m.before s))).done = true := by
    by_contra hn
    simp [Handoff.wait, hn] at hwait
  simp only [Handoff.wait, hdone, if_true, Option.some.injEq, Prod.mk.injEq] at hwait
  obtain ⟨herr, houtcome⟩ := hwait
  simp only [hview, Handoff.status, hdone, if_true, herr, houtcome] at harrives
  simp only [wait]
  cases err with
  | some e =>
    obtain ⟨e', he', -⟩ := harrives
    rw [he']
    cases outcome <;> simp [remoteTells, localTells, Except.map, Outcome.exitError]
  | none =>
    rw [Arrives.fits harrives hfits trivial]
    cases outcome <;> simp [remoteTells, localTells, Except.map, Outcome.exitError]

/-- Waiting for the process has failed, and the client's handle says that all is well. -/
theorem remote_wait_is_the_status_lost :
    remoteTells (wait plainPeer listNet recorded ⟨"", 1⟩ quiet "s" (stopped (.other "wait: no child processes"))).1 ≠
      localTells (none, .other "wait: no child processes") := by
  have hreq : request plainPeer "wait" (.name "s") [] =
      .ok (utf8 "\x7b\"wire\":1,\"id\":1,\"method\":\"wait\",\"params\":\x7b\"name\":\"s\"\x7d\x7d\n") := by decide +kernel
  have hfits : plainPeer.Fits ⟨.status, (⟨false, none⟩ : Status)⟩ := ⟨_, rfl, by decide +kernel⟩
  intro h
  exact (remote_wait_is_the_status listNet recorded ⟨"", 1⟩ quiet plainPeer_faithful (fun _ s => s) (fun _ _ => rfl) "s"
    (stopped (.other "wait: no child processes")) () _ none (.other "wait: no child processes") hreq rfl rfl rfl
    hfits).mp h (.inr ⟨rfl, _, rfl⟩)

end Ghostline.Rpc.Service
