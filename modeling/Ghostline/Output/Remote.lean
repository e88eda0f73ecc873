/-
  Ghostline.Output.Remote — `remoteOutputSource` (client.go) over `serveOutput`
  (server.go), against the local reader of the same log.

  A remote call is a request, a call of the server's own local reader, a response, and
  what the client makes of it. Fields cross the connection as they are (their encoding
  is JSON); the error crosses as a code and a text. `Outcome` is what `errors.Is` can tell of
  an error: of one at hand what it is and wraps, of one without a code that came over the
  connection nothing. Texts are rewritten and cut on the way and are not compared.

  The two readers do not always agree (`remote_readers_differ`): an empty buffer is no
  progress for `ReadSized` and an empty success locally; an error response carries no bytes,
  no size and no cursor, so what a failing call read is lost on the way while the server's
  reader is past it; and an error of the operating system comes without its identity. They
  agree on exactly the sequences of calls in which no `ReadSized` has an empty buffer and the
  turns of the calls meet nothing of the kind (`harmless`, `remote_agrees_iff`).
-/

import Ghostline.Output.Call

namespace Ghostline.Output

open LocalOutputSource

def maxRPCChunk : Nat := 64 * 1024

/-- What a caller can tell of an error. -/
inductive Outcome where
  | is (e : Err)
  /-- Only the text is there. -/
  | text
  deriving DecidableEq, Repr

/-! ## The connection -/

inductive RpcCode where
  | sentinel (s : Sentinel)
  | internal
  deriving DecidableEq, Repr

def rpcCode : Err → RpcCode
  | .sentinel s => .sentinel s
  | _ => .internal

def decodeRPCError : RpcCode → Outcome
  | .sentinel s => .is (.sentinel s)
  | .internal => .text

structure OutputReadResult where
  cursor : Cursor
  size : Option Size
  eof : Bool
  deriving DecidableEq, Repr

structure Response where
  error : Option RpcCode
  result : Option OutputReadResult
  payload : List Byte
  deriving DecidableEq, Repr

/-- `none`: refused, and the server hangs up. -/
def writeRawResponse (result : OutputReadResult) (data : List Byte) (err : Option Err) : Option Response :=
  if maxRPCChunk < data.length then none
  else match err with
    | some e => some ⟨some (rpcCode e), none, []⟩
    | none => some ⟨none, some result, data⟩

/-- The server's part of one read; `none` while its own reader waits. -/
def serveOutput (r : LocalOutputSource) (maxBytes : Nat) (sized : Bool) (looks : List Look) :
    Option (LocalOutputSource × Option Response) :=
  if maxBytes = 0 ∨ maxRPCChunk < maxBytes then some (r, some ⟨some .internal, none, []⟩)
  else (r.read maxBytes sized looks).map fun p =>
    let size := if sized then p.2.size else 0
    let eof := decide (p.2.err = some .eof)
    (p.1, writeRawResponse ⟨p.1.cursor, if size ≠ 0 then some size else none, eof⟩ p.2.bytes
      (if eof then none else p.2.err))

/-! ## The client -/

/-- What a call returns, and `Cursor()` after it. -/
structure Answer where
  bytes : List Byte
  size : Size
  outcome : Option Outcome
  cursor : Cursor
  deriving DecidableEq, Repr

/-- The part of `readOnce` after the response arrived. -/
def receive (cursor : Cursor) (len : Nat) (sized : Bool) (resp : Response) : Answer :=
  match resp.error, resp.result with
  | some code, _ => ⟨[], 0, some (decodeRPCError code), cursor⟩
  | none, none => ⟨[], 0, some .text, cursor⟩
  | none, some result =>
    if len < resp.payload.length ∨ maxRPCChunk < resp.payload.length then ⟨[], 0, some .text, cursor⟩
    else
      let size := if sized then result.size.getD 0 else 0
      if resp.payload ≠ [] then ⟨resp.payload, size, none, result.cursor⟩
      else if result.eof then ⟨[], 0, some (.is .eof), result.cursor⟩
      else if size ≠ 0 then ⟨[], size, none, result.cursor⟩
      else ⟨[], 0, some (.is .noProgress), result.cursor⟩

/-- The wrapper `read`: only a size report may be empty. -/
def noProgress (sized : Bool) (a : Answer) : Answer :=
  if sized ∧ a.bytes = [] ∧ a.outcome = none ∧ a.size = 0 then { a with outcome := some (.is .noProgress) } else a

/-- A call, with what the turns of the reader that serves it meet. -/
structure Call where
  len : Nat
  sized : Bool
  looks : List Look

def remoteCall (server : LocalOutputSource) (cursor : Cursor) (c : Call) : Option (LocalOutputSource × Answer) :=
  if c.len = 0 then some (server, noProgress c.sized ⟨[], 0, none, cursor⟩)
  else match serveOutput server (min c.len maxRPCChunk) c.sized c.looks with
    | some (server', some resp) => some (server', noProgress c.sized (receive cursor c.len c.sized resp))
    | _ => none

/-- The answers up to the first `io.EOF`, or up to a call that has not returned. -/
def remoteAnswers : LocalOutputSource → Cursor → List Call → List Answer
  | _, _, [] => []
  | server, cursor, c :: rest =>
    match remoteCall server cursor c with
    | none => []
    | some (server', a) => a :: if a.outcome = some (.is .eof) then [] else remoteAnswers server' a.cursor rest

/-! ## The local reader -/

/-- The same call on a local reader, the buffer clipped to what a chunk may hold. -/
def localCall (r : LocalOutputSource) (c : Call) : Option (LocalOutputSource × Answer) :=
  (r.read (min c.len maxRPCChunk) c.sized c.looks).map fun p =>
    (p.1, ⟨p.2.bytes, if c.sized then p.2.size else 0, p.2.err.map .is, p.1.cursor⟩)

def localAnswers : LocalOutputSource → List Call → List Answer
  | _, [] => []
  | r, c :: rest =>
    match localCall r c with
    | none => []
    | some (r', a) => a :: if a.outcome = some (.is .eof) then [] else localAnswers r' rest

/-! ## The condition -/

/-- The error has a code of its own. -/
def coded : Err → Bool
  | .sentinel _ => true
  | _ => false

/-- What a turn may meet. A cursor that is expired, or a log that was closed with an error: only
    before the call has moved on to a later generation, and only an error with a code. Where
    there are bytes to read: the file is open or can be opened and the read does not fail, nor
    is the file found too short while a size is in effect. -/
def harmless (start : Cursor) (k : Look) : LocalOutputSource × Turn → Bool
  | (r, .expired) => r.cursor == start
  | (r, .fetch _ size) =>
    (r.pins || k.openFail.isNone && k.atOpen.linked r.cursor.generation) && k.readFail.isNone &&
      (size == 0 || r.cursor.offset < (k.atRead.files r.cursor.generation).length)
  | (r, .ended e) => e == .eof || coded e && r.cursor == start
  | _ => true

/-- No turn of the call meets anything else. -/
def plain (start : Cursor) (sized : Bool) : LocalOutputSource → List Look → Bool
  | _, [] => true
  | r, k :: rest =>
    harmless start k (r.lockSection k.log sized) &&
    match r.lockSection k.log sized with
    | (r', .advance) | (r', .wait _) => plain start sized r' rest
    | _ => true

/-- No `ReadSized` has an empty buffer, and every call is plain. -/
def faultless : LocalOutputSource → List Call → Bool
  | _, [] => true
  | r, c :: rest =>
    (if c.len = 0 then !c.sized else plain r.cursor c.sized r c.looks) &&
    match localCall r c with
    | none => true
    | some (r', a) => a.outcome == some (.is .eof) || faultless r' rest

/-! ## What a call returns -/

/-- A call that returned without an error made progress. -/
structure Progress (len : Nat) (sized : Bool) (x : Result) : Prop where
  some : x.err = none → x.bytes ≠ [] ∨ x.size ≠ 0
  eof : x.err = Option.some .eof → x.bytes = []
  unsized : sized = false → x.size = 0
  fits : x.bytes.length ≤ len

theorem readAt_progress (r : LocalOutputSource) (l : OutputLog) {len limit : Nat} {sized : Bool} {size : Size}
    (hlen : 0 < len) (hlim : 0 < limit) (hsz : sized = false → size = 0) (fail : Option (Nat × String)) :
    Progress len sized (r.readAt l len limit size fail).2 := by
  unfold readAt
  simp only
  have hle : (fileReadAt (l.files r.fileGen) r.cursor.offset (min len limit) fail).1.length ≤ len := by
    unfold fileReadAt
    cases fail with
    | none | some f => simp only [List.length_take]; omega
  by_cases hb : (fileReadAt (l.files r.fileGen) r.cursor.offset (min len limit) fail).1 = []
  · rw [if_neg (by simp [hb])]
    refine ⟨fun he => ?_, fun _ => hb, hsz, hle⟩
    exfalso
    -- an empty read of a buffer that is not empty is an error
    unfold fileReadAt at hb he
    cases fail with
    | none =>
      simp only at hb he
      rw [hb] at he
      simp only [List.length_nil] at he
      split at he
      · cases he
      · omega
    | some f => cases he
  · by_cases he : (fileReadAt (l.files r.fileGen) r.cursor.offset (min len limit) fail).2 = none ∨
        (fileReadAt (l.files r.fileGen) r.cursor.offset (min len limit) fail).2 = some .eof
    · rw [if_pos ⟨hb, he⟩]
      exact ⟨fun _ => .inl hb, fun h => (by cases h), hsz, hle⟩
    · rw [if_neg (by simp [hb, he])]
      push Not at he
      exact ⟨fun h => absurd h he.1, fun h => absurd h he.2, hsz, hle⟩

theorem errorResult_progress (len : Nat) (sized : Bool) (e : Err) : Progress len sized (errorResult e) :=
  ⟨fun h => (by cases h), fun _ => rfl, fun _ => rfl, Nat.zero_le _⟩

theorem fetch_progress (r : LocalOutputSource) (k : Look) {len limit : Nat} {sized : Bool} {size : Size}
    (hlen : 0 < len) (hlim : 0 < limit) (hsz : sized = false → size = 0) :
    Progress len sized (r.fetch k len limit size).2 := by
  unfold LocalOutputSource.fetch
  split
  · exact errorResult_progress len sized _
  · exact readAt_progress _ _ hlen hlim hsz _

theorem spanAt_unsized (r : LocalOutputSource) (l : OutputLog) {sized : Bool} (h : sized = false) :
    (r.spanAt l sized).1 = 0 := by
  subst h; rfl

theorem readLoop_progress {len : Nat} {sized : Bool} (hlen : 0 < len) {r' : LocalOutputSource} {x : Result} :
    ∀ (looks : List Look) (r : LocalOutputSource), readLoop len sized r looks = some (r', x) → Progress len sized x := by
  intro looks
  induction looks with
  | nil => intro r h; cases h
  | cons k rest ih =>
    intro r h
    unfold readLoop at h
    generalize ht : r.lockSection k.log sized = q at h
    obtain ⟨r1, t⟩ := q
    rcases lockSection_cases r k.log ht with ⟨rfl, -, -⟩ | ⟨size, rfl, -, -, he, h0, -⟩ |
      ⟨limit, size, rfl, -, -, hlim, -, he, -⟩ | ⟨rfl, -⟩ | ⟨rfl, -⟩ | ⟨rfl, -⟩
    · obtain ⟨-, rfl⟩ := Prod.mk.inj (Option.some.inj h)
      exact errorResult_progress len sized _
    · obtain ⟨-, rfl⟩ := Prod.mk.inj (Option.some.inj h)
      refine ⟨fun _ => .inr h0, fun h => (by cases h), fun hs => ?_, Nat.zero_le _⟩
      rw [he]; exact spanAt_unsized r k.log hs
    · have hx := congrArg Prod.snd (Option.some.inj h)
      simp only at hx
      rw [← hx]
      exact fetch_progress r1 k hlen hlim fun hs => by rw [he]; exact spanAt_unsized r k.log hs
    · exact ih r1 h
    · obtain ⟨-, rfl⟩ := Prod.mk.inj (Option.some.inj h)
      exact errorResult_progress len sized _
    · exact ih r1 h

/-- A failure loses nothing on the way: it comes without bytes and without a size and, unless
    it is `io.EOF`, with a code and the reader still at `start`. -/
def losesNothing (start : Cursor) (p : LocalOutputSource × Result) : Bool :=
  match p.2.err with
  | none => true
  | some e => p.2.bytes == [] && p.2.size == 0 && (e == .eof || coded e && p.1.cursor == start)

theorem readAt_losesNothing (start : Cursor) (r : LocalOutputSource) (l : OutputLog) {len limit : Nat} (size : Size)
    (hlen : 0 < len) (hlim : 0 < limit) (fail : Option (Nat × String)) :
    losesNothing start (r.readAt l len limit size fail) =
      (fail.isNone && (size == 0 || decide (r.cursor.offset < (l.files r.fileGen).length))) := by
  unfold readAt fileReadAt
  cases fail with
  | some f => simp [losesNothing, coded]
  | none =>
    by_cases hle : r.cursor.offset < (l.files r.fileGen).length
    · have hne : ((l.files r.fileGen).drop r.cursor.offset).take (min len limit) ≠ [] := by
        rw [← List.length_pos_iff, List.length_take, List.length_drop]
        omega
      have herr : ∀ n, (if n < min len limit then some Err.eof else none) = none ∨
          (if n < min len limit then some Err.eof else none) = some .eof := by
        intro n
        split
        · exact .inr rfl
        · exact .inl rfl
      simp only [if_pos (And.intro hne (herr _)), losesNothing, hle, decide_true, Bool.or_true, Option.isNone_none,
        Bool.and_true]
    · -- the file ends before the cursor
      have hnil : (l.files r.fileGen).drop r.cursor.offset = [] := List.drop_eq_nil_of_le (by omega)
      have hwant : 0 < min len limit := by omega
      simp [hnil, hwant, losesNothing, hle]

theorem fetch_losesNothing (start : Cursor) (r : LocalOutputSource) (k : Look) {len limit : Nat} (size : Size)
    (hlen : 0 < len) (hlim : 0 < limit) :
    losesNothing start (r.fetch k len limit size) = harmless start k (r, .fetch limit size) := by
  unfold LocalOutputSource.fetch openFile
  by_cases hpins : r.pins = true
  · have hgen : r.fileGen = r.cursor.generation := by
      simp only [pins, Bool.and_eq_true, beq_iff_eq] at hpins
      exact hpins.2
    rw [if_pos hpins]
    simp only [readAt_losesNothing start r k.atRead size hlen hlim, hgen, harmless, hpins, Bool.true_or, Bool.true_and]
  · rw [if_neg hpins]
    cases hopen : openErr k.atOpen r.cursor.generation k.openFail with
    | some e =>
      have hnot : (k.openFail.isNone && k.atOpen.linked r.cursor.generation) = false ∧ coded e = false ∧ e ≠ .eof := by
        unfold openErr at hopen
        cases hfail : k.openFail with
        | some m =>
          rw [hfail] at hopen
          obtain rfl := Option.some.inj hopen
          simp [coded]
        | none =>
          rw [hfail] at hopen
          simp only at hopen
          split at hopen
          · cases hopen
          · rename_i hlinked
            obtain rfl := Option.some.inj hopen
            simp [coded, hlinked]
      simp [losesNothing, errorResult, harmless, hpins, hnot.1, hnot.2.1, hnot.2.2]
    | none =>
      have hthere : (k.openFail.isNone && k.atOpen.linked r.cursor.generation) = true := by
        unfold openErr at hopen
        cases hfail : k.openFail with
        | some m =>
          rw [hfail] at hopen
          cases hopen
        | none =>
          rw [hfail] at hopen
          simp only at hopen
          split at hopen
          · rename_i hlinked
            simpa using hlinked
          · cases hopen
      simp only [readAt_losesNothing start _ k.atRead size hlen hlim, harmless, hthere, Bool.or_true, Bool.true_and]

/-- The condition on the turns says what is to be said of the call's result. -/
theorem plain_eq (start : Cursor) {len : Nat} (hlen : 0 < len) (sized : Bool) :
    ∀ (looks : List Look) (r : LocalOutputSource),
      plain start sized r looks = ((readLoop len sized r looks).map (losesNothing start)).getD true := by
  intro looks
  induction looks with
  | nil => intro r; rfl
  | cons k rest ih =>
    intro r
    unfold plain readLoop
    generalize ht : r.lockSection k.log sized = q
    obtain ⟨r', t⟩ := q
    cases t with
    | expired => simp [losesNothing, errorResult, harmless, coded]
    | report size => simp [losesNothing, harmless]
    | fetch limit size =>
      have hlim : 0 < limit := by
        rcases lockSection_cases r k.log ht with ⟨h, -⟩ | ⟨_, h, -⟩ | ⟨_, _, h, -, -, hpos, -⟩ | ⟨h, -⟩ | ⟨h, -⟩ | ⟨h, -⟩
        all_goals cases h
        exact hpos
      simp [fetch_losesNothing start r' k size hlen hlim]
    | advance | wait c => simpa [harmless] using ih r'
    | ended e => simp [losesNothing, errorResult, harmless]

/-! ## One call on both sides -/

/-- What the client makes of the answer to a call that returned `x` on the server. -/
def remoteAnswer (cursor : Cursor) (sized : Bool) (r' : LocalOutputSource) (x : Result) : Answer :=
  match x.err with
  | none => ⟨x.bytes, if sized then x.size else 0, none, r'.cursor⟩
  | some e =>
    if e = .eof then ⟨[], 0, some (.is .eof), r'.cursor⟩ else ⟨[], 0, some (decodeRPCError (rpcCode e)), cursor⟩

theorem remoteCall_eq {server : LocalOutputSource} {cursor : Cursor} {c : Call} (hlen : c.len ≠ 0) :
    remoteCall server cursor c = (server.read (min c.len maxRPCChunk) c.sized c.looks).map fun p =>
      (p.1, remoteAnswer cursor c.sized p.1 p.2) := by
  have hmin : min c.len maxRPCChunk ≠ 0 := by unfold maxRPCChunk; omega
  have hserve : ¬ (min c.len maxRPCChunk = 0 ∨ maxRPCChunk < min c.len maxRPCChunk) := by omega
  unfold remoteCall serveOutput
  rw [if_neg hlen, if_neg hserve]
  cases hread : server.read (min c.len maxRPCChunk) c.sized c.looks with
  | none => rfl
  | some p =>
    obtain ⟨r', x⟩ := p
    have hx : Progress (min c.len maxRPCChunk) c.sized x := by
      unfold LocalOutputSource.read at hread
      rw [if_neg hmin] at hread
      exact readLoop_progress (by omega) c.looks server hread
    have hfits := hx.fits
    have hchunk : ¬ maxRPCChunk < x.bytes.length := by omega
    have hbuf : ¬ (c.len < x.bytes.length ∨ maxRPCChunk < x.bytes.length) := by omega
    simp only [Option.map_some, writeRawResponse, if_neg hchunk]
    cases herr : x.err with
    | none =>
      simp only [reduceCtorEq, decide_false, Bool.false_eq_true, if_false, receive, if_neg hbuf, remoteAnswer, herr]
      by_cases hb : x.bytes = []
      · have h0 : x.size ≠ 0 := (hx.some herr).resolve_left (not_not.mpr hb)
        have hs : c.sized = true := by
          by_contra hs
          exact h0 (hx.unsized (by simpa using hs))
        simp [hb, hs, h0, noProgress]
      · cases hs : c.sized with
        | false => simp [hb, noProgress]
        | true =>
          by_cases h0 : x.size = 0
          · simp [hb, h0, noProgress]
          · simp [hb, h0, noProgress]
    | some e =>
      by_cases he : e = .eof
      · subst he
        have hb := hx.eof herr
        simp only [decide_true, if_true, receive, hb, List.length_nil, Nat.not_lt_zero, or_self, if_false,
          ne_eq, not_true_eq_false, remoteAnswer, herr]
        simp [noProgress]
      · simp only [Option.some.injEq, he, decide_false, Bool.false_eq_true, if_false, receive, remoteAnswer, herr]
        simp [noProgress]

theorem decode_rpcCode {e : Err} (h : e ≠ .eof) : decodeRPCError (rpcCode e) = .is e ↔ coded e = true := by
  cases e <;> simp [decodeRPCError, rpcCode, coded]

/-- One call on both sides, the client at the reader's cursor: the answers are the same
    exactly when the call loses nothing on the way. -/
theorem remoteAnswer_eq_iff {r r' : LocalOutputSource} {sized : Bool} {x : Result} (hx : sized = false → x.size = 0) :
    remoteAnswer r.cursor sized r' x = ⟨x.bytes, if sized then x.size else 0, x.err.map .is, r'.cursor⟩ ↔
      losesNothing r.cursor (r', x) = true := by
  have hsz : (if sized then x.size else 0) = x.size := by
    cases sized with
    | false => exact (hx rfl).symm
    | true => rfl
  rw [hsz]
  cases herr : x.err with
  | none => simp [remoteAnswer, losesNothing, herr, hsz]
  | some e =>
    by_cases he : e = .eof
    · subst he
      simp only [remoteAnswer, herr, if_true, losesNothing, Option.map_some, Answer.mk.injEq, beq_self_eq_true,
        Bool.true_or, Bool.and_true, Bool.and_eq_true, beq_iff_eq, and_true]
      constructor
      · rintro ⟨h1, h2⟩
        exact ⟨h1.symm, h2.symm⟩
      · rintro ⟨h1, h2⟩
        exact ⟨h1.symm, h2.symm⟩
    · have heof : (e == Err.eof) = false := by simpa using he
      simp only [remoteAnswer, herr, if_neg he, losesNothing, Option.map_some, Answer.mk.injEq, Option.some.injEq,
        decode_rpcCode he, heof, Bool.false_or, Bool.and_eq_true, beq_iff_eq]
      constructor
      · rintro ⟨h1, h2, h3, h4⟩
        exact ⟨⟨h1.symm, h2.symm⟩, h3, h4.symm⟩
      · rintro ⟨⟨h1, h2⟩, h3, h4⟩
        exact ⟨h1.symm, h2.symm, h3, h4.symm⟩

/-- A call of either side when the buffer is empty. -/
theorem empty_call {r : LocalOutputSource} {c : Call} (hlen : c.len = 0) (cursor : Cursor) :
    localCall r c = some (r, ⟨[], 0, none, r.cursor⟩) ∧
      remoteCall r cursor c = some (r, ⟨[], 0, if c.sized then some (.is .noProgress) else none, cursor⟩) := by
  constructor
  · simp [localCall, LocalOutputSource.read, hlen]
  · cases hs : c.sized <;> simp [remoteCall, hlen, noProgress, hs]

/-! ## The result -/

theorem remote_agrees_iff (r : LocalOutputSource) (calls : List Call) :
    remoteAnswers r r.cursor calls = localAnswers r calls ↔ faultless r calls = true := by
  induction calls generalizing r with
  | nil => simp [remoteAnswers, localAnswers, faultless]
  | cons c rest ih =>
    by_cases hlen : c.len = 0
    · obtain ⟨hl, hr⟩ := empty_call (r := r) hlen r.cursor
      unfold remoteAnswers localAnswers faultless
      rw [hl, hr, if_pos hlen]
      cases hs : c.sized with
      | true => simp
      | false => simpa using ih r
    · have hmin : min c.len maxRPCChunk ≠ 0 := by unfold maxRPCChunk; omega
      unfold remoteAnswers localAnswers faultless
      rw [remoteCall_eq hlen, if_neg hlen, plain_eq r.cursor (Nat.pos_of_ne_zero hmin)]
      simp only [localCall]
      rw [LocalOutputSource.read, if_neg hmin]
      cases hread : readLoop (min c.len maxRPCChunk) c.sized r c.looks with
      | none => simp
      | some p =>
        obtain ⟨r', x⟩ := p
        have hx := readLoop_progress (by omega) c.looks r hread
        simp only [Option.map_some, Option.getD_some, Bool.and_eq_true, List.cons.injEq]
        rw [remoteAnswer_eq_iff hx.unsized]
        -- the answers to this call agree; from here both sides go on at one cursor, or stop
        constructor
        · rintro ⟨h1, h2⟩
          refine ⟨h1, ?_⟩
          rw [(remoteAnswer_eq_iff hx.unsized).mpr h1] at h2
          simp only [Bool.or_eq_true, beq_iff_eq]
          by_cases he : x.err.map Outcome.is = some (.is .eof)
          · exact .inl he
          · rw [if_neg he, if_neg he] at h2
            exact .inr ((ih r').mp h2)
        · rintro ⟨h1, h2⟩
          refine ⟨h1, ?_⟩
          rw [(remoteAnswer_eq_iff hx.unsized).mpr h1]
          simp only [Bool.or_eq_true, beq_iff_eq] at h2
          by_cases he : x.err.map Outcome.is = some (.is .eof)
          · rw [if_pos he, if_pos he]
          · rw [if_neg he, if_neg he]
            exact (ih r').mpr (h2.resolve_left he)

/-- A log that was given four bytes, with a reader at its start. -/
def fourBytes : OutputLog := (created.append [97, 98, 99, 100] .full).1

def fourReader : LocalOutputSource := .pinned ⟨1, 0⟩ 4 false

/-- Two reads with an empty one between them, and one when the bytes are gone. -/
def readsThrough : List Call :=
  let look : Look := ⟨fourBytes, fourBytes, none, fourBytes, none⟩
  let gone := { fourBytes with segments := fun _ => none }
  [⟨2, false, [look]⟩, ⟨0, false, []⟩, ⟨2, false, [look]⟩, ⟨2, false, [⟨gone, gone, none, gone, none⟩]⟩]

theorem remote_agrees_iff_four :
    remoteAnswers fourReader fourReader.cursor readsThrough = localAnswers fourReader readsThrough ∧
      (localAnswers fourReader readsThrough).map Answer.outcome =
        [none, none, none, some (.is (.sentinel .cursorExpired))] :=
  ⟨(remote_agrees_iff fourReader readsThrough).mpr (by decide), by decide⟩

def emptySized : List Call := [⟨0, true, []⟩]

/-- The storage fails after two bytes, and works again in the next call. -/
def failsMidway : List Call :=
  [⟨4, false, [⟨fourBytes, fourBytes, none, fourBytes, some (2, "input/output error")⟩]⟩,
    ⟨4, false, [⟨fourBytes, fourBytes, none, fourBytes, none⟩]⟩]

/-- An empty `ReadSized` fails remotely only. And of a read that failed midway the error comes
    over without what it is, the remote `Cursor()` is still at the start, the two bytes were
    delivered to nobody, and the next bytes begin two further on. -/
theorem remote_readers_differ :
    (localAnswers fourReader emptySized = [⟨[], 0, none, ⟨1, 0⟩⟩] ∧
      remoteAnswers fourReader fourReader.cursor emptySized = [⟨[], 0, some (.is .noProgress), ⟨1, 0⟩⟩]) ∧
    (localAnswers fourReader failsMidway =
        [⟨[97, 98], 0, some (.is (.other "input/output error")), ⟨1, 2⟩⟩, ⟨[99, 100], 0, none, ⟨1, 4⟩⟩] ∧
      remoteAnswers fourReader fourReader.cursor failsMidway =
        [⟨[], 0, some .text, ⟨1, 0⟩⟩, ⟨[99, 100], 0, none, ⟨1, 4⟩⟩]) := by
  decide

end Ghostline.Output
