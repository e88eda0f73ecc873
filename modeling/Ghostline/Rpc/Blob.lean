/-
  Ghostline.Rpc.Blob — the client's side of a blob (client.go: `readBlobOnceWithMetadata`).

  The client opens a blob, learns its size and asks for chunks until one is marked as the
  last. What comes back is the peer's: any frames, or bytes that are none. The client is a
  machine whose steps are the reads of the call: the header of the open response, the header
  of a chunk, the bytes of a chunk; between them it writes its requests.

  Whatever the peer sends, the call ends. It returns exactly as many bytes as were announced
  or fails, asks at most once more than there are bytes, and at no time has more bytes in
  `data` than were announced (`blob_client_is_safe`). `encoding/json` may make anything of
  what the peer sends.

  Dialling the socket is not modelled, nor a write that the connection refuses. `ctx` is what
  `ctx.Err()` says when the call fails, if it fails.
-/

import Ghostline.Rpc.Response

namespace Ghostline.Rpc

open Lib.Buffered

structure ChunkReadParams where
  maxBytes : Int
  sized : Bool
  deriving DecidableEq, Repr

structure BlobOpenResult where
  size : Int
  cursor : Cursor
  format : List Byte
  grid : Option Size
  deriving DecidableEq, Repr

structure BlobReadResult where
  eof : Bool
  deriving DecidableEq, Repr

structure BlobValue where
  data : List Byte
  cursor : Cursor
  format : List Byte
  grid : Size
  deriving DecidableEq, Repr

/-- What the server encodes as the result of a response. -/
inductive BlobResult where
  | opened (result : BlobOpenResult)
  | read (result : BlobReadResult)

/-- `encoding/json` for the messages of a blob; the value of a request's parameters is what
    `decode[chunkReadParams]` makes of them. -/
structure BlobJson where
  requests : Json (List Byte) (Except String ChunkReadParams)
  responses : Codec BlobResult
  params : ChunkReadParams → Except String (List Byte)
  opened : List Byte → Except String BlobOpenResult
  read : List Byte → Except String BlobReadResult

/-! ## The client -/

inductive Phase where
  /-- At the response to the open request. -/
  | opening
  /-- At the header of a chunk. -/
  | reading
  /-- At the bytes of a chunk, with room for them at the end of `data`. -/
  | filling (chunkBytes : Nat) (eof : Bool)
  | returned (value : BlobValue)
  | failed (err : GoError)
  deriving DecidableEq, Repr

structure Client where
  phase : Phase
  opened : BlobOpenResult
  data : List Byte
  /-- How many read requests have been written. -/
  asked : Nat
  reader : Reader Byte

/-- How many bytes of payload there is room for. -/
def Client.buffered (s : Client) : Nat :=
  match s.phase with
  | .filling chunkBytes _ => s.data.length + chunkBytes
  | _ => s.data.length

def Phase.ended : Phase → Bool
  | .returned _ => true
  | .failed _ => true
  | _ => false

variable (J : BlobJson) (ctx : Option GoError)

def contextErr (err : GoError) : GoError := ctx.getD err

def fullErr : Stop → Err
  | .eof => .eof
  | _ => .other "unexpected EOF"

def failure (message : String) : GoError := .of (.other message)

def Client.fail (s : Client) (err : GoError) : Client × List Byte := ({ s with phase := .failed err }, [])

/-- The request for a chunk, at the head of the loop. -/
def Client.ask (s : Client) : Client × List Byte :=
  match J.params ⟨maxRPCChunk, false⟩ with
  | .error m => s.fail (failure m)
  | .ok encoded =>
    match writeRequestPayload J.requests ⟨0, 1, "blob.read", encoded, 0⟩ [] with
    | .error e => s.fail (contextErr ctx (.of e))
    | .ok bytes => ({ s with phase := .reading, asked := s.asked + 1 }, bytes)

/-- The open request. -/
def Client.start (method : String) (params : List Byte) (b : Reader Byte) : Client × List Byte :=
  let s : Client := ⟨.opening, ⟨0, 0, [], none⟩, [], 0, b⟩
  match writeRequestPayload J.requests ⟨0, 1, method, params, 0⟩ [] with
  | .error e => s.fail (contextErr ctx (.of e))
  | .ok bytes => (s, bytes)

def Client.receiveOpened (s : Client) : Client × List Byte :=
  match readResponse J.responses s.reader with
  | (.error e, b) => { s with reader := b }.fail (contextErr ctx (.of e))
  | (.ok resp, b) =>
    let s := { s with reader := b }
    if resp.id ≠ 1 then s.fail (failure "ghostline: mismatched blob-open response ID")
    else
      match resp.error with
      | some e => s.fail (contextErr ctx (decodeRPCError e))
      | none =>
        if resp.payloadBytes ≠ 0 then s.fail (failure "ghostline: unexpected blob-open payload")
        else
          match J.opened resp.result with
          | .error m => s.fail (failure m)
          | .ok opened =>
            if opened.size < 0 then s.fail (failure "ghostline: server returned invalid blob size")
            else { s with opened := opened, data := [] }.ask J ctx

def Client.receiveHeader (s : Client) : Client × List Byte :=
  match readResponse J.responses s.reader with
  | (.error e, b) => { s with reader := b }.fail (contextErr ctx (.of e))
  | (.ok resp, b) =>
    let s := { s with reader := b }
    if resp.id ≠ 1 then s.fail (failure "ghostline: mismatched blob response ID")
    else
      match resp.error with
      | some e => s.fail (contextErr ctx (decodeRPCError e))
      | none =>
        match J.read resp.result with
        | .error m => s.fail (failure m)
        | .ok chunk =>
          if (maxRPCChunk : Int) < resp.payloadBytes ∨ s.opened.size - resp.payloadBytes < s.data.length then
            s.fail (failure "ghostline: server returned invalid blob chunk")
          else ({ s with phase := .filling resp.payloadBytes.toNat chunk.eof }, [])

def Client.receiveChunk (s : Client) (chunkBytes : Nat) (eof : Bool) : Client × List Byte :=
  match readFull chunkBytes [] s.reader with
  | (.error e, b) => { s with reader := b }.fail (contextErr ctx (.of (fullErr e)))
  | (.ok chunk, b) =>
    let s := { s with reader := b, data := s.data ++ chunk }
    if eof then
      if (s.data.length : Int) ≠ s.opened.size then s.fail (failure "ghostline: server returned incomplete blob")
      else
        ({ s with phase := .returned ⟨s.data, s.opened.cursor, s.opened.format, s.opened.grid.getD 0⟩ }, [])
    else if chunkBytes = 0 then s.fail (.of .noProgress)
    else s.ask J ctx

/-- The next read, what the client makes of it, and what it writes then. -/
def Client.step (s : Client) : Client × List Byte :=
  match s.phase with
  | .opening => s.receiveOpened J ctx
  | .reading => s.receiveHeader J ctx
  | .filling chunkBytes eof => s.receiveChunk J ctx chunkBytes eof
  | .returned _ | .failed _ => (s, [])

/-- The client after `n` reads. -/
def Client.after (method : String) (params : List Byte) (b : Reader Byte) : Nat → Client
  | 0 => (start J ctx method params b).1
  | n + 1 => ((after method params b n).step J ctx).1

/-! ## What a step can do -/

variable {J ctx}

/-- The ways of a step, but for what it reads and writes. -/
inductive Client.Move (s : Client) : Client → Prop
  | failed (err : GoError) (data : List Byte) (b : Reader Byte) :
      data = s.data ∨ (∃ n eof, s.phase = .filling n eof ∧ data.length = s.data.length + n) →
      Move s { s with phase := .failed err, data := data, reader := b }
  | opened (opened : BlobOpenResult) (b : Reader Byte) : s.phase = .opening → 0 ≤ opened.size →
      Move s { s with phase := .reading, opened := opened, data := [], asked := s.asked + 1, reader := b }
  | refused (opened : BlobOpenResult) (err : GoError) (b : Reader Byte) : s.phase = .opening → 0 ≤ opened.size →
      Move s { s with phase := .failed err, opened := opened, data := [], reader := b }
  | header (n : Nat) (eof : Bool) (b : Reader Byte) : s.phase = .reading →
      (s.data.length + n : Int) ≤ s.opened.size → Move s { s with phase := .filling n eof, reader := b }
  | filled (n : Nat) (data : List Byte) (b : Reader Byte) : s.phase = .filling n false → 0 < n →
      data.length = s.data.length + n →
      Move s { s with phase := .reading, data := data, asked := s.asked + 1, reader := b }
  | returned (n : Nat) (data : List Byte) (b : Reader Byte) : s.phase = .filling n true →
      data.length = s.data.length + n → (data.length : Int) = s.opened.size →
      Move s { s with
        phase := .returned ⟨data, s.opened.cursor, s.opened.format, s.opened.grid.getD 0⟩
        data := data
        reader := b }

variable (J ctx) in
theorem Client.ask_cases (s : Client) :
    (∃ err, (s.ask J ctx).1 = { s with phase := .failed err }) ∨
      (s.ask J ctx).1 = { s with phase := .reading, asked := s.asked + 1 } := by
  unfold Client.ask
  split
  · exact .inl ⟨_, rfl⟩
  · split
    · exact .inl ⟨_, rfl⟩
    · exact .inr rfl

theorem readResponse_payload {V : Type} {c : Codec V} {b b' : Reader Byte} {r : Response}
    (h : readResponse c b = (.ok r, b')) : 0 ≤ r.payloadBytes := by
  unfold readResponse at h
  split at h
  · cases h
  · split at h
    · cases h
    · split at h
      · cases h
      · rename_i r' hcheck
        obtain ⟨hr, -⟩ := Prod.mk.inj h
        obtain rfl := Except.ok.inj hr
        unfold Response.check at hcheck
        split at hcheck
        · cases hcheck
        · split at hcheck
          · cases hcheck
          · split at hcheck
            · cases hcheck
            · omega

theorem Client.receiveOpened_move {s : Client} (hp : s.phase = .opening) : s.Move (s.receiveOpened J ctx).1 := by
  unfold Client.receiveOpened
  split
  · exact .failed _ s.data _ (.inl rfl)
  · rename_i resp b hread
    dsimp only
    split
    · exact .failed _ s.data b (.inl rfl)
    · split
      · exact .failed _ s.data b (.inl rfl)
      · split
        · exact .failed _ s.data b (.inl rfl)
        · split
          · exact .failed _ s.data b (.inl rfl)
          · rename_i opened _
            split
            · exact .failed _ s.data b (.inl rfl)
            · rename_i hsize
              rcases Client.ask_cases J ctx { s with opened := opened, data := [], reader := b } with
                ⟨err, h⟩ | h
              · rw [h]
                exact .refused opened err b hp (by omega)
              · rw [h]
                exact .opened opened b hp (by omega)

theorem Client.receiveHeader_move {s : Client} (hp : s.phase = .reading) : s.Move (s.receiveHeader J ctx).1 := by
  unfold Client.receiveHeader
  split
  · exact .failed _ s.data _ (.inl rfl)
  · rename_i resp b hread
    dsimp only
    split
    · exact .failed _ s.data b (.inl rfl)
    · split
      · exact .failed _ s.data b (.inl rfl)
      · split
        · exact .failed _ s.data b (.inl rfl)
        · split
          · exact .failed _ s.data b (.inl rfl)
          · have := readResponse_payload hread
            exact .header _ _ b hp (by omega)

theorem Client.receiveChunk_move {s : Client} {n : Nat} {eof : Bool} (hp : s.phase = .filling n eof) :
    s.Move (s.receiveChunk J ctx n eof).1 := by
  unfold Client.receiveChunk
  split
  · exact .failed _ s.data _ (.inl rfl)
  · rename_i chunk b hfull
    have hlen : (s.data ++ chunk).length = s.data.length + n := by
      rw [List.length_append, readFull_length _ _ _ hfull, List.length_nil, Nat.zero_add]
    dsimp only
    split
    · rename_i heof
      subst heof
      split
      · exact .failed _ _ b (.inr ⟨n, true, hp, hlen⟩)
      · rename_i hsize
        exact .returned n _ b hp hlen (not_not.mp hsize)
    · rename_i heof
      have heof : eof = false := by simpa using heof
      subst heof
      split
      · exact .failed _ _ b (.inr ⟨n, false, hp, hlen⟩)
      · rename_i hn
        rcases Client.ask_cases J ctx { s with reader := b, data := s.data ++ chunk } with ⟨err, h⟩ | h
        · rw [h]
          exact .failed err _ b (.inr ⟨n, false, hp, hlen⟩)
        · rw [h]
          exact .filled n _ b hp (Nat.pos_of_ne_zero hn) hlen

theorem Client.step_move {s : Client} (h : s.phase.ended = false) : s.Move (s.step J ctx).1 := by
  unfold Client.step
  split
  · exact Client.receiveOpened_move ‹_›
  · exact Client.receiveHeader_move ‹_›
  · exact Client.receiveChunk_move ‹_›
  · simp_all [Phase.ended]
  · simp_all [Phase.ended]

theorem Client.step_ended {s : Client} (h : s.phase.ended = true) : (s.step J ctx).1 = s := by
  unfold Client.step
  split <;> simp_all [Phase.ended]

/-! ## Every call -/

structure Client.Held (s : Client) : Prop where
  asked : s.asked ≤ s.data.length + 1
  held : (s.buffered : Int) ≤ s.opened.size
  fresh : s.phase = .opening → s.asked = 0 ∧ s.data = []
  whole : ∀ v, s.phase = .returned v → (v.data.length : Int) = s.opened.size

theorem Client.Held.move {s s' : Client} (h : s.Held) (hm : s.Move s') : s'.Held := by
  have hasked := h.asked
  have hheld := h.held
  unfold Client.buffered at hheld
  cases hm with
  | failed err data b hdata =>
    have hlen : s.data.length ≤ data.length ∧ (data.length : Int) ≤ s.opened.size := by
      rcases hdata with rfl | ⟨n, eof, hp, hlen⟩
      · split at hheld <;> omega
      · simp only [hp] at hheld
        omega
    exact ⟨by simp only; omega, by simpa [Client.buffered] using hlen.2, by simp, by simp⟩
  | opened opened b hp hsize | refused opened err b hp hsize =>
    have := h.fresh hp
    exact ⟨by simp [this.1], by simpa [Client.buffered] using hsize, by simp, by simp⟩
  | header n eof b hp hsize => exact ⟨hasked, by simpa [Client.buffered] using hsize, by simp, by simp⟩
  | filled n data b hp hn hlen =>
    simp only [hp] at hheld
    exact ⟨by simp only; omega, by simp only [Client.buffered]; omega, by simp, by simp⟩
  | returned n data b hp hlen hsize =>
    simp only [hp] at hheld
    exact ⟨by simp only; omega, by simp only [Client.buffered]; omega, by simp, by simp [hsize]⟩

theorem Client.Held.step {s : Client} (h : s.Held) : (s.step J ctx).1.Held := by
  cases he : s.phase.ended with
  | true => rwa [Client.step_ended he]
  | false => exact h.move (Client.step_move he)

theorem Client.Move.leaves {s s' : Client} (h : s.Move s') : s'.phase ≠ .opening := by cases h <;> simp

/-- What was announced stays. -/
theorem Client.Move.opened_eq {s s' : Client} (h : s.Move s') (hp : s.phase ≠ .opening) : s'.opened = s.opened := by
  cases h with
  | opened opened b ho => exact absurd ho hp
  | refused opened err b ho => exact absurd ho hp
  | _ => rfl

/-- What the call still has to read, in steps. -/
def Client.rank (s : Client) : Nat :=
  match s.phase with
  | .reading => 2 * (s.opened.size - s.data.length).toNat + 2
  | .filling _ _ => 2 * (s.opened.size - s.data.length).toNat + 1
  | _ => 0

theorem Client.Move.rank {s s' : Client} (h : s.Move s') (hp : s.phase ≠ .opening) (hs : s.Held) :
    s'.phase.ended = true ∨ s'.rank < s.rank := by
  cases h with
  | failed => exact .inl rfl
  | opened opened b ho => exact absurd ho hp
  | refused opened err b ho => exact absurd ho hp
  | header n eof b hr => exact .inr (by simp [Client.rank, hr])
  | filled n data b hf hn hlen =>
    have := hs.held
    simp only [Client.buffered, hf] at this
    exact .inr (by simp only [Client.rank, hf]; omega)
  | returned => exact .inl rfl

theorem Client.step_leaves (s : Client) : (s.step J ctx).1.phase ≠ .opening := by
  cases he : s.phase.ended with
  | true =>
    rw [Client.step_ended he]
    intro hp
    simp [hp, Phase.ended] at he
  | false => exact (Client.step_move he).leaves

variable (J ctx) (method : String) (params : List Byte) (b : Reader Byte)

/-- The size in the peer's response to the open request, if it sends one whose result can be
    decoded. -/
def announced : Option Int :=
  match readResponse J.responses b with
  | (.error _, _) => none
  | (.ok resp, _) => (J.opened resp.result).toOption.map (·.size)

/-- The client goes by the size that was announced, or it has none: it has not read the response
    yet, or has failed. -/
def Client.Told (s : Client) : Prop :=
  s.phase ≠ .opening ∧ announced J b = some s.opened.size ∨
    s.opened.size = 0 ∧ (s.phase = .opening ∧ s.reader = b ∨ ∃ err, s.phase = .failed err)

variable {J ctx b}

theorem Client.receiveOpened_told {s : Client} (hsize : s.opened.size = 0) (hb : s.reader = b) :
    Told J b (s.receiveOpened J ctx).1 := by
  have failed : ∀ (b' : Reader Byte) (err : GoError), Told J b ({ s with reader := b' }.fail err).1 :=
    fun b' err => .inr ⟨hsize, .inr ⟨err, rfl⟩⟩
  unfold Client.receiveOpened
  rw [hb]
  split
  · exact failed _ _
  · rename_i resp b' hread
    dsimp only
    split
    · exact failed _ _
    · split
      · exact failed _ _
      · split
        · exact failed _ _
        · split
          · exact failed _ _
          · rename_i opened hopened
            split
            · exact failed _ _
            · have hann : announced J b = some opened.size := by
                simp only [announced, hread, hopened, Except.toOption, Option.map_some]
              rcases Client.ask_cases J ctx { s with opened := opened, data := [], reader := b' } with ⟨err, h⟩ | h
              · exact .inl ⟨by rw [h]; simp, by rw [h]; exact hann⟩
              · exact .inl ⟨by rw [h]; simp, by rw [h]; exact hann⟩

theorem Client.Told.step {s : Client} (h : Told J b s) : Told J b (s.step J ctx).1 := by
  cases he : s.phase.ended with
  | true => rwa [Client.step_ended he]
  | false =>
    rcases h with ⟨hp, h⟩ | ⟨hsize, ⟨hp, hb⟩ | ⟨err, hp⟩⟩
    · exact .inl ⟨Client.step_leaves s, by rw [(Client.step_move he).opened_eq hp]; exact h⟩
    · unfold Client.step
      rw [hp]
      exact Client.receiveOpened_told hsize hb
    · rw [hp] at he
      cases he

variable (J ctx b)

theorem Client.told_after (n : Nat) : Told J b (after J ctx method params b n) := by
  induction n with
  | zero =>
    unfold Client.after Client.start
    split
    · exact .inr ⟨rfl, .inr ⟨_, rfl⟩⟩
    · exact .inr ⟨rfl, .inl ⟨rfl, rfl⟩⟩
  | succ n ih => exact ih.step

theorem Client.held_after (n : Nat) : (after J ctx method params b n).Held := by
  induction n with
  | zero =>
    unfold Client.after Client.start
    split
    all_goals
      refine ⟨Nat.zero_le _, Int.le_refl _, ?_, ?_⟩
      all_goals simp [Client.fail]
  | succ n ih => exact ih.step

theorem Client.ends (n : Nat) : ∃ k, (after J ctx method params b (k + 1)).phase.ended = true := by
  induction hr : (after J ctx method params b (n + 1)).rank using Nat.strongRecOn generalizing n with
  | ind r ih =>
    subst hr
    cases he : (after J ctx method params b (n + 1)).phase.ended with
    | true => exact ⟨n, he⟩
    | false =>
      rcases (Client.step_move he).rank (Client.step_leaves _) (held_after J ctx method params b _) with h | h
      · exact ⟨n + 1, h⟩
      · exact ih _ h (n + 1) rfl

/-- Whatever the peer sends: the call ends, and fails or returns as many bytes as the peer has
    announced; it asks at most once more than there are bytes and never holds more of them. -/
theorem blob_client_is_safe (J : BlobJson) (ctx : Option GoError) (method : String) (params : List Byte)
    (b : Reader Byte) :
    (∃ n, (∃ err, (Client.after J ctx method params b n).phase = .failed err) ∨
      ∃ value, (Client.after J ctx method params b n).phase = .returned value) ∧
    ∀ n, (∀ value, (Client.after J ctx method params b n).phase = .returned value →
        announced J b = some (value.data.length : Int)) ∧
      (Client.after J ctx method params b n).asked ≤ ((announced J b).getD 0).toNat + 1 ∧
      (Client.after J ctx method params b n).buffered ≤ ((announced J b).getD 0).toNat := by
  refine ⟨?_, fun n => ?_⟩
  · obtain ⟨k, hk⟩ := Client.ends J ctx method params b 0
    refine ⟨k + 1, ?_⟩
    cases hp : (Client.after J ctx method params b (k + 1)).phase with
    | failed err => exact .inl ⟨err, rfl⟩
    | returned value => exact .inr ⟨value, rfl⟩
    | _ => simp [hp, Phase.ended] at hk
  · have h := Client.held_after J ctx method params b n
    have hheld := h.held
    have hasked := h.asked
    have hdata : (Client.after J ctx method params b n).data.length ≤
        (Client.after J ctx method params b n).buffered := by
      unfold Client.buffered
      split <;> omega
    rcases Client.told_after J ctx method params b n with ⟨-, hann⟩ | ⟨hsize, hp⟩
    · rw [hann]
      refine ⟨fun value hv => by rw [h.whole value hv], ?_, ?_⟩
      · simp only [Option.getD_some]
        omega
      · simp only [Option.getD_some]
        omega
    · -- nothing is known of a size, and nothing has been asked for
      refine ⟨fun value hv => ?_, by omega, by omega⟩
      rcases hp with ⟨hp, -⟩ | ⟨err, hp⟩
      · rw [hp] at hv
        cases hv
      · rw [hp] at hv
        cases hv

end Ghostline.Rpc
