/-
  Ghostline.Handoff.Transport — the admin socket's bytes (migrate.go: `adminTransport`).

  `write` puts one frame, a line of JSON, on the socket, and a descriptor with it. `read`
  and `takeFD` both take what `ReadMsgUnix` returns into one buffer and one queue of
  descriptors: `read` until the buffer has a newline, `takeFD` until the queue has a
  descriptor. A descriptor may come with a NUL byte of its own, so both skip NULs: `read`
  those at the front of the buffer, `takeFD` those at the front of what it receives.

  `Channel` is what the two are for: a queue of frames and a queue of descriptors. However
  the kernel cuts the stream, and whatever the order of the calls, `read` and `takeFD`
  answer as the two queues do (`Follows`).

  `encoding/json` is a parameter (`Codec`).
-/

import Mathlib.Data.List.Basic
import Ghostline.Lib.Padded
import Ghostline.Types

namespace Ghostline.Handoff

open Lib

namespace Transport

def adminMaxFrame : Nat := 64 * 2 ^ 20

def newline : Byte := 10
def nul : Byte := 0

structure Codec (ν : Type) where
  marshal : ν → Except String (List Byte)
  unmarshal : List Byte → Except String ν

variable {ν : Type} (j : Codec ν)

/-- JSON has no raw NUL and no raw newline. -/
def Codec.Plain : Prop := ∀ v frame, j.marshal v = .ok frame → nul ∉ frame ∧ newline ∉ frame

def Codec.decode (frame : List Byte) : Except Err ν :=
  match j.unmarshal frame with
  | .error m => .error (.other m)
  | .ok v => .ok v

def tooLarge : Err := .other "admin message too large"
def truncated : Err := .other "admin control message truncated"
def unexpectedEOF : Err := .other "unexpected EOF"
def shortWrite : Err := .other "short write"

/-! ## The writer -/

/-- `unix.UnixRights`; a negative descriptor is none. -/
def unixRights (fd : Int) : List Nat := if 0 ≤ fd then [fd.toNat] else []

/-- The writes behind the first one. Each takes as much as `takes` says; there may be none
    that is served before the deadline. -/
def writeRest : List Nat → List Byte → Except Err Unit × List Byte
  | _, [] => (.ok (), [])
  | [], _ :: _ => (.error (.other "i/o timeout"), [])
  | 0 :: _, _ :: _ => (.error shortWrite, [])
  | (n + 1) :: takes, x :: frame =>
    let (result, sent) := writeRest takes (frame.drop n)
    (result, x :: frame.take n ++ sent)

/-- The result, and the bytes and descriptors that reached the socket. -/
def write (value : ν) (fd : Int) (first : Nat) (takes : List Nat) : Except Err Unit × List Byte × List Nat :=
  match j.marshal value with
  | .error m => (.error (.other m), [], [])
  | .ok encoded =>
    let frame := encoded ++ [newline]
    if adminMaxFrame < frame.length then (.error tooLarge, [], [])
    else
      let (result, sent) := writeRest takes (frame.drop first)
      (result, frame.take first ++ sent, unixRights fd)

/-! ## The reader -/

/-- What a call of `ReadMsgUnix` returns. -/
structure Received where
  payload : List Byte
  fds : List Nat
  /-- `MSG_CTRUNC` -/
  ctrunc : Bool
  deriving DecidableEq, Repr

structure AdminTransport where
  /-- What the next calls of `ReadMsgUnix` return, -/
  conn : List Received
  /-- and the error behind that. -/
  closed : Err
  readBuf : List Byte
  received : List Nat
  deriving DecidableEq, Repr

def trimLeft (b : List Byte) : List Byte := b.dropWhile (· == nul)

/-- The loop of `read`, up to the frame. -/
def readLoop (closed : Err) (conn : List Received) (readBuf : List Byte) (received : List Nat) :
    Except Err (List Byte) × AdminTransport :=
  let readBuf := trimLeft readBuf
  if newline ∈ readBuf then
    let index := readBuf.idxOf newline
    if adminMaxFrame < index then (.error tooLarge, ⟨conn, closed, readBuf, received⟩)
    else (.ok (readBuf.take index), ⟨conn, closed, readBuf.drop (index + 1), received⟩)
  else if adminMaxFrame < readBuf.length then (.error tooLarge, ⟨conn, closed, readBuf, received⟩)
  else
    match conn with
    | [] => (.error closed, ⟨[], closed, readBuf, received⟩)
    | r :: conn =>
      if r.ctrunc then (.error truncated, ⟨conn, closed, readBuf, received⟩)
      else if r.payload = [] then (.error unexpectedEOF, ⟨conn, closed, readBuf, received ++ r.fds⟩)
      else readLoop closed conn (readBuf ++ r.payload) (received ++ r.fds)

/-- The loop of `takeFD`, entered with no descriptor received. -/
def takeLoop (closed : Err) (conn : List Received) (readBuf : List Byte) : Except Err Nat × AdminTransport :=
  match conn with
  | [] => (.error closed, ⟨[], closed, readBuf, []⟩)
  | r :: conn =>
    if r.ctrunc then (.error truncated, ⟨conn, closed, readBuf, []⟩)
    else
      let readBuf := readBuf ++ trimLeft r.payload
      match r.fds with
      | fd :: received => (.ok fd, ⟨conn, closed, readBuf, received⟩)
      | [] =>
        if r.payload = [] then (.error unexpectedEOF, ⟨conn, closed, readBuf, []⟩)
        else takeLoop closed conn readBuf

namespace AdminTransport

def read (t : AdminTransport) : Except Err ν × AdminTransport :=
  match readLoop t.closed t.conn t.readBuf t.received with
  | (.error e, t) => (.error e, t)
  | (.ok frame, t) => (j.decode frame, t)

def takeFD (t : AdminTransport) : Except Err Nat × AdminTransport :=
  match t.received with
  | fd :: received => (.ok fd, { t with received := received })
  | [] => takeLoop t.closed t.conn t.readBuf

end AdminTransport

inductive Call where
  | read
  | takeFD
  deriving DecidableEq, Repr

inductive Reply (ν : Type) where
  | value (v : Except Err ν)
  | fd (fd : Except Err Nat)

/-- The replies to one call after the other. -/
def AdminTransport.serve : List Call → AdminTransport → List (Reply ν)
  | [], _ => []
  | .read :: calls, t => .value (t.read j).1 :: serve calls (t.read j).2
  | .takeFD :: calls, t => .fd t.takeFD.1 :: serve calls t.takeFD.2

/-! ## What it is for -/

/-- The frames and the descriptors that are still to come, and the error behind them. -/
structure Channel where
  frames : List (List Byte)
  fds : List Nat
  closed : Err

namespace Channel

def read (c : Channel) : Except Err (List Byte) × Channel :=
  match c.frames with
  | [] => (.error c.closed, c)
  | frame :: frames => (.ok frame, { c with frames := frames })

def takeFD (c : Channel) : Except Err Nat × Channel :=
  match c.fds with
  | [] => (.error c.closed, c)
  | fd :: fds => (.ok fd, { c with fds := fds })

def serve : List Call → Channel → List (Reply ν)
  | [], _ => []
  | .read :: calls, c => .value (c.read.1.bind j.decode) :: serve calls c.read.2
  | .takeFD :: calls, c => .fd c.takeFD.1 :: serve calls c.takeFD.2

end Channel

/-- Frames that `write` accepted one after the other, with NULs between them, and the bytes
    and descriptors that reached the socket. -/
inductive Sent : List (List Byte) → List Byte → List Nat → Prop where
  | nil : Sent [] [] []
  | frame {value frame fd first takes frames bytes sent fds rights} (hm : j.marshal value = .ok frame)
      (hw : write j value fd first takes = (.ok (), sent, rights)) (h : Sent frames bytes fds) :
      Sent (frame :: frames) (sent ++ bytes) (rights ++ fds)
  | nul {frames bytes fds} (fd : Int) (h : Sent frames bytes fds) : Sent frames (nul :: bytes) (unixRights fd ++ fds)

/-- A receive that has bytes and room for its descriptor. -/
structure Received.Whole (r : Received) : Prop where
  payload : r.payload ≠ []
  fds : r.fds.length ≤ 1
  ctrunc : r.ctrunc = false

/-- The transport stands where the channel stands. -/
structure Follows (t : AdminTransport) (c : Channel) : Prop where
  bytes : Padded nul newline c.frames (t.readBuf ++ t.conn.flatMap Received.payload)
  fds : t.received ++ t.conn.flatMap Received.fds = c.fds
  closed : t.closed = c.closed
  whole : ∀ r ∈ t.conn, r.Whole
  sized : ∀ frame ∈ c.frames, frame.length < adminMaxFrame

/-! ## What was written -/

theorem writeRest_ok : ∀ (takes : List Nat) (frame : List Byte), (writeRest takes frame).1 = .ok () →
    (writeRest takes frame).2 = frame := by
  intro takes
  induction takes with
  | nil =>
    intro frame h
    cases frame with
    | nil => rfl
    | cons x frame => simp [writeRest] at h
  | cons n takes ih =>
    intro frame h
    cases frame with
    | nil => simp [writeRest]
    | cons x frame =>
      cases n with
      | zero => simp [writeRest] at h
      | succ n =>
        simp only [writeRest] at h ⊢
        rw [ih (frame.drop n) h, List.cons_append, List.take_append_drop]

theorem write_ok {value : ν} {fd : Int} {first : Nat} {takes : List Nat} {frame sent : List Byte} {rights : List Nat}
    (hm : j.marshal value = .ok frame) (hw : write j value fd first takes = (.ok (), sent, rights)) :
    sent = frame ++ [newline] ∧ frame.length < adminMaxFrame := by
  simp only [write, hm] at hw
  split at hw
  · simp at hw
  · rename_i hl
    simp only [Prod.mk.injEq] at hw
    obtain ⟨hok, hsent, -⟩ := hw
    rw [writeRest_ok takes _ hok, List.take_append_drop] at hsent
    simp only [List.length_append, List.length_singleton] at hl
    exact ⟨hsent.symm, by omega⟩

theorem Sent.padded (hj : j.Plain) {frames bytes fds} (h : Sent j frames bytes fds) :
    Padded Transport.nul newline frames bytes ∧ ∀ frame ∈ frames, frame.length < adminMaxFrame := by
  induction h with
  | nil => exact ⟨.nil, by simp⟩
  | frame hm hw h ih =>
    obtain ⟨hp, hl⟩ := ih
    obtain ⟨rfl, hlen⟩ := write_ok j hm hw
    obtain ⟨hnul, hnewline⟩ := hj _ _ hm
    refine ⟨by simpa using Padded.line hnul hnewline hp, ?_⟩
    intro frame hmem
    rcases List.mem_cons.mp hmem with rfl | hmem
    · exact hlen
    · exact hl frame hmem
  | nul fd h ih => exact ⟨.pad ih.1, ih.2⟩

/-! ## The two loops -/

theorem nul_ne_newline : nul ≠ newline := by decide

theorem trimLeft_head (b : List Byte) : ∀ x, (trimLeft b).head? = some x → x ≠ nul := by
  intro x hx
  have := List.head?_dropWhile_not (· == nul) b
  unfold trimLeft at hx
  rw [hx] at this
  simpa using this

theorem idxOf_front {p q : List Byte} (hp : newline ∉ p) : (p ++ newline :: q).idxOf newline = p.length := by
  rw [List.idxOf_append_of_notMem hp]
  simp

section

variable {closed : Err} {conn : List Received} {readBuf : List Byte} {received : List Nat} {c : Channel}

theorem Follows.trim (h : Follows ⟨conn, closed, readBuf, received⟩ c) :
    Follows ⟨conn, closed, trimLeft readBuf, received⟩ c :=
  { h with bytes := Padded.trim (a := []) nul_ne_newline h.bytes }

/-- A newline in the buffer ends the next frame. -/
theorem readLoop_found (h : Follows ⟨conn, closed, readBuf, received⟩ c) (hn : newline ∈ trimLeft readBuf) :
    ∃ t, readLoop closed conn readBuf received = (c.read.1, t) ∧ Follows t c.read.2 := by
  have hx := trimLeft_head readBuf
  obtain ⟨p, q, hb, hp⟩ := List.eq_append_cons_of_mem hn
  have hpad := h.trim.bytes
  simp only [hb] at hpad hx
  obtain ⟨frames, hframes, hrest⟩ := hpad.split hp hx
  have hlen : p.length < adminMaxFrame := h.sized p (by simp [hframes])
  have hle : ¬ adminMaxFrame < p.length := by omega
  have hread : c.read = (.ok p, { c with frames := frames }) := by simp [Channel.read, hframes]
  refine ⟨⟨conn, closed, q, received⟩, ?_, ?_⟩
  · unfold readLoop
    simp [hb, idxOf_front hp, hle, hread]
  · rw [hread]
    exact ⟨hrest, h.fds, h.closed, h.whole, fun frame hf => h.sized frame (by simp [hframes, hf])⟩

/-- Without one there is at most a part of the next frame in it. -/
theorem Follows.length_le (h : Follows ⟨conn, closed, readBuf, received⟩ c) (hn : newline ∉ trimLeft readBuf) :
    ¬ adminMaxFrame < (trimLeft readBuf).length := by
  have hb : Padded nul newline c.frames (trimLeft readBuf ++ conn.flatMap Received.payload) := h.trim.bytes
  rcases hb.part hn (trimLeft_head readBuf) with he | ⟨l, rest, hl, hle⟩
  · simp [he]
  · have := h.sized l (by simp [hl])
    omega

/-- What was received goes behind the buffer. -/
theorem Follows.receive {r : Received} (h : Follows ⟨r :: conn, closed, readBuf, received⟩ c) :
    Follows ⟨conn, closed, readBuf ++ r.payload, received ++ r.fds⟩ c :=
  ⟨by simpa using h.bytes, by simpa using h.fds, h.closed, fun x hx => h.whole x (.tail _ hx), h.sized⟩

end

/-- `read` finds the next frame, or it has received everything and there is none. -/
theorem readLoop_follows {closed : Err} {c : Channel} : ∀ (conn : List Received) (readBuf : List Byte)
    (received : List Nat), Follows ⟨conn, closed, readBuf, received⟩ c →
    ∃ t, readLoop closed conn readBuf received = (c.read.1, t) ∧ Follows t c.read.2 := by
  intro conn
  induction conn with
  | nil =>
    intro readBuf received h
    by_cases hn : newline ∈ trimLeft readBuf
    · exact readLoop_found h hn
    · have hle := h.length_le hn
      have hframes : c.frames = [] := by
        cases hf : c.frames with
        | nil => rfl
        | cons frame frames =>
          have hb := h.trim.bytes
          simp only [hf, List.flatMap_nil, List.append_nil] at hb
          exact absurd hb.delim_mem hn
      have hread : c.read = (.error c.closed, c) := by simp [Channel.read, hframes]
      refine ⟨⟨[], closed, trimLeft readBuf, received⟩, ?_, by simpa [hread] using h.trim⟩
      unfold readLoop
      simp [hn, hle, hread, ← h.closed]
  | cons r conn ih =>
    intro readBuf received h
    by_cases hn : newline ∈ trimLeft readBuf
    · exact readLoop_found h hn
    · have hle := h.length_le hn
      have hr := h.whole r (.head _)
      obtain ⟨t, hloop, ht⟩ := ih _ _ h.trim.receive
      refine ⟨t, ?_, ht⟩
      rw [← hloop]
      conv_lhs => unfold readLoop
      simp [hn, hle, hr.ctrunc, hr.payload]

/-- `takeFD` finds the next descriptor, or it has received everything and there is none. -/
theorem takeLoop_follows {closed : Err} {c : Channel} : ∀ (conn : List Received) (readBuf : List Byte),
    Follows ⟨conn, closed, readBuf, []⟩ c →
    ∃ t, takeLoop closed conn readBuf = (c.takeFD.1, t) ∧ Follows t c.takeFD.2 := by
  intro conn
  induction conn with
  | nil =>
    intro readBuf h
    have hfds : c.fds = [] := by simpa using h.fds.symm
    have htake : c.takeFD = (.error c.closed, c) := by simp [Channel.takeFD, hfds]
    exact ⟨⟨[], closed, readBuf, []⟩, by simp [takeLoop, htake, ← h.closed], by simpa [htake] using h⟩
  | cons r conn ih =>
    intro readBuf h
    have hr := h.whole r (.head _)
    have hb : Padded nul newline c.frames (readBuf ++ (r.payload ++ conn.flatMap Received.payload)) := by
      simpa using h.bytes
    have hkept : Follows ⟨conn, closed, readBuf ++ trimLeft r.payload, r.fds⟩ c :=
      { h.receive with bytes := by simpa [trimLeft] using hb.trim nul_ne_newline }
    unfold takeLoop
    simp only [hr.ctrunc, Bool.false_eq_true, if_false]
    cases hfds : r.fds with
    | nil =>
      rw [hfds] at hkept
      simpa [hr.payload] using ih _ hkept
    | cons fd received =>
      rw [hfds] at hkept
      have hc : c.fds = fd :: (received ++ conn.flatMap Received.fds) := hkept.fds.symm
      have htake : c.takeFD = (.ok fd, { c with fds := received ++ conn.flatMap Received.fds }) := by
        simp [Channel.takeFD, hc]
      refine ⟨⟨conn, closed, readBuf ++ trimLeft r.payload, received⟩, by simp [htake], ?_⟩
      rw [htake]
      exact ⟨hkept.bytes, rfl, hkept.closed, hkept.whole, hkept.sized⟩

/-! ## The calls -/

variable {j} {t : AdminTransport} {c : Channel}

theorem Follows.read (h : Follows t c) :
    (t.read j).1 = c.read.1.bind j.decode ∧ Follows (t.read j).2 c.read.2 := by
  obtain ⟨t', hloop, ht'⟩ := readLoop_follows t.conn t.readBuf t.received h
  unfold AdminTransport.read
  rw [hloop]
  cases c.read.1 with
  | error e | ok frame => exact ⟨rfl, ht'⟩

theorem Follows.takeFD (h : Follows t c) : t.takeFD.1 = c.takeFD.1 ∧ Follows t.takeFD.2 c.takeFD.2 := by
  unfold AdminTransport.takeFD
  cases hr : t.received with
  | nil =>
    have h' : Follows ⟨t.conn, t.closed, t.readBuf, []⟩ c := by rw [← hr]; exact h
    obtain ⟨t', hloop, ht'⟩ := takeLoop_follows t.conn t.readBuf h'
    rw [hloop]
    exact ⟨rfl, ht'⟩
  | cons fd received =>
    have hc : c.fds = fd :: (received ++ t.conn.flatMap Received.fds) := by rw [← h.fds, hr]; rfl
    have htake : c.takeFD = (.ok fd, { c with fds := received ++ t.conn.flatMap Received.fds }) := by
      simp [Channel.takeFD, hc]
    rw [htake]
    exact ⟨rfl, h.bytes, rfl, h.closed, h.whole, h.sized⟩

theorem Follows.serve : ∀ (calls : List Call) {t : AdminTransport} {c : Channel}, Follows t c →
    t.serve j calls = c.serve j calls := by
  intro calls
  induction calls with
  | nil =>
    intro t c _
    rfl
  | cons call calls ih =>
    intro t c h
    cases call with
    | read => rw [AdminTransport.serve, Channel.serve, (h.read (j := j)).1, ih h.read.2]
    | takeFD => rw [AdminTransport.serve, Channel.serve, h.takeFD.1, ih h.takeFD.2]

/-- Whatever was accepted by `write`, with NULs anywhere between the frames, is read back
    frame by frame and descriptor by descriptor, however the stream is cut and in whatever
    order `read` and `takeFD` are called. -/
theorem admin_framing_survives_segmentation (hj : j.Plain) {frames : List (List Byte)} {bytes : List Byte}
    {fds : List Nat} (hs : Sent j frames bytes fds) {conn : List Received} (closed : Err)
    (hw : ∀ r ∈ conn, r.Whole) (hbytes : conn.flatMap Received.payload = bytes)
    (hfds : conn.flatMap Received.fds = fds) (calls : List Call) :
    AdminTransport.serve j calls ⟨conn, closed, [], []⟩ = Channel.serve j calls ⟨frames, fds, closed⟩ := by
  obtain ⟨hpadded, hsized⟩ := hs.padded j hj
  refine Follows.serve calls ⟨?_, hfds, rfl, hw, hsized⟩
  show Padded nul newline frames (conn.flatMap Received.payload)
  rw [hbytes]
  exact hpadded

/-- Frames that are their own encoding. -/
def plainFrames : Codec (List Byte) where
  marshal v := if nul ∈ v ∨ newline ∈ v then .error "invalid character" else .ok v
  unmarshal := .ok

theorem plainFrames_plain : plainFrames.Plain := by
  intro v frame h
  simp only [plainFrames] at h
  split at h
  · cases h
  · rename_i hv
    obtain rfl := Except.ok.inj h
    exact ⟨fun hn => hv (.inl hn), fun hn => hv (.inr hn)⟩

/-- Two frames, the first with a descriptor, and between them a NUL with another one. -/
theorem twoFrames_sent :
    Sent plainFrames [[91, 93], [123, 125]] [91, 93, 10, 0, 123, 125, 10] [7, 8] := by
  have hfirst : write plainFrames [91, 93] 7 1 [1, 1] = (.ok (), [91, 93, 10], [7]) := rfl
  have hsecond : write plainFrames [123, 125] (-1) 3 [] = (.ok (), [123, 125, 10], []) := rfl
  exact .frame rfl hfirst (.nul 8 (.frame rfl hsecond .nil))

/-- The receives cut the first frame, and the NUL comes with the front of the second. Both
    descriptors are taken before the first frame is read. -/
theorem admin_framing_survives_segmentation_cut :
    AdminTransport.serve plainFrames [.takeFD, .takeFD, .read, .read]
      ⟨[⟨[91], [7], false⟩, ⟨[93, 10], [], false⟩, ⟨[0, 123], [8], false⟩, ⟨[125, 10], [], false⟩], .eof, [], []⟩ =
      [.fd (.ok 7), .fd (.ok 8), .value (.ok [91, 93]), .value (.ok [123, 125])] :=
  admin_framing_survives_segmentation plainFrames_plain twoFrames_sent .eof
    (by
      intro r hr
      simp only [List.mem_cons, List.not_mem_nil, or_false] at hr
      rcases hr with rfl | rfl | rfl | rfl <;> exact ⟨by decide, by decide, rfl⟩)
    rfl rfl [.takeFD, .takeFD, .read, .read]

end Transport

end Ghostline.Handoff
