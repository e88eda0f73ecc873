/-
  Ghostline.Lib.Frames — messages in a stream of bytes, one to a line, some with a
  descriptor.

  A message is written as a frame, its bytes and a newline, and a descriptor goes with
  the first byte. The stream keeps the order, but a write and a read may stop at any
  byte. The reader adds what it reads to a buffer, keeps the descriptors apart, and takes
  a frame out of the buffer at a newline.

  What a byte is, is left open: `byte m i` is the `i`-th byte of the message `m`, and what
  is not the bytes of one message does not decode.

  - `Feeds`: reader and writer are in step. What the reader takes out are the messages
    that were written, each with its own descriptor, however the reads cut the stream.
  - `Within`: they may not be, after a read or a write that failed. Still only messages
    come out that were at least begun.
-/

import Mathlib.Data.List.Basic

namespace Ghostline.Lib

inductive Piece (μ : Type) where
  | byte (m : μ) (i : Nat)
  | newline
  deriving DecidableEq, Repr

/-- A byte of the stream, with the descriptor sent along. -/
structure Cell (μ φ : Type) where
  piece : Piece μ
  fd : Option φ
  deriving DecidableEq, Repr

structure Pipe (μ φ : Type) where
  wire : List (Cell μ φ)
  buf : List (Piece μ)
  deriving DecidableEq, Repr

namespace Pipe

variable {μ φ : Type} (p : Pipe μ φ)

def empty : Pipe μ φ := ⟨[], []⟩

def write (x : List (Cell μ φ)) : Pipe μ φ := { p with wire := p.wire ++ x }

/-- A read that returns `k` bytes. -/
def pull (k : Nat) : Pipe μ φ := ⟨p.wire.drop k, p.buf ++ (p.wire.take k).map Cell.piece⟩

/-- The descriptors it returns. -/
def pulled (k : Nat) : List φ := (p.wire.take k).filterMap Cell.fd

/-- All that is on its way. -/
def pieces : List (Piece μ) := p.buf ++ p.wire.map Cell.piece

end Pipe

variable {μ φ : Type}

/-- The buffer up to its first newline, and what is behind it. -/
def pop : List (Piece μ) → Option (List (Piece μ) × List (Piece μ))
  | [] => none
  | .newline :: rest => some ([], rest)
  | .byte m i :: rest => (pop rest).map fun p => (.byte m i :: p.1, p.2)

section

variable (size : μ → Nat)

/-- A message has at least one byte. -/
def bytes (m : μ) : List (Piece μ) := .byte m 0 :: (List.range (size m)).map fun i => .byte m (i + 1)

def decode [DecidableEq μ] : List (Piece μ) → Option μ
  | .byte m i :: rest => if .byte m i :: rest = bytes size m then some m else none
  | _ => none

variable (fd : μ → Option φ)

def frame (m : μ) : List (Cell μ φ) :=
  ⟨.byte m 0, fd m⟩ :: ((List.range (size m)).map fun i => ⟨.byte m (i + 1), none⟩) ++ [⟨.newline, none⟩]

end

/-! ## Frames -/

variable {size : μ → Nat} {fd : μ → Option φ} {m : μ}

theorem bytes_plain : Piece.newline ∉ bytes size m := by simp [bytes]

theorem frame_pieces : (frame size fd m).map Cell.piece = bytes size m ++ [.newline] := by
  simp [frame, bytes, Function.comp_def]

theorem frame_fds : (frame size fd m).filterMap Cell.fd = (fd m).toList := by
  cases h : fd m <;> simp [frame, h, List.filterMap_map]

theorem frame_byte {c : Cell μ φ} {q : μ} {i : Nat} (hc : c ∈ frame size fd m) (h : c.piece = .byte q i) : q = m := by
  have : c.piece ∈ (frame size fd m).map Cell.piece := List.mem_map_of_mem hc
  rw [h, frame_pieces] at this
  simp only [bytes, List.cons_append, List.mem_cons, Piece.byte.injEq, List.mem_append, List.mem_map, reduceCtorEq,
    List.not_mem_nil, or_false] at this
  rcases this with h | ⟨_, -, h, -⟩
  · exact h.1
  · exact h.symm

/-- Only the last of a frame's cells is a newline. -/
theorem frame_take_plain {j : Nat} (hj : j < (frame size fd m).length) : ∀ c ∈ (frame size fd m).take j, c.piece ≠ .newline := by
  intro c hc hn
  have hm : Piece.newline ∈ ((frame size fd m).map Cell.piece).take j := by
    rw [← List.map_take, ← hn]
    exact List.mem_map_of_mem hc
  have hl : j ≤ (bytes size m).length := by
    have := congrArg List.length (frame_pieces : (frame size fd m).map Cell.piece = _)
    rw [List.length_map, List.length_append, List.length_singleton] at this
    omega
  rw [frame_pieces, List.take_append_of_le_length hl] at hm
  exact bytes_plain (List.mem_of_mem_take hm)

theorem pop_append {a rest : List (Piece μ)} (h : .newline ∉ a) : pop (a ++ .newline :: rest) = some (a, rest) := by
  induction a with
  | nil => rfl
  | cons x a ih =>
    cases x with
    | newline => exact absurd (List.mem_cons_self ..) h
    | byte q i => simp [pop, ih fun hx => h (.tail _ hx)]

theorem pop_some {b a rest : List (Piece μ)} (h : pop b = some (a, rest)) : b = a ++ .newline :: rest := by
  induction b generalizing a with
  | nil => cases h
  | cons x b ih =>
    cases x with
    | newline => cases h; rfl
    | byte q i =>
      obtain ⟨⟨a', rest'⟩, hp, he⟩ := Option.map_eq_some_iff.mp h
      cases he
      rw [ih hp]
      rfl

section

variable [DecidableEq μ]

theorem decode_bytes : decode size (bytes size m) = some m := if_pos rfl

theorem decode_some {a : List (Piece μ)} (h : decode size a = some m) : .byte m 0 ∈ a := by
  unfold decode at h
  split at h
  · split at h
    · next ha => cases h; rw [ha]; exact .head _
    · cases h
  · cases h

end

/-! ## In step -/

/-- The messages `ms`, and behind them what there is of one more, make up what the reader
    has in its buffer, with the descriptors `fds` that came along, and has still to read. -/
def Feeds (size : μ → Nat) (fd : μ → Option φ) (p : Pipe μ φ) (fds : List φ) (ms : List μ) (tail : List (Cell μ φ)) : Prop :=
  ∃ got, p.buf = got.map Cell.piece ∧ fds = got.filterMap Cell.fd ∧
    got ++ p.wire = ms.flatMap (frame size fd) ++ tail

namespace Feeds

variable {p : Pipe μ φ} {fds : List φ} {ms : List μ} {tail : List (Cell μ φ)}

theorem nil : Feeds size fd (.empty : Pipe μ φ) [] [] [] := ⟨[], rfl, rfl, rfl⟩

theorem pull (h : Feeds size fd p fds ms tail) (k : Nat) : Feeds size fd (p.pull k) (fds ++ p.pulled k) ms tail := by
  obtain ⟨got, hb, hf, hs⟩ := h
  refine ⟨got ++ p.wire.take k, ?_, ?_, ?_⟩
  · simp [Pipe.pull, hb]
  · simp [Pipe.pulled, hf]
  · rw [List.append_assoc]
    simpa [Pipe.pull] using hs

theorem write (h : Feeds size fd p fds ms tail) (x : List (Cell μ φ)) : Feeds size fd (p.write x) fds ms (tail ++ x) := by
  obtain ⟨got, hb, hf, hs⟩ := h
  refine ⟨got, hb, hf, ?_⟩
  rw [Pipe.write, ← List.append_assoc, hs, List.append_assoc]

/-- The message is written to its end. -/
theorem whole (h : Feeds size fd p fds ms (frame size fd m)) : Feeds size fd p fds (ms ++ [m]) [] := by
  obtain ⟨got, hb, hf, hs⟩ := h
  exact ⟨got, hb, hf, by simpa using hs⟩

/-- What is taken out at a newline is the first message, and the descriptor in front is its. -/
theorem pop {a rest : List (Piece μ)} (h : Feeds size fd p fds ms tail) (ht : ∀ c ∈ tail, c.piece ≠ .newline)
    (hp : Lib.pop p.buf = some (a, rest)) : ∃ m ms' fds', ms = m :: ms' ∧ a = bytes size m ∧
      fds = (fd m).toList ++ fds' ∧ Feeds size fd { p with buf := rest } fds' ms' tail := by
  obtain ⟨got, hb, rfl, hs⟩ := h
  obtain ⟨c, hc, hn⟩ : ∃ c ∈ got, c.piece = .newline := by
    have : Piece.newline ∈ got.map Cell.piece := by rw [← hb, pop_some hp]; simp
    simpa using this
  cases ms with
  | nil =>
    -- there is no newline at all
    have : c ∈ tail := by simpa [hs] using List.mem_append_left p.wire hc
    exact absurd hn (ht c this)
  | cons m ms =>
    rw [List.flatMap_cons, List.append_assoc] at hs
    obtain ⟨got', rfl⟩ : ∃ got', got = frame size fd m ++ got' := by
      rcases List.append_eq_append_iff.mp hs with ⟨x, hx, -⟩ | ⟨got', hg, -⟩
      · -- short of a whole frame there is no newline
        cases x with
        | nil => exact ⟨[], by simpa using hx.symm⟩
        | cons y x =>
          have hg : (frame size fd m).take got.length = got := by simp [hx]
          exact absurd hn (frame_take_plain (by simp [hx]) c (hg.symm ▸ hc))
      · exact ⟨got', hg⟩
    rw [hb, List.map_append, frame_pieces, List.append_assoc, List.singleton_append, pop_append bytes_plain] at hp
    cases hp
    rw [List.append_assoc, List.append_cancel_left_eq] at hs
    exact ⟨m, ms, got'.filterMap Cell.fd, rfl, rfl, by rw [List.filterMap_append, frame_fds], got', rfl, rfl, hs⟩

end Feeds

/-! ## Out of step -/

/-- Every byte on its way is of a message with the property `P`. -/
def Pipe.Within (p : Pipe μ φ) (P : μ → Prop) : Prop := ∀ q i, .byte q i ∈ p.pieces → P q

namespace Pipe.Within

variable {p : Pipe μ φ} {P Q : μ → Prop}

theorem mono (h : p.Within P) (hq : ∀ q, P q → Q q) : p.Within Q := fun q i hi => hq q (h q i hi)

theorem pull (h : p.Within P) (k : Nat) : (p.pull k).Within P := by
  have : (p.pull k).pieces = p.pieces := by
    simp only [Pipe.pieces, Pipe.pull, List.append_assoc, ← List.map_append, List.take_append_drop]
  rwa [Pipe.Within, this]

/-- What was to be read may be lost. -/
theorem drop (h : p.Within P) (k : Nat) : ({ p with wire := p.wire.drop k } : Pipe μ φ).Within P := by
  intro q i hq
  refine h q i ?_
  rcases List.mem_append.mp hq with hq | hq
  · exact List.mem_append_left _ hq
  · refine List.mem_append_right _ ?_
    rw [List.map_drop] at hq
    exact List.mem_of_mem_drop hq

theorem write {x : List (Cell μ φ)} (h : p.Within P) (hm : P m) (hx : ∀ c ∈ x, c ∈ frame size fd m) :
    (p.write x).Within P := by
  intro q i hq
  simp only [Pipe.pieces, Pipe.write, List.map_append, List.mem_append] at hq
  rcases hq with hq | hq | hq
  · exact h q i (List.mem_append_left _ hq)
  · exact h q i (List.mem_append_right _ hq)
  · obtain ⟨c, hc, hp⟩ := List.mem_map.mp hq
    rwa [frame_byte (hx c hc) hp]

theorem pop {a rest : List (Piece μ)} (h : p.Within P) (hp : Lib.pop p.buf = some (a, rest)) :
    (∀ q i, .byte q i ∈ a → P q) ∧ ({ p with buf := rest } : Pipe μ φ).Within P := by
  have hb := pop_some hp
  refine ⟨fun q i hq => h q i ?_, fun q i hq => h q i ?_⟩
  · rw [Pipe.pieces, hb]
    exact List.mem_append_left _ (List.mem_append_left _ hq)
  · rcases List.mem_append.mp hq with hq | hq
    · rw [Pipe.pieces, hb]
      exact List.mem_append_left _ (List.mem_append_right _ (.tail _ hq))
    · exact List.mem_append_right _ hq

end Pipe.Within

theorem Feeds.within {p : Pipe μ φ} {fds : List φ} {ms : List μ} {tail : List (Cell μ φ)} {P : μ → Prop}
    (h : Feeds size fd p fds ms tail) (hms : ∀ m ∈ ms, P m) (ht : ∀ c ∈ tail, ∃ m, P m ∧ c ∈ frame size fd m) :
    p.Within P := by
  obtain ⟨got, hb, -, hs⟩ := h
  intro q i hq
  rw [Pipe.pieces, hb, ← List.map_append, hs] at hq
  obtain ⟨c, hc, hp⟩ := List.mem_map.mp hq
  rcases List.mem_append.mp hc with hc | hc
  · obtain ⟨m, hm, hc⟩ := List.mem_flatMap.mp hc
    rw [frame_byte hc hp]
    exact hms m hm
  · obtain ⟨m, hm, hc⟩ := ht c hc
    rwa [frame_byte hc hp]

end Ghostline.Lib
