/-
  Ghostline.Terminal.Osc133 — the semantic prompt markers of a chunk (semantic.go:
  `findOSC133`).

  A marker is `ESC ]133;`, a kind, a payload, and BEL or `ESC \`. The scan looks for
  `]133;` from a position on and goes on behind the marker it has parsed, or at the end of
  the chunk if the marker has no terminator there. Each turn moves the position on, so
  that a chunk of `n` bytes takes at most `n` turns.
-/

import Ghostline.Lib.Search
import Ghostline.Query.Responder

namespace Ghostline.Terminal

open Lib Query

def osc133Suffix : List Byte := bytes "]133;"
def osc133Prefix : List Byte := esc :: osc133Suffix

def maxSemanticExitDigits : Nat := 6

structure Osc133Span where
  kind : Byte
  /-- `exitCode`, if `hasExit`. -/
  exit : Option Nat
  /-- The index just past the terminator. -/
  «end» : Nat
  deriving DecidableEq, Repr

/-! ## One marker -/

/-- The digits of a status, up to a `;`. -/
def exitDigits (value digits : Nat) : List Byte → Option Nat
  | [] => if digits = 0 then none else some value
  | digit :: rest =>
    if digit = byte ';' then if digits = 0 then none else some value
    else if digit < byte '0' ∨ byte '9' < digit then none
    else if maxSemanticExitDigits ≤ digits then none
    else exitDigits (value * 10 + (digit - byte '0').toNat) (digits + 1) rest

def parseOSC133Exit : List Byte → Option Nat
  | [] => none
  | b :: rest => if b = byte ';' then exitDigits 0 0 rest else none

/-- The length of the payload and of the terminator behind it. An ESC without a backslash
    is part of the payload. -/
def terminator : List Byte → Option (Nat × Nat)
  | [] => none
  | b :: rest =>
    if b = 0x07 then some (0, 1)
    else if b = esc ∧ rest.head? = some (byte '\\') then some (0, 2)
    else (terminator rest).map fun t => (t.1 + 1, t.2)

/-- The marker at `start`, and whether it is complete. -/
def parseOSC133At (data : List Byte) (start : Nat) : Osc133Span × Bool :=
  let body := start + osc133Prefix.length
  match data[body]? with
  | none => (⟨0, none, data.length⟩, false)
  | some kind =>
    let payload := data.drop (body + 1)
    match terminator payload with
    | none => (⟨kind, none, data.length⟩, false)
    | some (index, length) =>
      (⟨kind, if kind = byte 'D' then parseOSC133Exit (payload.take index) else none, body + 1 + index + length⟩, true)

/-! ## All of them -/

/-- The loop, for at most `fuel` turns. -/
def findFrom (data : List Byte) : Nat → Nat → List Osc133Span
  | 0, _ => []
  | fuel + 1, position =>
    if data.length ≤ position then []
    else
      match index osc133Suffix (data.drop position) with
      | none => []
      | some offset =>
        let at_ := offset + position
        if at_ = 0 ∨ data[at_ - 1]? ≠ some esc then findFrom data fuel (at_ + 1)
        else
          let (span, ok) := parseOSC133At data (at_ - 1)
          if span.end ≤ position then findFrom data fuel (at_ + osc133Suffix.length)
          else if ok then span :: findFrom data fuel span.end
          else findFrom data fuel span.end

def findOSC133 (data : List Byte) : List Osc133Span :=
  if index osc133Suffix data = none then [] else findFrom data data.length 0

/-! ## Where markers end -/

theorem terminator_le {b : List Byte} {i n : Nat} (h : terminator b = some (i, n)) : i + n ≤ b.length := by
  induction b generalizing i n with
  | nil => simp [terminator] at h
  | cons x b ih =>
    unfold terminator at h
    split at h
    · obtain ⟨rfl, rfl⟩ := Prod.mk.inj (Option.some.inj h)
      simp
    · split at h
      · rename_i hst
        obtain ⟨rfl, rfl⟩ := Prod.mk.inj (Option.some.inj h)
        cases b with
        | nil => simp at hst
        | cons y b => simp
      · obtain ⟨⟨i', n'⟩, ht, he⟩ := Option.map_eq_some_iff.mp h
        obtain ⟨rfl, rfl⟩ := Prod.mk.inj he
        have := ih ht
        simp only [List.length_cons]
        omega

theorem parseOSC133At_end (data : List Byte) (start : Nat) : (parseOSC133At data start).1.end ≤ data.length := by
  unfold parseOSC133At
  simp only
  split
  · simp
  · rename_i kind hk
    split
    · simp
    · rename_i i n ht
      have hlt := (List.getElem?_eq_some_iff.mp hk).1
      have := terminator_le ht
      simp only [List.length_drop] at this
      simp only
      omega

/-- Spans that end one behind the other, between `position` and `limit`. -/
def Ends (limit : Nat) : Nat → List Osc133Span → Prop
  | position, [] => position ≤ limit
  | position, span :: spans => position < span.end ∧ Ends limit span.end spans

theorem Ends.weaken {limit p q : Nat} {spans : List Osc133Span} (h : Ends limit q spans) (hpq : p ≤ q) :
    Ends limit p spans := by
  cases spans with
  | nil => exact Nat.le_trans hpq h
  | cons span spans => exact ⟨Nat.lt_of_le_of_lt hpq h.1, h.2⟩

theorem Ends.le {limit position : Nat} {spans : List Osc133Span} (h : Ends limit position spans) : position ≤ limit := by
  induction spans generalizing position with
  | nil => exact h
  | cons span spans ih => exact Nat.le_trans (Nat.le_of_lt h.1) (ih h.2)

theorem findFrom_ends (data : List Byte) : ∀ (fuel position : Nat), position ≤ data.length →
    Ends data.length position (findFrom data fuel position) := by
  intro fuel
  induction fuel with
  | zero => exact fun position h => h
  | succ fuel ih =>
    intro position h
    unfold findFrom
    split
    · exact h
    · split
      · exact h
      · rename_i offset ho
        have hle := index_le ho
        have hlen : osc133Suffix.length = 5 := by decide
        simp only [List.length_drop] at hle
        simp only
        split
        · exact (ih _ (by omega)).weaken (by omega)
        · have hend := parseOSC133At_end data (offset + position - 1)
          split
          · exact (ih _ (by omega)).weaken (by omega)
          · split
            · exact ⟨by omega, ih _ hend⟩
            · exact (ih _ hend).weaken (by omega)

theorem findOSC133_ends (data : List Byte) : Ends data.length 0 (findOSC133 data) := by
  unfold findOSC133
  split
  · exact Nat.zero_le _
  · exact findFrom_ends data _ 0 (Nat.zero_le _)

end Ghostline.Terminal
