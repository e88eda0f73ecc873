/-
  Ghostline.Lib.JsonText — JSON texts of records, without white space: integers, strings with
  their escapes, and the fixed parts between them, which a reader takes off the front.

  - `readInt_int`, `readStr_str`: what is written is read, and what is behind it is left.
  - A text of printable bytes (`Printable`) is one line.
-/

import Mathlib.Data.Nat.Digits.Defs
import Mathlib.Tactic.Common
import Ghostline.Lib.Decimal

namespace Ghostline.Lib.JsonText

open Decimal

def quote : UInt8 := 0x22
def backslash : UInt8 := 0x5c
def closing : UInt8 := 0x7d

def Printable (text : List UInt8) : Prop := ∀ b ∈ text, 0x20 ≤ b

instance (text : List UInt8) : Decidable (Printable text) := List.decidableBAll _ text

@[simp] theorem printable_append {s t : List UInt8} : Printable (s ++ t) ↔ Printable s ∧ Printable t :=
  List.forall_mem_append

/-! ## Fixed parts -/

/-- What is behind a fixed part. -/
def skip (part text : List UInt8) : Option (List UInt8) :=
  if part.isPrefixOf text then some (text.drop part.length) else none

@[simp] theorem skip_append (part rest : List UInt8) : skip part (part ++ rest) = some rest := by
  simp [skip, List.isPrefixOf_iff_prefix]

/-! ## Integers -/

def int (n : Int) : List UInt8 := (if n < 0 then [0x2d] else []) ++ decimal n.natAbs

/-- The integer at the front, and what is behind it. -/
def readInt (text : List UInt8) : Int × List UInt8 :=
  match skip [0x2d] text with
  | some text => (-(value (text.takeWhile (IsDigit ·)) : Int), text.dropWhile (IsDigit ·))
  | none => (value (text.takeWhile (IsDigit ·)), text.dropWhile (IsDigit ·))

theorem digits_front {n : Nat} {rest : List UInt8} (h : ∀ b ∈ rest.head?, ¬ IsDigit b) :
    (decimal n ++ rest).takeWhile (IsDigit ·) = decimal n ∧ (decimal n ++ rest).dropWhile (IsDigit ·) = rest := by
  have hall : ∀ b ∈ decimal n, decide (IsDigit b) = true := fun b hb => decide_eq_true (isDigit_of_mem_decimal hb)
  rw [List.takeWhile_append_of_pos hall, List.dropWhile_append_of_pos hall]
  cases rest with
  | nil => simp
  | cons b rest =>
    have hb : ¬ IsDigit b := h b rfl
    simp [hb]

theorem readInt_int (n : Int) {rest : List UInt8} (h : ∀ b ∈ rest.head?, ¬ IsDigit b) :
    readInt (int n ++ rest) = (n, rest) := by
  obtain ⟨htake, hdrop⟩ := digits_front (n := n.natAbs) h
  unfold int readInt
  by_cases hn : n < 0
  · rw [if_pos hn, List.append_assoc, skip_append]
    simp only [htake, hdrop, value_decimal]
    exact congrArg (·, rest) (by omega)
  · have hfront : skip [0x2d] (decimal n.natAbs ++ rest) = none := by
      cases hd : decimal n.natAbs with
      | nil => exact absurd hd (decimal_ne_nil _)
      | cons b s =>
        have hb : IsDigit b := isDigit_of_mem_decimal (hd ▸ List.mem_cons_self)
        have hne : (0x2d : UInt8) ≠ b := by
          rintro rfl
          exact absurd hb (by decide)
        simp [skip, hne]
    rw [if_neg hn, List.nil_append, hfront]
    simp only [htake, hdrop, value_decimal]
    exact congrArg (·, rest) (by omega)

/-- In front of a byte that is no digit. -/
theorem readInt_int_cons (n : Int) {b : UInt8} (hb : ¬ IsDigit b) (rest : List UInt8) :
    readInt (int n ++ b :: rest) = (n, b :: rest) :=
  readInt_int n fun _ h => Option.some.inj h ▸ hb

@[simp] theorem printable_int (n : Int) : Printable (int n) := by
  have hdigits : Printable (decimal n.natAbs) := by
    intro b hb
    exact UInt8.le_trans (by decide) (isDigit_of_mem_decimal hb).1
  unfold int
  split
  · exact printable_append.mpr ⟨by decide, hdigits⟩
  · exact hdigits

theorem length_int {n : Int} (h : n.natAbs < 10 ^ 20) : (int n).length ≤ 21 := by
  have hlen : (decimal n.natAbs).length ≤ 20 := by
    rw [decimal, List.length_map]
    exact Nat.toDigits_length 10 _ 20 (by decide) h
  unfold int
  split <;> simp only [List.length_append, List.length_cons, List.length_nil] <;> omega

/-! ## Strings -/

def hexDigit (n : Nat) : UInt8 := .ofNat (if n < 10 then 48 + n else 87 + n)

def hexValue (b : UInt8) : Nat := if b.toNat < 58 then b.toNat - 48 else b.toNat - 87

/-- A byte of a string. -/
def escape (b : UInt8) : List UInt8 :=
  if b = quote ∨ b = backslash then [backslash, b]
  else if b < 0x20 then [backslash, 0x75, 0x30, 0x30, hexDigit (b.toNat / 16), hexDigit (b.toNat % 16)]
  else [b]

def str (s : List UInt8) : List UInt8 := quote :: s.flatMap escape ++ [quote]

inductive Mode where
  | plain
  | escaped
  /-- Behind `u` and this many digits, of which the last has this value. -/
  | digits (n value : Nat)
  deriving DecidableEq, Repr

/-- The bytes up to the closing quote, and what is behind it. -/
def unescape : Mode → List UInt8 → List UInt8 × List UInt8
  | _, [] => ([], [])
  | .plain, b :: s =>
    if b = quote then ([], s)
    else if b = backslash then unescape .escaped s
    else (unescape .plain s).map (b :: ·) id
  | .escaped, b :: s => if b = 0x75 then unescape (.digits 0 0) s else (unescape .plain s).map (b :: ·) id
  | .digits n value, b :: s =>
    if n = 3 then (unescape .plain s).map (.ofNat (value * 16 + hexValue b) :: ·) id
    else unescape (.digits (n + 1) (hexValue b)) s

/-- The string at the front, and what is behind it. -/
def readStr (text : List UInt8) : List UInt8 × List UInt8 := unescape .plain (text.drop 1)

theorem unescape_escape (b : UInt8) (s : List UInt8) :
    unescape .plain (escape b ++ s) = (unescape .plain s).map (b :: ·) id := by
  have hhex : ∀ n < 16, hexValue (hexDigit n) = n := by decide
  unfold escape
  by_cases h1 : b = quote ∨ b = backslash
  · have hu : b ≠ 0x75 := by rcases h1 with rfl | rfl <;> decide
    have hq : backslash ≠ quote := by decide
    simp [h1, unescape, hu, hq]
  · have hq : b ≠ quote := fun h => h1 (.inl h)
    have hb : b ≠ backslash := fun h => h1 (.inr h)
    rw [if_neg h1]
    by_cases h2 : b < 0x20
    · have hlt : b.toNat < 32 := h2
      have heq : b.toNat / 16 * 16 + b.toNat % 16 = b.toNat := by omega
      have hne : backslash ≠ quote := by decide
      simp [h2, unescape, hne, hhex _ (show b.toNat / 16 < 16 by omega), hhex _ (show b.toNat % 16 < 16 by omega), heq]
    · simp [h2, unescape, hq, hb]

@[simp] theorem readStr_str (s rest : List UInt8) : readStr (str s ++ rest) = (s, rest) := by
  have hbody : unescape .plain (s.flatMap escape ++ quote :: rest) = (s, rest) := by
    induction s with
    | nil => simp [unescape]
    | cons b s ih => rw [List.flatMap_cons, List.append_assoc, unescape_escape, ih]; rfl
  simpa [readStr, str] using hbody

theorem escape_bounds (b : UInt8) : Printable (escape b) ∧ 1 ≤ (escape b).length ∧ (escape b).length ≤ 6 := by
  have hhex : ∀ n < 16, 0x20 ≤ hexDigit n := by decide
  unfold escape
  by_cases h1 : b = quote ∨ b = backslash
  · rw [if_pos h1]
    rcases h1 with rfl | rfl <;> decide
  · rw [if_neg h1]
    by_cases h2 : b < 0x20
    · have hlt : b.toNat < 32 := h2
      rw [if_pos h2]
      refine ⟨?_, by simp, by simp⟩
      simp only [Printable, List.forall_mem_cons]
      exact ⟨by decide, by decide, by decide, by decide, hhex _ (by omega), hhex _ (by omega), List.forall_mem_nil _⟩
    · rw [if_neg h2]
      exact ⟨List.forall_mem_singleton.mpr (UInt8.not_lt.mp h2), by simp, by simp⟩

theorem str_bounds (s : List UInt8) :
    Printable (str s) ∧ s.length ≤ (str s).length ∧ (str s).length ≤ 6 * s.length + 2 := by
  have hbody : Printable (s.flatMap escape) ∧ s.length ≤ (s.flatMap escape).length ∧
      (s.flatMap escape).length ≤ 6 * s.length := by
    induction s with
    | nil => exact ⟨List.forall_mem_nil _, Nat.le_refl _, Nat.le_refl _⟩
    | cons b s ih =>
      have hb := escape_bounds b
      rw [List.flatMap_cons, printable_append, List.length_append, List.length_cons]
      exact ⟨⟨hb.1, ih.1⟩, by omega, by omega⟩
  have hquote : Printable [quote] := by decide
  rw [str, ← List.singleton_append, printable_append, printable_append]
  simp only [List.length_append, List.length_cons, List.length_nil]
  exact ⟨⟨⟨hquote, hbody.1⟩, hquote⟩, by omega, by omega⟩

end Ghostline.Lib.JsonText
