/-
  Ghostline.Lib.Padded — lines in a stream that may have padding between them.

  Each line ends with the delimiter, and in front of a line and behind the last one there
  may be any number of pads. No line has a pad or the delimiter in it, so pads can be taken
  out wherever they are found (`Padded.trim`), and the first delimiter behind them ends the
  first line (`Padded.split`).
-/

import Mathlib.Data.List.TakeWhile
import Ghostline.Lib.Buffered

namespace Ghostline.Lib

open Buffered

variable {α : Type} {pad delim : α} {lines : List (List α)}

variable (pad delim) in
inductive Padded : List (List α) → List α → Prop where
  | nil : Padded [] []
  | pad {lines s} (h : Padded lines s) : Padded lines (pad :: s)
  | line {l lines s} (hp : pad ∉ l) (hd : delim ∉ l) (h : Padded lines s) : Padded (l :: lines) (l ++ delim :: s)

namespace Padded

/-- A pad can be left out. -/
theorem drop (hne : pad ≠ delim) {s : List α} (h : Padded pad delim lines s) :
    ∀ {a c : List α}, s = a ++ pad :: c → Padded pad delim lines (a ++ c) := by
  induction h with
  | nil =>
    intro a c he
    simp at he
  | @pad lines s h ih =>
    intro a c he
    cases a with
    | nil => simpa using (List.cons.inj he).2 ▸ h
    | cons x a =>
      obtain ⟨rfl, hs⟩ := List.cons.inj he
      exact .pad (ih hs)
  | @line l lines s hp hd h ih =>
    -- the pad is not in the line, and it is not the line's end
    intro a c he
    rcases List.append_eq_append_iff.mp he with ⟨as, rfl, hs⟩ | ⟨cs, rfl, hs⟩
    · cases as with
      | nil => exact absurd (List.cons.inj hs).1.symm hne
      | cons x as =>
        obtain ⟨rfl, htail⟩ := List.cons.inj hs
        simpa using Padded.line hp hd (ih htail)
    · cases cs with
      | nil => exact absurd (List.cons.inj hs).1 hne
      | cons x cs =>
        obtain ⟨rfl, -⟩ := List.cons.inj hs
        exact absurd (by simp) hp

theorem trim [DecidableEq α] (hne : pad ≠ delim) {a b c : List α} (h : Padded pad delim lines (a ++ (b ++ c))) :
    Padded pad delim lines (a ++ (b.dropWhile (· == pad) ++ c)) := by
  induction b with
  | nil => exact h
  | cons x b ih =>
    by_cases hx : x = pad
    · subst hx
      simpa using ih (h.drop hne rfl)
    · simpa [hx] using h

theorem delim_mem {l : List α} {s : List α} (h : Padded pad delim (l :: lines) s) : delim ∈ s := by
  generalize hls : l :: lines = ls at h
  induction h with
  | nil => cases hls
  | pad h ih => exact .tail _ (ih hls)
  | line hp hd h ih => simp

/-- What does not begin with a pad begins with the first line. -/
theorem front {x : α} {s : List α} (h : Padded pad delim lines (x :: s)) (hx : x ≠ pad) :
    ∃ l rest s', lines = l :: rest ∧ x :: s = l ++ delim :: s' ∧ delim ∉ l ∧ Padded pad delim rest s' := by
  generalize hs : x :: s = s₀ at h
  cases h with
  | nil => cases hs
  | pad h => exact absurd (List.cons.inj hs).1 hx
  | @line l rest s' hp hd h => exact ⟨l, rest, s', rfl, rfl, hd, h⟩

/-- A trimmed front with a delimiter in it begins with the first line. -/
theorem split {p q c : List α} (h : Padded pad delim lines ((p ++ delim :: q) ++ c)) (hp : delim ∉ p)
    (hx : ∀ x, (p ++ delim :: q).head? = some x → x ≠ pad) :
    ∃ rest, lines = p :: rest ∧ Padded pad delim rest (q ++ c) := by
  obtain ⟨x, s, hs⟩ : ∃ x s, p ++ delim :: q = x :: s := by
    cases p with
    | nil | cons x p => exact ⟨_, _, rfl⟩
  have hne : x ≠ pad := hx x (by rw [hs]; rfl)
  have h' := h
  rw [hs, List.cons_append] at h'
  obtain ⟨l, rest, s', rfl, he, hl, hrest⟩ := h'.front hne
  rw [← List.cons_append, ← hs, List.append_assoc, List.cons_append] at he
  obtain ⟨rfl, rfl⟩ := first_delim he hp hl
  exact ⟨rest, rfl, hrest⟩

/-- A trimmed front without one is a part of the first line. -/
theorem part {p c : List α} (h : Padded pad delim lines (p ++ c)) (hp : delim ∉ p)
    (hx : ∀ x, p.head? = some x → x ≠ pad) : p = [] ∨ ∃ l rest, lines = l :: rest ∧ p.length ≤ l.length := by
  cases p with
  | nil => exact .inl rfl
  | cons x p =>
    obtain ⟨l, rest, s', rfl, he, -, -⟩ := h.front (hx x rfl)
    have hcut : l ++ delim :: s' = (x :: p) ++ c := he.symm
    obtain ⟨l', rfl, -⟩ := before_delim hcut hp
    exact .inr ⟨_, rest, rfl, by simp⟩

end Padded

end Ghostline.Lib
