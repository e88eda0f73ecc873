/-
  Ghostline.Lib.Segments — one stream kept in numbered segments.

  `seg g` is what segment `g` holds. The stream is the segments in order; a position
  is a segment and an offset in it, and `before seg g i` is everything in front of
  that position. `between` is what lies from one position up to another.
-/

import Mathlib.Data.List.Infix
import Mathlib.Logic.Function.Basic
import Mathlib.Tactic.Common

namespace Ghostline.Lib.Segments

variable {α : Type} (seg : Nat → List α)

/-- The segments below `g`, in order. -/
def upTo : Nat → List α
  | 0 => []
  | g + 1 => upTo g ++ seg g

def before (g i : Nat) : List α := upTo seg g ++ (seg g).take i

def between (g i g' i' : Nat) : List α := (before seg g' i').drop (before seg g i).length

/-- `(g, i)` is at or in front of `(g', i')`. -/
def LE (g i g' i' : Nat) : Prop := g < g' ∨ g = g' ∧ i ≤ i'

theorem upTo_congr {s t : Nat → List α} {g : Nat} (h : ∀ k < g, s k = t k) : upTo s g = upTo t g := by
  induction g with
  | zero => rfl
  | succ g ih => simp only [upTo]; rw [ih fun k hk => h k (by omega), h g (by omega)]

theorem upTo_le {g g' : Nat} (h : g ≤ g') : upTo seg g <+: upTo seg g' := by
  induction h with
  | refl => exact List.prefix_refl _
  | step _ ih => exact ih.trans (List.prefix_append _ _)

/-- Reading on from a position adds what the segment holds there. -/
theorem before_add (g i n : Nat) : before seg g (i + n) = before seg g i ++ ((seg g).drop i).take n := by
  simp only [before, List.append_assoc, List.append_cancel_left_eq]
  exact List.take_add

/-- The end of a segment is the start of the next one. -/
theorem before_next {g i : Nat} (h : (seg g).length ≤ i) : before seg (g + 1) 0 = before seg g i := by
  simp only [before, upTo, List.take_zero, List.append_nil]
  rw [List.take_of_length_le h]

theorem before_le {g i g' i' : Nat} (h : LE g i g' i') : before seg g i <+: before seg g' i' := by
  rcases h with h | ⟨rfl, h⟩
  · have hg : before seg g i <+: upTo seg (g + 1) := by
      simp only [before, upTo]
      exact (List.prefix_append_right_inj _).mpr (List.take_prefix _ _)
    exact (hg.trans (upTo_le seg (by omega))).trans (List.prefix_append _ _)
  · exact (List.prefix_append_right_inj _).mpr (List.take_prefix_take_left h)

theorem between_self (g i : Nat) : between seg g i g i = [] := by simp [between]

theorem between_add {g i g' i' : Nat} (n : Nat) (h : LE g i g' i') :
    between seg g i g' (i' + n) = between seg g i g' i' ++ ((seg g').drop i').take n := by
  have hle := (before_le seg h).length_le
  simp only [between, before_add]
  exact List.drop_append_of_le_length hle

theorem between_next {g i g' i' : Nat} (h : (seg g').length ≤ i') :
    between seg g i (g' + 1) 0 = between seg g i g' i' := by
  simp only [between, before_next seg h]

theorem between_le (g i : Nat) {g' i' g'' i'' : Nat} (h : LE g' i' g'' i'') :
    between seg g i g' i' <+: between seg g i g'' i'' := (before_le seg h).drop _

theorem between_trans {g i g' i' g'' i'' : Nat} (h : LE g i g' i') (h' : LE g' i' g'' i'') :
    between seg g i g'' i'' = between seg g i g' i' ++ between seg g' i' g'' i'' := by
  obtain ⟨t, ht⟩ := before_le seg h
  obtain ⟨u, hu⟩ := before_le seg h'
  simp only [between, ← hu, ← ht, List.drop_left, List.append_assoc]
  rw [← List.append_assoc, List.drop_left]

/-- What lies in front of a position stays when its segment only grows behind it and the
    segments below it stay. -/
theorem before_grown {seg' : Nat → List α} {g i : Nat} (hlow : ∀ k < g, seg' k = seg k) (hg : seg g <+: seg' g)
    (hi : i ≤ (seg g).length) : before seg' g i = before seg g i := by
  obtain ⟨t, ht⟩ := hg
  simp only [before, upTo_congr hlow]
  rw [← ht, List.take_append_of_le_length hi]

/-- A stretch that lies within a prefix is a stretch of the prefix. -/
theorem stretch_within {p f : List α} (h : p <+: f) {i n : Nat} (hle : i + n ≤ p.length) :
    (f.drop i).take n = (p.drop i).take n := by
  obtain ⟨t, rfl⟩ := h
  rw [List.drop_append_of_le_length (by omega), List.take_append_of_le_length (by rw [List.length_drop]; omega)]

end Ghostline.Lib.Segments
