/-
  Ghostline.Lib.Slice — slices of a buffer: cutting one out, copying into one, and numbers in
  little-endian bytes. `none` is what is out of bounds.

  A copy reads all of its source before it writes, so that the two may overlap.
-/

import Mathlib.Algebra.Group.Nat.Defs
import Mathlib.Data.List.Basic

namespace Ghostline.Lib.Slice

variable {α : Type}

/-- `s[lo:hi]` -/
def slice (s : List α) (lo hi : Nat) : Option (List α) :=
  if lo ≤ hi ∧ hi ≤ s.length then some ((s.take hi).drop lo) else none

/-- `s[lo:]` -/
def sliceFrom (s : List α) (lo : Nat) : Option (List α) := slice s lo s.length

/-- `copy(dst[pos:], src)`: as much of `src` as there is room for. -/
def copyAt (dst : List α) (pos : Nat) (src : List α) : Option (List α) :=
  if pos ≤ dst.length then some (dst.take pos ++ src.take (dst.length - pos) ++ dst.drop (pos + src.length)) else none

/-! ## In bounds -/

theorem slice_part {s a b c : List α} {lo hi : Nat} (hs : s = a ++ b ++ c) (hlo : lo = a.length)
    (hhi : hi = a.length + b.length) : slice s lo hi = some b := by
  subst hs hlo hhi
  unfold slice
  rw [if_pos (by simp only [List.length_append]; omega), ← List.length_append, List.take_left, List.drop_left]

theorem sliceFrom_part {s a b : List α} {lo : Nat} (hs : s = a ++ b) (hlo : lo = a.length) : sliceFrom s lo = some b := by
  refine slice_part (c := []) ?_ hlo ?_
  · rw [hs, List.append_nil]
  · rw [hs, List.length_append]

theorem sliceFrom_eq {s : List α} {lo : Nat} (h : lo ≤ s.length) : sliceFrom s lo = some (s.drop lo) := by
  unfold sliceFrom slice
  rw [if_pos ⟨h, Nat.le_refl _⟩, List.take_length]

theorem slice_zero_eq {s : List α} {hi : Nat} (h : hi ≤ s.length) : slice s 0 hi = some (s.take hi) := by
  unfold slice
  rw [if_pos ⟨Nat.zero_le _, h⟩, List.drop_zero]

theorem copyAt_part {dst a b c src : List α} {pos : Nat} (hdst : dst = a ++ b ++ c) (hpos : pos = a.length)
    (hlen : b.length = src.length) : copyAt dst pos src = some (a ++ src ++ c) := by
  subst hdst hpos
  have hroom : src.length ≤ (a ++ b ++ c).length - a.length := by
    simp only [List.length_append]
    omega
  unfold copyAt
  rw [if_pos (by simp), List.take_of_length_le hroom, ← hlen, ← List.length_append, List.drop_left,
    List.append_assoc a b c, List.take_left]

/-! ## Little-endian numbers -/

/-- The lowest `width` bytes of a number, lowest first. -/
def le : Nat → Nat → List UInt8
  | 0, _ => []
  | width + 1, n => UInt8.ofNat n :: le width (n / 256)

def ofLe : List UInt8 → Nat
  | [] => 0
  | b :: s => b.toNat + 256 * ofLe s

theorem length_le (width n : Nat) : (le width n).length = width := by
  induction width generalizing n with
  | zero => rfl
  | succ width ih =>
    show (le width (n / 256)).length + 1 = width + 1
    rw [ih]

theorem ofLe_le (width n : Nat) : ofLe (le width n) = n % 256 ^ width := by
  induction width generalizing n with
  | zero => simp [le, ofLe, Nat.mod_one]
  | succ width ih =>
    show (UInt8.ofNat n).toNat + 256 * ofLe (le width (n / 256)) = n % 256 ^ (width + 1)
    have hmod : n % 256 ^ (width + 1) = n % 256 + 256 * (n / 256 % 256 ^ width) := by rw [Nat.pow_succ', Nat.mod_mul]
    rw [ih, hmod, UInt8.toNat_ofNat']

theorem le_ofLe (s : List UInt8) : le s.length (ofLe s) = s := by
  induction s with
  | nil => rfl
  | cons b s ih =>
    have hb := b.toNat_lt
    have hdiv : (b.toNat + 256 * ofLe s) / 256 = ofLe s := by omega
    have hbyte : UInt8.ofNat (b.toNat + 256 * ofLe s) = b := by
      apply UInt8.toNat_inj.mp
      rw [UInt8.toNat_ofNat']
      omega
    show UInt8.ofNat (b.toNat + 256 * ofLe s) :: le s.length ((b.toNat + 256 * ofLe s) / 256) = b :: s
    rw [hdiv, hbyte, ih]

theorem le_mod (width n : Nat) : le width (n % 256 ^ width) = le width n := by
  have h := le_ofLe (le width n)
  rwa [length_le, ofLe_le] at h

/-- `binary.LittleEndian.PutUint64(dst[pos:], n)` -/
def putUint64 (dst : List UInt8) (pos n : Nat) : Option (List UInt8) :=
  if pos + 8 ≤ dst.length then copyAt dst pos (le 8 n) else none

/-- `binary.LittleEndian.Uint64(s)` -/
def uint64 (s : List UInt8) : Option Nat := if 8 ≤ s.length then some (ofLe (s.take 8)) else none

theorem putUint64_part {dst a b c : List UInt8} {pos : Nat} (hdst : dst = a ++ b ++ c) (hpos : pos = a.length)
    (hlen : b.length = 8) (n : Nat) : putUint64 dst pos n = some (a ++ le 8 n ++ c) := by
  unfold putUint64
  rw [if_pos (by rw [hdst, hpos]; simp only [List.length_append]; omega),
    copyAt_part hdst hpos (by rw [hlen, length_le])]

theorem uint64_append {a : List UInt8} (h : a.length = 8) (b : List UInt8) : uint64 (a ++ b) = some (ofLe a) := by
  unfold uint64
  rw [if_pos (by simp only [List.length_append]; omega), ← h, List.take_left]

/-! ## The newest end of a stream -/

/-- The last `n` elements, or all if there are fewer. -/
def newest (n : Nat) (s : List α) : List α := s.drop (s.length - n)

theorem length_newest (n : Nat) (s : List α) : (newest n s).length = min s.length n := by
  unfold newest
  rw [List.length_drop]
  omega

/-- What is behind a long enough end does not show. -/
theorem newest_append_of_le {n : Nat} {t : List α} (h : n ≤ t.length) (s : List α) : newest n (s ++ t) = newest n t := by
  unfold newest
  rw [List.length_append, Nat.add_sub_assoc h, List.drop_append, List.drop_eq_nil_of_le (by omega), List.nil_append,
    Nat.add_sub_cancel_left]

/-- Dropping as many elements of the end as do not fit behind `t`. -/
theorem newest_append_of_lt {n : Nat} {t : List α} (h : t.length ≤ n) (s : List α) :
    newest n (s ++ t) = (newest n s).drop ((newest n s).length + t.length - n) ++ t := by
  rw [length_newest]
  unfold newest
  rw [List.length_append, List.drop_append_of_le_length (by omega), List.drop_drop]
  congr 2
  omega

end Ghostline.Lib.Slice
