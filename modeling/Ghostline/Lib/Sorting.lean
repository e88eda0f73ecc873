/-
  Ghostline.Lib.Sorting — what a sort by a comparison may return.

  A sort returns a permutation. It is only sorted if the comparison is a strict weak order
  on the elements (`Orders`); of any other comparison nothing is known. So every result is
  sorted by a key exactly when the comparison is that of the key (`sorts_key_iff`).
-/

import Mathlib.Data.List.Pairwise
import Mathlib.Data.List.Sort

namespace Ghostline.Lib

variable {α β : Type} {less : α → α → Bool} {l out : List α}

/-- A strict weak order on the elements of `l`. -/
structure Orders (less : α → α → Bool) (l : List α) : Prop where
  asymm : ∀ a ∈ l, ∀ b ∈ l, less a b = true → less b a = false
  cotrans : ∀ a ∈ l, ∀ b ∈ l, ∀ c ∈ l, less a c = true → less a b = true ∨ less b c = true

/-- `out` is a possible result. -/
structure Sorts (less : α → α → Bool) (l out : List α) : Prop where
  perm : out.Perm l
  sorted : Orders less l → out.Pairwise fun a b => less b a = false

theorem exists_sorts (less : α → α → Bool) (l : List α) : ∃ out, Sorts less l out := by
  by_cases h : Orders less l
  · -- among the elements of `l` the comparison is a total preorder
    let le := fun a b : { x // x ∈ l } => !less b.1 a.1
    have htrans : ∀ a b c, le a b = true → le b c = true → le a c = true := by
      intro a b c hab hbc
      simp only [le, Bool.not_eq_true'] at *
      by_contra hca
      rcases h.cotrans c.1 c.2 b.1 b.2 a.1 a.2 (by simpa using hca) with hcb | hba
      · simp [hcb] at hbc
      · simp [hba] at hab
    have htotal : ∀ a b, (le a b || le b a) = true := by
      intro a b
      cases hba : less b.1 a.1 with
      | false => simp [le, hba]
      | true => simp [le, hba, h.asymm b.1 b.2 a.1 a.2 hba]
    refine ⟨(l.attach.mergeSort le).map Subtype.val, ?_, fun _ => ?_⟩
    · simpa using (List.mergeSort_perm l.attach le).map Subtype.val
    · rw [List.pairwise_map]
      exact (List.pairwise_mergeSort htrans htotal l.attach).imp fun hab => by simpa [le] using hab
  · exact ⟨l, .refl l, fun h' => absurd h' h⟩

/-! ## Sorting by a key -/

section

variable [LinearOrder β] {key : α → β}

theorem orders_key (h : ∀ a ∈ l, ∀ b ∈ l, less a b = decide (key a < key b)) : Orders less l where
  asymm a ha b hb hab := by
    rw [h a ha b hb, decide_eq_true_eq] at hab
    rw [h b hb a ha, decide_eq_false_iff_not]
    exact lt_asymm hab
  cotrans a ha b hb c hc hac := by
    rw [h a ha c hc, decide_eq_true_eq] at hac
    rw [h a ha b hb, h b hb c hc, decide_eq_true_eq, decide_eq_true_eq]
    exact (lt_or_ge (key a) (key b)).imp_right fun hba => lt_of_le_of_lt hba hac

theorem Sorts.sorted_key (hs : Sorts less l out) (hkey : (l.map key).Nodup)
    (h : ∀ a ∈ l, ∀ b ∈ l, less a b = decide (key a < key b)) : (out.map key).Pairwise (· < ·) := by
  have hne : (out.map key).Nodup := ((hs.perm.map key).nodup_iff).mpr hkey
  have hle : (out.map key).Pairwise (· ≤ ·) := by
    rw [List.pairwise_map]
    refine (hs.sorted (orders_key h)).imp_of_mem fun {a b} ha hb hba => ?_
    rw [h b (hs.perm.mem_iff.mp hb) a (hs.perm.mem_iff.mp ha), decide_eq_false_iff_not] at hba
    exact not_lt.mp hba
  exact (hle.and hne).imp fun h => lt_of_le_of_ne h.1 h.2

/-- Every result is sorted by the key exactly when the comparison, which tells each two
    elements apart, is the key's. -/
theorem sorts_key_iff (hkey : (l.map key).Nodup) (hirr : ∀ a ∈ l, less a a = false)
    (htotal : ∀ a ∈ l, ∀ b ∈ l, a ≠ b → less a b = true ∨ less b a = true) :
    (∀ out, Sorts less l out → (out.map key).Pairwise (· < ·)) ↔
      ∀ a ∈ l, ∀ b ∈ l, less a b = decide (key a < key b) := by
  refine ⟨fun h a ha b hb => ?_, fun h out hs => hs.sorted_key hkey h⟩
  by_cases hab : a = b
  · subst hab
    simp [hirr a ha]
  by_cases ho : Orders less l
  · -- `a` and `b` stand in a result in one of the two orders, and both comparisons follow it
    obtain ⟨out, hs⟩ := exists_sorts less l
    have hboth := (hs.sorted ho).and (List.pairwise_map.mp (h out hs))
    let R := fun x y => (less y x = false ∧ key x < key y) ∨ (less x y = false ∧ key y < key x)
    have : Std.Symm R := ⟨fun x y h => h.symm⟩
    have hR : out.Pairwise R := hboth.imp fun h => .inl h
    rcases hR.forall (hs.perm.mem_iff.mpr ha) (hs.perm.mem_iff.mpr hb) hab with ⟨hba, hlt⟩ | ⟨hba, hlt⟩
    · have hless : less a b = true := (htotal a ha b hb hab).resolve_right (by simp [hba])
      rw [hless, eq_comm, decide_eq_true_eq]
      exact hlt
    · rw [hba, eq_comm, decide_eq_false_iff_not]
      exact lt_asymm hlt
  · -- every permutation is a result
    have hfront := List.pairwise_map.mp (h l ⟨.refl l, fun h' => absurd h' ho⟩)
    have hback := List.pairwise_map.mp (h l.reverse ⟨l.reverse_perm, fun h' => absurd h' ho⟩)
    rw [List.pairwise_reverse] at hback
    have : Std.Symm fun _ _ : α => False := ⟨fun _ _ h => h⟩
    have hnone : l.Pairwise fun _ _ => False := (hfront.and hback).imp fun h => lt_asymm h.1 h.2
    exact (hnone.forall ha hb hab).elim

end

end Ghostline.Lib
