/-
  Ghostline.Lib.Search — the first place at which a list occurs in another.
-/

import Mathlib.Data.List.Infix

namespace Ghostline.Lib

variable {α : Type} [BEq α] [LawfulBEq α]

def index (sep : List α) : List α → Option Nat
  | [] => if sep.isEmpty then some 0 else none
  | b :: rest => if sep.isPrefixOf (b :: rest) then some 0 else (index sep rest).map (· + 1)

theorem index_le {sep s : List α} {i : Nat} (h : index sep s = some i) : i + sep.length ≤ s.length := by
  induction s generalizing i with
  | nil =>
    unfold index at h
    split at h
    · rename_i hs
      obtain rfl := Option.some.inj h
      simp [List.isEmpty_iff.mp hs]
    · cases h
  | cons x s ih =>
    unfold index at h
    split at h
    · rename_i hp
      obtain rfl := Option.some.inj h
      simpa using (List.isPrefixOf_iff_prefix.mp hp).length_le
    · obtain ⟨k, hk, rfl⟩ := Option.map_eq_some_iff.mp h
      have := ih hk
      simp only [List.length_cons]
      omega

/-- The place that is found is the first one. -/
theorem index_some {sep s : List α} {i : Nat} (h : index sep s = some i) :
    sep <+: s.drop i ∧ ∀ j, j < i → ¬ sep <+: s.drop j := by
  induction s generalizing i with
  | nil =>
    unfold index at h
    split at h
    · rename_i hs
      obtain rfl := Option.some.inj h
      simp [List.isEmpty_iff.mp hs]
    · cases h
  | cons x s ih =>
    unfold index at h
    split at h
    · rename_i hp
      obtain rfl := Option.some.inj h
      exact ⟨by simpa using List.isPrefixOf_iff_prefix.mp hp, fun j hj => absurd hj (Nat.not_lt_zero j)⟩
    · rename_i hp
      obtain ⟨k, hk, rfl⟩ := Option.map_eq_some_iff.mp h
      obtain ⟨hat, hbefore⟩ := ih hk
      refine ⟨by simpa using hat, fun j hj => ?_⟩
      cases j with
      | zero => exact fun hpre => hp (List.isPrefixOf_iff_prefix.mpr (by simpa using hpre))
      | succ j => simpa using hbefore j (by omega)

theorem index_none {sep s : List α} (h : index sep s = none) (j : Nat) : ¬ sep <+: s.drop j := by
  induction s generalizing j with
  | nil =>
    intro hp
    have hnil : sep = [] := List.prefix_nil.mp (by simpa using hp)
    simp [index, hnil] at h
  | cons x s ih =>
    unfold index at h
    split at h
    · cases h
    · rename_i hp
      cases j with
      | zero => exact fun hpre => hp (List.isPrefixOf_iff_prefix.mpr (by simpa using hpre))
      | succ j => simpa using ih (Option.map_eq_none_iff.mp h) j

/-! ## Texts that are known -/

/-- A text is found behind one without its first element. -/
theorem index_append {c : α} {s : List α} (h : c ∉ s) (sep t : List α) :
    index (c :: sep) (s ++ c :: (sep ++ t)) = some s.length := by
  induction s with
  | nil =>
    have hp : (c :: sep).isPrefixOf (c :: (sep ++ t)) = true := List.isPrefixOf_iff_prefix.mpr ⟨t, rfl⟩
    simp [index, hp]
  | cons b s ih =>
    obtain ⟨hb, hs⟩ := List.ne_and_not_mem_of_not_mem_cons h
    have hbc : (c == b) = false := beq_eq_false_iff_ne.mpr hb
    simp [index, List.isPrefixOf, hbc, ih hs]

theorem index_singleton_append {c : α} {s : List α} (h : c ∉ s) (t : List α) : index [c] (s ++ c :: t) = some s.length :=
  index_append h [] t

theorem index_singleton_none {c : α} {s : List α} (h : index [c] s = none) : c ∉ s := by
  intro hc
  obtain ⟨before, rest, rfl, hbefore⟩ := List.eq_append_cons_of_mem hc
  rw [index_singleton_append hbefore] at h
  cases h

/-- The first place of an element cuts a list into what is before it, without the element, and
    what is behind it. -/
theorem index_singleton_some {c : α} {s : List α} {i : Nat} (h : index [c] s = some i) :
    c ∉ s.take i ∧ s = s.take i ++ c :: s.drop (i + 1) := by
  obtain ⟨⟨t, ht⟩, hbefore⟩ := index_some h
  have hcut : s.drop i = c :: s.drop (i + 1) := by
    rw [← List.drop_drop, ← ht]
    rfl
  refine ⟨?_, ?_⟩
  · intro hc
    obtain ⟨j, hj, hjc⟩ := List.mem_iff_getElem.mp hc
    have hlt : j < i ∧ j < s.length := by
      rw [List.length_take] at hj
      omega
    rw [List.getElem_take] at hjc
    refine hbefore j hlt.1 ⟨s.drop (j + 1), ?_⟩
    rw [List.drop_eq_getElem_cons hlt.2, hjc]
    rfl
  · rw [← hcut, List.take_append_drop]

end Ghostline.Lib
