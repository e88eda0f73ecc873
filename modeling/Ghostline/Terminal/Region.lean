/-
  Ghostline.Terminal.Region — which rows the command line is read from (terminal.go:
  `inputRegionRowsLocked`).

  Two walks up from the cursor. The first skips rows without a semantic, four at most
  (`Nearest`). The second goes on through the rows of a prompt to its first one, the primary
  prompt, over 128 rows at most (`Opens`). The region is what is between the two
  (`input_region_iff`); every prompt row at or above the cursor is its first row or above it.
-/

import Ghostline.Terminal.Vt

namespace Ghostline.Terminal

variable {ε : Type} (E : Emulator ε) (e : ε)

/-- `bottom` is the nearest row at or above `y` with a semantic. -/
structure Nearest (y bottom : Nat) : Prop where
  le : bottom ≤ y
  semantic : E.rowSemantic e bottom ≠ .none
  above : ∀ row, bottom < row → row ≤ y → E.rowSemantic e row = .none

/-- `start` is the nearest prompt row at or above `bottom`, and all rows on the way have a
    semantic. -/
structure Opens (bottom start : Nat) : Prop where
  le : start ≤ bottom
  prompt : E.rowSemantic e start = .prompt
  between : ∀ row, start < row → row ≤ bottom → E.rowSemantic e row = .promptContinuation

variable {E e} {y bottom start tries : Nat}

/-! ## The first walk -/

theorem nearest_self (h : E.rowSemantic e y ≠ .none) : Nearest E e y bottom ↔ bottom = y := by
  constructor
  · intro hn
    by_contra hne
    exact h (hn.above y (Nat.lt_of_le_of_ne hn.le hne) (Nat.le_refl y))
  · rintro rfl
    exact ⟨Nat.le_refl _, h, fun row h1 h2 => absurd h1 (Nat.not_lt.mpr h2)⟩

theorem nearest_succ (h : E.rowSemantic e (y + 1) = .none) : Nearest E e (y + 1) bottom ↔ Nearest E e y bottom := by
  constructor
  · intro hn
    refine ⟨?_, hn.semantic, fun row h1 h2 => hn.above row h1 (by omega)⟩
    by_contra hlt
    have hb : bottom = y + 1 := by
      have := hn.le
      omega
    exact hn.semantic (hb ▸ h)
  · intro hn
    refine ⟨Nat.le_succ_of_le hn.le, hn.semantic, fun row h1 h2 => ?_⟩
    rcases Nat.lt_or_eq_of_le h2 with h2 | rfl
    · exact hn.above row h1 (by omega)
    · exact h

theorem lookBack_iff : lookBack E e tries y = some bottom ↔ Nearest E e y bottom ∧ y < bottom + tries := by
  induction tries generalizing y with
  | zero =>
    refine ⟨nofun, fun h => ?_⟩
    have := h.1.le
    omega
  | succ tries ih =>
    unfold lookBack
    by_cases hs : E.rowSemantic e y = .none
    · rw [if_neg (not_not.mpr hs)]
      cases y with
      | zero =>
        refine ⟨nofun, fun h => ?_⟩
        have hb := Nat.le_zero.mp h.1.le
        exact absurd (hb ▸ hs) h.1.semantic
      | succ y =>
        rw [nearest_succ hs]
        simp only [ih]
        exact and_congr_right fun _ => by omega
    · rw [if_pos hs, nearest_self hs, Option.some.injEq]
      constructor
      · rintro rfl
        exact ⟨rfl, by omega⟩
      · rintro ⟨rfl, -⟩
        rfl

/-! ## The second walk -/

theorem Opens.semantic {row : Nat} (h : Opens E e bottom start) (h1 : start ≤ row) (h2 : row ≤ bottom) :
    E.rowSemantic e row = if row = start then .prompt else .promptContinuation := by
  split
  · rename_i heq
    exact heq ▸ h.prompt
  · exact h.between row (by omega) h2

theorem opens_prompt (h : E.rowSemantic e bottom = .prompt) : Opens E e bottom start ↔ start = bottom := by
  constructor
  · intro ho
    by_contra hne
    have hb := ho.between bottom (Nat.lt_of_le_of_ne ho.le hne) (Nat.le_refl _)
    rw [h] at hb
    cases hb
  · rintro rfl
    exact ⟨Nat.le_refl _, h, fun row h1 h2 => absurd h1 (Nat.not_lt.mpr h2)⟩

theorem opens_continuation (h : E.rowSemantic e (bottom + 1) = .promptContinuation) :
    Opens E e (bottom + 1) start ↔ Opens E e bottom start := by
  constructor
  · intro ho
    refine ⟨?_, ho.prompt, fun row h1 h2 => ho.between row h1 (by omega)⟩
    by_contra hlt
    have hb : start = bottom + 1 := by
      have := ho.le
      omega
    have hp := ho.prompt
    rw [hb, h] at hp
    cases hp
  · intro ho
    refine ⟨Nat.le_succ_of_le ho.le, ho.prompt, fun row h1 h2 => ?_⟩
    rcases Nat.lt_or_eq_of_le h2 with h2 | rfl
    · exact ho.between row h1 (by omega)
    · exact h

theorem primaryRow_iff : primaryRow E e tries bottom = some start ↔ Opens E e bottom start ∧ bottom < start + tries := by
  induction tries generalizing bottom with
  | zero =>
    refine ⟨nofun, fun h => ?_⟩
    have := h.1.le
    omega
  | succ tries ih =>
    cases hs : E.rowSemantic e bottom with
    | none =>
      simp only [primaryRow, hs]
      refine ⟨nofun, fun h => ?_⟩
      have hsem := h.1.semantic h.1.le (Nat.le_refl _)
      rw [hs] at hsem
      split at hsem <;> cases hsem
    | prompt =>
      simp only [primaryRow, hs, opens_prompt hs, Option.some.injEq]
      constructor
      · rintro rfl
        exact ⟨rfl, by omega⟩
      · rintro ⟨rfl, -⟩
        rfl
    | promptContinuation =>
      cases bottom with
      | zero =>
        simp only [primaryRow, hs]
        refine ⟨nofun, fun h => ?_⟩
        have hp := h.1.prompt
        rw [Nat.le_zero.mp h.1.le, hs] at hp
        cases hp
      | succ bottom =>
        simp only [primaryRow, hs, ih, opens_continuation hs]
        exact and_congr_right fun _ => by omega

/-! ## The region -/

theorem inputRegion_iff {rows : List Nat} : inputRegionRowsLocked E e y = some rows ↔
    ∃ bottom start, Nearest E e y bottom ∧ y - bottom ≤ 4 ∧ Opens E e bottom start ∧ bottom - start ≤ 128 ∧
      rows = List.range' start (bottom - start + 1) := by
  unfold inputRegionRowsLocked
  constructor
  · intro h
    split at h
    · cases h
    · rename_i bottom hb
      split at h
      · cases h
      · rename_i start hs
        obtain ⟨hn, hnear⟩ := lookBack_iff.mp hb
        obtain ⟨ho, hfar⟩ := primaryRow_iff.mp hs
        simp only [semanticLookbackRows, semanticRegionMaxRows] at hnear hfar
        exact ⟨bottom, start, hn, by omega, ho, by omega, (Option.some.inj h).symm⟩
  · rintro ⟨bottom, start, hn, hnear, ho, hfar, rfl⟩
    have hb : lookBack E e (semanticLookbackRows + 1) y = some bottom :=
      lookBack_iff.mpr ⟨hn, by simp only [semanticLookbackRows]; omega⟩
    have hs : primaryRow E e (semanticRegionMaxRows + 1) bottom = some start :=
      primaryRow_iff.mpr ⟨ho, by simp only [semanticRegionMaxRows]; omega⟩
    simp only [hb, hs]

/-- A prompt row at or above the cursor is not below the region's first row. -/
theorem Opens.latest (hn : Nearest E e y bottom) (ho : Opens E e bottom start) {row : Nat} (hrow : row ≤ y)
    (hp : E.rowSemantic e row = .prompt) : row ≤ start := by
  by_contra hlt
  rcases Nat.lt_or_ge bottom row with h | h
  · have hnone := hn.above row h hrow
    rw [hp] at hnone
    cases hnone
  · have hcont := ho.between row (by omega) h
    rw [hp] at hcont
    cases hcont

/-- The region is returned exactly when both walks end in time, and is then what is between
    them: one prompt row, the last at or above the cursor, and its continuations. -/
theorem input_region_iff (E : Emulator ε) (e : ε) (y : Nat) (rows : List Nat) :
    (inputRegionRowsLocked E e y = some rows ↔
      ∃ bottom start, Nearest E e y bottom ∧ y - bottom ≤ 4 ∧ Opens E e bottom start ∧ bottom - start ≤ 128 ∧
        rows = List.range' start (bottom - start + 1)) ∧
      (inputRegionRowsLocked E e y = some rows →
        (∃ start rest, rows = start :: rest ∧ E.rowSemantic e start = .prompt ∧
          ∀ row ∈ rest, E.rowSemantic e row = .promptContinuation) ∧
        ∀ row ∈ rows, ∀ prompt, prompt ≤ y → E.rowSemantic e prompt = .prompt → prompt ≤ row) := by
  refine ⟨inputRegion_iff, fun h => ?_⟩
  obtain ⟨bottom, start, hn, -, ho, -, rfl⟩ := inputRegion_iff.mp h
  refine ⟨⟨start, List.range' (start + 1) (bottom - start), List.range'_succ, ho.prompt, fun row hrow => ?_⟩, ?_⟩
  · obtain ⟨h1, h2⟩ := List.mem_range'_1.mp hrow
    have := ho.le
    exact ho.between row (by omega) (by omega)
  · intro row hrow prompt hy hp
    have := ho.latest hn hy hp
    have := (List.mem_range'_1.mp hrow).1
    omega

end Ghostline.Terminal
