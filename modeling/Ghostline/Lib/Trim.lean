/-
  Ghostline.Lib.Trim — cutting blanks off the two ends of a text, and off the ends of its
  rows.

  Trimming the rows of a text loses more than trimming the text: the blanks beside a row
  boundary that has ink on both sides. `trim_rows_iff` says when nothing else is lost.
-/

import Mathlib.Data.List.DropRight

namespace Ghostline.Lib

variable {α : Type} (p : α → Bool)

/-- The list without what satisfies `p` at its two ends. -/
def trim (s : List α) : List α := (s.dropWhile p).rdropWhile p

def Blank (s : List α) : Prop := ∀ x ∈ s, p x = true

def Inked (rows : List (List α)) : Prop := ∃ row ∈ rows, ¬ Blank p row

/-- With or without ink before `rows`: no row begins with a blank where there is ink before
    it and ink from it on, and none ends with one where there is ink up to it and ink
    behind it. -/
def TightFrom (ink : Prop) (rows : List (List α)) : Prop :=
  ∀ above row below, rows = above ++ row :: below →
    (ink ∨ Inked p above → Inked p (row :: below) → ∀ x ∈ row.head?, p x = false) ∧
    (ink ∨ Inked p (above ++ [row]) → Inked p below → ∀ x ∈ row.getLast?, p x = false)

def Tight (rows : List (List α)) : Prop := TightFrom p False rows

variable {p} {ink : Prop} {s t row : List α} {rows : List (List α)}

/-! ## Ink -/

theorem not_inked : ¬ Inked p rows ↔ Blank p rows.flatten := by
  simp only [Inked, Blank, not_exists, not_and, not_not, List.mem_flatten]
  exact ⟨fun h x ⟨row, hr, hx⟩ => h row hr x hx, fun h row hr x hx => h x ⟨row, hr, hx⟩⟩

theorem Inked.not_blank (h : Inked p rows) : ¬ Blank p rows.flatten := mt not_inked.mpr (not_not.mpr h)

theorem inked_cons : Inked p (row :: rows) ↔ ¬ Blank p row ∨ Inked p rows := by
  simp [Inked]

theorem not_inked_nil : ¬ Inked p ([] : List (List α)) := by simp [Inked]

/-! ## The two ends -/

theorem rdropWhile_append (s t : List α) [Decidable (Blank p t)] :
    (s ++ t).rdropWhile p = if Blank p t then s.rdropWhile p else s ++ t.rdropWhile p := by
  have hblank : (t.reverse.dropWhile p).isEmpty = true ↔ Blank p t := by
    rw [List.isEmpty_iff, List.dropWhile_eq_nil_iff]
    simp [Blank]
  simp only [List.rdropWhile, List.reverse_append, List.dropWhile_append, hblank]
  split
  · rfl
  · rw [List.reverse_append, List.reverse_reverse]

theorem dropWhile_append (s t : List α) [Decidable (Blank p s)] :
    (s ++ t).dropWhile p = if Blank p s then t.dropWhile p else s.dropWhile p ++ t := by
  have hblank : (s.dropWhile p).isEmpty = true ↔ Blank p s := by
    rw [List.isEmpty_iff, List.dropWhile_eq_nil_iff]
    rfl
  simp only [List.dropWhile_append, hblank]

theorem Blank.trim (h : Blank p s) : trim p s = [] := by
  have hd : s.dropWhile p = [] := List.dropWhile_eq_nil_iff.mpr h
  rw [Lib.trim, hd, List.rdropWhile_nil]

theorem rdropWhile_append_inked (h : ¬ Blank p t) : (s ++ t).rdropWhile p = s ++ t.rdropWhile p := by
  classical
  rw [rdropWhile_append, if_neg h]

theorem rdropWhile_append_blank (h : Blank p t) : (s ++ t).rdropWhile p = s.rdropWhile p := by
  classical
  rw [rdropWhile_append, if_pos h]

theorem trim_length_le (s : List α) : (trim p s).length ≤ (s.dropWhile p).length :=
  List.IsPrefix.length_le (List.rdropWhile_prefix p _)

theorem dropWhile_eq_self_iff : s.dropWhile p = s ↔ ∀ x ∈ s.head?, p x = false := by
  cases s with
  | nil => simp
  | cons a s =>
    rw [List.dropWhile_cons]
    split
    · rename_i ha
      refine ⟨fun h => ?_, fun h => by simp [ha] at h⟩
      have hlen := congrArg List.length h
      have hle := (List.dropWhile_suffix p (l := s)).length_le
      simp only [List.length_cons] at hlen
      omega
    · rename_i ha
      simp [ha]

theorem rdropWhile_eq_self_iff : s.rdropWhile p = s ↔ ∀ x ∈ s.getLast?, p x = false := by
  rw [List.rdropWhile, List.reverse_eq_iff, dropWhile_eq_self_iff, List.head?_reverse]

/-- The front is trimmed already, and the list ends with ink. -/
theorem trim_eq_dropWhile_iff (h : ¬ Blank p s) :
    trim p s = s.dropWhile p ↔ ∀ x ∈ s.getLast?, p x = false := by
  rw [trim, rdropWhile_eq_self_iff]
  have hne : s.dropWhile p ≠ [] := fun hn => h (List.dropWhile_eq_nil_iff.mp hn)
  obtain ⟨front, hf⟩ := List.dropWhile_suffix p (l := s)
  have hlast : s.getLast? = (s.dropWhile p).getLast? := by
    conv_lhs => rw [← hf]
    exact List.getLast?_append_of_ne_nil _ hne
  rw [hlast]

theorem trim_eq_self_iff :
    trim p s = s ↔ (∀ x ∈ s.head?, p x = false) ∧ ∀ x ∈ s.getLast?, p x = false := by
  constructor
  · intro h
    have hlen := trim_length_le (p := p) s
    have hsuf := List.dropWhile_suffix p (l := s)
    have hd : s.dropWhile p = s := hsuf.eq_of_length_le (by rwa [h] at hlen)
    refine ⟨dropWhile_eq_self_iff.mp hd, rdropWhile_eq_self_iff.mp ?_⟩
    rwa [trim, hd] at h
  · rintro ⟨hhead, hlast⟩
    rw [trim, dropWhile_eq_self_iff.mpr hhead, rdropWhile_eq_self_iff.mpr hlast]

theorem trim_length_le_rdropWhile (s : List α) : (trim p s).length ≤ (s.rdropWhile p).length := by
  by_cases hb : Blank p s
  · simp [hb.trim]
  · obtain ⟨front, hf⟩ := List.dropWhile_suffix p (l := s)
    have hink : ¬ Blank p (s.dropWhile p) := fun h => by
      have hnil : s.dropWhile p = [] := List.dropWhile_idempotent p s ▸ List.dropWhile_eq_nil_iff.mpr h
      exact hb (List.dropWhile_eq_nil_iff.mp hnil)
    have he : s.rdropWhile p = front ++ trim p s := by
      conv_lhs => rw [← hf]
      exact rdropWhile_append_inked hink
    rw [he, List.length_append]
    omega

/-- The back is trimmed already: without ink there is nothing, and with ink the list begins
    with it. -/
theorem trim_eq_rdropWhile_iff : trim p s = s.rdropWhile p ↔ (¬ Blank p s → ∀ x ∈ s.head?, p x = false) := by
  by_cases hb : Blank p s
  · simp [hb, hb.trim, List.rdropWhile_eq_nil_iff.mpr hb]
  · simp only [hb, not_false_eq_true, forall_const]
    constructor
    · intro h x hx
      by_contra hp
      obtain ⟨rest, rfl⟩ : ∃ rest, s = x :: rest := ⟨s.tail, List.eq_cons_of_mem_head? hx⟩
      have hpx : p x = true := by simpa using hp
      have hrest : ¬ Blank p rest := fun hr => hb fun y hy => (List.mem_cons.mp hy).elim (· ▸ hpx) (hr y)
      have he : (x :: rest).rdropWhile p = [x] ++ rest.rdropWhile p := rdropWhile_append_inked (s := [x]) hrest
      have hlen := trim_length_le_rdropWhile (p := p) rest
      have htrim : trim p (x :: rest) = trim p rest := by
        rw [trim, List.dropWhile_cons_of_pos hpx, trim]
      have := congrArg List.length (htrim.symm.trans (h.trans he))
      simp only [List.length_append, List.length_singleton] at this
      omega
    · intro h
      rw [trim, dropWhile_eq_self_iff.mpr h]

/-! ## Rows -/

theorem tightFrom_nil : TightFrom p ink [] := by
  intro above row below h
  simp at h

theorem tightFrom_cons : TightFrom p ink (row :: rows) ↔
    (ink → ¬ Blank p row ∨ Inked p rows → ∀ x ∈ row.head?, p x = false) ∧
    (ink ∨ ¬ Blank p row → Inked p rows → ∀ x ∈ row.getLast?, p x = false) ∧
    TightFrom p (ink ∨ ¬ Blank p row) rows := by
  constructor
  · intro h
    have h0 := h [] row rows rfl
    simp only [not_inked_nil, or_false, List.nil_append, inked_cons] at h0
    refine ⟨h0.1, h0.2, fun above row' below he => ?_⟩
    have h1 := h (row :: above) row' below (by rw [he]; rfl)
    simpa only [List.cons_append, inked_cons, ← or_assoc] using h1
  · rintro ⟨hhead, hlast, hrest⟩ above row' below he
    cases above with
    | nil =>
      obtain ⟨rfl, rfl⟩ := List.cons.inj he
      simpa only [not_inked_nil, or_false, List.nil_append, inked_cons] using ⟨hhead, hlast⟩
    | cons row'' above =>
      obtain ⟨rfl, rfl⟩ := List.cons.inj he
      simpa only [List.cons_append, inked_cons, ← or_assoc] using hrest above row' below rfl

theorem tightFrom_of_not_inked (h : ¬ Inked p rows) : TightFrom p ink rows := by
  rintro above row below rfl
  refine ⟨fun _ hb => absurd ?_ h, fun _ hb => absurd ?_ h⟩
  · obtain ⟨t, ht, hink⟩ := hb
    exact ⟨t, List.mem_append_right _ ht, hink⟩
  · obtain ⟨t, ht, hink⟩ := hb
    exact ⟨t, List.mem_append_right _ (List.mem_cons_of_mem _ ht), hink⟩

theorem trim_rows_of_not_inked (h : ¬ Inked p rows) : (rows.map (trim p)).flatten = [] := by
  simp only [List.flatten_eq_nil_iff, List.mem_map]
  rintro _ ⟨row, hr, rfl⟩
  exact Blank.trim fun x hx => not_inked.mp h x (List.mem_flatten.mpr ⟨row, hr, hx⟩)

theorem trim_length_le_self (s : List α) : (trim p s).length ≤ s.length :=
  Nat.le_trans (trim_length_le s) (List.dropWhile_suffix p).length_le

theorem trim_rows_length_le (rows : List (List α)) :
    (rows.map (trim p)).flatten.length ≤ (rows.flatten.rdropWhile p).length := by
  induction rows with
  | nil => simp
  | cons row rows ih =>
    simp only [List.map_cons, List.flatten_cons]
    by_cases hink : Inked p rows
    · rw [rdropWhile_append_inked hink.not_blank, List.length_append, List.length_append]
      have := trim_length_le_self (p := p) row
      omega
    · rw [rdropWhile_append_blank (not_inked.mp hink), trim_rows_of_not_inked hink, List.append_nil]
      exact trim_length_le_rdropWhile row

/-- A row `s` with ink behind it, of which `t` should be kept. -/
theorem trim_rows_append_iff (hlen : (trim p s).length ≤ t.length) :
    trim p s ++ (rows.map (trim p)).flatten = t ++ rows.flatten.rdropWhile p ↔
      trim p s = t ∧ (rows.map (trim p)).flatten = rows.flatten.rdropWhile p := by
  constructor
  · intro h
    have hrows := trim_rows_length_le (p := p) rows
    have hall := congrArg List.length h
    simp only [List.length_append] at hall
    exact List.append_inj h (by omega)
  · rintro ⟨h1, h2⟩
    rw [h1, h2]

theorem trim_rows_after_iff : (rows.map (trim p)).flatten = rows.flatten.rdropWhile p ↔ TightFrom p True rows := by
  induction rows with
  | nil => simp [tightFrom_nil]
  | cons row rows ih =>
    rw [tightFrom_cons]
    simp only [List.map_cons, List.flatten_cons, true_or, forall_const]
    by_cases hink : Inked p rows
    · rw [rdropWhile_append_inked hink.not_blank, trim_rows_append_iff (trim_length_le_self row),
        trim_eq_self_iff, ih]
      simp only [hink, or_true, forall_const, and_assoc]
    · rw [rdropWhile_append_blank (not_inked.mp hink), trim_rows_of_not_inked hink, List.append_nil,
        trim_eq_rdropWhile_iff]
      simp only [hink, or_false, tightFrom_of_not_inked hink, and_true, false_implies]

/-- Trimming the rows is trimming the text exactly when there is no blank beside a row
    boundary that has ink on both sides. -/
theorem trim_rows_iff : (rows.map (trim p)).flatten = trim p rows.flatten ↔ Tight p rows := by
  classical
  unfold Tight
  induction rows with
  | nil => simp [trim, tightFrom_nil]
  | cons row rows ih =>
    rw [tightFrom_cons]
    simp only [List.map_cons, List.flatten_cons, false_or, false_implies, true_and]
    by_cases hb : Blank p row
    · rw [hb.trim, List.nil_append, show trim p (row ++ rows.flatten) = trim p rows.flatten by
        rw [trim, dropWhile_append, if_pos hb, trim], ih]
      simp only [hb, not_true_eq_false, false_implies, true_and]
    · simp only [hb, not_false_eq_true, forall_const]
      rw [show trim p (row ++ rows.flatten) = (row.dropWhile p ++ rows.flatten).rdropWhile p by
        rw [trim, dropWhile_append, if_neg hb]]
      by_cases hink : Inked p rows
      · rw [rdropWhile_append_inked hink.not_blank, trim_rows_append_iff (trim_length_le row),
          trim_eq_dropWhile_iff hb, trim_rows_after_iff]
        simp only [hink, forall_const]
      · rw [rdropWhile_append_blank (not_inked.mp hink), trim_rows_of_not_inked hink, List.append_nil]
        simp only [trim, hink, false_implies, tightFrom_of_not_inked hink, and_self]

end Ghostline.Lib
