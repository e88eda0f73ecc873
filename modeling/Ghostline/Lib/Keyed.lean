/-
  Ghostline.Lib.Keyed — lists whose elements may have a key.

  `upsert` puts an element in the place of the one with its key, or at the end. An index says
  where the element with a key is (`Indexed`); with one, a list is upserted by setting or by
  appending. What a sequence of upserts leaves: the last element for each key (`lookup_upserts`),
  each key once, and every element in its place, those without a key unchanged (`Extends`).
-/

import Mathlib.Logic.Function.Basic

namespace Ghostline.Lib.Keyed

variable {α κ : Type} (key : α → Option κ)

/-- The index says where the one element with a key is. -/
def Indexed (m : κ → Option Nat) (l : List α) : Prop :=
  ∀ k i, m k = some i ↔ ∃ a, l[i]? = some a ∧ key a = some k

/-- Every element is in its place, with its key, and unchanged if it has none; what is new is
    behind them and has a key. -/
structure Extends (l l' : List α) : Prop where
  length : l.length ≤ l'.length
  stays : ∀ (i : Nat) (a : α), l[i]? = some a → ∃ a', l'[i]? = some a' ∧ key a' = key a ∧ (key a = none → a' = a)
  added : ∀ (i : Nat) (a : α), l'[i]? = some a → l.length ≤ i → key a ≠ none

variable {key} {l l' : List α} {m : κ → Option Nat} {a : α} {k : κ}

theorem getElem?_concat_iff {i : Nat} {b : α} :
    (l ++ [a])[i]? = some b ↔ l[i]? = some b ∨ i = l.length ∧ a = b := by
  rcases Nat.lt_trichotomy i l.length with h | rfl | h
  · rw [List.getElem?_append_left h]
    exact ⟨.inl, fun hb => hb.resolve_right fun hr => absurd hr.1 (Nat.ne_of_lt h)⟩
  · simp
  · rw [List.getElem?_eq_none (by rw [List.length_append, List.length_singleton]; omega),
      List.getElem?_eq_none (Nat.le_of_lt h)]
    exact ⟨nofun, fun hb => absurd (hb.resolve_left nofun).1 (by omega)⟩

/-! ## Indices -/

theorem indexed_nil : Indexed key (fun _ => none) [] := by
  intro k i
  simp

theorem Indexed.skip (h : Indexed key m l) (ha : key a = none) : Indexed key m (l ++ [a]) := by
  intro k i
  rw [h k i]
  constructor
  · rintro ⟨b, hb, hk⟩
    exact ⟨b, getElem?_concat_iff.mpr (.inl hb), hk⟩
  · rintro ⟨b, hb, hk⟩
    rcases getElem?_concat_iff.mp hb with hb | ⟨-, rfl⟩
    · exact ⟨b, hb, hk⟩
    · rw [ha] at hk
      cases hk

theorem Indexed.append [DecidableEq κ] (h : Indexed key m l) (ha : key a = some k) (hm : m k = none) :
    Indexed key (Function.update m k (some l.length)) (l ++ [a]) := by
  intro k' i
  by_cases hk : k' = k
  · subst hk
    rw [Function.update_self, Option.some.injEq]
    constructor
    · rintro rfl
      exact ⟨a, getElem?_concat_iff.mpr (.inr ⟨rfl, rfl⟩), ha⟩
    · rintro ⟨b, hb, hkb⟩
      rcases getElem?_concat_iff.mp hb with hb | ⟨hi, -⟩
      · have hsome := (h k' i).mpr ⟨b, hb, hkb⟩
        rw [hm] at hsome
        cases hsome
      · exact hi.symm
  · rw [Function.update_of_ne hk, h k' i]
    constructor
    · rintro ⟨b, hb, hkb⟩
      exact ⟨b, getElem?_concat_iff.mpr (.inl hb), hkb⟩
    · rintro ⟨b, hb, hkb⟩
      rcases getElem?_concat_iff.mp hb with hb | ⟨-, rfl⟩
      · exact ⟨b, hb, hkb⟩
      · rw [ha, Option.some.injEq] at hkb
        exact absurd hkb.symm hk

theorem Indexed.set (h : Indexed key m l) (ha : key a = some k) {i : Nat} (hm : m k = some i) :
    Indexed key m (l.set i a) := by
  obtain ⟨b, hb, hkb⟩ := (h k i).mp hm
  have hlt := (List.getElem?_eq_some_iff.mp hb).1
  intro k' j
  rw [h k' j, List.getElem?_set]
  by_cases hij : i = j
  · subst hij
    rw [if_pos rfl, if_pos hlt]
    constructor
    · rintro ⟨c, hc, hkc⟩
      rw [hb, Option.some.injEq] at hc
      exact ⟨a, rfl, by rw [ha, ← hkb, hc, hkc]⟩
    · rintro ⟨c, hc, hkc⟩
      obtain rfl := Option.some.inj hc
      exact ⟨b, hb, by rw [hkb, ← ha, hkc]⟩
  · rw [if_neg hij]

/-- Each key is there once. -/
theorem Indexed.nodup (h : Indexed key m l) : (l.filterMap key).Nodup := by
  refine List.pairwise_filterMap.mpr (List.pairwise_iff_getElem.mpr ?_)
  intro i j hi hj hij k hk k' hk' heq
  subst heq
  have hi' := (h k i).mpr ⟨_, List.getElem?_eq_getElem hi, hk⟩
  have hj' := (h k j).mpr ⟨_, List.getElem?_eq_getElem hj, hk'⟩
  rw [hi', Option.some.injEq] at hj'
  omega

/-! ## Upserts -/

variable [DecidableEq κ]

variable (key) in
/-- Puts an element in the place of the first one with its key, or at the end. -/
def upsert (a : α) : List α → List α
  | [] => [a]
  | b :: l => if key b = key a then a :: l else b :: upsert a l

variable (key) in
/-- One upsert after the other. -/
def upserts (l as : List α) : List α := as.foldl (fun l a => upsert key a l) l

variable (key) in
def lookup (k : κ) (l : List α) : Option α := l.find? fun a => key a = some k

theorem Indexed.upsert_set (h : Indexed key m l) (ha : key a = some k) {i : Nat} (hm : m k = some i) :
    upsert key a l = l.set i a := by
  obtain ⟨b, hb, hkb⟩ := (h k i).mp hm
  -- The element that is found first is the one at `i`: no other has the key.
  have hother : ∀ (j : Nat) (c : α), l[j]? = some c → key c = some k → j = i := by
    intro j c hc hkc
    have hj := (h k j).mpr ⟨c, hc, hkc⟩
    rw [hm, Option.some.injEq] at hj
    exact hj.symm
  clear h hm
  induction l generalizing i with
  | nil => cases hb
  | cons c l ih =>
    unfold upsert
    by_cases hc : key c = key a
    · obtain rfl := hother 0 c rfl (hc.trans ha)
      rw [if_pos hc]
      rfl
    · rw [if_neg hc]
      cases i with
      | zero =>
        obtain rfl := Option.some.inj hb
        exact absurd (hkb.trans ha.symm) hc
      | succ i =>
        rw [List.set_cons_succ, ih hb fun j c hj hkc => Nat.succ.inj (hother (j + 1) c hj hkc)]

theorem upsert_concat (h : ∀ b ∈ l, key b ≠ key a) : upsert key a l = l ++ [a] := by
  induction l with
  | nil => rfl
  | cons b l ih =>
    obtain ⟨hb, hl⟩ := List.forall_mem_cons.mp h
    unfold upsert
    rw [if_neg hb, ih hl]
    rfl

theorem Indexed.upsert_append (h : Indexed key m l) (ha : key a = some k) (hm : m k = none) :
    upsert key a l = l ++ [a] := by
  refine upsert_concat fun b hb hkb => ?_
  obtain ⟨i, hi, hib⟩ := List.mem_iff_getElem.mp hb
  have hsome := (h k i).mpr ⟨b, by rw [List.getElem?_eq_getElem hi, hib], hkb.trans ha⟩
  rw [hm] at hsome
  cases hsome

/-- With each key once, an element is the one that is found for its key. -/
theorem lookup_of_mem (hl : (l.filterMap key).Nodup) (hmem : a ∈ l) (ha : key a = some k) : lookup key k l = some a := by
  unfold lookup
  induction l with
  | nil => cases hmem
  | cons b l ih =>
    by_cases hb : key b = some k
    · rw [List.find?_cons_of_pos (by simpa using hb)]
      rcases List.mem_cons.mp hmem with rfl | hmem
      · rfl
      · rw [List.filterMap_cons_some hb, List.nodup_cons] at hl
        exact absurd (List.mem_filterMap.mpr ⟨a, hmem, ha⟩) hl.1
    · rw [List.find?_cons_of_neg (by simpa using hb)]
      rcases List.mem_cons.mp hmem with rfl | hmem
      · exact absurd ha hb
      · exact ih ((List.Sublist.filterMap key (List.sublist_cons_self b l)).nodup hl) hmem

theorem lookup_upsert (ha : key a = some k) (k' : κ) (l : List α) :
    lookup key k' (upsert key a l) = if k' = k then some a else lookup key k' l := by
  unfold lookup
  induction l with
  | nil =>
    by_cases hk : k' = k
    · simp [upsert, ha, hk]
    · simp [upsert, ha, hk, Ne.symm hk]
  | cons b l ih =>
    unfold upsert
    by_cases hb : key b = key a
    · rw [if_pos hb]
      by_cases hk : k' = k
      · simp [ha, hk]
      · simp [ha, hk, hb, Ne.symm hk]
    · rw [if_neg hb]
      by_cases hbk : key b = some k'
      · have hk : k' ≠ k := by
          rintro rfl
          exact hb (hbk.trans ha.symm)
        simp [hbk, hk]
      · simp [hbk, ih]

theorem lookup_upserts (k : κ) (l as : List α) (has : ∀ a ∈ as, key a ≠ none) :
    lookup key k (upserts key l as) = (lookup key k as.reverse).or (lookup key k l) := by
  induction as generalizing l with
  | nil => rfl
  | cons a as ih =>
    obtain ⟨ha, has⟩ := List.forall_mem_cons.mp has
    obtain ⟨k₀, hk₀⟩ := Option.ne_none_iff_exists'.mp ha
    have hstep : upserts key l (a :: as) = upserts key (upsert key a l) as := rfl
    have hlast : lookup key k (a :: as).reverse = (lookup key k as.reverse).or (if k = k₀ then some a else none) := by
      unfold lookup
      rw [List.reverse_cons, List.find?_append]
      congr 1
      by_cases hk : k = k₀
      · simp [hk, hk₀]
      · simp [hk, hk₀, Ne.symm hk]
    rw [hstep, ih _ has, lookup_upsert hk₀, hlast, Option.or_assoc]
    by_cases hk : k = k₀
    · simp [hk]
    · simp [hk]

/-! ## What stays -/

variable (key a) in
/-- In a place that was there, an upsert leaves what was there or puts its element for one with
    the same key. -/
theorem getElem?_upsert {i : Nat} {b : α} (h : l[i]? = some b) :
    ∃ b', (upsert key a l)[i]? = some b' ∧ (b' = b ∨ b' = a ∧ key a = key b) := by
  induction l generalizing i with
  | nil => cases h
  | cons c l ih =>
    unfold upsert
    by_cases hc : key c = key a
    · rw [if_pos hc]
      cases i with
      | zero =>
        obtain rfl := Option.some.inj h
        exact ⟨a, rfl, .inr ⟨rfl, hc.symm⟩⟩
      | succ i => exact ⟨b, h, .inl rfl⟩
    · rw [if_neg hc]
      cases i with
      | zero => exact ⟨b, h, .inl rfl⟩
      | succ i => exact ih h

theorem getElem?_upsert_new {i : Nat} {b : α} (h : (upsert key a l)[i]? = some b) (hi : l.length ≤ i) : b = a := by
  induction l generalizing i with
  | nil => exact List.mem_singleton.mp (List.mem_of_getElem? h)
  | cons c l ih =>
    cases i with
    | zero => exact absurd hi (by simp)
    | succ i =>
      have hle : l.length ≤ i := Nat.le_of_succ_le_succ hi
      unfold upsert at h
      by_cases hc : key c = key a
      · rw [if_pos hc, List.getElem?_cons_succ, List.getElem?_eq_none hle] at h
        cases h
      · rw [if_neg hc] at h
        exact ih h hle

variable (key) in
theorem length_upsert_le (a : α) (l : List α) : l.length ≤ (upsert key a l).length := by
  induction l with
  | nil => exact Nat.zero_le _
  | cons c l ih =>
    unfold upsert
    split
    · exact Nat.le_refl _
    · exact Nat.succ_le_succ ih

omit [DecidableEq κ] in
theorem Extends.refl (l : List α) : Extends key l l where
  length := Nat.le_refl _
  stays _ a h := ⟨a, h, rfl, fun _ => rfl⟩
  added _ _ h hi := absurd (List.getElem?_eq_some_iff.mp h).1 (Nat.not_lt.mpr hi)

theorem Extends.upsert (h : Extends key l l') (ha : key a ≠ none) : Extends key l (upsert key a l') where
  length := Nat.le_trans h.length (length_upsert_le key a l')
  stays i b hb := by
    obtain ⟨b', hb', hk, hn⟩ := h.stays i b hb
    obtain ⟨c, hc, rfl | ⟨rfl, hka⟩⟩ := getElem?_upsert key a hb'
    · exact ⟨c, hc, hk, hn⟩
    · exact ⟨c, hc, hka.trans hk, fun hnone => absurd ((hka.trans hk).trans hnone) ha⟩
  added i b hb hi := by
    cases hl : l'[i]? with
    | none =>
      obtain rfl := getElem?_upsert_new hb (List.getElem?_eq_none_iff.mp hl)
      exact ha
    | some c =>
      obtain ⟨c', hc', hcases⟩ := getElem?_upsert key a hl
      rw [hb, Option.some.injEq] at hc'
      rcases hcases with rfl | ⟨rfl, -⟩
      · exact hc' ▸ h.added i _ hl hi
      · exact hc' ▸ ha

theorem extends_upserts (l as : List α) (has : ∀ a ∈ as, key a ≠ none) : Extends key l (upserts key l as) := by
  suffices h : ∀ l', Extends key l l' → Extends key l (upserts key l' as) from h l (.refl l)
  induction as with
  | nil => exact fun l' h => h
  | cons a as ih =>
    obtain ⟨ha, has⟩ := List.forall_mem_cons.mp has
    exact fun l' h => ih has _ (h.upsert ha)

end Ghostline.Lib.Keyed
