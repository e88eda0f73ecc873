/-
  Ghostline.Lib.Decimal — numbers as decimal digits, in bytes: what a text stands for
  (`value`), the digits of a number (`decimal`), and a parser into 64 bits that checks for
  overflow before it multiplies and after it adds (`parse`).

  - `value_decimal`: the digits of a number stand for it.
  - `parse_eq_some_iff`: exactly the non-empty texts of digits are accepted whose value is
    at most `max`.
  - `le_iff_value_le`: texts of one length are ordered as their values are.
-/

import Mathlib.Algebra.Group.Nat.Defs
import Mathlib.Data.List.Basic

namespace Ghostline.Lib.Decimal

def IsDigit (b : UInt8) : Prop := 0x30 ≤ b ∧ b ≤ 0x39

instance (b : UInt8) : Decidable (IsDigit b) := inferInstanceAs (Decidable (_ ∧ _))

/-- What a digit stands for. -/
def digit (b : UInt8) : Nat := b.toNat - 48

/-- The value of the digits behind others whose value is `n`. -/
def valueFrom (n : Nat) (s : List UInt8) : Nat := s.foldl (fun n b => n * 10 + digit b) n

def value (s : List UInt8) : Nat := valueFrom 0 s

/-- A number. -/
def Digits (s : List UInt8) : Prop := s ≠ [] ∧ ∀ b ∈ s, IsDigit b

instance (s : List UInt8) : Decidable (Digits s) :=
  @instDecidableAnd (s ≠ []) _ inferInstance (List.decidableBAll IsDigit s)

def decimal (n : Nat) : List UInt8 := (Nat.toDigits 10 n).map fun c => c.toNat.toUInt8

/-! ## Digits of a number -/

theorem IsDigit.lt {b : UInt8} (h : IsDigit b) : digit b < 10 := by
  have h2 : b.toNat ≤ 57 := h.2
  unfold digit
  omega

theorem isDigit_digitChar {c : Char} (h : c.isDigit = true) :
    IsDigit c.toNat.toUInt8 ∧ digit c.toNat.toUInt8 = c.toNat - '0'.toNat := by
  obtain ⟨h1, h2⟩ : 48 ≤ c.toNat ∧ c.toNat ≤ 57 := by
    simp only [Char.isDigit, Bool.and_eq_true, decide_eq_true_eq] at h
    exact h
  have hb : c.toNat.toUInt8.toNat = c.toNat := by
    simp only [Nat.toUInt8_eq, UInt8.toNat_ofNat']
    omega
  refine ⟨⟨?_, ?_⟩, ?_⟩
  · rw [UInt8.le_iff_toNat_le, hb]
    exact h1
  · rw [UInt8.le_iff_toNat_le, hb]
    exact h2
  · unfold digit
    rw [hb]
    rfl

theorem isDigit_of_mem_decimal {n : Nat} {b : UInt8} (h : b ∈ decimal n) : IsDigit b := by
  obtain ⟨c, hc, rfl⟩ := List.mem_map.mp h
  exact (isDigit_digitChar (Nat.isDigit_of_mem_toDigits (by decide) (by decide) hc)).1

theorem decimal_ne_nil (n : Nat) : decimal n ≠ [] := by
  intro h
  have hnil : Nat.toDigits 10 n = [] := List.map_eq_nil_iff.mp h
  rw [Nat.toDigits_eq_if (by decide)] at hnil
  split at hnil
  · cases hnil
  · exact List.append_ne_nil_of_right_ne_nil _ (List.cons_ne_nil _ _) hnil

theorem digits_decimal (n : Nat) : Digits (decimal n) :=
  ⟨decimal_ne_nil n, fun _ => isDigit_of_mem_decimal⟩

/-- Bytes and characters count alike. -/
theorem valueFrom_map {cs : List Char} (h : ∀ c ∈ cs, c.isDigit = true) (n : Nat) :
    valueFrom n (cs.map fun c => c.toNat.toUInt8) = Nat.ofDigitChars 10 cs n := by
  induction cs generalizing n with
  | nil => rfl
  | cons c cs ih =>
    have hc := (isDigit_digitChar (h c List.mem_cons_self)).2
    rw [Nat.ofDigitChars_cons, ← ih fun c hc => h c (List.mem_cons_of_mem _ hc)]
    show valueFrom (n * 10 + digit c.toNat.toUInt8) _ = _
    rw [hc, Nat.mul_comm]

theorem value_decimal (n : Nat) : value (decimal n) = n := by
  unfold value decimal
  rw [valueFrom_map fun c hc => Nat.isDigit_of_mem_toDigits (by decide) (by decide) hc]
  exact Nat.ofDigitChars_toDigits (by decide) (by decide)

/-! ## Parsing -/

/-- The loop, with `n` read so far. A number from `cutoff` on cannot be multiplied by ten. -/
def parseFrom (max n : UInt64) : List UInt8 → Option UInt64
  | [] => some n
  | b :: s =>
    if ¬ IsDigit b then none
    else if 0xffffffffffffffff / 10 + 1 ≤ n then none
    else
      let n₁ := n * 10 + (b - 0x30).toUInt64
      if n₁ < n * 10 ∨ max < n₁ then none else parseFrom max n₁ s

def parse (max : UInt64) (s : List UInt8) : Option UInt64 := if s = [] then none else parseFrom max 0 s

/-- More digits do not make a value smaller. -/
theorem le_valueFrom (n : Nat) (s : List UInt8) : n ≤ valueFrom n s := by
  induction s generalizing n with
  | nil => exact Nat.le_refl n
  | cons b s ih =>
    have := ih (n * 10 + digit b)
    show n ≤ valueFrom (n * 10 + digit b) s
    omega

theorem IsDigit.toNat_sub {b : UInt8} (h : IsDigit b) : (b - 0x30).toUInt64.toNat = digit b := by
  have h1 : 48 ≤ b.toNat := h.1
  rw [UInt8.toNat_toUInt64, UInt8.toNat_sub_of_le _ _ h.1]
  rfl

theorem parseFrom_eq_some_iff {max : UInt64} {s : List UInt8} {n v : UInt64} (hn : n ≤ max) :
    parseFrom max n s = some v ↔ (∀ b ∈ s, IsDigit b) ∧ valueFrom n.toNat s = v.toNat ∧ v ≤ max := by
  induction s generalizing n with
  | nil =>
    simp only [parseFrom, Option.some.injEq, List.not_mem_nil, false_implies, implies_true, true_and]
    constructor
    · rintro rfl
      exact ⟨rfl, hn⟩
    · rintro ⟨h, -⟩
      exact UInt64.toNat_inj.mp h
  | cons b s ih =>
    unfold parseFrom
    rw [List.forall_mem_cons]
    by_cases hb : IsDigit b
    · have hd := hb.lt
      have hbd := hb.toNat_sub
      have hstep : valueFrom n.toNat (b :: s) = valueFrom (n.toNat * 10 + digit b) s := rfl
      have hle := le_valueFrom (n.toNat * 10 + digit b) s
      have hv := v.toNat_lt
      have hmax := max.toNat_lt
      have hcut : ((0xffffffffffffffff : UInt64) / 10 + 1).toNat = 1844674407370955162 := by decide
      rw [if_neg (not_not.mpr hb), hstep]
      by_cases hc : 0xffffffffffffffff / 10 + 1 ≤ n
      · rw [if_pos hc]
        rw [UInt64.le_iff_toNat_le, hcut] at hc
        refine ⟨nofun, ?_⟩
        rintro ⟨-, h, -⟩
        omega
      · rw [if_neg hc]
        rw [UInt64.le_iff_toNat_le, hcut] at hc
        have hmul : (n * 10).toNat = n.toNat * 10 := by
          rw [UInt64.toNat_mul]
          show n.toNat * 10 % 2 ^ 64 = _
          omega
        have hadd : (n * 10 + (b - 0x30).toUInt64).toNat = (n.toNat * 10 + digit b) % 2 ^ 64 := by
          rw [UInt64.toNat_add, hmul, hbd]
        simp only
        by_cases ho : n * 10 + (b - 0x30).toUInt64 < n * 10 ∨ max < n * 10 + (b - 0x30).toUInt64
        · rw [if_pos ho]
          rw [UInt64.lt_iff_toNat_lt, UInt64.lt_iff_toNat_lt, hmul, hadd] at ho
          refine ⟨nofun, ?_⟩
          rintro ⟨-, h, hvm⟩
          rw [UInt64.le_iff_toNat_le] at hvm
          omega
        · rw [if_neg ho]
          rw [not_or, UInt64.not_lt, UInt64.not_lt] at ho
          have hsum : (n * 10 + (b - 0x30).toUInt64).toNat = n.toNat * 10 + digit b := by
            have h1 := UInt64.le_iff_toNat_le.mp ho.1
            rw [hmul] at h1
            omega
          rw [ih ho.2, hsum]
          simp only [hb, true_and]
    · rw [if_pos hb]
      exact ⟨nofun, fun h => absurd h.1.1 hb⟩

theorem parse_eq_some_iff {max : UInt64} {s : List UInt8} {v : UInt64} :
    parse max s = some v ↔ Digits s ∧ value s = v.toNat ∧ v ≤ max := by
  unfold parse
  by_cases hs : s = []
  · rw [if_pos hs]
    exact ⟨nofun, fun h => absurd hs h.1.1⟩
  · rw [if_neg hs, parseFrom_eq_some_iff UInt64.zero_le]
    exact ⟨fun h => ⟨⟨hs, h.1⟩, h.2⟩, fun h => ⟨h.1.2, h.2⟩⟩

/-! ## Order -/

theorem value_cons_eq (b : UInt8) (s : List UInt8) : value (b :: s) = valueFrom (digit b) s := by
  show valueFrom (0 * 10 + digit b) s = _
  rw [Nat.zero_mul, Nat.zero_add]

theorem valueFrom_eq (n : Nat) (s : List UInt8) : valueFrom n s = n * 10 ^ s.length + value s := by
  induction s generalizing n with
  | nil => simp [valueFrom, value]
  | cons b s ih =>
    have hfront : valueFrom n (b :: s) = valueFrom (n * 10 + digit b) s := rfl
    rw [hfront, value_cons_eq, ih, ih (digit b), List.length_cons, Nat.pow_succ, Nat.add_mul]
    rw [Nat.mul_assoc, Nat.mul_comm 10, Nat.add_assoc]

theorem value_cons (b : UInt8) (s : List UInt8) : value (b :: s) = digit b * 10 ^ s.length + value s := by
  rw [value_cons_eq, valueFrom_eq]

theorem value_lt {s : List UInt8} (h : ∀ b ∈ s, IsDigit b) : value s < 10 ^ s.length := by
  induction s with
  | nil => exact Nat.one_pos
  | cons b s ih =>
    obtain ⟨hb, hs⟩ := List.forall_mem_cons.mp h
    have hrest := ih hs
    have hdigit := Nat.mul_le_mul_right (10 ^ s.length) (Nat.le_of_lt_succ hb.lt)
    rw [value_cons, List.length_cons, Nat.pow_succ]
    omega

theorem digit_lt_iff {a b : UInt8} (ha : IsDigit a) (hb : IsDigit b) : digit a < digit b ↔ a < b := by
  have h1 : 48 ≤ a.toNat := ha.1
  have h2 : 48 ≤ b.toNat := hb.1
  rw [UInt8.lt_iff_toNat_lt]
  unfold digit
  omega

theorem le_iff_value_le {s t : List UInt8} (hs : ∀ b ∈ s, IsDigit b) (ht : ∀ b ∈ t, IsDigit b)
    (hlen : s.length = t.length) : s ≤ t ↔ value s ≤ value t := by
  induction s generalizing t with
  | nil =>
    obtain rfl := List.length_eq_zero_iff.mp hlen.symm
    simp
  | cons a s ih =>
    cases t with
    | nil => cases hlen
    | cons b t =>
      obtain ⟨ha, hs⟩ := List.forall_mem_cons.mp hs
      obtain ⟨hb, ht⟩ := List.forall_mem_cons.mp ht
      have hlen : s.length = t.length := Nat.succ.inj hlen
      have hslt := value_lt hs
      have htlt := value_lt ht
      rw [List.cons_le_cons_iff, ih hs ht hlen, value_cons, value_cons, ← digit_lt_iff ha hb, hlen]
      rw [hlen] at hslt
      rcases Nat.lt_trichotomy (digit a) (digit b) with h | h | h
      · -- one more in front outweighs everything behind
        have hmul := Nat.mul_le_mul_right (10 ^ t.length) (Nat.succ_le_of_lt h)
        rw [Nat.succ_mul] at hmul
        exact iff_of_true (.inl h) (by omega)
      · have hab : a = b := by
          have h1 := mt (digit_lt_iff ha hb).mpr (by omega)
          have h2 := mt (digit_lt_iff hb ha).mpr (by omega)
          exact UInt8.le_antisymm (UInt8.not_lt.mp h2) (UInt8.not_lt.mp h1)
        simp [hab]
      · have hmul := Nat.mul_le_mul_right (10 ^ t.length) (Nat.succ_le_of_lt h)
        rw [Nat.succ_mul] at hmul
        refine iff_of_false ?_ (by omega)
        rintro (h' | ⟨rfl, -⟩)
        · omega
        · omega

end Ghostline.Lib.Decimal
