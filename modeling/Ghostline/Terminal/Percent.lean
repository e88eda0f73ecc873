/-
  Ghostline.Terminal.Percent — percent escapes (pwd.go: `percentDecode`, `hexValue`).

  The source returns an input without a percent sign as it is, and reads any other one by
  index, looking two bytes ahead of each percent sign (`percentDecodeLoop`). Both give what
  decoding the list from its front gives (`percentDecodeOk_eq`), so that the other modules
  speak of `percentDecode` alone.

  A byte that is not a percent sign may be written as it is, and any byte as a percent sign and
  two digits of either case (`Spelled`). Decoding succeeds on the spellings, with what they
  spell, and fails where the scan comes to a percent sign without two digits behind it
  (`percent_decode_iff`). As no digit is a percent sign, it does not matter how the scan came
  there (`stuck_iff`).
-/

import Ghostline.Terminal.Pwd

namespace Ghostline.Terminal

open Lib Query

/-! ## The source's loop -/

theorem first_digit_lt {input : List Byte} {index : Nat} (h : ¬ index + 2 ≥ input.length) :
    index + 1 < input.length := by
  omega

theorem second_digit_lt {input : List Byte} {index : Nat} (h : ¬ index + 2 ≥ input.length) :
    index + 2 < input.length := by
  omega

def percentDecodeLoop (input : List Byte) (index : Nat) (decoded : List Byte) : List Byte × Bool :=
  if h : index < input.length then
    if input[index] ≠ byte '%' then percentDecodeLoop input (index + 1) (decoded ++ [input[index]])
    else if hend : index + 2 ≥ input.length then ([], false)
    else
      match hexValue (getElem input (index + 1) (first_digit_lt hend)),
        hexValue (getElem input (index + 2) (second_digit_lt hend)) with
      -- `index += 2` here, and the `index++` of the loop
      | some high, some low => percentDecodeLoop input (index + 2 + 1) (decoded ++ [high <<< 4 ||| low])
      | _, _ => ([], false)
  else (decoded, true)
termination_by input.length - index

/-- `percentDecode` with the text and the `ok` that it returns. -/
def percentDecodeOk (input : List Byte) : List Byte × Bool :=
  if (index (bytes "%") input).isNone then (input, true)
  else percentDecodeLoop input 0 []

/-- A failure has the empty text. -/
def withOk : Option (List Byte) → List Byte × Bool
  | some text => (text, true)
  | none => ([], false)

/-! ## Spellings -/

/-- `d` is a hexadecimal digit, in either case, and stands for `n`. -/
def IsHexDigit (d : Byte) (n : Nat) : Prop :=
  (bytes "0123456789abcdef")[n]? = some d ∨ (bytes "0123456789ABCDEF")[n]? = some d

instance (d : Byte) (n : Nat) : Decidable (IsHexDigit d n) := inferInstanceAs (Decidable (_ ∨ _))

/-- A text and a way of writing it. -/
inductive Spelled : List Byte → List Byte → Prop
  | nil : Spelled [] []
  | literal {b : Byte} {text input : List Byte} : b ≠ byte '%' → Spelled text input → Spelled (b :: text) (b :: input)
  | escaped {b h l : Byte} {text input : List Byte} : IsHexDigit h (b.toNat / 16) → IsHexDigit l (b.toNat % 16) →
      Spelled text input → Spelled (b :: text) (byte '%' :: h :: l :: input)

/-- Two digits come first. -/
def TwoDigits (rest : List Byte) : Prop :=
  ∃ h l tail m n, rest = h :: l :: tail ∧ IsHexDigit h m ∧ IsHexDigit l n

/-- The scan from the left comes to a percent sign that is not followed by two digits. -/
def Stuck (input : List Byte) : Prop :=
  ∃ before rest, (∃ text, Spelled text before) ∧ input = before ++ byte '%' :: rest ∧ ¬ TwoDigits rest

variable {text input rest : List Byte}

/-! ## Digits -/

theorem IsHexDigit.lt {d : Byte} {n : Nat} (h : IsHexDigit d n) : n < 16 := by
  rcases h with h | h
  · exact (List.getElem?_eq_some_iff.mp h).1
  · exact (List.getElem?_eq_some_iff.mp h).1

theorem IsHexDigit.hexValue {d : Byte} {n : Nat} (h : IsHexDigit d n) : hexValue d = some n.toUInt8 := by
  have hlower : ∀ n < 16, ((bytes "0123456789abcdef")[n]?).bind Terminal.hexValue = some n.toUInt8 := by decide
  have hupper : ∀ n < 16, ((bytes "0123456789ABCDEF")[n]?).bind Terminal.hexValue = some n.toUInt8 := by decide
  have hn := h.lt
  rcases h with h | h
  · rw [← hlower n hn, h, Option.bind_some]
  · rw [← hupper n hn, h, Option.bind_some]

theorem isHexDigit_of_hexValue {d v : Byte} (h : hexValue d = some v) : IsHexDigit d v.toNat := by
  have hall : ∀ n < 256, (hexValue n.toUInt8).all (fun v => decide (IsHexDigit n.toUInt8 v.toNat)) = true := by
    decide +kernel
  have hd := hall d.toNat d.toNat_lt
  have hback : d.toNat.toUInt8 = d := UInt8.ofNat_toNat
  rw [hback, h] at hd
  exact of_decide_eq_true hd

theorem not_isHexDigit {d : Byte} (h : hexValue d = none) (n : Nat) : ¬ IsHexDigit d n := by
  intro hd
  rw [hd.hexValue] at h
  cases h

theorem IsHexDigit.ne_percent {d : Byte} {n : Nat} (h : IsHexDigit d n) : d ≠ byte '%' := by
  rintro rfl
  exact not_isHexDigit (by decide) n h

theorem toNat_nibbles {high low : Byte} (hh : high.toNat < 16) (hl : low.toNat < 16) :
    (high <<< 4 ||| low).toNat = 16 * high.toNat + low.toNat := by
  have hshift : (high <<< 4).toNat = high.toNat <<< 4 := by
    rw [UInt8.toNat_shiftLeft, Nat.shiftLeft_eq, Nat.shiftLeft_eq]
    show high.toNat * 16 % 256 = high.toNat * 16
    omega
  rw [UInt8.toNat_or, hshift, ← Nat.shiftLeft_add_eq_or_of_lt (i := 4) hl, Nat.shiftLeft_eq]
  omega

/-- The two digits of a byte give the byte back. -/
theorem nibbles_eq (b : Byte) : (b.toNat / 16).toUInt8 <<< 4 ||| (b.toNat % 16).toUInt8 = b := by
  have hb := b.toNat_lt
  have hhigh : (b.toNat / 16).toUInt8.toNat = b.toNat / 16 := UInt8.toNat_ofNat_of_lt' (by show _ < 256; omega)
  have hlow : (b.toNat % 16).toUInt8.toNat = b.toNat % 16 := UInt8.toNat_ofNat_of_lt' (by show _ < 256; omega)
  apply UInt8.toNat_inj.mp
  rw [toNat_nibbles (by omega) (by omega), hhigh, hlow]
  omega

/-! ## Decoding from the front -/

theorem percentDecode_cons {b : Byte} (hb : b ≠ byte '%') (rest : List Byte) :
    percentDecode (b :: rest) = (percentDecode rest).map (b :: ·) := by
  conv_lhs => unfold percentDecode
  exact if_neg hb

theorem percentDecode_escape {h l high low : Byte} (hh : hexValue h = some high) (hl : hexValue l = some low)
    (rest : List Byte) : percentDecode (byte '%' :: h :: l :: rest) =
      (percentDecode rest).map ((high <<< 4 ||| low) :: ·) := by
  conv_lhs => unfold percentDecode
  rw [if_pos rfl]
  simp only [hh, hl]

theorem percentDecode_bad (hbad : ∀ h l t, rest = h :: l :: t → hexValue h = none ∨ hexValue l = none) :
    percentDecode (byte '%' :: rest) = none := by
  conv_lhs => unfold percentDecode
  rw [if_pos rfl]
  split
  · rename_i h l t
    rcases hbad h l t rfl with hn | hn
    · simp only [hn]
    · rw [hn]
      cases hexValue h with
      | none => rfl
      | some v => rfl
  · rfl

theorem percentDecode_bad_digits {h l : Byte}
    (hbad : ∀ high low, hexValue h = some high → hexValue l = some low → False) (rest : List Byte) :
    percentDecode (byte '%' :: h :: l :: rest) = none := by
  refine percentDecode_bad fun h' l' t heq => ?_
  injection heq with hhigh heq
  injection heq with hlow
  subst hhigh hlow
  cases hh : hexValue h with
  | none => exact .inl rfl
  | some high =>
    cases hl : hexValue l with
    | none => exact .inr rfl
    | some low => exact absurd hl (hbad high low hh)

theorem drop_escape {i : Nat} (hi : i < input.length) (hb : input[i] = byte '%') (hend : i + 2 < input.length) :
    input.drop i = byte '%' :: input[i + 1] :: input[i + 2] :: input.drop (i + 2 + 1) := by
  rw [List.drop_eq_getElem_cons hi, hb, List.drop_eq_getElem_cons (by omega : i + 1 < input.length),
    List.drop_eq_getElem_cons hend]

theorem percentDecode_of_not_mem (h : byte '%' ∉ input) : percentDecode input = some input := by
  induction input with
  | nil => rfl
  | cons b rest ih =>
    obtain ⟨hb, hrest⟩ := List.ne_and_not_mem_of_not_mem_cons h
    rw [percentDecode_cons hb.symm, ih hrest, Option.map_some]

/-- The loop goes on from where it is: what is before the index is in `decoded`. -/
theorem percentDecodeLoop_eq (input : List Byte) (index : Nat) (decoded : List Byte) :
    percentDecodeLoop input index decoded =
      withOk ((percentDecode (input.drop index)).map (decoded ++ ·)) := by
  fun_induction percentDecodeLoop input index decoded with
  | case1 index decoded h hb ih =>
    rw [ih, List.drop_eq_getElem_cons h, percentDecode_cons hb, Option.map_map]
    simp [Function.comp_def]
  | case2 index decoded h hb hend =>
    have hshort : percentDecode (byte '%' :: input.drop (index + 1)) = none := by
      refine percentDecode_bad fun h l t heq => ?_
      have hlength := congrArg List.length heq
      simp only [List.length_drop, List.length_cons] at hlength
      omega
    rw [List.drop_eq_getElem_cons h, not_not.mp hb, hshort]
    rfl
  | case3 index decoded h hb hend high low hl hh ih =>
    rw [ih, drop_escape h (not_not.mp hb) (by omega), percentDecode_escape hh hl, Option.map_map]
    simp [Function.comp_def]
  | case4 index decoded h hb hend hbad =>
    rw [drop_escape h (not_not.mp hb) (by omega), percentDecode_bad_digits hbad]
    rfl
  | case5 index decoded h =>
    rw [List.drop_eq_nil_of_le (by omega)]
    simp [percentDecode, withOk]

/-- What the source returns, with its short way for an input without percent signs. -/
theorem percentDecodeOk_eq (input : List Byte) : percentDecodeOk input = withOk (percentDecode input) := by
  unfold percentDecodeOk
  split
  · rename_i hnone
    have hmem : byte '%' ∉ input := index_singleton_none (Option.isNone_iff_eq_none.mp hnone)
    rw [percentDecode_of_not_mem hmem]
    rfl
  · rw [percentDecodeLoop_eq, List.drop_zero]
    simp

/-! ## Spellings and their decoding -/

theorem Spelled.decode_append (h : Spelled text input) (rest : List Byte) :
    percentDecode (input ++ rest) = (percentDecode rest).map (text ++ ·) := by
  induction h with
  | nil => exact Option.map_id'.symm
  | literal hb _ ih =>
    rw [List.cons_append, percentDecode_cons hb, ih, Option.map_map]
    rfl
  | escaped hh hl _ ih =>
    rw [List.cons_append, List.cons_append, List.cons_append, percentDecode_escape hh.hexValue hl.hexValue,
      nibbles_eq, ih, Option.map_map]
    rfl

theorem Spelled.decode (h : Spelled text input) : percentDecode input = some text := by
  have hall := h.decode_append []
  rw [List.append_nil] at hall
  rw [hall, percentDecode, Option.map_some, List.append_nil]

theorem Spelled.escape {h l high low : Byte} (hh : hexValue h = some high) (hl : hexValue l = some low)
    (hs : Spelled text input) : Spelled ((high <<< 4 ||| low) :: text) (byte '%' :: h :: l :: input) := by
  have hhigh := isHexDigit_of_hexValue hh
  have hlow := isHexDigit_of_hexValue hl
  have hvalue := toNat_nibbles hhigh.lt hlow.lt
  have hlt := hlow.lt
  refine .escaped ?_ ?_ hs
  · rwa [hvalue, show (16 * high.toNat + low.toNat) / 16 = high.toNat by omega]
  · rwa [hvalue, show (16 * high.toNat + low.toNat) % 16 = low.toNat by omega]

/-- No percent sign of a spelling is without its digits. -/
theorem Spelled.twoDigits (h : Spelled text input) {before : List Byte}
    (hinput : input = before ++ byte '%' :: rest) : TwoDigits rest := by
  induction h generalizing before with
  | nil => simp at hinput
  | literal hb _ ih =>
    match before with
    | [] =>
      injection hinput with hhead
      exact absurd hhead hb
    | _ :: before =>
      injection hinput with _ htail
      exact ih htail
  | escaped hh hl _ ih =>
    match before with
    | [] =>
      injection hinput with _ htail
      exact ⟨_, _, _, _, _, htail.symm, hh, hl⟩
    -- a digit is no percent sign
    | [_] =>
      injection hinput with _ htail
      injection htail with hhead
      exact absurd hhead hh.ne_percent
    | [_, _] =>
      injection hinput with _ htail
      injection htail with _ htail
      injection htail with hhead
      exact absurd hhead hl.ne_percent
    | _ :: _ :: _ :: before =>
      injection hinput with _ htail
      injection htail with _ htail
      injection htail with _ htail
      exact ih htail

theorem Stuck.cons {b : Byte} (hb : b ≠ byte '%') (h : Stuck rest) : Stuck (b :: rest) := by
  obtain ⟨before, tail, ⟨text, hbefore⟩, rfl, hdigits⟩ := h
  exact ⟨b :: before, tail, ⟨_, .literal hb hbefore⟩, rfl, hdigits⟩

theorem Stuck.escape {h l high low : Byte} (hh : hexValue h = some high) (hl : hexValue l = some low)
    (hs : Stuck rest) : Stuck (byte '%' :: h :: l :: rest) := by
  obtain ⟨before, tail, ⟨text, hbefore⟩, rfl, hdigits⟩ := hs
  exact ⟨byte '%' :: h :: l :: before, tail, ⟨_, hbefore.escape hh hl⟩, rfl, hdigits⟩

theorem Stuck.percent (h : ¬ TwoDigits rest) : Stuck (byte '%' :: rest) :=
  ⟨[], rest, ⟨[], .nil⟩, rfl, h⟩

theorem Spelled.not_stuck (h : Spelled text input) : ¬ Stuck input := by
  rintro ⟨before, rest, -, hinput, hdigits⟩
  exact hdigits (h.twoDigits hinput)

/-- The scan comes to the end of the input, or to a percent sign where decoding fails. -/
theorem spelled_or_stuck (input : List Byte) :
    (∃ text, Spelled text input) ∨ percentDecode input = none ∧ Stuck input := by
  fun_induction percentDecode input with
  | case1 => exact .inl ⟨[], .nil⟩
  | case2 h l rest high low hl hh ih =>
    rcases ih with ⟨text, hspelled⟩ | ⟨hnone, hstuck⟩
    · exact .inl ⟨_, hspelled.escape hh hl⟩
    · exact .inr ⟨Option.map_eq_none_iff.mpr hnone, hstuck.escape hh hl⟩
  | case3 h l rest hbad =>
    refine .inr ⟨rfl, .percent ?_⟩
    rintro ⟨h', l', tail, m, n, heq, hh, hl⟩
    injection heq with hhigh heq
    injection heq with hlow
    subst hhigh hlow
    exact hbad _ _ hh.hexValue hl.hexValue
  | case4 rest hshort =>
    refine .inr ⟨rfl, .percent ?_⟩
    rintro ⟨h, l, tail, m, n, heq, -⟩
    exact hshort h l tail heq
  | case5 b rest hb ih =>
    rcases ih with ⟨text, hspelled⟩ | ⟨hnone, hstuck⟩
    · exact .inl ⟨_, .literal hb hspelled⟩
    · exact .inr ⟨Option.map_eq_none_iff.mpr hnone, hstuck.cons hb⟩

theorem percentDecode_eq_some_iff : percentDecode input = some text ↔ Spelled text input := by
  constructor
  · intro h
    rcases spelled_or_stuck input with ⟨text', hspelled⟩ | ⟨hnone, -⟩
    · rw [hspelled.decode] at h
      cases h
      exact hspelled
    · rw [hnone] at h
      cases h
  · exact Spelled.decode

theorem percentDecode_eq_none_iff : percentDecode input = none ↔ Stuck input := by
  rcases spelled_or_stuck input with ⟨text, hspelled⟩ | ⟨hnone, hstuck⟩
  · rw [hspelled.decode]
    exact iff_of_false (Option.some_ne_none text) hspelled.not_stuck
  · exact iff_of_true hnone hstuck

/-- Digits have no percent sign among them: a percent sign that is not followed by two digits
    stops the scan wherever it is, unless another one does before. -/
theorem stuck_iff : Stuck input ↔ ∃ before rest, input = before ++ byte '%' :: rest ∧ ¬ TwoDigits rest := by
  constructor
  · rintro ⟨before, rest, -, h⟩
    exact ⟨before, rest, h⟩
  · rintro ⟨before, rest, hinput, hdigits⟩
    rcases spelled_or_stuck input with ⟨text, hspelled⟩ | ⟨-, hstuck⟩
    · exact absurd (hspelled.twoDigits hinput) hdigits
    · exact hstuck

/-- Every spelling is decoded to what it spells, and nothing else is: `ok` is false where the
    scan comes to a percent sign without two digits behind it. -/
theorem percent_decode_iff :
    (∀ text input, percentDecodeOk input = (text, true) ↔ Spelled text input) ∧
      ∀ input, (percentDecodeOk input).2 = false ↔ Stuck input := by
  refine ⟨fun text input => ?_, fun input => ?_⟩
  · rw [percentDecodeOk_eq, ← percentDecode_eq_some_iff]
    cases percentDecode input with
    | none => simp [withOk]
    | some decoded => simp [withOk]
  · rw [percentDecodeOk_eq, ← percentDecode_eq_none_iff]
    cases percentDecode input with
    | none => simp [withOk]
    | some decoded => simp [withOk]

end Ghostline.Terminal
