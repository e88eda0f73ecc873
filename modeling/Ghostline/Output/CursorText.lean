/-
  Ghostline.Output.CursorText — cursors as texts (output.go: `ParseCursor`, `String`,
  `MarshalText`, `UnmarshalText`).

  A text is empty for the zero cursor, and `v1:`, the generation, `:` and the offset for any
  other. `strconv.ParseUint` reads 64 bits of a generation and 63 of an offset.

  `cursor_text_codec`: what `String` writes is read back, and what is read are the texts of
  this form, leading zeros included.
-/

import Ghostline.Lib.Decimal
import Ghostline.Text

namespace Ghostline

open Lib.Decimal

inductive CursorErr where
  /-- `ErrInvalidCursor`. -/
  | invalid
  /-- `ErrInvalidCursor` and the text that was refused. -/
  | refused (value : List Byte)
  /-- "ghostline: unmarshal cursor into nil receiver" -/
  | nilReceiver
  deriving DecidableEq, Repr

/-- The sentinels that `errors.Is` finds. -/
def CursorErr.wraps : CursorErr → List Sentinel
  | .invalid | .refused _ => [.invalidCursor]
  | .nilReceiver => []

def colon : Byte := 0x3a

def parseCursor (value : List Byte) : Except CursorErr Cursor :=
  if value = [] then .ok 0
  else
    match value.splitOn colon with
    | [version, generation, offset] =>
      if version ≠ utf8 "v1" then .error (.refused value)
      else
        match parse 0xffffffffffffffff generation with
        | none => .error (.refused value)
        | some generation =>
          if generation = 0 then .error (.refused value)
          else
            match parse 0x7fffffffffffffff offset with
            | none => .error (.refused value)
            | some offset => .ok ⟨generation.toNat, offset.toNat⟩
    | _ => .error (.refused value)

namespace Cursor

def string (c : Cursor) : List Byte :=
  if c = 0 then [] else utf8 "v1:" ++ decimal c.generation ++ [colon] ++ decimal c.offset

def marshalText (c : Cursor) : Except CursorErr (List Byte) :=
  if c.generation = 0 ∧ c.offset ≠ 0 then .error .invalid else .ok c.string

/-- The receiver behind the call, and the error. -/
def unmarshalText (c : Option Cursor) (text : List Byte) : Option Cursor × Option CursorErr :=
  match c with
  | none => (none, some .nilReceiver)
  | some c =>
    match parseCursor text with
    | .error e => (some c, some e)
    | .ok parsed => (some parsed, none)

end Cursor

/-! ## The texts that are read -/

/-- `v1:G:O` -/
structure CursorText (value generation offset : List Byte) : Prop where
  form : value = utf8 "v1:" ++ generation ++ [colon] ++ offset
  generation : Digits generation
  offset : Digits offset

theorem not_colon_of_digits {s : List Byte} (h : Digits s) : colon ∉ s := by
  intro hc
  exact absurd (h.2 colon hc) (by decide)

theorem CursorText.split {value generation offset : List Byte} (h : CursorText value generation offset) :
    value.splitOn colon = [utf8 "v1", generation, offset] := by
  have hparts : value = [colon].intercalate [utf8 "v1", generation, offset] := by
    rw [h.form]
    simp [List.intercalate, show utf8 "v1:" = utf8 "v1" ++ [colon] by decide]
  rw [hparts]
  refine List.splitOn_intercalate colon ?_ (List.cons_ne_nil _ _)
  intro part hpart
  simp only [List.mem_cons, List.not_mem_nil, or_false] at hpart
  rcases hpart with rfl | rfl | rfl
  · decide
  · exact not_colon_of_digits h.generation
  · exact not_colon_of_digits h.offset

theorem cursorText_of_split {value generation offset : List Byte}
    (h : value.splitOn colon = [utf8 "v1", generation, offset]) (hg : Digits generation) (ho : Digits offset) :
    CursorText value generation offset := by
  refine ⟨?_, hg, ho⟩
  have hjoin : [colon].intercalate (value.splitOn colon) = value := List.intercalate_splitOn colon
  rw [← hjoin, h]
  simp [List.intercalate, show utf8 "v1:" = utf8 "v1" ++ [colon] by decide]

theorem CursorText.ne_nil {value generation offset : List Byte} (h : CursorText value generation offset) : value ≠ [] := by
  rw [h.form]
  simp

theorem parseCursor_text {s g o : List Byte} (h : CursorText s g o) (hg : 1 ≤ value g) (hg' : value g < 2 ^ 64)
    (ho : value o < 2 ^ 63) : parseCursor s = .ok ⟨value g, value o⟩ := by
  have hgen : (UInt64.ofNat (value g)).toNat = value g := UInt64.toNat_ofNat_of_lt hg'
  have hoff : (UInt64.ofNat (value o)).toNat = value o := UInt64.toNat_ofNat_of_lt (Nat.lt_trans ho (by decide))
  have hparseg : parse 0xffffffffffffffff g = some (UInt64.ofNat (value g)) := by
    refine parse_eq_some_iff.mpr ⟨h.generation, hgen.symm, ?_⟩
    rw [UInt64.le_iff_toNat_le, hgen]
    show value g ≤ 18446744073709551615
    omega
  have hparseo : parse 0x7fffffffffffffff o = some (UInt64.ofNat (value o)) := by
    refine parse_eq_some_iff.mpr ⟨h.offset, hoff.symm, ?_⟩
    rw [UInt64.le_iff_toNat_le, hoff]
    show value o ≤ 9223372036854775807
    omega
  have hne : UInt64.ofNat (value g) ≠ 0 := by
    intro h0
    rw [h0] at hgen
    have : (0 : UInt64).toNat = 0 := rfl
    omega
  unfold parseCursor
  rw [if_neg h.ne_nil, h.split]
  simp only [ne_eq, not_true_eq_false, if_false, hparseg, hne, hparseo, hgen, hoff]

theorem parseCursor_ok {s : List Byte} {c : Cursor} (h : parseCursor s = .ok c) :
    (s = [] ∧ c = 0) ∨ ∃ g o, CursorText s g o ∧ 1 ≤ value g ∧ value g < 2 ^ 64 ∧ value o < 2 ^ 63 ∧
      c = ⟨value g, value o⟩ := by
  unfold parseCursor at h
  split at h
  · exact .inl ⟨‹_›, (Except.ok.inj h).symm⟩
  · split at h
    · rename_i version g o hsplit
      split at h
      · cases h
      · rename_i hversion
        split at h
        · cases h
        · rename_i generation hg
          split at h
          · cases h
          · rename_i hne
            split at h
            · cases h
            · rename_i offset ho
              obtain ⟨hdg, hvg, -⟩ := parse_eq_some_iff.mp hg
              obtain ⟨hdo, hvo, hmax⟩ := parse_eq_some_iff.mp ho
              rw [not_not.mp hversion] at hsplit
              have hpos : generation.toNat ≠ 0 := fun h0 => hne (UInt64.toNat_inj.mp h0)
              have hlt := generation.toNat_lt
              have hle : offset.toNat ≤ 9223372036854775807 := UInt64.le_iff_toNat_le.mp hmax
              refine .inr ⟨g, o, cursorText_of_split hsplit hdg hdo, by omega, by omega, by omega, ?_⟩
              rw [hvg, hvo]
              exact (Except.ok.inj h).symm
    · cases h

theorem parseCursor_error {s : List Byte} {e : CursorErr} (h : parseCursor s = .error e) : e = .refused s := by
  unfold parseCursor at h
  repeat' split at h
  all_goals first
    | exact (Except.error.inj h).symm
    | cases h

/-! ## Texts and cursors -/

/-- What the fields of a cursor can be for its text to be read back. -/
def Cursor.HasText (c : Cursor) : Prop := c = 0 ∨ 1 ≤ c.generation ∧ c.generation < 2 ^ 64 ∧ c.offset < 2 ^ 63

theorem cursorText_string {c : Cursor} (h : c ≠ 0) : CursorText c.string (decimal c.generation) (decimal c.offset) := by
  refine ⟨?_, digits_decimal _, digits_decimal _⟩
  unfold Cursor.string
  rw [if_neg h]

theorem parseCursor_string {c : Cursor} (h : c.HasText) : parseCursor c.string = .ok c := by
  by_cases h0 : c = 0
  · subst h0
    rfl
  · obtain ⟨h1, h2, h3⟩ := h.resolve_left h0
    have := parseCursor_text (cursorText_string h0)
    simp only [value_decimal] at this
    exact this h1 h2 h3

/-- What is marshalled is unmarshalled; a cursor without a text is refused on the way out. -/
theorem unmarshalText_marshalText {c d : Cursor} (hg : c.generation < 2 ^ 64) (ho : c.offset < 2 ^ 63)
    {text : List Byte} (h : c.marshalText = .ok text) : Cursor.unmarshalText (some d) text = (some c, none) := by
  unfold Cursor.marshalText at h
  split at h
  · cases h
  · rename_i hc
    obtain rfl := Except.ok.inj h
    have htext : c.HasText := by
      by_cases h0 : c.generation = 0
      · refine .inl ?_
        have hoff : c.offset = 0 := by
          by_contra hne
          exact hc ⟨h0, hne⟩
        cases c
        subst h0 hoff
        rfl
      · exact .inr ⟨Nat.one_le_iff_ne_zero.mpr h0, hg, ho⟩
    unfold Cursor.unmarshalText
    rw [parseCursor_string htext]

/-- Texts and cursors are one to one where a cursor has a text, and exactly the texts of the
    form are read, into the numbers they stand for. -/
theorem cursor_text_codec :
    (∀ c : Cursor, c.HasText → parseCursor c.string = .ok c) ∧
      (∀ c d : Cursor, c.HasText → d.HasText → c.string = d.string → c = d) ∧
      (∀ (s : List Byte) (c : Cursor), parseCursor s = .ok c ↔ (s = [] ∧ c = 0) ∨
        ∃ g o, CursorText s g o ∧ 1 ≤ value g ∧ value g < 2 ^ 64 ∧ value o < 2 ^ 63 ∧ c = ⟨value g, value o⟩) ∧
      ∀ (s : List Byte) (e : CursorErr), parseCursor s = .error e → e = .refused s ∧ .invalidCursor ∈ e.wraps := by
  refine ⟨fun c => parseCursor_string, ?_, ?_, ?_⟩
  · intro c d hc hd heq
    have h := parseCursor_string hc
    rw [heq, parseCursor_string hd] at h
    exact (Except.ok.inj h).symm
  · intro s c
    refine ⟨parseCursor_ok, ?_⟩
    rintro (⟨rfl, rfl⟩ | ⟨g, o, h, h1, h2, h3, rfl⟩)
    · rfl
    · exact parseCursor_text h h1 h2 h3
  · intro s e h
    obtain rfl := parseCursor_error h
    exact ⟨rfl, List.mem_singleton.mpr rfl⟩

end Ghostline
