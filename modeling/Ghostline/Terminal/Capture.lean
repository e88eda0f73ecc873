/-
  Ghostline.Terminal.Capture — the command line of a prompt that wraps (terminal.go:
  `captureInputLocked`).

  The loop trims every row before it joins it to the others, so that a shell's secondary
  prompt leaves no gap. At a soft wrap the row's end is not the line's: a space of the
  command next to the wrap is cut off with the padding (`a_space_at_the_wrap_is_lost`), and
  whether it is there depends on the width. A wrapped command is captured as it was typed
  exactly when no such space is next to a wrap (`wrapped_command_iff`).
-/

import Ghostline.Lib.Trim
import Ghostline.Terminal.Vt

namespace Ghostline.Terminal

open Lib Query

variable {ε : Type}

/-- A cell of the command line, of one column. -/
def inputCell (c : Char) : Cell := ⟨.input, .narrow, c.toNat⟩

/-- The row has this text in its input cells. -/
def Laid (E : Emulator ε) (e : ε) (row : Nat) (text : List Char) : Prop :=
  (E.cells e row).filter (·.semantic == .input) = text.map inputCell

/-- A command text on the rows of the input region, wrapped from each row to the next. -/
structure Layout (E : Emulator ε) (e : ε) where
  y : Nat
  cursor : E.cursorY e = some y
  rows : List Nat
  region : inputRegionRowsLocked E e y = some rows
  /-- What is on each of the rows. -/
  texts : List (List Char)
  laid : List.Forall₂ (Laid E e) rows texts
  wrapped : ∀ row ∈ rows.dropLast, E.rowWrap e row = true
  /-- All that is used of the text being printable. -/
  noNul : ∀ text ∈ texts, ∀ c ∈ text, c.toNat ≠ 0

def Layout.text {E : Emulator ε} {e : ε} (l : Layout E e) : List Char := l.texts.flatten

/-! ## One row -/

theorem rune_toNat (c : Char) : rune c.toNat = c := by
  have hvalid : c.toNat.isValidChar := c.valid
  rw [rune, if_pos hvalid, Char.ofNat_toNat]

theorem utf8Length_append (s t : List Char) : utf8Length (s ++ t) = utf8Length s + utf8Length t := by
  simp [utf8Length]

theorem length_le_utf8Length (s : List Char) : s.length ≤ utf8Length s := by
  induction s with
  | nil => simp
  | cons c s ih =>
    have hpos := c.utf8Size_pos
    have hcons : utf8Length (c :: s) = c.utf8Size + utf8Length s := utf8Length_append [c] s
    rw [hcons, List.length_cons]
    omega

theorem utf8Length_trimSpace_le (s : List Char) : utf8Length (trimSpace s) ≤ utf8Length s := by
  obtain ⟨front, hf⟩ := List.dropWhile_suffix isSpace (l := s)
  obtain ⟨back, hb⟩ := List.rdropWhile_prefix isSpace (s.dropWhile isSpace)
  have hs : utf8Length (s.dropWhile isSpace) ≤ utf8Length s := by
    conv_rhs => rw [← hf, utf8Length_append]
    omega
  have ht : utf8Length (trimSpace s) ≤ utf8Length (s.dropWhile isSpace) := by
    conv_rhs => rw [← hb, utf8Length_append]
    exact Nat.le_add_right _ _
  omega

variable {E : Emulator ε} {e : ε}

theorem inputRow_laid {row max : Nat} {text : List Char} (h : Laid E e row text) (hlen : text.length ≤ max) :
    inputRow E e row max = some (text.map Char.toNat) := by
  have hnarrow : (text.map inputCell).filter (fun c => c.wide != .spacerTail && c.wide != .spacerHead) =
      text.map inputCell := by
    rw [List.filter_eq_self]
    simp [inputCell]
  have hinput : (E.cells e row).filter
      (fun c => c.semantic == .input && c.wide != .spacerTail && c.wide != .spacerHead) = text.map inputCell := by
    rw [← hnarrow, ← h, List.filter_filter]
    congr 1
    funext c
    grind
  simp only [inputRow, hinput, List.length_map]
  rw [if_neg (by omega), List.map_map]
  rfl

/-! ## All of them -/

/-- A row that wraps, or is the first with text, is joined to the next without a separator. -/
theorem captureRows_wrapped {rows : List Nat} {texts : List (List Char)} (hlaid : List.Forall₂ (Laid E e) rows texts)
    (hwrap : ∀ row ∈ rows.dropLast, E.rowWrap e row = true) (hnul : ∀ text ∈ texts, ∀ c ∈ text, c.toNat ≠ 0)
    (builder : List Char) (previousWrapped previousEmpty : Bool)
    (hjoin : previousEmpty = true ∨ previousWrapped = true)
    (hlen : utf8Length builder + utf8Length texts.flatten ≤ maxSemanticCommandBytes) :
    captureRows E e rows builder previousWrapped previousEmpty = builder ++ (texts.map trimSpace).flatten := by
  induction hlaid generalizing builder previousWrapped previousEmpty with
  | nil => simp [captureRows]
  | @cons row text rows texts hrow hrest ih =>
    rw [List.flatten_cons, utf8Length_append] at hlen
    have hlength := length_le_utf8Length text
    have hcodes : ((text.map Char.toNat).filter (· ≠ 0)).map rune = text := by
      rw [List.filter_eq_self.mpr, List.map_map]
      · exact List.map_id'' rune_toNat text
      · simpa using hnul text List.mem_cons_self
    have hbuilder : (if trimSpace text ≠ [] then builder ++ [] ++ trimSpace text else builder) =
        builder ++ trimSpace text := by
      split
      · rw [List.append_nil]
      · rename_i h
        rw [not_not.mp h, List.append_nil]
    have htrim := utf8Length_trimSpace_le text
    have hseparator : (!previousEmpty && !previousWrapped) = false := by
      rcases hjoin with h | h <;> simp [h]
    unfold captureRows
    rw [inputRow_laid hrow (by omega)]
    simp only [List.length_map, if_neg (show ¬ maxSemanticCommandBytes < text.length by omega), hcodes, hseparator,
      Bool.false_eq_true, if_false, hbuilder, utf8Length_append,
      if_neg (show ¬ maxSemanticCommandBytes < utf8Length builder + utf8Length (trimSpace text) by omega)]
    cases hrest with
    | nil => simp [captureRows]
    | @cons row' text' rows' texts' hrow' hrest' =>
      have hw : E.rowWrap e row = true := hwrap row (by simp)
      rw [ih (fun r hr => hwrap r (by simpa using Or.inr hr)) (fun t ht => hnul t (List.mem_cons_of_mem _ ht))
        (builder ++ trimSpace text) _ _ (Or.inr hw) (by rw [utf8Length_append]; omega)]
      simp

theorem Layout.capture (l : Layout E e) (h : utf8Length l.text ≤ maxSemanticCommandBytes) :
    captureInputLocked E e = (l.texts.map trimSpace).flatten := by
  unfold captureInputLocked
  rw [l.cursor]
  simp only [l.region]
  have hlen : utf8Length [] + utf8Length l.texts.flatten ≤ maxSemanticCommandBytes := (Nat.zero_add _).symm ▸ h
  rw [captureRows_wrapped l.laid l.wrapped l.noNul [] false true (Or.inl rfl) hlen, List.nil_append]

/-- For every terminal, every width and every way of wrapping the text: it is captured
    without its leading and trailing white space, and otherwise as it is, exactly when it has
    no white space next to a wrap between two of its words. -/
theorem wrapped_command_iff (l : Layout E e) (h : utf8Length l.text ≤ maxSemanticCommandBytes) :
    captureInputLocked E e = trimSpace l.text ↔ Tight isSpace l.texts := by
  rw [l.capture h]
  exact trim_rows_iff

/-! ## Two commands -/

/-- A terminal that shows a prompt with these rows of input. -/
def showing (texts : List (List Char)) : Emulator Unit where
  new _ := some ()
  decode _ := some ()
  encode _ := none
  format _ := none
  write _ _ := ()
  pwd _ := none
  cursorAtPrompt _ := some true
  cursorY _ := some (texts.length - 1)
  rowSemantic _ row := if row = 0 then .prompt else .promptContinuation
  rowWrap _ row := row + 1 < texts.length
  cells _ row := (texts.getD row []).map inputCell

theorem noNul_of_all {texts : List (List Char)} (h : (texts.all fun text => text.all fun c => c.toNat != 0) = true) :
    ∀ text ∈ texts, ∀ c ∈ text, c.toNat ≠ 0 := by
  simpa [List.all_eq_true] using h

/-- `echo ab`, wrapped within its second word. -/
def wordWrapped : Layout (showing ["echo a".toList, "b ".toList]) () where
  y := 1
  cursor := rfl
  rows := [0, 1]
  region := by decide
  texts := ["echo a".toList, "b ".toList]
  laid := .cons (by unfold Laid; decide) (.cons (by unfold Laid; decide) .nil)
  wrapped := by decide
  noNul := noNul_of_all (by decide)

/-- `echo a b`, wrapped before its last space. -/
def spaceWrapped : Layout (showing ["echo a".toList, " b".toList]) () where
  y := 1
  cursor := rfl
  rows := [0, 1]
  region := by decide
  texts := ["echo a".toList, " b".toList]
  laid := .cons (by unfold Laid; decide) (.cons (by unfold Laid; decide) .nil)
  wrapped := by decide
  noNul := noNul_of_all (by decide)

theorem wrapped_command_iff_word : captureInputLocked (showing ["echo a".toList, "b ".toList]) () = "echo ab".toList :=
  (wrapped_command_iff wordWrapped (by decide)).mpr (trim_rows_iff.mp (by decide))

theorem a_space_at_the_wrap_is_lost :
    spaceWrapped.text = "echo a b".toList ∧ utf8Length spaceWrapped.text ≤ maxSemanticCommandBytes ∧
      captureInputLocked (showing ["echo a".toList, " b".toList]) () = "echo ab".toList := by
  decide

end Ghostline.Terminal
