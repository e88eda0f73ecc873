/-
  Ghostline.Terminal.Vt — the emulated terminal of a session (terminal.go: `vtTerminal`).

  The emulator itself is libghostty, a parameter (`Emulator`): it takes bytes, and what is
  read of it is its pwd, whether the cursor is at a prompt, and the cells of its rows.
  Beside it ghostline keeps what it makes of the program's reports: the directory, and the
  shell's prompt state.

  - `Feed` writes a chunk up to the end of each marker and acts on the marker there.
  - The directory is read off the emulator after every chunk.
  - A call has its own `Moment`: the host's name, and the time at each marker it comes to.
  - `RestoreState` is one step, the envelope and the decoder together.
-/

import Mathlib.Algebra.GroupWithZero.Nat
import Ghostline.Terminal.Osc133
import Ghostline.Terminal.Pwd

namespace Ghostline.Terminal

open Query

/-! ## The emulator -/

inductive RowSemantic where
  | none
  | prompt
  | promptContinuation
  deriving DecidableEq, Repr

inductive CellSemantic where
  | output
  | input
  | prompt
  deriving DecidableEq, Repr

inductive CellWide where
  | narrow
  | wide
  | spacerTail
  | spacerHead
  deriving DecidableEq, Repr

structure Cell where
  semantic : CellSemantic
  wide : CellWide
  codepoint : Nat
  deriving DecidableEq, Repr

/-- `none` where a call of the library fails. -/
structure Emulator (ε : Type) where
  new : Size → Option ε
  decode : List Byte → Option ε
  encode : ε → Option (List Byte)
  format : ε → Option (List Byte)
  write : ε → List Byte → ε
  pwd : ε → Option (List Byte)
  cursorAtPrompt : ε → Option Bool
  cursorY : ε → Option Nat
  rowSemantic : ε → Nat → RowSemantic
  rowWrap : ε → Nat → Bool
  /-- The cells of a row that can be read. -/
  cells : ε → Nat → List Cell

structure Moment where
  /-- What `os.Hostname` returns; a failure is the empty name. -/
  hostname : List Byte
  /-- The time when so much of the chunk is written. -/
  clock : Nat → Int

structure ShellMetadata where
  atPrompt : Bool
  runningCommand : List Char
  lastCommand : List Char
  lastExitCode : Option Int
  lastExitAt : Option Int
  deriving DecidableEq, Repr

structure VtTerminal (ε : Type) where
  /-- `none` once it is closed. -/
  terminal : Option ε
  reportedPwd : List Byte
  semanticSeen : Bool
  atPrompt : Bool
  runningCommand : List Char
  lastCommand : List Char
  lastExitCode : Int
  lastExitKnown : Bool
  /-- `none` is the zero time. -/
  lastExitAt : Option Int
  deriving DecidableEq, Repr

def maxTerminalDimension : Int := 2 ^ 16 - 1
def maxReportedPwdBytes : Nat := 2 ^ 16
def maxSemanticCommandBytes : Nat := 8 * 2 ^ 10
def semanticLookbackRows : Nat := 4
def semanticRegionMaxRows : Nat := 128

variable {ε : Type} (E : Emulator ε)

/-! ## The command line -/

/-- The last row with a semantic at or above `bottom`, looking at `tries` rows. -/
def lookBack (e : ε) : Nat → Nat → Option Nat
  | 0, _ => none
  | tries + 1, bottom =>
    if E.rowSemantic e bottom ≠ .none then some bottom
    else
      match bottom with
      | 0 => none
      | bottom + 1 => lookBack e tries bottom

/-- The primary prompt row at or above `row`, looking at `tries` rows. -/
def primaryRow (e : ε) : Nat → Nat → Option Nat
  | 0, _ => none
  | tries + 1, row =>
    match E.rowSemantic e row, row with
    | .none, _ => none
    | .prompt, row => some row
    | .promptContinuation, 0 => none
    | .promptContinuation, row + 1 => primaryRow e tries row

def inputRegionRowsLocked (e : ε) (cursorY : Nat) : Option (List Nat) :=
  match lookBack E e (semanticLookbackRows + 1) cursorY with
  | none => none
  | some bottom =>
    match primaryRow E e (semanticRegionMaxRows + 1) bottom with
    | none => none
    | some start => some (List.range' start (bottom - start + 1))

/-- `ghostline_terminal_input_row`: the code points of the input cells, or `none` when there
    are more than `max`. -/
def inputRow (e : ε) (row max : Nat) : Option (List Nat) :=
  let input := (E.cells e row).filter fun c =>
    c.semantic == .input && c.wide != .spacerTail && c.wide != .spacerHead
  if max < input.length then none else some (input.map Cell.codepoint)

/-- `WriteRune`; what is not a code point is written as U+FFFD. -/
def rune (codepoint : Nat) : Char := if codepoint.isValidChar then Char.ofNat codepoint else '�'

/-- The length in bytes. -/
def utf8Length (s : List Char) : Nat := (s.map Char.utf8Size).sum

/-- The loop over the rows. -/
def captureRows (e : ε) : List Nat → List Char → Bool → Bool → List Char
  | [], builder, _, _ => builder
  | row :: rows, builder, previousWrapped, previousEmpty =>
    match inputRow E e row (maxSemanticCommandBytes + 1) with
    | none => []
    | some codepoints =>
      if maxSemanticCommandBytes < codepoints.length then []
      else
        let trimmed := trimSpace ((codepoints.filter (· ≠ 0)).map rune)
        let separator := if !previousEmpty && !previousWrapped then [' '] else []
        let builder' := if trimmed ≠ [] then builder ++ separator ++ trimmed else builder
        if maxSemanticCommandBytes < utf8Length builder' then []
        else captureRows e rows builder' (E.rowWrap e row) (if trimmed ≠ [] then false else previousEmpty)

def captureInputLocked (e : ε) : List Char :=
  match E.cursorY e with
  | none => []
  | some y =>
    match inputRegionRowsLocked E e y with
    | none => []
    | some rows => captureRows E e rows [] false true

/-! ## The terminal -/

def newVTTerminal (size : Size) : Option (VtTerminal ε) :=
  if size.columns ≤ 0 ∨ size.rows ≤ 0 ∨ maxTerminalDimension < size.columns ∨ maxTerminalDimension < size.rows then none
  else (E.new size).map fun e => ⟨some e, [], false, false, [], [], 0, false, none⟩

namespace VtTerminal

variable (folding : Folding) (v : VtTerminal ε)

def writeLocked (data : List Byte) : VtTerminal ε :=
  if data = [] then v else { v with terminal := v.terminal.map (E.write · data) }

/-- The terminal's pwd as a path. -/
def currentPwd (hostname : List Byte) : List Byte :=
  match v.terminal.bind E.pwd with
  | none => []
  | some raw =>
    if raw = [] then []
    else if maxReportedPwdBytes < raw.length then []
    else parseReportedPwd folding hostname raw

def refreshReportedPwdLocked (hostname : List Byte) : VtTerminal ε :=
  { v with reportedPwd := v.currentPwd E folding hostname }

def refreshAtPromptLocked : VtTerminal ε :=
  match v.terminal.bind E.cursorAtPrompt with
  | none => v
  | some atPrompt => { v with semanticSeen := v.semanticSeen || atPrompt, atPrompt := atPrompt }

def applyOSC133Locked (now : Int) (span : Osc133Span) : VtTerminal ε :=
  if span.kind = byte 'A' ∨ span.kind = byte 'B' then { v with semanticSeen := true }
  else if span.kind = byte 'C' then
    { v with semanticSeen := true, runningCommand := v.terminal.elim [] (captureInputLocked E) }
  else if span.kind = byte 'D' then
    { v with
      semanticSeen := true
      lastCommand := v.runningCommand
      runningCommand := []
      lastExitCode := span.exit.elim v.lastExitCode Int.ofNat
      lastExitKnown := span.exit.isSome || v.lastExitKnown
      lastExitAt := some now }
  else v

/-- The chunk up to the end of each marker, and the marker; then what is left of the chunk. -/
def feedSpans (clock : Nat → Int) (data : List Byte) : Nat → List Osc133Span → VtTerminal ε → VtTerminal ε
  | fed, [], v => v.writeLocked E (data.drop fed)
  | fed, span :: spans, v =>
    let v := v.writeLocked E ((data.take span.end).drop fed)
    let v := v.applyOSC133Locked E (clock span.end) span
    feedSpans clock data span.end spans (v.refreshAtPromptLocked E)

def feed (m : Moment) (data : List Byte) : VtTerminal ε :=
  if v.terminal.isNone ∨ data = [] then v
  else
    let v := feedSpans E m.clock data 0 (findOSC133 data) v
    (v.refreshReportedPwdLocked E folding m.hostname).refreshAtPromptLocked E

/-- One chunk after the other. -/
def feeds : VtTerminal ε → List (Moment × List Byte) → VtTerminal ε
  | v, [] => v
  | v, (m, data) :: rest => feeds (v.feed E folding m data) rest

def setReportedPwd (pwd : List Byte) : VtTerminal ε := { v with reportedPwd := pwd }

def shellMetadata : Option ShellMetadata :=
  if v.semanticSeen then
    some ⟨v.atPrompt, v.runningCommand, v.lastCommand, if v.lastExitKnown then some v.lastExitCode else none,
      v.lastExitAt⟩
  else none

def setShellMetadata : Option ShellMetadata → VtTerminal ε
  | none => v
  | some m =>
    { v with
      semanticSeen := true
      atPrompt := m.atPrompt
      runningCommand := m.runningCommand
      lastCommand := m.lastCommand
      lastExitCode := m.lastExitCode.getD v.lastExitCode
      lastExitKnown := m.lastExitCode.isSome || v.lastExitKnown
      lastExitAt := m.lastExitAt.or v.lastExitAt }

def restoreState (hostname snapshot : List Byte) : Option (VtTerminal ε) :=
  if v.terminal.isNone then none
  else
    (E.decode snapshot).map fun e =>
      refreshReportedPwdLocked E folding { v with terminal := some e } hostname

end VtTerminal

/-! ## What a call writes -/

variable {E} {folding : Folding} {v : VtTerminal ε}

namespace VtTerminal

@[simp] theorem refreshAtPrompt_terminal : (v.refreshAtPromptLocked E).terminal = v.terminal := by
  unfold refreshAtPromptLocked
  split <;> rfl

@[simp] theorem refreshAtPrompt_reportedPwd : (v.refreshAtPromptLocked E).reportedPwd = v.reportedPwd := by
  unfold refreshAtPromptLocked
  split <;> rfl

@[simp] theorem applyOSC133_terminal (now : Int) (span : Osc133Span) :
    (v.applyOSC133Locked E now span).terminal = v.terminal := by
  unfold applyOSC133Locked
  repeat' split
  all_goals rfl

@[simp] theorem setShellMetadata_terminal (m : Option ShellMetadata) : (v.setShellMetadata m).terminal = v.terminal := by
  cases m <;> rfl

@[simp] theorem setShellMetadata_reportedPwd (m : Option ShellMetadata) :
    (v.setShellMetadata m).reportedPwd = v.reportedPwd := by
  cases m <;> rfl

end VtTerminal

end Ghostline.Terminal
