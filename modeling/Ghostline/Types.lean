/-
  Ghostline.Types — the data the other modules share: errors (errors.go), grid sizes
  (size.go) and output cursors (output.go).
-/

import Mathlib.Algebra.Group.Int.Defs
import Mathlib.Algebra.Group.Nat.Defs

namespace Ghostline

abbrev Byte := UInt8

/-- The package's sentinel errors. `processDone` is `os.ErrProcessDone`. -/
inductive Sentinel where
  | unavailable
  | closed
  | sessionExists
  | sessionNotFound
  | sessionClosed
  | invalidSessionName
  | invalidSignal
  | processDone
  | invalidCursor
  | cursorExpired
  | frameTooLarge
  | protocolMismatch
  deriving DecidableEq, Repr

inductive Err where
  | sentinel (s : Sentinel)
  /-- `io.EOF`, `io.ErrClosedPipe`, `io.ErrNoProgress` and the context's error. -/
  | eof
  | closedPipe
  | noProgress
  | canceled
  /-- Any other error, by its text. -/
  | other (message : String)
  deriving DecidableEq, Repr

def Sentinel.text : Sentinel → String
  | .unavailable => "ghostline: libghostty-vt unavailable"
  | .closed => "ghostline: hub closed"
  | .sessionExists => "ghostline: session already exists"
  | .sessionNotFound => "ghostline: session not found"
  | .sessionClosed => "ghostline: session closed"
  | .invalidSessionName => "ghostline: invalid session name"
  | .invalidSignal => "ghostline: invalid process signal"
  | .processDone => "os: process already finished"
  | .invalidCursor => "ghostline: invalid output cursor"
  | .cursorExpired => "ghostline: output cursor expired"
  | .frameTooLarge => "ghostline: RPC frame too large"
  | .protocolMismatch => "ghostline: RPC protocol mismatch"

def Err.text : Err → String
  | .sentinel s => s.text
  | .eof => "EOF"
  | .closedPipe => "io: read/write on closed pipe"
  | .noProgress => "multiple Read calls return no data or error"
  | .canceled => "context canceled"
  | .other message => message

structure Size where
  columns : Int
  rows : Int
  deriving DecidableEq, Repr

instance : Zero Size := ⟨⟨0, 0⟩⟩

def maxTerminalDimension : Int := 2 ^ 16 - 1

def Size.validate (s : Size) : Except Err Unit :=
  if s.columns ≤ 0 ∨ s.rows ≤ 0 ∨ s.columns > maxTerminalDimension ∨ s.rows > maxTerminalDimension then
    .error (.other ("invalid terminal size " ++ toString s.columns ++ "x" ++ toString s.rows))
  else .ok ()

def Size.resolve (s fallback : Size) : Except Err Size :=
  let s := if s.columns = 0 ∧ s.rows = 0 then fallback else s
  match s.validate with
  | .error e => .error e
  | .ok () => .ok s

/-- A position in an output log. Both fields are `uint64` in the source. -/
structure Cursor where
  generation : Nat
  offset : Nat
  deriving DecidableEq, Repr

instance : Zero Cursor := ⟨⟨0, 0⟩⟩

end Ghostline
