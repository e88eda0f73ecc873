/-
  Ghostline.Query.Responder — answers to terminal queries (query.go: `QueryResponder`).

  - `scanStep` is one turn of the loop in `feedLocked`. It goes on with a shorter buffer, or
    stops with what it keeps, or drops an overlong sequence.
  - The loop is bounded by the length of the buffer, which every turn makes shorter.
  - The colour callback is a function of the kind it is asked for, and its colours are byte
    strings. `int` is 64 bits wide.
-/

import Ghostline.Text

namespace Ghostline.Query

/-! ## Bytes -/

def byte (c : Char) : Byte := c.toNat.toUInt8

/-- The bytes of an ASCII text. -/
def bytes (s : String) : List Byte := s.toList.map byte

def esc : Byte := 0x1b

/-! ## Sequences -/

/-- Where a sequence ends: at an index, at none since the byte there cannot belong to it, or
    not in the buffer. -/
inductive Scan where
  | complete (index : Nat)
  | invalid (index : Nat)
  | incomplete
  deriving DecidableEq, Repr

def Scan.next : Scan → Scan
  | .complete i => .complete (i + 1)
  | .invalid i => .invalid (i + 1)
  | .incomplete => .incomplete

def csiFinal : List Byte → Scan
  | [] => .incomplete
  | b :: rest =>
    if b ≥ 0x40 ∧ b ≤ 0x7e then .complete 0
    else if b < 0x20 ∨ b = 0x7f then .invalid 0
    else (csiFinal rest).next

def oscEnd : List Byte → Scan
  | [] => .incomplete
  | b :: rest =>
    if b = 0x07 then .complete 0
    else if b = esc then if rest.head? = some (byte '\\') then .complete 0 else .invalid 0
    else if b < 0x20 then .invalid 0
    else (oscEnd rest).next

/-! ## Colours -/

inductive ColorQueryKind where
  | foreground
  | background
  deriving DecidableEq, Repr

def ColorQueryKind.code : ColorQueryKind → Nat
  | .foreground => 10
  | .background => 11

def oscColorQuery (sequence : List Byte) : Option ColorQueryKind :=
  if sequence = bytes "10;?" then some .foreground
  else if sequence = bytes "11;?" then some .background
  else none

/-- A digit for `strconv.ParseUint` in base 16. -/
def isHex (b : Byte) : Bool :=
  (byte '0' ≤ b && b ≤ byte '9') || (byte 'a' ≤ b ||| 0x20 && b ||| 0x20 ≤ byte 'f')

/-- No letter outside ASCII has one of `rgb` as its lower case, so that the first four bytes
    decide which form the colour is in. -/
def formatOSCColor (color : List Byte) : Option (List Byte) :=
  let value := trimSpaceBytes color
  if (value.take 4).map lower = bytes "rgb:" then
    let components := (value.drop 4).splitOn (byte '/')
    if components.length = 3 ∧ components.all (fun c => c ≠ [] && c.length ≤ 4 && c.all isHex) then
      some (bytes "rgb:" ++ (List.intercalate [byte '/'] components).map lower)
    else none
  else
    let value := if value.head? = some (byte '#') then value.tail else value
    let value := if value.length = 3 then value.flatMap fun b => runeBytes b ++ runeBytes b else value
    if value.length = 6 ∧ value.all isHex then
      let value := value.map lower
      let twice := fun k => (value.drop k).take 2 ++ (value.drop k).take 2
      some (bytes "rgb:" ++ twice 0 ++ [byte '/'] ++ twice 2 ++ [byte '/'] ++ twice 4)
    else none

/-! ## The responder -/

structure Responder where
  pending : List Byte
  rows : Int
  cols : Int
  colorQuery : Option (ColorQueryKind → Option (List Byte))

inductive PendingReply where
  | fixed (reply : List Byte)
  | color (kind : ColorQueryKind)
  deriving DecidableEq, Repr

/-- One turn of the loop. -/
inductive Step where
  | next (pending : List Byte) (reply : Option PendingReply)
  | stop (pending : List Byte)
  | discard
  deriving DecidableEq, Repr

namespace Responder

variable (r : Responder)

def new (colorQuery : Option (ColorQueryKind → Option (List Byte))) : Responder := ⟨[], 36, 120, colorQuery⟩

def resize (columns rows : Int) : Responder :=
  if columns ≤ 0 ∨ rows ≤ 0 then r else { r with cols := columns, rows := rows }

/-- `ESC [ a ; x ; y t`. -/
def report (a : String) (x y : Int) : List Byte :=
  esc :: bytes "[" ++ bytes a ++ bytes ";" ++ bytes (toString (x.bmod (2 ^ 64))) ++ bytes ";" ++
    bytes (toString (y.bmod (2 ^ 64))) ++ bytes "t"

/-- The reply to a CSI sequence, with its final byte; empty when there is none. -/
def csiReply (sequence : List Byte) : List Byte :=
  let params := sequence.dropLast
  match sequence.getLast? with
  | none => []
  | some final =>
    if final = byte 'c' then
      if params.head? = some (byte '>') then esc :: bytes "[>0;0;0c" else esc :: bytes "[?62;c"
    else if final = byte 'n' then
      if params = bytes "5" then esc :: bytes "[0n"
      else if params = bytes "6" then esc :: bytes "[1;1R"
      else []
    else if final = byte 'u' then
      if params = bytes "?" then esc :: bytes "[?u" else []
    else if final = byte 'p' then
      if params.length ≥ 2 ∧ params.head? = some (byte '?') ∧ params.getLast? = some (byte '$') then
        esc :: bytes "[?" ++ params.tail.dropLast ++ bytes ";1$y"
      else []
    else if final = byte 't' then
      if params = bytes "14" then report "4" r.rows r.cols
      else if params = bytes "16" then report "4" (r.rows * 24) (r.cols * 8)
      else if params = bytes "18" then report "8" r.rows r.cols
      else []
    else []

def fixedReply (sequence : List Byte) : Option PendingReply :=
  if r.csiReply sequence = [] then none else some (.fixed (r.csiReply sequence))

def scanStep (pending : List Byte) : Step :=
  match pending.dropWhile (· ≠ esc) with
  | [] => .stop []
  | [e] => .stop [e]
  | e :: c :: body =>
    if c = byte '[' then
      match csiFinal body with
      | .complete i => .next (body.drop (i + 1)) (r.fixedReply (body.take (i + 1)))
      | .invalid _ => .next (c :: body) none
      | .incomplete => if body.length + 2 > 256 then .discard else .stop (e :: c :: body)
    else if c = byte ']' then
      match oscEnd body with
      | .complete i => .next (body.drop i) ((oscColorQuery (body.take i)).map .color)
      | .invalid _ => .next (c :: body) none
      | .incomplete => if body.length + 2 > 4096 then .discard else .stop (e :: c :: body)
    else .next (c :: body) none

/-- The loop: its replies and what it keeps, `none` when it drops an overlong sequence. -/
def scan : Nat → List Byte → List PendingReply × Option (List Byte)
  | 0, _ => ([], some [])
  | fuel + 1, pending =>
    match r.scanStep pending with
    | .next rest reply => (reply.toList ++ (scan fuel rest).1, (scan fuel rest).2)
    | .stop rest => ([], some rest)
    | .discard => ([], none)

def feedLocked (data : List Byte) : Responder × List PendingReply :=
  let result := r.scan (r.pending ++ data).length (r.pending ++ data)
  ({ r with pending := result.2.getD [] }, result.1)

/-- The reply to write, if there is one. -/
def answer : PendingReply → Option (List Byte)
  | .fixed reply => some reply
  | .color kind => do
    let color ← (← r.colorQuery) kind
    let value ← formatOSCColor color
    some (esc :: bytes "]" ++ bytes (toString kind.code) ++ bytes ";" ++ value ++ esc :: bytes "\\")

def feed (data : List Byte) : Responder × List (List Byte) :=
  ((r.feedLocked data).1, (r.feedLocked data).2.filterMap r.answer)

/-- This call of `Feed` drops an overlong sequence. -/
def discards (data : List Byte) : Bool := (r.scan (r.pending ++ data).length (r.pending ++ data)).2.isNone

/-- The replies of successive calls of `Feed`. -/
def feeds (r : Responder) : List (List Byte) → List (List Byte)
  | [] => []
  | data :: rest => (r.feed data).2 ++ feeds (r.feed data).1 rest

/-- None of the calls drops an overlong sequence. -/
def keeps (r : Responder) : List (List Byte) → Bool
  | [] => true
  | data :: rest => !r.discards data && keeps (r.feed data).1 rest

end Responder

example : (Responder.new none).feeds [bytes "a\x1b[?2026$", bytes "p\x1b[18t"] =
    [bytes "\x1b[?2026;1$y", bytes "\x1b[8;36;120t"] := by decide

end Ghostline.Query
