/-
  Ghostline.Output.Disk — `outputLog` (output.go) on a directory of named files.

  `Ghostline.Output.Log` keys the files of a log by their generation. Here they have the
  names the source gives them, twenty digits and `.out`, the index has the path of each
  segment, and opening a log reads the names back. `Output.Adopt` connects the two.

  - The directory is the list of its entries. A file is created with `O_EXCL`, removed by
    its path, and written through the descriptor of the active segment, which is the file
    created last under that name.
  - The marks of the sizes and the channel of the waiting readers are not on disk and are
    left out here.
-/

import Mathlib.Logic.Function.Basic
import Ghostline.Lib.Machine
import Ghostline.Output.Log

namespace Ghostline.Output

/-! ## Names -/

abbrev FileName := List Char

/-- `%020d.out`. -/
def outputSegmentPath (generation : Nat) : FileName :=
  List.replicate (20 - (Nat.toDigits 10 generation).length) '0' ++ Nat.toDigits 10 generation ++ ".out".toList

/-- `strconv.ParseUint(s, 10, 64)`. -/
def parseUint (s : List Char) : Option Nat :=
  if s ≠ [] ∧ s.all Char.isDigit = true ∧ Nat.ofDigitChars 10 s 0 < 2 ^ 64 then some (Nat.ofDigitChars 10 s 0) else none

/-- The number of a segment file, by its name. -/
def segmentNumber (name : FileName) : Option Nat :=
  if ".out".toList.isSuffixOf name then parseUint (name.take (name.length - 4)) else none

/-! ## The directory -/

structure Entry where
  name : FileName
  isDir : Bool
  content : List Byte
  deriving DecidableEq, Repr

abbrev Directory := List Entry

namespace Directory

/-- The content of the file of that name. -/
def file (d : Directory) (name : FileName) : Option (List Byte) := (d.find? (·.name == name)).map Entry.content

def create (d : Directory) (name : FileName) : Directory := d ++ [⟨name, false, []⟩]

def remove (d : Directory) (name : FileName) : Directory := d.filter (·.name != name)

def write (d : Directory) (name : FileName) (data : List Byte) : Directory :=
  d.map fun e => if e.name = name then { e with content := e.content ++ data } else e

end Directory

structure Segment where
  path : FileName
  size : Nat
  deriving DecidableEq, Repr

/-- One turn of the loop over `os.ReadDir`. -/
def indexEntry (generation : Nat) (segments : Nat → Option Segment) (e : Entry) : Nat → Option Segment :=
  if e.isDir then segments
  else match segmentNumber e.name with
    | none => segments
    | some current =>
      if current = 0 ∨ generation < current then segments
      else Function.update segments current (some ⟨e.name, e.content.length⟩)

/-! ## The log -/

structure DiskLog where
  directory : Directory
  generation : Nat
  segments : Nat → Option Segment
  closed : Bool
  err : Option Err

namespace DiskLog

open OutputLog (Write maxInt64)

def openOutputLog (directory : Directory) (generation : Nat) (create : Bool) : Except Err DiskLog :=
  let path := outputSegmentPath generation
  if create && (directory.file path).isSome then .error (.other "open output segment: file exists")
  else if !create && (directory.file path).isNone then .error (.other "open output segment: no such file")
  else
    let directory := if create then directory.create path else directory
    let segments := directory.foldl (indexEntry generation) fun _ => none
    match segments generation with
    | none => .error (.other ("active output generation " ++ toString generation ++ " is missing"))
    | some _ =>
      let size := ((directory.file path).getD []).length
      .ok ⟨directory, generation, Function.update segments generation (some ⟨path, size⟩), false, none⟩

/-- `os.MkdirTemp` gives an empty directory. -/
def createOutputLog : Except Err DiskLog := openOutputLog [] 1 true

def adoptOutputLog (directory : Directory) (generation : Nat) : Except Err DiskLog :=
  if generation = 0 then .error (.sentinel .invalidCursor) else openOutputLog directory generation false

variable (l : DiskLog)

def closedErr : Err := l.err.getD (.sentinel .sessionClosed)

/-- An append whose write succeeds. -/
def append (data : List Byte) : DiskLog × Option Err :=
  if data = [] then (l, none)
  else if l.closed then (l, some l.closedErr)
  else
    let segment := (l.segments l.generation).getD ⟨[], 0⟩
    ({ l with
      directory := l.directory.write (outputSegmentPath l.generation) data
      segments := Function.update l.segments l.generation (some { segment with size := segment.size + data.length }) },
      none)

def close (err : Option Err) : DiskLog := if l.closed then l else { l with closed := true, err := err }

def rotate (fail : Option String) : DiskLog × Except Err Cursor :=
  if l.closed then (l, .error l.closedErr)
  else
    let next := (l.generation + 1) % 2 ^ 64
    let path := outputSegmentPath next
    if next = 0 then (l, .error (.other "ghostline: output generation exhausted"))
    else if (l.directory.file path).isSome then (l, .error (.other "create output segment: file exists"))
    else match fail with
      | some m => (l, .error (.other ("create output segment: " ++ m)))
      | none =>
        ({ l with
          directory := l.directory.create path
          generation := next
          segments := Function.update l.segments next (some ⟨path, 0⟩) }, .ok ⟨next, 0⟩)

def keys : List Nat := (List.range (l.generation + 1)).filter fun g => (l.segments g).isSome

def pruneLoop (before : Nat) (rm : Nat → Option String) : DiskLog → List Nat → DiskLog × Option Err
  | l, [] => (l, none)
  | l, g :: rest =>
    match l.segments g with
    | none => pruneLoop before rm l rest
    | some segment =>
      if before ≤ g ∨ g = l.generation then pruneLoop before rm l rest
      else match rm g with
        | some m => (l, some (.other ("prune output generation " ++ toString g ++ ": " ++ m)))
        | none => pruneLoop before rm
            { l with directory := l.directory.remove segment.path, segments := Function.update l.segments g none } rest

/-- `order` is the order the index is ranged over in. -/
def prune (before : Cursor) (order : List Nat) (rm : Nat → Option String) : DiskLog × Option Err :=
  if l.err.isSome then (l, l.err)
  else if l.closed then (l, some (.sentinel .sessionClosed))
  else if before.generation = 0 ∨ before.offset ≠ 0 ∨ l.generation < before.generation then
    (l, some (.sentinel .invalidCursor))
  else pruneLoop before.generation rm l order

/-! ## Cursors -/

def earliest : Nat := ((List.range l.generation).find? fun g => (l.segments g).isSome).getD l.generation

def resolveCursorLocked (c : Cursor) : Except Err Cursor :=
  if c = 0 then .ok ⟨l.earliest, 0⟩
  else if c.generation = 0 ∨ maxInt64 < c.offset then .error (.sentinel .invalidCursor)
  else match l.segments c.generation with
    | none =>
      if c.generation < l.generation then .error (.sentinel .cursorExpired) else .error (.sentinel .invalidCursor)
    | some segment => if segment.size < c.offset then .error (.sentinel .invalidCursor) else .ok c

/-- The bytes from a cursor to the end of its generation, as a reader that opens the path of
    its segment and reads up to its size gets them. -/
def bytesFrom (c : Cursor) : Option (List Byte) := do
  let segment ← l.segments c.generation
  let content ← l.directory.file segment.path
  some ((content.take segment.size).drop c.offset)

end DiskLog

/-! ## The machine -/

inductive DiskEv where
  | append (data : List Byte)
  | rotate (fail : Option String)
  | prune (before : Cursor) (order : List Nat) (rm : Nat → Option String)
  | close (err : Option String)

def DiskLog.step (l : DiskLog) : DiskEv → Option DiskLog
  | .append data => some (l.append data).1
  | .rotate fail => some (l.rotate fail).1
  | .prune before order rm => if order.Perm l.keys then some (l.prune before order rm).1 else none
  | .close err => some (l.close (err.map Err.other))

def diskMachine : Lib.Machine DiskLog DiskEv := ⟨fun l => DiskLog.createOutputLog = .ok l, DiskLog.step⟩

end Ghostline.Output
