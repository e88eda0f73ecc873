/-
  Ghostline.Output.Log — `outputLog` (output.go): one active segment and zero or more
  completed ones, an index from generation to size, the size marks, and the directory
  that holds the segment files.

  Every operation below runs under `l.mu`, so each is one function from the log before
  to the log after. What the operating system decides is an argument: how far a write
  got, whether a file could be created or removed, in which order a map is ranged over.

  - `l.active` is the file of `generation`, and is nil exactly when `closed` is set.
  - A segment's path is a function of its generation (`outputSegmentPath`), so the
    index keeps the size only and the directory is keyed by generation. `O_EXCL` makes
    each generation's file once; `files g` is that file's content for as long as anyone
    has it open, and `linked g` says whether the directory still names it.
  - `changed` counts how often the channel of that name was closed and replaced.
  - Sizes and offsets are `uint64` in the source and bounded by the file size limit of
    the operating system (below 2^63), so they do not wrap; the generation's wrap is
    checked by `rotate`.
-/

import Mathlib.Logic.Function.Basic
import Mathlib.Data.List.Perm.Basic
import Ghostline.Types

namespace Ghostline.Output

structure SizeMark where
  cursor : Cursor
  size : Size
  deriving DecidableEq, Repr

structure OutputLog where
  generation : Nat
  segments : Nat → Option Nat
  closed : Bool
  err : Option Err
  sizes : List SizeMark
  changed : Nat
  files : Nat → List Byte
  linked : Nat → Bool

namespace OutputLog

def signalLocked (l : OutputLog) : OutputLog := { l with changed := l.changed + 1 }

/-! ## Opening -/

/-- The index the directory gives: every segment file numbered `1..generation`. -/
def scan (files : Nat → List Byte) (linked : Nat → Bool) (generation : Nat) : Nat → Option Nat :=
  fun g => if 0 < g ∧ g ≤ generation ∧ linked g then some (files g).length else none

def openOutputLog (files : Nat → List Byte) (linked : Nat → Bool) (generation : Nat) (create : Bool) :
    Except Err OutputLog :=
  if create && linked generation then .error (.other "open output segment: file exists")
  else if !create && !linked generation then .error (.other "open output segment: no such file")
  else
    let files := if create then Function.update files generation [] else files
    let linked := if create then Function.update linked generation true else linked
    let segments := scan files linked generation
    match segments generation with
    | none => .error (.other ("active output generation " ++ toString generation ++ " is missing"))
    | some _ => .ok ⟨generation, segments, false, none, [], 0, files, linked⟩

/-- `os.MkdirTemp` gives an empty directory. -/
def createOutputLog : Except Err OutputLog := openOutputLog (fun _ => []) (fun _ => false) 1 true

def adoptOutputLog (files : Nat → List Byte) (linked : Nat → Bool) (generation : Nat) : Except Err OutputLog :=
  if generation = 0 then .error (.sentinel .invalidCursor)
  else openOutputLog files linked generation false

/-! ## Appending and closing -/

def failLocked (l : OutputLog) (e : Err) : OutputLog :=
  signalLocked { l with err := some (l.err.getD e), closed := true }

/-- What `writeFull` did: everything, or an error after the first `n` bytes. -/
inductive Write where
  | full
  | short (n : Nat) (message : String)
  deriving DecidableEq, Repr

/-- What a closed log answers to writers. -/
def closedErr (l : OutputLog) : Err := l.err.getD (.sentinel .sessionClosed)

def append (l : OutputLog) (data : List Byte) (w : Write) : OutputLog × Option Err :=
  if data = [] then (l, none)
  else if l.closed then (l, some l.closedErr)
  else match w with
    | .short n m =>
      let e := Err.other ("append output: " ++ m)
      (failLocked { l with files := Function.update l.files l.generation (l.files l.generation ++ data.take n) } e,
        some (l.err.getD e))
    | .full =>
      let size := (l.segments l.generation).getD 0 + data.length
      (signalLocked { l with
        files := Function.update l.files l.generation (l.files l.generation ++ data)
        segments := Function.update l.segments l.generation (some size) }, none)

def close (l : OutputLog) (err : Option Err) : OutputLog :=
  if l.closed then l else signalLocked { l with closed := true, err := err }

def cursor (l : OutputLog) : Except Err Cursor :=
  match l.err with
  | some e => .error e
  | none => .ok ⟨l.generation, (l.segments l.generation).getD 0⟩

/-! ## Cursors -/

def maxInt64 : Nat := 2 ^ 63 - 1

/-- The least generation the index still has. -/
def earliest (l : OutputLog) : Nat :=
  ((List.range l.generation).find? fun g => (l.segments g).isSome).getD l.generation

def resolveCursorLocked (l : OutputLog) (c : Cursor) : Except Err Cursor :=
  if c = 0 then .ok ⟨l.earliest, 0⟩
  else if c.generation = 0 ∨ maxInt64 < c.offset then .error (.sentinel .invalidCursor)
  else match l.segments c.generation with
    | none =>
      if c.generation < l.generation then .error (.sentinel .cursorExpired) else .error (.sentinel .invalidCursor)
    | some size => if size < c.offset then .error (.sentinel .invalidCursor) else .ok c

/-! ## Rotation and pruning -/

/-- Every generation starts with its size, so that a reader that begins there does not
    depend on a mark of a generation prune may remove. -/
def carrySize (sizes : List SizeMark) (next : Nat) : List SizeMark :=
  match sizes.getLast? with
  | some last => sizes ++ [⟨⟨next, 0⟩, last.size⟩]
  | none => sizes

/-- `fail`: the operating system refuses to create the file. -/
def rotate (l : OutputLog) (fail : Option String) : OutputLog × Except Err Cursor :=
  if l.closed then (l, .error l.closedErr)
  else
    let next := (l.generation + 1) % 2 ^ 64
    if next = 0 then (l, .error (.other "ghostline: output generation exhausted"))
    else if l.linked next then (l, .error (.other "create output segment: file exists"))
    else match fail with
      | some m => (l, .error (.other ("create output segment: " ++ m)))
      | none =>
        (signalLocked { l with
          generation := next
          segments := Function.update l.segments next (some 0)
          sizes := carrySize l.sizes next
          files := Function.update l.files next []
          linked := Function.update l.linked next true }, .ok ⟨next, 0⟩)

/-- The index's generations. -/
def keys (l : OutputLog) : List Nat := (List.range (l.generation + 1)).filter fun g => (l.segments g).isSome

/-- The body of `prune`'s range over the index. `rm g` is the error of removing the
    file of `g`, if it is one other than the file not existing. -/
def pruneLoop (before : Nat) (rm : Nat → Option String) : OutputLog → List Nat → OutputLog × Option Err
  | l, [] => (l, none)
  | l, g :: rest =>
    if before ≤ g ∨ g = l.generation then pruneLoop before rm l rest
    else match rm g with
      | some m => (l, some (.other ("prune output generation " ++ toString g ++ ": " ++ m)))
      | none => pruneLoop before rm
          { l with linked := Function.update l.linked g false, segments := Function.update l.segments g none } rest

/-- `order` is the order the index is ranged over in. -/
def prune (l : OutputLog) (before : Cursor) (order : List Nat) (rm : Nat → Option String) : OutputLog × Option Err :=
  if l.err.isSome then (l, l.err)
  else if l.closed then (l, some (.sentinel .sessionClosed))
  else if before.generation = 0 ∨ before.offset ≠ 0 ∨ l.generation < before.generation then
    (l, some (.sentinel .invalidCursor))
  else match pruneLoop before.generation rm l order with
    | (l', some e) => (l', some e)
    | (l', none) =>
      (signalLocked { l' with sizes := l'.sizes.filter fun m => (l'.segments m.cursor.generation).isSome }, none)

/-! ## Size marks -/

/-- Drop a trailing mark that repeats the size of the one before it in its generation. -/
def collapseSizesLocked (sizes : List SizeMark) : List SizeMark :=
  match sizes.reverse with
  | a :: b :: rest =>
    if a.size = b.size ∧ a.cursor.generation = b.cursor.generation then (b :: rest).reverse else sizes
  | _ => sizes

def markSize (l : OutputLog) (size : Size) : OutputLog :=
  if l.closed then l
  else
    let cursor : Cursor := ⟨l.generation, (l.segments l.generation).getD 0⟩
    match l.sizes.getLast? with
    | none => signalLocked { l with sizes := l.sizes ++ [⟨cursor, size⟩] }
    | some last =>
      if last.size = size then l
      else if last.cursor = cursor then
        -- no byte was produced for the previous size; it never applied
        signalLocked { l with sizes := collapseSizesLocked (l.sizes.dropLast ++ [⟨last.cursor, size⟩]) }
      else signalLocked { l with sizes := l.sizes ++ [⟨cursor, size⟩] }

/-- The loop of `sizeSpanLocked`: the size in effect at `c`, how far it reaches, and
    whether a later mark of the generation bounds it. -/
def sizeSpan (c : Cursor) : List SizeMark → Size → Size × Nat × Bool
  | [], size => (size, 0, false)
  | m :: rest, size =>
    if m.cursor.generation ≠ c.generation then
      if c.generation < m.cursor.generation then (size, 0, false) else sizeSpan c rest size
    else if m.cursor.offset ≤ c.offset then sizeSpan c rest m.size
    else (size, m.cursor.offset - c.offset, true)

def sizeSpanLocked (l : OutputLog) (c : Cursor) : Size × Nat × Bool := sizeSpan c l.sizes 0

end OutputLog

end Ghostline.Output
