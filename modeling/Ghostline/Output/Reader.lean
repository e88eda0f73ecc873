/-
  Ghostline.Output.Reader — `localOutputSource` (output.go): one reader over an
  `outputLog`, and the machine of a log with one reader on it.

  `read` takes the log's lock once in each turn of its loop and works on the file
  outside it. The model keeps those pieces apart: `section` is what one turn does under
  `r.log.mu` (`lockSection`), then the lock is free and other goroutines may append,
  rotate, prune, mark or close before the file is opened (`openFile`) and before it is
  read (`readAt`). Readers change nothing in the log, so one reader stands for any.

  The machine remembers, for stating what a reader must deliver, the bytes each
  generation was successfully given (`wrote`, each byte with the size that was the
  newest argument of `markSize` when it was appended), where the reader was opened
  (`start`) and everything it returned (`results`).
-/

import Ghostline.Lib.Machine
import Ghostline.Output.History

namespace Ghostline.Output

/-- `r.file` is open exactly when `file` is set; it is the file of `fileGen`. -/
structure LocalOutputSource where
  cursor : Cursor
  reported : Size
  file : Bool
  fileGen : Nat
  fileLimit : Nat
  complete : Bool
  deriving DecidableEq, Repr

namespace LocalOutputSource

/-- `newLocalOutputSource` and a successful `pin`. -/
def pinned (cursor : Cursor) (limit : Nat) (complete : Bool) : LocalOutputSource :=
  ⟨cursor, 0, true, cursor.generation, limit, complete⟩

def closeFile (r : LocalOutputSource) : LocalOutputSource := { r with file := false }

/-- The current file is the one the cursor points into. -/
def pins (r : LocalOutputSource) : Bool := r.file && r.fileGen == r.cursor.generation

/-- How a turn of the loop under the lock ends. -/
inductive Turn where
  | expired
  | report (size : Size)
  /-- Read up to `limit` bytes at the cursor, produced for `size`. -/
  | fetch (limit : Nat) (size : Size)
  /-- The generation is drained; go on with the next one. -/
  | advance
  | ended (err : Err)
  /-- Nothing to deliver yet; wait for `changed`. -/
  | wait (changed : Nat)
  deriving DecidableEq, Repr

/-- The first half of the turn: what the reader takes over from the index. -/
def refresh (r : LocalOutputSource) (l : OutputLog) : LocalOutputSource :=
  match l.segments r.cursor.generation with
  | some size => { r with fileLimit := size, complete := decide (r.cursor.generation < l.generation) }
  | none => if r.pins then { r with complete := decide (r.cursor.generation < l.generation) } else r

/-- The size in effect at the cursor; a plain read asks for none. -/
def spanAt (r : LocalOutputSource) (l : OutputLog) (sized : Bool) : Size × Nat × Bool :=
  if sized then l.sizeSpanLocked r.cursor else (0, 0, false)

/-- Where the chunk has to stop: at the limit, or at the next mark before it. -/
def stopAt (r : LocalOutputSource) (span : Size × Nat × Bool) : Nat :=
  if span.2.2 ∧ r.cursor.offset + span.2.1 < r.fileLimit then r.cursor.offset + span.2.1 else r.fileLimit

def lockSection (r : LocalOutputSource) (l : OutputLog) (sized : Bool) : LocalOutputSource × Turn :=
  let r := r.refresh l
  let span := r.spanAt l sized
  if l.segments r.cursor.generation = none ∧ ¬ (r.pins ∧ r.complete) then (r, .expired)
  else if span.1 ≠ 0 ∧ span.1 ≠ r.reported then ({ r with reported := span.1 }, .report span.1)
  else if r.cursor.offset < r.stopAt span then (r, .fetch (r.stopAt span - r.cursor.offset) span.1)
  else if r.complete ∧ r.fileLimit ≤ r.cursor.offset then
    ({ r.closeFile with cursor := ⟨r.cursor.generation + 1, 0⟩ }, .advance)
  else if l.closed then (r, .ended (l.err.getD .eof))
  else (r, .wait l.changed)

/-- `os.Open` finds a file only while the directory names it; `fail` is any other
    reason it may fail for. -/
def openErr (l : OutputLog) (generation : Nat) (fail : Option String) : Option Err :=
  let text := "open output generation " ++ toString generation ++ ": "
  match fail with
  | some m => some (.other (text ++ m))
  | none => if l.linked generation then none else some (.other (text ++ "no such file"))

def openFile (r : LocalOutputSource) (l : OutputLog) (fail : Option String) : LocalOutputSource × Option Err :=
  if r.pins then (r, none)
  else match openErr l r.cursor.generation fail with
    | some e => (r.closeFile, some e)
    | none => ({ r with file := true, fileGen := r.cursor.generation }, none)

/-- `os.File.ReadAt` on a buffer of `want` bytes: the bytes there are, with `io.EOF`
    when they are too few; or, for `fail = (n, m)`, an error after `n` of them. -/
def fileReadAt (content : List Byte) (offset want : Nat) (fail : Option (Nat × String)) : List Byte × Option Err :=
  let there := (content.drop offset).take want
  match fail with
  | some (n, m) => (there.take n, some (.other m))
  | none => (there, if there.length < want then some .eof else none)

/-- What `read` returns: the bytes put into the buffer, the size, and the error. -/
structure Result where
  bytes : List Byte
  size : Size
  err : Option Err
  deriving DecidableEq, Repr

/-- The end of `read` after the file is open. -/
def readAt (r : LocalOutputSource) (l : OutputLog) (len limit : Nat) (size : Size) (fail : Option (Nat × String)) :
    LocalOutputSource × Result :=
  let (bytes, err) := fileReadAt (l.files r.fileGen) r.cursor.offset (min len limit) fail
  let r := { r with cursor := ⟨r.cursor.generation, r.cursor.offset + bytes.length⟩ }
  if bytes ≠ [] ∧ (err = none ∨ err = some .eof) then (r, ⟨bytes, size, none⟩) else (r, ⟨bytes, size, err⟩)

end LocalOutputSource

open LocalOutputSource (Turn Result)

/-! ## A log and a reader -/

/-- Where a call stands. -/
inductive Pc where
  | idle
  /-- At the head of `read`'s loop, with a buffer of `len` bytes. -/
  | top (len : Nat) (sized : Bool)
  | opening (len limit : Nat) (size : Size)
  | reading (len limit : Nat) (size : Size)
  | waiting (len : Nat) (sized : Bool) (changed : Nat)
  deriving DecidableEq, Repr

/-- A returned call: what it returned, the cursor it started its last turn at and
    `Cursor()` after it. -/
structure Returned where
  result : Result
  «from» : Cursor
  cursor : Cursor
  deriving DecidableEq, Repr

/-- The reader: not opened, between the lock section of `outputLog.reader` and the
    file open of `pin`, or open. -/
inductive Handle where
  | none
  | resolved (cursor : Cursor) (limit : Nat) (complete : Bool)
  | opened (r : LocalOutputSource)
  deriving DecidableEq, Repr

structure Sys where
  log : OutputLog
  wrote : Wrote
  /-- The argument of the newest `markSize` of this log. -/
  force : Option Size
  reader : Handle
  start : Cursor
  pc : Pc
  results : List Returned
  /-- The reader was closed; its context was cancelled. -/
  done : Bool
  canceled : Bool

/-- Everything the reader delivered, in order. -/
def Sys.delivered (s : Sys) : List Byte := s.results.flatMap fun x => x.result.bytes

def Sys.bytes (s : Sys) (g : Nat) : List Byte := (s.wrote g).map Prod.fst

inductive Ev where
  | append (data : List Byte) (w : OutputLog.Write)
  | rotate (fail : Option String)
  | prune (before : Cursor) (order : List Nat) (rm : Nat → Option String)
  | markSize (size : Size)
  | close (err : Option String)
  /-- `outputLog.reader`: its lock section, then `pin`. -/
  | resolve («from» : Cursor)
  | pin (fail : Option String)
  /-- `Read` or `ReadSized` with a buffer of `len` bytes. -/
  | call (len : Nat) (sized : Bool)
  | «section»
  | openFile (fail : Option String)
  | readAt (fail : Option (Nat × String))
  | wake
  /-- A turn finds the reader closed (or else its context cancelled). -/
  | stop (closed : Bool)
  | closeReader
  | cancel

def Sys.ret (s : Sys) (r : LocalOutputSource) («from» : Cursor) (x : Result) : Sys :=
  { s with reader := .opened r, pc := .idle, results := s.results ++ [⟨x, «from», r.cursor⟩] }

def errorResult (e : Err) : Result := ⟨[], 0, some e⟩

/-- One turn of the loop, from the head to the point where the lock is free again. -/
def Sys.turn (s : Sys) (r : LocalOutputSource) (len : Nat) (sized : Bool) : Sys :=
  match r.lockSection s.log sized with
  | (r', .expired) => s.ret r' r.cursor (errorResult (.sentinel .cursorExpired))
  | (r', .report size) => s.ret r' r.cursor ⟨[], size, none⟩
  | (r', .fetch limit size) => { s with reader := .opened r', pc := .opening len limit size }
  | (r', .advance) => { s with reader := .opened r', pc := .top len sized }
  | (r', .ended e) => s.ret r' r.cursor (errorResult e)
  | (r', .wait c) => { s with reader := .opened r', pc := .waiting len sized c }

/-- The log's own operations. -/
def Sys.logStep (s : Sys) : Ev → Option Sys
  | .append data w =>
    let (l, err) := s.log.append data w
    some { s with
      log := l
      wrote := if err = none then extend s.wrote s.log.generation data (s.force.getD 0) else s.wrote }
  | .rotate fail => some { s with log := (s.log.rotate fail).1 }
  | .prune before order rm =>
    if order.Perm s.log.keys then some { s with log := (s.log.prune before order rm).1 } else none
  | .markSize size =>
    some { s with log := s.log.markSize size, force := if s.log.closed then s.force else some size }
  | .close err => some { s with log := s.log.close (err.map Err.other) }
  | _ => none

/-- The reader's calls. -/
def Sys.readerStep (s : Sys) : Ev → Option Sys
  | .resolve c =>
    match s.reader, s.log.err, s.log.resolveCursorLocked c with
    | .none, none, .ok c =>
      some { s with reader := .resolved c ((s.log.segments c.generation).getD 0) (decide (c.generation < s.log.generation)) }
    | _, _, _ => none
  | .pin fail =>
    match s.reader with
    | .resolved c limit complete =>
      match LocalOutputSource.openErr s.log c.generation fail with
      | some _ => some { s with reader := .none }
      | none => some { s with reader := .opened (.pinned c limit complete), start := c }
    | _ => none
  | .call len sized =>
    match s.reader, s.pc with
    | .opened r, .idle =>
      if len = 0 then some (s.ret r r.cursor ⟨[], 0, none⟩) else some { s with pc := .top len sized }
    | _, _ => none
  | .section =>
    match s.reader, s.pc with
    | .opened r, .top len sized => if s.done || s.canceled then none else some (s.turn r len sized)
    | _, _ => none
  | .openFile fail =>
    match s.reader, s.pc with
    | .opened r, .opening len limit size =>
      match r.openFile s.log fail with
      | (r', some e) => some (s.ret r' r.cursor (errorResult e))
      | (r', none) => some { s with reader := .opened r', pc := .reading len limit size }
    | _, _ => none
  | .readAt fail =>
    match s.reader, s.pc with
    | .opened r, .reading len limit size =>
      let (r', x) := r.readAt s.log len limit size fail
      some (s.ret r' r.cursor x)
    | _, _ => none
  | .wake =>
    match s.pc with
    | .waiting len sized c => if s.log.changed ≠ c then some { s with pc := .top len sized } else none
    | _ => none
  | .stop closed =>
    let out (r : LocalOutputSource) : Option Sys :=
      if closed && s.done then some (s.ret r r.cursor (errorResult .closedPipe))
      else if !closed && s.canceled then some (s.ret r r.cursor (errorResult .canceled))
      else none
    match s.reader, s.pc with
    | .opened r, .top _ _ => out r
    | .opened r, .waiting _ _ _ => out r
    | _, _ => none
  | .closeReader =>
    -- `Close` unblocks a pending call at once; it closes the file when none is running
    match s.reader, s.pc with
    | .opened r, .idle => some { s with reader := .opened r.closeFile, done := true }
    | .opened _, _ => some { s with done := true }
    | _, _ => none
  | .cancel => some { s with canceled := true }
  | _ => none

def Sys.step (s : Sys) (e : Ev) : Option Sys := (s.logStep e).orElse fun _ => s.readerStep e

/-- A log with no reader yet. What its files hold is what it was given. -/
def Sys.fresh (l : OutputLog) : Sys where
  log := l
  wrote := adopted l
  force := none
  reader := .none
  start := 0
  pc := .idle
  results := []
  done := false
  canceled := false

/-- A log just created, or just opened on a directory another process left. -/
def Sys.Init (s : Sys) : Prop :=
  ∃ files linked generation create l, generation < 2 ^ 64 ∧
    OutputLog.openOutputLog files linked generation create = .ok l ∧ s = Sys.fresh l

def machine : Lib.Machine Sys Ev := ⟨Sys.Init, Sys.step⟩

theorem created_init : machine.init (Sys.fresh created) := ⟨_, _, 1, true, created, by decide, created_eq, rfl⟩

end Ghostline.Output
