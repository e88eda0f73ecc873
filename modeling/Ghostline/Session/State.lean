/-
  Ghostline.Session.State — one session and the calls on it (session.go, process.go):
  its copy loop, its migrations, its output log, its emulator, and any number of calls
  of `Resize`, `Replay`, `Checkpoint`, `AtomicState`, `RotateOutput`, `PruneOutput`,
  `Terminate` and `Delete` through handles of it.

  A call is a thread; `Pc` is where it stands, and says which locks it holds: the hub's
  `lifecycleMu` (shared by every call, held exclusively by a migration batch),
  `operationMu` (shared by most calls, held exclusively by a migration and by
  `terminate`) and `outputMu`. A step does one `Act` on the `Store` at most.

  - The emulator is what it was fed and the size of its grid (`Vt`): all it renders is a
    function of these. What output does to the size, and whether a resize succeeds, is up to
    the library (`Library`).
  - `inMap` is what `current()` answers. It is cleared by `Delete` and by a commit.
  - `wrote` records what the log was successfully given, with the last marked size.
  - `results` records what calls returned, with what `Pc` carries for the record: the
    emulator captured, and the sizes before a `Resize`.
  - `inputMu` is left out: the calls that take it also take `outputMu`.
-/

import Mathlib.Tactic.Common
import Ghostline.Lib.Gate
import Ghostline.Output.History
import Ghostline.Session.Release

namespace Ghostline.Session

open Lib Lib.Gate Output

/-! ## The store -/

structure Vt where
  fed : List Byte
  grid : Size
  closed : Bool
  deriving DecidableEq, Repr

/-- What libghostty does to the size of its grid. -/
structure Library where
  /-- The size after output. A program can ask for 80 or 132 columns (DECCOLM). -/
  fed : Vt → List Byte → Size
  /-- Whether a resize succeeds. `vtTerminal.Resize` does not look at the result. -/
  resizes : Vt → Size → Bool

/-- Output leaves the size, and every resize succeeds. -/
def Library.steady : Library := ⟨fun v _ => v.grid, fun _ _ => true⟩

/-- `Feed` and `Resize` (terminal.go) do nothing once the terminal is freed. -/
def Vt.feed (lib : Library) (v : Vt) (chunk : List Byte) : Vt :=
  if v.closed then v else { v with fed := v.fed ++ chunk, grid := lib.fed v chunk }

def Vt.resize (lib : Library) (v : Vt) (size : Size) : Vt :=
  match v.closed, size.validate with
  | false, .ok () => if lib.resizes v size then { v with grid := size } else v
  | _, _ => v

def lastMark (l : OutputLog) : Option Size := l.sizes.getLast?.map SizeMark.size

structure Store where
  log : OutputLog
  wrote : Wrote
  vt : Vt
  size : Size
  lib : Library

inductive Act where
  | idle
  | append (chunk : List Byte) (w : OutputLog.Write)
  | feed (chunk : List Byte)
  | closeLog
  | rotate (fail : Option String)
  | prune (before : Cursor) (order : List Nat) (rm : Nat → Option String)
  | resizeVt (size : Size)
  | setSize (size : Size)
  | markSize (size : Size)
  /-- `sessionState.close`, and `outputLog.discard` after it. -/
  | close
  | discard

def Store.act (s : Store) : Act → Store
  | .idle => s
  | .append chunk w =>
    let r := s.log.append chunk w
    { s with
      log := r.1
      wrote := if r.2 = none then extend s.wrote s.log.generation chunk ((lastMark s.log).getD 0) else s.wrote }
  | .feed chunk => { s with vt := s.vt.feed s.lib chunk }
  | .closeLog => { s with log := s.log.close none }
  | .rotate fail => { s with log := (s.log.rotate fail).1 }
  | .prune before order rm => { s with log := (s.log.prune before order rm).1 }
  | .resizeVt size => { s with vt := s.vt.resize s.lib size }
  | .setSize size => { s with size := size }
  | .markSize size => { s with log := s.log.markSize size }
  | .close => { s with log := s.log.close none, vt := { s.vt with closed := true } }
  | .discard => { s with log := { s.log.close none with linked := fun _ => false } }

/-- The three sizes a resize keeps together. -/
structure Sizes where
  grid : Size
  size : Size
  mark : Option Size
  deriving DecidableEq, Repr

def Store.sizes (s : Store) : Sizes := ⟨s.vt.grid, s.size, lastMark s.log⟩

/-! ## Calls -/

inductive Op where
  | resize (size : Size)
  | replay
  | checkpoint
  | atomicState
  | rotate
  | prune (before : Cursor)
  | terminate
  | delete
  deriving DecidableEq, Repr

/-- Where a `Resize` stands with `outputMu` held: in `drainResizeOutput` with `n` bytes
    drained, before each of its four updates, or about to return an error. -/
inductive Resize where
  | drain (n : Nat)
  | read (n : Nat)
  | append (n : Nat) (chunk : List Byte)
  | feed (n : Nat) (chunk : List Byte)
  | vt
  | pty
  | size
  | mark
  | failed
  deriving DecidableEq, Repr

inductive Pc where
  | start (op : Op)
  /-- `lifecycleMu` is held from here on. -/
  | entered (op : Op)
  /-- The session was the current one, or the call does not ask. -/
  | gate (op : Op)
  /-- `operationMu` is held from here on, and `outputMu` from the next on. -/
  | inside (op : Op)
  | body (op : Op)
  | captured (atomic : Bool) (vt : Vt)
  | resizing (size : Size) (old : Sizes) (r : Resize)
  | pruning (before : Cursor)
  | removing
  | termGate (delete : Bool)
  | terminating (delete : Bool)
  | discarding
  | done
  deriving DecidableEq, Repr

def Pc.inBatch : Pc → Bool
  | .start _ | .done => false
  | _ => true

def Pc.operation : Pc → Hold
  | .inside _ | .body _ | .captured _ _ | .resizing _ _ _ => .shared
  | .terminating _ => .exclusive
  | _ => .free

def Pc.output : Pc → Bool
  | .body _ | .captured _ _ | .resizing _ _ _ => true
  | _ => false

def Loop.output : Loop → Bool
  | .recheck | .read | .append _ | .feed _ | .unlock _ | .drainAppend _ _ _ | .drainFeed _ _ _ | .drainUnlock _ _ _ => true
  | _ => false

/-- A migration holds `operationMu` from its begin to the end of `finishMigration`. -/
def Handler.operation : Handler → Bool
  | .idle | .finish _ (.finished _) => false
  | _ => true

inductive Result where
  | checkpoint (vt : Vt) (cursor : Cursor)
  | atomicState (vt : Vt) (cursor : Cursor) (size : Size)
  | resizeFailed (old new : Sizes)
  deriving DecidableEq, Repr

structure Sys where
  mig : Release.Sys
  /-- A migration batch holds `lifecycleMu`. -/
  frozen : Bool
  inMap : Bool
  store : Store
  ops : List Pc
  results : List Result

inductive OpEv where
  | go
  /-- The call's context is cancelled. -/
  | quit
  | readable
  | unreadable
  | broken
  | timeUp
  | got (n : Nat)
  | readFailed
  | stored (w : OutputLog.Write)
  | pty (ok : Bool)
  | rotate (fail : Option String)
  | prune (order : List Nat) (rm : Nat → Option String)

inductive Ev where
  | loop (e : LoopEv) (w : OutputLog.Write)
  | child (e : Core.ChildEv)
  /-- `beginMigrationBatch`, `endMigrationBatch`, and `hub.remove` after a commit. -/
  | freeze
  | unfreeze
  | remove
  | handler (e : Release.Ev)
  | call (op : Op)
  | op (i : Nat) (x : OpEv)

def resizeDrainBudget : Nat := 2 ^ 20

namespace Sys

def core (s : Sys) : Core := s.mig.core

def withCore (s : Sys) (c : Core) : Sys := { s with mig := { s.mig with core := c } }

def canShareOperation (s : Sys) : Bool :=
  !s.mig.handler.operation && s.ops.all fun pc => pc.operation != .exclusive

def canTakeOperation (s : Sys) : Bool := !s.mig.handler.operation && s.ops.all fun pc => pc.operation == .free

def outputFree (s : Sys) : Bool := !s.core.loop.output && s.ops.all fun pc => !pc.output

/-! ## A step of the loop -/

/-- What the loop's step finds in the store, or has to wait for. -/
def loopFits (s : Sys) (e : LoopEv) (w : OutputLog.Write) : Bool :=
  match s.core.loop, e with
  | .lock, _ | .drainLock _ _ _, _ => s.outputFree
  | .append chunk, .stored ok | .drainAppend _ _ chunk, .stored ok => ok == (s.store.log.append chunk w).2.isNone
  | .ended, .reap failed => failed == s.store.log.err.isSome
  | _, _ => true

def loopAct (l : Loop) (w : OutputLog.Write) : Act :=
  match l with
  | .append chunk | .drainAppend _ _ chunk => .append chunk w
  | .feed chunk | .drainFeed _ _ chunk => .feed chunk
  | .closeLog => .closeLog
  | _ => .idle

def loopStep (s : Sys) (e : LoopEv) (w : OutputLog.Write) : Option Sys :=
  if s.loopFits e w then
    (s.core.loopStep e).map fun c => { s.withCore c with store := s.store.act (loopAct s.core.loop w) }
  else none

/-! ## A step of a call -/

/-- Where a call goes, and what it does on the way. -/
structure Out where
  pc : Pc
  act : Act
  core : Core
  removes : Bool
  result : Option Result

def out (s : Sys) (pc : Pc) : Out := ⟨pc, .idle, s.core, false, none⟩

/-- The checks of a call between `lifecycleMu` and `operationMu`. -/
def enter (s : Sys) : Op → Pc
  | .rotate => .gate .rotate
  | .prune before => .pruning before
  | .terminate => if s.inMap then .termGate false else .done
  | .delete => if s.inMap then .removing else .done
  | .resize size =>
    match size.resolve 0 with
    | .error _ => .done
    | .ok _ => if s.inMap then .gate (.resize size) else .done
  | op => if s.inMap then .gate op else .done

def resizeNext (s : Sys) (size : Size) (old : Sizes) : Resize → OpEv → Option Out
  | .drain _, .timeUp => some (s.out (.resizing size old .vt))
  | .drain n, .go =>
    if s.core.master = .absent ∨ resizeDrainBudget ≤ n then some (s.out (.resizing size old .vt)) else none
  | .drain n, .readable =>
    if s.core.master = .opened ∧ s.core.ready then some (s.out (.resizing size old (.read n))) else none
  | .drain _, .unreadable => if s.core.ready then none else some (s.out (.resizing size old .vt))
  | .drain _, .broken => some (s.out (.resizing size old .vt))
  | .read n, .got k =>
    if 0 < k ∧ k ≤ s.core.queue.length then
      some { s.out (.resizing size old (.append (n + k) (s.core.queue.take k))) with core := s.core.take k }
    else none
  | .read _, .readFailed =>
    -- a read error is left for the copy loop
    if s.core.queue.isEmpty ∧ s.core.hup then some (s.out (.resizing size old .vt)) else none
  | .append n chunk, .stored w =>
    some { s.out (.resizing size old (if (s.store.log.append chunk w).2.isNone then .feed n chunk else .failed)) with
      act := .append chunk w }
  | .feed n chunk, .go => some { s.out (.resizing size old (.drain n)) with act := .feed chunk }
  | .vt, .go => some { s.out (.resizing size old .pty) with act := .resizeVt size }
  | .pty, .pty true => if s.core.master = .opened then some (s.out (.resizing size old .size)) else none
  | .pty, .pty false => some (s.out (.resizing size old .failed))
  | .size, .go => some { s.out (.resizing size old .mark) with act := .setSize size }
  | .mark, .go => some { s.out .done with act := .markSize size }
  | .failed, .go => some { s.out .done with result := some (.resizeFailed old s.store.sizes) }
  | _, _ => none

/-- What `Checkpoint` and `AtomicState` return with the capture and the cursor. -/
def answer (s : Sys) (atomic : Bool) (vt : Vt) : Option Result :=
  match s.store.log.cursor with
  | .ok c => some (if atomic then .atomicState vt c s.store.size else .checkpoint vt c)
  | .error _ => none

def next (s : Sys) : Pc → OpEv → Option Out
  | .start op, .go => if s.frozen then none else some (s.out (.entered op))
  | .entered _, .quit => some (s.out .done)
  | .entered op, .go => some (s.out (s.enter op))
  | .gate op, .go => if s.canShareOperation then some (s.out (.inside op)) else none
  | .inside op, .go =>
    if s.outputFree then
      some (s.out (match op with
        | .resize size => .resizing size s.store.sizes (.drain 0)
        | _ => .body op))
    else none
  | .body .replay, .go => some (s.out .done)
  | .body .checkpoint, .go => some (s.out (if s.store.vt.closed then .done else .captured false s.store.vt))
  | .body .atomicState, .go => some (s.out (if s.store.vt.closed then .done else .captured true s.store.vt))
  | .body .rotate, .rotate fail => some { s.out .done with act := .rotate fail }
  | .captured atomic vt, .go => some { s.out .done with result := s.answer atomic vt }
  | .resizing size old r, x => s.resizeNext size old r x
  | .pruning before, .prune order rm =>
    if order.Perm s.store.log.keys then some { s.out .done with act := .prune before order rm } else none
  | .removing, .go => some { s.out (.termGate true) with removes := true }
  | .termGate delete, .go => if s.canTakeOperation then some (s.out (.terminating delete)) else none
  | .terminating delete, .go =>
    -- the signals it sends are the child's exit; it closes the state when reaped or out of time
    some { s.out (if delete then .discarding else .done) with act := .close, core := s.core.dropMaster }
  | .discarding, .go => some { s.out .done with act := .discard }
  | _, _ => none

def after (s : Sys) (i : Nat) (o : Out) : Sys :=
  { s.withCore o.core with
    inMap := s.inMap && !o.removes
    store := s.store.act o.act
    ops := s.ops.set i o.pc
    results := s.results ++ o.result.toList }

/-! ## The machine -/

def handlerStep (s : Sys) (e : Release.Ev) : Option Sys :=
  match e, s.mig.handler with
  | .loop _, _ | .child _, _ => none
  | .begin, _ =>
    if s.frozen && s.inMap && s.canTakeOperation then (Release.step s.mig .begin).map fun m => { s with mig := m }
    else none
  | .finish, .finish _ (.finished _) =>
    -- a committed session is taken out of the map first
    if s.core.migrated && s.inMap then none else (Release.step s.mig .finish).map fun m => { s with mig := m }
  | e, _ => (Release.step s.mig e).map fun m => { s with mig := m }

def step (s : Sys) : Ev → Option Sys
  | .loop e w => s.loopStep e w
  | .child e => (s.core.childStep e).map s.withCore
  | .freeze => if !s.frozen && s.ops.all fun pc => !pc.inBatch then some { s with frozen := true } else none
  | .unfreeze => if s.frozen && s.mig.handler == .idle then some { s with frozen := false } else none
  | .remove =>
    match s.mig.handler with
    | .finish _ (.finished _) => if s.core.migrated then some { s with inMap := false } else none
    | _ => none
  | .handler e => s.handlerStep e
  | .call op => some { s with ops := s.ops ++ [.start op] }
  | .op i x =>
    match s.ops[i]? with
    | some pc => (s.next pc x).map (s.after i)
    | none => none

end Sys

/-! ## What a step does -/

inductive ResizeMove (s : Sys) (size : Size) (old : Sizes) : Resize → OpEv → Sys.Out → Prop
  | drained {n : Nat} {x : OpEv} : ResizeMove s size old (.drain n) x (s.out (.resizing size old .vt))
  | ready {n : Nat} : s.core.master = .opened → s.core.ready = true →
      ResizeMove s size old (.drain n) .readable (s.out (.resizing size old (.read n)))
  | got {n k : Nat} : 0 < k → k ≤ s.core.queue.length → ResizeMove s size old (.read n) (.got k)
      { s.out (.resizing size old (.append (n + k) (s.core.queue.take k))) with core := s.core.take k }
  | readFailed {n : Nat} : ResizeMove s size old (.read n) .readFailed (s.out (.resizing size old .vt))
  | stored {n : Nat} {chunk : List Byte} {w : OutputLog.Write} : (s.store.log.append chunk w).2 = none →
      ResizeMove s size old (.append n chunk) (.stored w)
        { s.out (.resizing size old (.feed n chunk)) with act := .append chunk w }
  | lost {n : Nat} {chunk : List Byte} {w : OutputLog.Write} : (s.store.log.append chunk w).2 ≠ none →
      ResizeMove s size old (.append n chunk) (.stored w)
        { s.out (.resizing size old .failed) with act := .append chunk w }
  | feed {n : Nat} {chunk : List Byte} : ResizeMove s size old (.feed n chunk) .go
      { s.out (.resizing size old (.drain n)) with act := .feed chunk }
  | vt : ResizeMove s size old .vt .go { s.out (.resizing size old .pty) with act := .resizeVt size }
  | ptyOk : s.core.master = .opened →
      ResizeMove s size old .pty (.pty true) (s.out (.resizing size old .size))
  | ptyFailed : ResizeMove s size old .pty (.pty false) (s.out (.resizing size old .failed))
  | size : ResizeMove s size old .size .go { s.out (.resizing size old .mark) with act := .setSize size }
  | mark : ResizeMove s size old .mark .go { s.out .done with act := .markSize size }
  | failed : ResizeMove s size old .failed .go
      { s.out .done with result := some (.resizeFailed old s.store.sizes) }

inductive OpMove (s : Sys) : Pc → OpEv → Sys.Out → Prop
  | enter {op : Op} : s.frozen = false → OpMove s (.start op) .go (s.out (.entered op))
  | quit {op : Op} : OpMove s (.entered op) .quit (s.out .done)
  | check {op : Op} : OpMove s (.entered op) .go (s.out (s.enter op))
  | share {op : Op} : s.canShareOperation = true → OpMove s (.gate op) .go (s.out (.inside op))
  | lock {op : Op} : s.outputFree = true → (∀ size, op ≠ .resize size) → OpMove s (.inside op) .go (s.out (.body op))
  | lockResize {size : Size} : s.outputFree = true →
      OpMove s (.inside (.resize size)) .go (s.out (.resizing size s.store.sizes (.drain 0)))
  | leave {op : Op} : OpMove s (.body op) .go (s.out .done)
  | capture {op : Op} {atomic : Bool} : s.store.vt.closed = false → op = (if atomic then .atomicState else .checkpoint) →
      OpMove s (.body op) .go (s.out (.captured atomic s.store.vt))
  | rotate {fail : Option String} : OpMove s (.body .rotate) (.rotate fail) { s.out .done with act := .rotate fail }
  | answer {atomic : Bool} {vt : Vt} :
      OpMove s (.captured atomic vt) .go { s.out .done with result := s.answer atomic vt }
  | resize {size : Size} {old : Sizes} {r : Resize} {x : OpEv} {o : Sys.Out} : ResizeMove s size old r x o →
      OpMove s (.resizing size old r) x o
  | prune {before : Cursor} {order : List Nat} {rm : Nat → Option String} : order.Perm s.store.log.keys →
      OpMove s (.pruning before) (.prune order rm) { s.out .done with act := .prune before order rm }
  | remove : OpMove s .removing .go { s.out (.termGate true) with removes := true }
  | take {delete : Bool} : s.canTakeOperation = true → OpMove s (.termGate delete) .go (s.out (.terminating delete))
  | close {delete : Bool} : OpMove s (.terminating delete) .go
      { s.out (if delete then .discarding else .done) with act := .close, core := s.core.dropMaster }
  | discard : OpMove s .discarding .go { s.out .done with act := .discard }

theorem resizeNext_move {s : Sys} {size : Size} {old : Sizes} {r : Resize} {x : OpEv} {o : Sys.Out}
    (h : s.resizeNext size old r x = some o) : ResizeMove s size old r x o := by
  revert h
  fun_cases Sys.resizeNext s size old r x
  all_goals intro h; grind [ResizeMove, Option.isNone_iff_eq_none]

theorem next_move {s : Sys} {pc : Pc} {x : OpEv} {o : Sys.Out} (h : s.next pc x = some o) : OpMove s pc x o := by
  revert h
  fun_cases Sys.next s pc x
  all_goals intro h
  case case7 op hf => cases op <;> cases h <;> first | exact .lockResize hf | exact .lock hf (by simp)
  case case14 => exact .resize (resizeNext_move h)
  all_goals grind [OpMove]

/-- No call touches the loop or its tickets. -/
theorem OpMove.same {s : Sys} {pc : Pc} {x : OpEv} {o : Sys.Out} (h : OpMove s pc x o) : SameTickets s.core o.core := by
  cases h with
  | resize h => cases h <;> exact ⟨rfl, rfl, rfl, rfl, rfl, rfl⟩
  | _ => exact ⟨rfl, rfl, rfl, rfl, rfl, rfl⟩

inductive Move (s : Sys) : Ev → Sys → Prop
  | loop {e : LoopEv} {w : OutputLog.Write} {c : Core} : s.loopFits e w = true → LoopMove s.core e c →
      Move s (.loop e w) { s.withCore c with store := s.store.act (Sys.loopAct s.core.loop w) }
  | child {e : Core.ChildEv} {c : Core} : s.core.childStep e = some c → Move s (.child e) (s.withCore c)
  | freeze : s.frozen = false → (∀ pc ∈ s.ops, pc.inBatch = false) → Move s .freeze { s with frozen := true }
  | unfreeze : s.mig.handler = .idle → Move s .unfreeze { s with frozen := false }
  | remove {t : Nat} {err : Bool} : s.mig.handler = .finish t (.finished err) → s.core.migrated = true →
      Move s .remove { s with inMap := false }
  | begin {m : Release.Sys} : s.frozen = true → s.inMap = true → Release.step s.mig .begin = some m →
      Move s (.handler .begin) { s with mig := m }
  | handler {e : Release.Ev} {m : Release.Sys} : e.isLoop = false → Release.step s.mig e = some m →
      s.mig.handler ≠ .idle → (m.handler = .idle → s.core.migrated = true → s.inMap = false) →
      Move s (.handler e) { s with mig := m }
  | call {op : Op} : Move s (.call op) { s with ops := s.ops ++ [.start op] }
  | op {i : Nat} {x : OpEv} {pc : Pc} {o : Sys.Out} : s.ops[i]? = some pc → OpMove s pc x o →
      Move s (.op i x) (s.after i o)

variable {s s' : Sys} {e : Ev}

theorem Release.step_idle {m m' : Release.Sys} {e : Release.Ev} (h : Release.step m e = some m')
    (hl : e.isLoop = false) (hb : e ≠ .begin) (hc : ∀ x, e ≠ .child x) :
    m.handler ≠ .idle ∧ (m'.handler = .idle → e = .finish ∧ ∃ t err, m.handler = .finish t (.finished err)) := by
  cases Release.step_move h with
  | loop _ => cases hl
  | child _ => exact absurd rfl (hc _)
  | begin _ _ _ => exact absurd rfl hb
  | turn ht =>
    cases ht with
    | giveUp hh => rcases hh with hh | hh <;> simp [hh]
    | signal hh | stable hh _ _ | commit hh => simp [hh]
    | ended hh => exact ⟨by simp [hh], fun _ => ⟨rfl, _, _, hh⟩⟩
  | finish hh _ => simp [hh]

theorem handlerStep_move {e : Release.Ev} (h : s.handlerStep e = some s') : Move s (.handler e) s' := by
  unfold Sys.handlerStep at h
  split at h
  · cases h
  · cases h
  · simp only [Option.ite_none_right_eq_some, Bool.and_eq_true] at h
    obtain ⟨⟨⟨hf, hm⟩, -⟩, h⟩ := h
    obtain ⟨m, hs, rfl⟩ := Option.map_eq_some_iff.mp h
    exact .begin hf hm hs
  · rename_i t err hh
    simp only [Option.ite_none_left_eq_some, Bool.and_eq_true, not_and, Bool.not_eq_true] at h
    obtain ⟨hg, h⟩ := h
    obtain ⟨m, hs, rfl⟩ := Option.map_eq_some_iff.mp h
    exact .handler rfl hs (by simp [hh]) fun _ => hg
  · rename_i r _ _ h1 h2 h3 h4
    obtain ⟨m, hs, rfl⟩ := Option.map_eq_some_iff.mp h
    have hl : r.isLoop = false := by cases r <;> simp_all [Release.Ev.isLoop]
    obtain ⟨hi, ho⟩ := Release.step_idle hs hl h3 h2
    refine .handler hl hs hi fun hm => ?_
    obtain ⟨rfl, t, err, hh⟩ := ho hm
    exact absurd hh (h4 t err rfl)

theorem step_move (h : s.step e = some s') : Move s e s' := by
  cases e with
  | loop e w =>
    simp only [Sys.step, Sys.loopStep, Option.ite_none_right_eq_some] at h
    obtain ⟨hf, h⟩ := h
    obtain ⟨c, hc, rfl⟩ := Option.map_eq_some_iff.mp h
    exact .loop hf (loopStep_move hc)
  | child e =>
    obtain ⟨c, hc, rfl⟩ := Option.map_eq_some_iff.mp h
    exact .child hc
  | freeze =>
    simp only [Sys.step, Option.ite_none_right_eq_some, Option.some.injEq, Bool.and_eq_true, Bool.not_eq_true',
      List.all_eq_true] at h
    obtain ⟨⟨hf, ho⟩, rfl⟩ := h
    exact .freeze hf ho
  | unfreeze =>
    simp only [Sys.step, Option.ite_none_right_eq_some, Option.some.injEq, Bool.and_eq_true, beq_iff_eq] at h
    obtain ⟨⟨-, hh⟩, rfl⟩ := h
    exact .unfreeze hh
  | remove =>
    simp only [Sys.step] at h
    split at h
    · rename_i hh
      simp only [Option.ite_none_right_eq_some, Option.some.injEq] at h
      obtain ⟨hm, rfl⟩ := h
      exact .remove hh hm
    · cases h
  | handler e => exact handlerStep_move h
  | call op => cases h; exact .call
  | op i x =>
    simp only [Sys.step] at h
    split at h
    · rename_i pc hp
      obtain ⟨o, ho, rfl⟩ := Option.map_eq_some_iff.mp h
      exact .op hp (next_move ho)
    · cases h

/-! ## The master -/

/-- A step leaves the master or closes it, and `done` stays closed. -/
structure Core.Closes (c c' : Core) : Prop where
  master : c'.master = c.master ∨ c'.master = c.dropMaster.master
  done : c.done = true → c'.done = true

theorem Core.Closes.refl (c : Core) : c.Closes c := ⟨.inl rfl, id⟩

theorem LoopMove.closes {c c' : Core} {e : LoopEv} (h : LoopMove c e c') : c.Closes c' := by
  cases h with
  | waitKilling _ _ _ | closeMaster _ _ => exact ⟨.inr rfl, id⟩
  | closeDone _ => exact ⟨.inl rfl, fun _ => rfl⟩
  | _ => exact ⟨.inl rfl, id⟩

theorem Core.Closes.child {c c' : Core} {e : Core.ChildEv} (h : c.childStep e = some c') : c.Closes c' := by
  refine ⟨.inl ?_, fun hd => (SameTickets.child h).done ▸ hd⟩
  cases childStep_move h <;> rfl

theorem Release.step_closes {m m' : Release.Sys} {e : Release.Ev} (h : Release.step m e = some m') :
    m.core.Closes m'.core := by
  cases Release.step_move h with
  | loop hm => exact hm.closes
  | child hm => exact .child hm
  | begin _ hm _ =>
    obtain ⟨-, hm⟩ := Option.ite_none_left_eq_some.mp hm
    cases hm
    exact ⟨.inl rfl, id⟩
  | turn _ => exact ⟨.inl rfl, id⟩
  | finish _ hm =>
    cases hm with
    | dropped => exact ⟨.inr rfl, id⟩
    | _ => exact ⟨.inl rfl, id⟩

theorem step_closes (h : s.step e = some s') : s.core.Closes s'.core := by
  cases step_move h with
  | loop _ hm => exact hm.closes
  | child hm => exact .child hm
  | begin _ _ hm | handler _ hm _ _ => exact Release.step_closes hm
  | op _ hm =>
    refine ⟨?_, fun hd => hm.same.done ▸ hd⟩
    cases hm with
    | close => exact .inr rfl
    | resize hr => cases hr <;> exact .inl rfl
    | _ => exact .inl rfl
  | _ => exact .refl _

/-- A closed master stays closed. -/
theorem Core.Closes.opened {c c' : Core} (h : c.Closes c') (ho : c'.master = .opened) : c.master = .opened := by
  rcases h.master with hm | hm
  · exact hm ▸ ho
  · simp only [Core.dropMaster] at hm
    rw [ho] at hm
    split at hm <;> cases hm

/-! ## Where a session begins -/

/-- A session just started by this process. -/
def startState (lib : Library) (log : OutputLog) (size : Size) : Sys where
  mig := ⟨Core.fresh true, .idle⟩
  frozen := false
  inMap := true
  store := ⟨log.markSize size, adopted log, ⟨[], size, false⟩, size, lib⟩
  ops := []
  results := []

/-- A session just adopted from another process, with a master or without. Output recorded
    before the adoption has no known size. -/
def adoptStateWithTerminal (lib : Library) (log : OutputLog) (vt : Vt) (size : Size) (alive : Bool) : Sys where
  mig := ⟨if alive then Core.fresh false else Core.dead, .idle⟩
  frozen := false
  inMap := true
  store := ⟨if alive then log.markSize size else log.close none, adopted log, vt, size, lib⟩
  ops := []
  results := []

def Sys.Started (s : Sys) : Prop :=
  ∃ lib log size, OutputLog.createOutputLog = .ok log ∧ size.validate = .ok () ∧ s = startState lib log size

/-- The terminal handed over, or rebuilt, has the size that came with it. -/
def Sys.Adopted (s : Sys) : Prop :=
  ∃ lib files linked generation log vt alive, generation < 2 ^ 64 ∧
    (OutputLog.adoptOutputLog files linked generation = .ok log ∨ OutputLog.createOutputLog = .ok log) ∧
    vt.grid.validate = .ok () ∧ vt.closed = false ∧ s = adoptStateWithTerminal lib log vt vt.grid alive

def machine : Machine Sys Ev where
  init s := s.Started ∨ s.Adopted
  step := Sys.step

/-- The sessions started in this process. -/
def startedMachine : Machine Sys Ev where
  init s := s.Started
  step := Sys.step

theorem created_started (lib : Library) (size : Size) (h : size.validate = .ok ()) :
    machine.init (startState lib created size) :=
  .inl ⟨lib, created, size, created_eq, h, rfl⟩

/-- The program writes, and the loop copies one byte. -/
def copies (data : List Byte) : List Ev :=
  .loop .go .full :: .child (.write data) ::
    [LoopEv.readable, .go, .readable, .got 1, .stored true, .go, .go].map (.loop · .full)

/-- Steps of call `i`. -/
def goes (i k : Nat) : List Ev := List.replicate k (.op i .go)

end Ghostline.Session
