/-
  Ghostline.Session.Core — the copy loop of one session and the migration tickets it
  answers (process.go: `copyOutput`, `copyOutputLoop`, `drainOutput`, `migrationTicket`,
  `beginMigration`, `finishMigration`).

  The copy loop is a goroutine; `Loop` is where it stands between two actions another
  goroutine can see. Its next action is `loopStep`, whose event carries what the loop
  cannot know: what a poll or a read finds, whether an append succeeds, whether the
  drain window is over. What it does to the output log and the emulator is left to the
  modules that have them; here an append has an outcome and nothing else.

  - A PTY is the bytes the child has written and nobody has read (`queue`), and whether
    the slave side is closed (`hup`), which may happen with the child alive. A read
    returns bytes or an error, never both.
  - Tickets are numbered; `tickets t` is ticket `t` once `t < issued`. Choosing is one
    action: a compare-and-swap, and a send to a channel with room that only the winner
    of the swap makes. So is marking stable: the error is set before the channel closes.
  - `master` is the session's own descriptor of the PTY.
-/

import Mathlib.Logic.Function.Basic
import Ghostline.Types

namespace Ghostline.Session

/-! ## Tickets -/

structure Ticket where
  alive : Bool
  stable : Bool
  /-- An error is recorded. -/
  failed : Bool
  decided : Bool
  /-- What the channel `decide` holds. -/
  decide : Option Bool
  stopped : Bool
  deriving DecidableEq, Repr

def newMigrationTicket (alive : Bool) : Ticket := ⟨alive, false, false, false, none, false⟩

def Ticket.markStable (t : Ticket) (failed : Bool) : Ticket := { t with failed := t.failed || failed, stable := true }

def Ticket.choose (t : Ticket) (commit : Bool) : Ticket :=
  if t.decided then t else { t with decided := true, decide := some commit }

def Ticket.markStopped (t : Ticket) : Ticket := { t with stopped := true }

/-! ## The copy loop -/

inductive Loop where
  /-- At the head of the loop, and between `currentMigration` and `decided.Load`. -/
  | check
  | decided (t : Nat)
  | poll
  /-- Waiting for `outputMu`; the next five hold it. -/
  | lock
  | recheck
  | read
  | append (chunk : List Byte)
  | feed (chunk : List Byte)
  | unlock (stop : Bool)
  /-- `drainOutput` for ticket `t` with `n` bytes drained; it takes `outputMu` for each chunk. -/
  | drain (t n : Nat)
  | drainRead (t n : Nat)
  | drainLock (t n : Nat) (chunk : List Byte)
  | drainAppend (t n : Nat) (chunk : List Byte)
  | drainFeed (t n : Nat) (chunk : List Byte)
  | drainUnlock (t n : Nat) (failed : Bool)
  | stable (t : Nat) (failed : Bool)
  | parked (t : Nat) (failed : Bool)
  | stopping (t : Nat) (failed commit : Bool)
  /-- `copyOutputLoop` returned false. -/
  | ended
  /-- In `waitSessionCommand`, killing the child if its output was lost. -/
  | waiting (killing : Bool)
  /-- The deferred calls, in the order they run. -/
  | settle
  | settleStable (t : Nat)
  | settleChoose (t : Nat)
  | settleStop (t : Nat)
  | closeMaster
  | closeWake
  | closeLog
  | closeDone
  | gone
  deriving DecidableEq, Repr

inductive Master where
  | absent
  | opened
  | closed
  deriving DecidableEq, Repr

structure Core where
  exited : Bool
  hup : Bool
  queue : List Byte
  master : Master
  /-- The child is this process's own (`command` is not nil). -/
  owned : Bool
  loop : Loop
  tickets : Nat → Ticket
  issued : Nat
  migration : Option Nat
  wake : Nat
  migrated : Bool
  done : Bool

inductive LoopEv where
  | go
  /-- What a poll of the master finds. -/
  | readable
  | unreadable
  | broken
  | woken
  /-- What a read returns: the first `n` bytes, or an error. -/
  | got (n : Nat)
  | readFailed
  | stored (ok : Bool)
  | timeUp
  /-- `waitSessionCommand` finds the output log failed or not. -/
  | reap (failed : Bool)
  | kill
  deriving DecidableEq, Repr

def migrationDrainBudget : Nat := 8 * 2 ^ 20

namespace Core

def updTicket (c : Core) (t : Nat) (f : Ticket → Ticket) : Core :=
  { c with tickets := Function.update c.tickets t (f (c.tickets t)) }

def goto (c : Core) (l : Loop) : Core := { c with loop := l }

/-- A read of the master does not block. -/
def ready (c : Core) : Bool := !c.queue.isEmpty || c.hup

/-- The chunk a read takes from the PTY. -/
def take (c : Core) (n : Nat) : Core := { c with queue := c.queue.drop n }

def dropMaster (c : Core) : Core := { c with master := if c.master = .absent then .absent else .closed }

def loopStep (c : Core) (e : LoopEv) : Option Core :=
  match c.loop, e with
  | .check, .go =>
    match c.migration with
    | some t => if (c.tickets t).alive then some (c.goto (.decided t)) else some (c.goto .poll)
    | none => some (c.goto .poll)
  | .decided t, .go => if (c.tickets t).decided then some (c.goto .poll) else some (c.goto (.drain t 0))
  | .poll, .woken => if 0 < c.wake then some ({ c with wake := c.wake - 1 }.goto .check) else none
  | .poll, .readable => if c.wake = 0 ∧ c.ready then some (c.goto .lock) else none
  | .poll, .broken => some (c.goto .ended)
  | .lock, .go => some (c.goto .recheck)
  | .recheck, .readable => if c.ready then some (c.goto .read) else none
  | .recheck, .unreadable => if c.ready then none else some (c.goto (.unlock false))
  | .recheck, .broken => some (c.goto (.unlock true))
  | .read, .got n =>
    if 0 < n ∧ n ≤ c.queue.length then some ((c.take n).goto (.append (c.queue.take n))) else none
  | .read, .readFailed => if c.queue.isEmpty ∧ c.hup then some (c.goto (.unlock true)) else none
  | .append chunk, .stored ok => some (c.goto (if ok then .feed chunk else .unlock true))
  | .feed _, .go => some (c.goto (.unlock false))
  | .unlock stop, .go => some (c.goto (if stop then .ended else .check))
  | .drain t _, .timeUp => some (c.goto (.stable t false))
  | .drain t n, .go => if migrationDrainBudget ≤ n then some (c.goto (.stable t false)) else none
  | .drain t n, .readable => if n < migrationDrainBudget ∧ c.ready then some (c.goto (.drainRead t n)) else none
  | .drain t n, .unreadable => if n < migrationDrainBudget ∧ !c.ready then some (c.goto (.stable t false)) else none
  | .drain t _, .broken => some (c.goto (.stable t true))
  | .drainRead t n, .got k =>
    if 0 < k ∧ k ≤ c.queue.length then some ((c.take k).goto (.drainLock t (n + k) (c.queue.take k))) else none
  | .drainRead t _, .readFailed => if c.queue.isEmpty ∧ c.hup then some (c.goto (.stable t true)) else none
  | .drainLock t n chunk, .go => some (c.goto (.drainAppend t n chunk))
  | .drainAppend t n chunk, .stored ok => some (c.goto (if ok then .drainFeed t n chunk else .drainUnlock t n true))
  | .drainFeed t n _, .go => some (c.goto (.drainUnlock t n false))
  | .drainUnlock t n failed, .go => some (c.goto (if failed then .stable t true else .drain t n))
  | .stable t failed, .go => some ((c.updTicket t (·.markStable failed)).goto (.parked t failed))
  | .parked t failed, .go =>
    match (c.tickets t).decide with
    | some commit => some ((c.updTicket t fun x => { x with decide := none }).goto (.stopping t failed commit))
    | none => none
  | .stopping t failed commit, .go =>
    some ((c.updTicket t (·.markStopped)).goto (if failed || commit then .ended else .check))
  | .ended, .reap failed =>
    -- a committed session's child is reaped in the background, an adopted one is nobody's child here
    if c.migrated || !c.owned then some (c.goto .settle)
    else some ((if failed then c.dropMaster else c).goto (.waiting failed))
  | .waiting true, .kill => if c.exited then none else some { c with exited := true }
  | .waiting _, .go => if c.exited then some (c.goto .settle) else none
  | .settle, .go =>
    match c.migration with
    | some t => if (c.tickets t).decided then some (c.goto .closeMaster) else some (c.goto (.settleStable t))
    | none => some (c.goto .closeMaster)
  | .settleStable t, .go => some ((c.updTicket t (·.markStable true)).goto (.settleChoose t))
  | .settleChoose t, .go => some ((c.updTicket t (·.choose false)).goto (.settleStop t))
  | .settleStop t, .go => some ((c.updTicket t (·.markStopped)).goto .closeMaster)
  | .closeMaster, .go =>
    some ((if c.migrated then c else c.dropMaster).goto .closeWake)
  | .closeWake, .go => some (c.goto .closeLog)
  | .closeLog, .go => some (c.goto .closeDone)
  | .closeDone, .go => some ({ c with done := true }.goto .gone)
  | _, _ => none

/-! ## The child -/

inductive ChildEv where
  | write (data : List Byte)
  | exit
  | hangup
  deriving DecidableEq, Repr

def childStep (c : Core) : ChildEv → Option Core
  | .write data => if c.hup then none else some { c with queue := c.queue ++ data }
  | .exit => some { c with exited := true }
  | .hangup => some { c with hup := true }

/-! ## Beginning and finishing a migration -/

/-- `beginMigration` once it has `operationMu`: the number of its ticket is `issued`. -/
def beginMigration (c : Core) : Option Core :=
  if c.migration.isSome then none
  else
    let t := if c.done then ((newMigrationTicket false).markStable false).markStopped else newMigrationTicket true
    some { c with tickets := Function.update c.tickets c.issued t, migration := some c.issued, issued := c.issued + 1 }

def signalMigrationWake (c : Core) : Core := { c with wake := c.wake + 1 }

/-- Where `finishMigration` stands: before the look at the ticket's error, before it marks
    the session migrated, decides, in its wait, and after it. -/
inductive Fin where
  | start (commit : Bool)
  | mark
  | choose (commit : Bool)
  | wait (commit : Bool)
  | clear (commit : Bool)
  | closeMaster
  /-- `operationMu` is released; the result is an error or not. -/
  | finished (err : Bool)
  deriving DecidableEq, Repr

/-- The wait of `finishMigration` is over. -/
def released (c : Core) (t : Nat) : Bool := (c.tickets t).stopped || c.done

def finStep (c : Core) (t : Nat) : Fin → Option (Core × Fin)
  | .start commit =>
    some (c, if commit && !(c.tickets t).failed then .mark else .choose false)
  | .mark => some ({ c with migrated := true }, .choose true)
  | .choose commit => some (c.updTicket t (·.choose commit), .wait commit)
  | .wait commit => if c.released t then some (c, .clear commit) else none
  | .clear commit =>
    if c.migration = some t then
      some ({ c with migration := none },
        if commit && c.master != .absent then .closeMaster else .finished (c.tickets t).failed)
    else some (c, .finished true)
  | .closeMaster => some (c.dropMaster, .finished (c.tickets t).failed)
  | .finished _ => none

end Core

/-- A session just started, or a live one just adopted, as its copy loop begins. -/
def Core.fresh (owned : Bool) : Core :=
  ⟨false, false, [], .opened, owned, .check, fun _ => newMigrationTicket true, 0, none, 0, false, false⟩

/-- A session adopted without a master: its child has exited. -/
def Core.dead : Core := { Core.fresh false with master := .absent, loop := .gone, done := true }

/-! ## What a step of the loop does

`Hop`: the steps that only move the loop on. `LoopMove`: all of them. -/

inductive Hop (c : Core) : Loop → LoopEv → Loop → Prop
  | noTicket : c.migration = none → Hop c .check .go .poll
  | deadTicket {t : Nat} : c.migration = some t → (c.tickets t).alive = false → Hop c .check .go .poll
  | ticket {t : Nat} : c.migration = some t → (c.tickets t).alive = true → Hop c .check .go (.decided t)
  | skip {t : Nat} : (c.tickets t).decided = true → Hop c (.decided t) .go .poll
  | observe {t : Nat} : (c.tickets t).decided = false → Hop c (.decided t) .go (.drain t 0)
  | ready : c.wake = 0 → c.ready = true → Hop c .poll .readable .lock
  | pollBroken : Hop c .poll .broken .ended
  | locked : Hop c .lock .go .recheck
  | still : c.ready = true → Hop c .recheck .readable .read
  | taken : c.ready = false → Hop c .recheck .unreadable (.unlock false)
  | recheckBroken : Hop c .recheck .broken (.unlock true)
  | readFailed : c.queue = [] → c.hup = true → Hop c .read .readFailed (.unlock true)
  | appended {chunk : List Byte} : Hop c (.append chunk) (.stored true) (.feed chunk)
  | lost {chunk : List Byte} : Hop c (.append chunk) (.stored false) (.unlock true)
  | fed {chunk : List Byte} : Hop c (.feed chunk) .go (.unlock false)
  | again : Hop c (.unlock false) .go .check
  | stop : Hop c (.unlock true) .go .ended
  | window {t n : Nat} : Hop c (.drain t n) .timeUp (.stable t false)
  | budget {t n : Nat} : migrationDrainBudget ≤ n → Hop c (.drain t n) .go (.stable t false)
  | more {t n : Nat} : n < migrationDrainBudget → c.ready = true → Hop c (.drain t n) .readable (.drainRead t n)
  | dry {t n : Nat} : n < migrationDrainBudget → c.ready = false → Hop c (.drain t n) .unreadable (.stable t false)
  | drainBroken {t n : Nat} : Hop c (.drain t n) .broken (.stable t true)
  | drainReadFailed {t n : Nat} : c.queue = [] → c.hup = true → Hop c (.drainRead t n) .readFailed (.stable t true)
  | drainLocked {t n : Nat} {chunk : List Byte} : Hop c (.drainLock t n chunk) .go (.drainAppend t n chunk)
  | drainAppended {t n : Nat} {chunk : List Byte} :
      Hop c (.drainAppend t n chunk) (.stored true) (.drainFeed t n chunk)
  | drainLost {t n : Nat} {chunk : List Byte} :
      Hop c (.drainAppend t n chunk) (.stored false) (.drainUnlock t n true)
  | drainFed {t n : Nat} {chunk : List Byte} : Hop c (.drainFeed t n chunk) .go (.drainUnlock t n false)
  | drainAgain {t n : Nat} : Hop c (.drainUnlock t n false) .go (.drain t n)
  | drainStop {t n : Nat} : Hop c (.drainUnlock t n true) .go (.stable t true)
  | unwaited {failed : Bool} : c.migrated = true ∨ c.owned = false → Hop c .ended (.reap failed) .settle
  | wait : c.migrated = false → c.owned = true → Hop c .ended (.reap false) (.waiting false)
  | reaped {killing : Bool} : c.exited = true → Hop c (.waiting killing) .go .settle
  | settled : (∀ t, c.migration = some t → (c.tickets t).decided = true) → Hop c .settle .go .closeMaster
  | settling {t : Nat} : c.migration = some t → (c.tickets t).decided = false → Hop c .settle .go (.settleStable t)
  | keptMaster : c.migrated = true → Hop c .closeMaster .go .closeWake
  | closeWake : Hop c .closeWake .go .closeLog
  | closeLog : Hop c .closeLog .go .closeDone

inductive LoopMove (c : Core) : LoopEv → Core → Prop
  | hop {e : LoopEv} {l : Loop} : Hop c c.loop e l → LoopMove c e (c.goto l)
  | woken : c.loop = .poll → 0 < c.wake → LoopMove c .woken ({ c with wake := c.wake - 1 }.goto .check)
  | got {n : Nat} : c.loop = .read → 0 < n → n ≤ c.queue.length →
      LoopMove c (.got n) ((c.take n).goto (.append (c.queue.take n)))
  | drainGot {t n k : Nat} : c.loop = .drainRead t n → 0 < k → k ≤ c.queue.length →
      LoopMove c (.got k) ((c.take k).goto (.drainLock t (n + k) (c.queue.take k)))
  | stable {t : Nat} {failed : Bool} : c.loop = .stable t failed →
      LoopMove c .go ((c.updTicket t (·.markStable failed)).goto (.parked t failed))
  | receive {t : Nat} {failed commit : Bool} : c.loop = .parked t failed → (c.tickets t).decide = some commit →
      LoopMove c .go ((c.updTicket t fun x => { x with decide := none }).goto (.stopping t failed commit))
  | stopped {t : Nat} {failed commit : Bool} : c.loop = .stopping t failed commit →
      LoopMove c .go ((c.updTicket t (·.markStopped)).goto (if failed || commit then .ended else .check))
  | waitKilling : c.loop = .ended → c.migrated = false → c.owned = true →
      LoopMove c (.reap true) (c.dropMaster.goto (.waiting true))
  | killed : c.loop = .waiting true → c.exited = false → LoopMove c .kill { c with exited := true }
  | settleStable {t : Nat} : c.loop = .settleStable t →
      LoopMove c .go ((c.updTicket t (·.markStable true)).goto (.settleChoose t))
  | settleChoose {t : Nat} : c.loop = .settleChoose t →
      LoopMove c .go ((c.updTicket t (·.choose false)).goto (.settleStop t))
  | settleStop {t : Nat} : c.loop = .settleStop t → LoopMove c .go ((c.updTicket t (·.markStopped)).goto .closeMaster)
  | closeMaster : c.loop = .closeMaster → c.migrated = false → LoopMove c .go (c.dropMaster.goto .closeWake)
  | closeDone : c.loop = .closeDone → LoopMove c .go ({ c with done := true }.goto .gone)

theorem loopStep_move {c c' : Core} {e : LoopEv} (h : c.loopStep e = some c') : LoopMove c e c' := by
  revert h
  -- one goal for each arm of the step; the rule it names is the only one that fits
  fun_cases Core.loopStep c e
  all_goals intro h; grind [Hop, LoopMove]

/-- What an action of `finishMigration` does. -/
inductive FinMove (c : Core) (t : Nat) : Core.Fin → Core → Core.Fin → Prop
  | abort {commit : Bool} : commit = false ∨ (c.tickets t).failed = true →
      FinMove c t (.start commit) c (.choose false)
  | commit : (c.tickets t).failed = false → FinMove c t (.start true) c .mark
  | mark : FinMove c t .mark { c with migrated := true } (.choose true)
  | choose {commit : Bool} : FinMove c t (.choose commit) (c.updTicket t (·.choose commit)) (.wait commit)
  | ended {commit : Bool} : c.released t = true → FinMove c t (.wait commit) c (.clear commit)
  | clear : c.migration = some t → FinMove c t (.clear true) { c with migration := none } .closeMaster
  | cleared {commit : Bool} : c.migration = some t →
      FinMove c t (.clear commit) { c with migration := none } (.finished (c.tickets t).failed)
  | stale {commit : Bool} : c.migration ≠ some t → FinMove c t (.clear commit) c (.finished true)
  | dropped : FinMove c t .closeMaster c.dropMaster (.finished (c.tickets t).failed)

theorem finStep_move {c c' : Core} {t : Nat} {f f' : Core.Fin} (h : c.finStep t f = some (c', f')) :
    FinMove c t f c' f' := by
  revert h
  fun_cases Core.finStep c t f
  all_goals intro h; grind [FinMove]

inductive ChildMove (c : Core) : Core.ChildEv → Core → Prop
  | write {data : List Byte} : c.hup = false → ChildMove c (.write data) { c with queue := c.queue ++ data }
  | exit : ChildMove c .exit { c with exited := true }
  | hangup : ChildMove c .hangup { c with hup := true }

theorem childStep_move {c c' : Core} {e : Core.ChildEv} (h : c.childStep e = some c') : ChildMove c e c' := by
  revert h
  fun_cases Core.childStep c e
  all_goals intro h; grind [ChildMove]

theorem beginMigration_eq {c c' : Core} (h : c.beginMigration = some c') :
    c' = { c with
      tickets := Function.update c.tickets c.issued
        (if c.done then ((newMigrationTicket false).markStable false).markStopped else newMigrationTicket true)
      migration := some c.issued
      issued := c.issued + 1 } := by
  simp only [Core.beginMigration, Option.ite_none_left_eq_some, Option.some.injEq] at h
  exact h.2.symm

end Ghostline.Session
