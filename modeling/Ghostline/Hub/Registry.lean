/-
  Ghostline.Hub.Registry — the hub's session map under concurrent calls (hub.go, and
  `delete` and `terminate` of session.go).

  A thread is one call, and its `Pc` is where it stands between two lock sections:
  `h.mu` is only ever held for one section, so a section is one step; `lifecycleMu` is
  held from `lock` to the end of the call, shared by `Start`, `Delete` and `Terminate`
  and exclusively by `Close` and by a migration batch.

  - Names are numbers. A session state gets its identity when `Start` publishes it:
    state `id` is the `id`-th published, under the name `names[id]`. Handles exist of
    published states only.
  - What the calls do outside the map (starting and terminating a child) is a step of
    its own with nothing to see here.
  - `deleted`, `committed` and `removals` record what removed which state.
-/

import Mathlib.Logic.Function.Basic
import Ghostline.Lib.Gate
import Ghostline.Lib.Machine

namespace Ghostline.Hub

open Lib.Gate (Hold)

/-- A call, before it has the lifecycle lock. -/
inductive Op where
  | start (name : Nat)
  | delete (id : Nat)
  | terminate (id : Nat)
  | close
  | migrate
  deriving DecidableEq, Repr

inductive Pc where
  | waiting (op : Op)
  /-- `Start`: before its first section, while `startSession` runs, before it publishes,
      and before it gives a reservation back. -/
  | reserve (name : Nat)
  | launch (name : Nat)
  | publish (name : Nat)
  | release (name : Nat)
  /-- `Delete`: before `current()`, and before `remove`. -/
  | checkDelete (id : Nat)
  | remove (id : Nat)
  | checkTerminate (id : Nat)
  /-- The end of a call that terminates a child and shares the lifecycle lock. -/
  | ending
  | close
  /-- `Close` after its section, terminating what it took out. -/
  | sweeping
  /-- A migration batch, with the states its requests have prepared so far. -/
  | frozen (prepared : List (Nat × Nat))
  | done
  deriving DecidableEq, Repr

def Pc.hold : Pc → Hold
  | .waiting _ => .free
  | .done => .free
  | .close => .exclusive
  | .sweeping => .exclusive
  | .frozen _ => .exclusive
  | _ => .shared

structure Sys where
  sessions : Nat → Option Nat
  pending : Nat → Bool
  closed : Bool
  names : List Nat
  threads : List Pc
  /-- States whose own `Delete` ran its removal. -/
  deleted : List Nat
  /-- States a migration batch committed. -/
  committed : List Nat
  /-- For each `remove` of a `Delete`: the state of its handle, and what it took out. -/
  removals : List (Nat × Option Nat)

inductive Ev where
  | call (op : Op)
  /-- Thread `i` gets the lifecycle lock. -/
  | lock (i : Nat)
  /-- Thread `i` runs its next section. -/
  | section (i : Nat)
  /-- `startSession` fails. -/
  | fail (i : Nat)
  /-- The context is over, or an argument is refused, when the call has the lock. -/
  | refuse (i : Nat)
  /-- Requests of the batch: prepare a session, commit what is prepared, give up. -/
  | prepare (i name : Nat)
  | commit (i : Nat)
  | abort (i : Nat)
  deriving DecidableEq, Repr

def Sys.goto (s : Sys) (i : Nat) (pc : Pc) : Sys := { s with threads := s.threads.set i pc }

/-- `localSession.current`. -/
def Sys.current (s : Sys) (id : Nat) : Bool :=
  match s.names[id]? with
  | some n => s.sessions n == some id
  | none => false

/-- `Hub.remove` by a `Delete` on a handle of `id`. -/
def Sys.removeBy (s : Sys) (id : Nat) : Sys :=
  match s.names[id]? with
  | some n => { s with
      sessions := Function.update s.sessions n none
      deleted := s.deleted ++ [id]
      removals := s.removals ++ [(id, s.sessions n)] }
  | none => s

def Sys.lock (s : Sys) (i : Nat) : Op → Option Sys
  | .start n => if Lib.Gate.canShare Pc.hold s.threads then some (s.goto i (.reserve n)) else none
  | .delete id => if Lib.Gate.canShare Pc.hold s.threads then some (s.goto i (.checkDelete id)) else none
  | .terminate id => if Lib.Gate.canShare Pc.hold s.threads then some (s.goto i (.checkTerminate id)) else none
  | .close => if Lib.Gate.canTake Pc.hold s.threads then some (s.goto i .close) else none
  | .migrate =>
    -- `beginMigrationBatch` gives the lock back when the hub is closed
    if Lib.Gate.canTake Pc.hold s.threads then some (s.goto i (if s.closed then .done else .frozen [])) else none

/-- The next section of a thread that has the lifecycle lock. -/
def Sys.section (s : Sys) (i : Nat) : Pc → Option Sys
  | .reserve n =>
    if s.closed || s.pending n || (s.sessions n).isSome then some (s.goto i .done)
    else some ({ s with pending := Function.update s.pending n true }.goto i (.launch n))
  | .launch n => some (s.goto i (.publish n))
  | .publish n =>
    let s := { s with pending := Function.update s.pending n false }
    if s.closed || (s.sessions n).isSome then some (s.goto i .ending)
    else some ({ s with
      sessions := Function.update s.sessions n (some s.names.length)
      names := s.names ++ [n] }.goto i .done)
  | .release n => some ({ s with pending := Function.update s.pending n false }.goto i .done)
  | .checkDelete id => some (s.goto i (if s.current id then .remove id else .done))
  | .remove id => some ((s.removeBy id).goto i .ending)
  | .checkTerminate id => some (s.goto i (if s.current id then .ending else .done))
  | .ending => some (s.goto i .done)
  | .close =>
    if s.closed then some (s.goto i .done)
    else some ({ s with closed := true, sessions := fun _ => none }.goto i .sweeping)
  | .sweeping => some (s.goto i .done)
  | _ => none

/-- A migration commit takes out every name it prepared. -/
def Sys.commitAll (s : Sys) (prepared : List (Nat × Nat)) : Sys :=
  { s with
    sessions := fun n => if n ∈ prepared.map Prod.fst then none else s.sessions n
    committed := s.committed ++ prepared.map Prod.snd }

def Sys.step (s : Sys) : Ev → Option Sys
  | .call op =>
    match op with
    | .delete id => if id < s.names.length then some { s with threads := s.threads ++ [.waiting op] } else none
    | .terminate id => if id < s.names.length then some { s with threads := s.threads ++ [.waiting op] } else none
    | _ => some { s with threads := s.threads ++ [.waiting op] }
  | .lock i =>
    match s.threads[i]? with
    | some (.waiting op) => s.lock i op
    | _ => none
  | .section i =>
    match s.threads[i]? with
    | some pc => s.section i pc
    | none => none
  | .fail i =>
    match s.threads[i]? with
    | some (.launch n) => some (s.goto i (.release n))
    | _ => none
  | .refuse i =>
    match s.threads[i]? with
    | some (.reserve _) => some (s.goto i .done)
    | some (.checkDelete _) => some (s.goto i .done)
    | some (.checkTerminate _) => some (s.goto i .done)
    | _ => none
  | .prepare i n =>
    match s.threads[i]?, s.sessions n with
    | some (.frozen l), some id => if n ∈ l.map Prod.fst then none else some (s.goto i (.frozen (l ++ [(n, id)])))
    | _, _ => none
  | .commit i =>
    match s.threads[i]? with
    | some (.frozen l) => some ((s.commitAll l).goto i .done)
    | _ => none
  | .abort i =>
    match s.threads[i]? with
    | some (.frozen _) => some (s.goto i .done)
    | _ => none

/-- `New`: nothing started, nobody calling. -/
def fresh : Sys := ⟨fun _ => none, fun _ => false, false, [], [], [], [], []⟩

def machine : Lib.Machine Sys Ev := ⟨fun s => s = fresh, Sys.step⟩

end Ghostline.Hub
