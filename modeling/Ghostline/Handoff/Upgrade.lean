/-
  Ghostline.Handoff.Upgrade — a rolling upgrade: the source, the target (migrate.go:
  `adoptSessionsWithReport`) and the connection between them.

  The target is one call of `adoptSessionsWithReport`. `Pc` is where it stands: before a
  call to the source, waiting for its reply, or at what it does between the calls.

  - The connection keeps what was written in order. A side reads what was written before
    the other side closed; what it writes after that is lost, and so is what it reads
    after it closed itself. Any read or write may fail: the connection breaks, a deadline
    passes, or the context is cancelled and its watcher closes the connection (`cut`).
  - A reply that comes too late is read by a later call, which refuses it by its number.
    The descriptors it carries stay in `received`.
  - Both sides run this version of the protocol, so the handoff from v0 is left out.
  - A session the target reads is in `reading`, by the session whose master it reads.
  - `names` records the sessions the source began with.
-/

import Ghostline.Lib.Machine
import Ghostline.Handoff.Source

namespace Ghostline.Handoff

open Lib Session

/-! ## The target -/

/-- A prepared session state. -/
structure Adoption where
  name : Nat
  master : Option Nat
  closed : Bool
  deriving DecidableEq, Repr

/-- The calls of the target. `n` is the listed name it is at and `rest` those behind it;
    `name` is what the reply to `adopt` said. -/
inductive Stage where
  | list
  | adopt (n : Nat) (rest : List Nat)
  | snapshot (n : Nat) (rest : List Nat) (name : Nat) (master : Option Nat)
  /-- The second `adopt`, after a failed `snapshot`. -/
  | retry (n : Nat) (rest : List Nat) (name : Nat)
  | abortSingle (name : Nat) (rest : List Nat)
  | commit
  | abort
  | exit
  deriving DecidableEq, Repr

inductive Pc where
  | call (st : Stage)
  | wait (st : Stage) (id : Nat)
  | takeFD (n : Nat) (rest : List Nat) (name : Nat) (again : Option Nat)
  | build (n : Nat) (rest : List Nat) (name : Nat) (master : Option Nat)
  | insert
  /-- Starting the copy loop of the `k`-th state, and closing it. -/
  | start (k : Nat)
  | closing (k : Nat)
  | returned (ok : Bool)
  deriving DecidableEq, Repr

inductive TargetEv where
  | cancel
  /-- The watcher of a cancelled context closes the connection. -/
  | cut
  | send
  | recv
  | fail
  | build (ok : Bool)
  | go
  deriving DecidableEq, Repr

structure Target where
  pc : Pc
  nextID : Nat
  cancelled : Bool
  /-- This side has closed the connection. -/
  closed : Bool
  received : List Nat
  prepared : List Adoption
  skipped : List Nat
  hub : List Nat
  reading : List Nat

namespace Target

variable (t : Target)

def goto (pc : Pc) : Target := { t with pc := pc }

def names : List Nat := t.prepared.map Adoption.name

def request : Stage → Request
  | .list => .list
  | .adopt n _ | .retry n _ _ => .adopt n
  | .snapshot _ _ name _ => .snapshot name
  | .abortSingle name _ => .abort [name]
  | .commit => .commit t.names
  | .abort => .abort t.names
  | .exit => .exit

/-- The calls made with the caller's context. -/
def usesContext : Stage → Bool
  | .abortSingle _ _ | .abort | .exit => false
  | _ => true

def leave (ok : Bool) : Target := { t with pc := .returned ok, closed := true, received := [] }

/-- A return before the commit: the deferred `abort`. -/
def giveUp : Target := if t.prepared.isEmpty then t.leave false else t.goto (.call .abort)

/-- On to the next listed session, or to the commit. -/
def next : List Nat → Target
  | n :: rest => t.goto (.call (.adopt n rest))
  | [] => if t.skipped.isEmpty then t.goto (.call .commit) else t.giveUp

def skip (n name : Nat) (rest : List Nat) : Target :=
  { t with skipped := t.skipped ++ [n] }.goto (.call (.abortSingle name rest))

/-- The call returns an error. -/
def failed : Stage → Target
  | .list => t.leave false
  | .adopt n rest => t.skip n n rest
  | .snapshot n rest name _ => t.goto (.call (.retry n rest name))
  | .retry n rest name => t.skip n name rest
  | .abortSingle _ rest => t.next rest
  | .commit => t.giveUp
  | .abort => t.goto (.closing 0)
  | .exit => t.leave true

/-- The call returns a result. The number of a reply says which call it is for, so no other
    pairs of stage and reply occur. -/
def answered : Stage → Reply → Target
  | .list, .listed names => t.next names
  | .adopt n rest, .adopted name alive _ =>
    t.goto (if alive then .takeFD n rest name none else .call (.snapshot n rest name none))
  | .retry n rest first, .adopted name alive _ =>
    t.goto (if alive then .takeFD n rest name (some first) else .build n rest name none)
  | .snapshot n rest name master, .snapshot => t.goto (.build n rest name master)
  | .commit, .resolved committed => if committed = t.prepared.length then t.goto .insert else t.giveUp
  | .abortSingle _ rest, .resolved _ => t.next rest
  | .abort, .resolved _ => t.goto (.closing 0)
  | .exit, .exiting => t.leave true
  | st, _ => t.failed st

def prepare (a : Adoption) : Target := { t with prepared := t.prepared ++ [a] }

def close (k : Nat) : Target := { t with prepared := t.prepared.modify k ({ · with closed := true }) }

def step : TargetEv → Option Target
  | .cancel => some { t with cancelled := true }
  | .cut => if t.cancelled then some { t with closed := true } else none
  | .fail =>
    match t.pc with
    | .call st =>
      -- a done context is found before the request gets its number
      some ({ t with nextID := if usesContext st && t.cancelled then t.nextID else t.nextID + 1 }.failed st)
    | .wait st _ => some (t.failed st)
    | .takeFD n rest _ again =>
      if t.received.isEmpty then
        some (match again with
          | none => t.failed (.adopt n rest)
          | some first => t.failed (.retry n rest first))
      else none
    | _ => none
  | .build ok =>
    match t.pc with
    | .build n rest name master =>
      some (if ok then (t.prepare ⟨name, master, false⟩).next rest else t.skip n name rest)
    | _ => none
  | .go =>
    match t.pc with
    | .takeFD n rest name again =>
      match t.received with
      | fd :: received =>
        some ({ t with received := received }.goto
          (if again.isSome then .build n rest name (some fd) else .call (.snapshot n rest name (some fd))))
      | [] => none
    | .insert => some { t with hub := t.names, pc := .start 0 }
    | .start k =>
      match t.prepared[k]? with
      | some a => some { t with reading := t.reading ++ a.master.toList, pc := .start (k + 1) }
      | none => some (t.goto (.call .exit))
    | .closing k =>
      if k < t.prepared.length then some ((t.close k).goto (.closing (k + 1))) else some (t.leave false)
    | _ => none
  | .send | .recv => none

/-- The call's request is written. -/
def sent (st : Stage) : Target := { t with pc := .wait st t.nextID, nextID := t.nextID + 1 }

/-- A reply is read, with the descriptor it carries. -/
def receives (st : Stage) (id : Nat) (q : Nat × Reply) : Target :=
  let t := { t with received := t.received ++ q.2.fds }
  if q.1 = id then
    match q.2 with
    | .error _ => t.failed st
    | r => t.answered st r
  else t.failed st

end Target

/-! ## The machine -/

structure Sys where
  source : Source
  target : Target
  up : List (Nat × Request)
  down : List (Nat × Reply)
  names : List Nat

inductive SourceEv where
  | read
  | readFailed
  | write (ok : Bool)
  | act (e : AdminEv)
  deriving DecidableEq, Repr

inductive Ev where
  | loop (n : Nat) (e : LoopEv)
  | child (n : Nat) (e : Core.ChildEv)
  | source (e : SourceEv)
  | target (e : TargetEv)
  deriving DecidableEq, Repr

namespace Sys

def sourceStep (s : Sys) : SourceEv → Option Sys
  | .read =>
    match s.source.admin, s.up with
    | .idle, (id, r) :: up => some { s with source := s.source.handle id r, up := up }
    | _, _ => none
  | .readFailed => if s.source.admin = .idle then some { s with source := s.source.goto (.leaving none) } else none
  | .write ok =>
    match s.source.admin with
    | .reply id r _ =>
      if ok && s.target.closed then none
      else
        (s.source.wrote ok).map fun source =>
          { s with source := source, down := if ok then s.down ++ [(id, r)] else s.down }
    | _ => none
  | .act e => (s.source.step e).map fun source => { s with source := source }

def targetStep (s : Sys) : TargetEv → Option Sys
  | .send =>
    match s.target.pc with
    | .call st =>
      if s.target.closed || (Target.usesContext st && s.target.cancelled) || s.source.admin == .returned then none
      else
        some { s with target := s.target.sent st, up := s.up ++ [(s.target.nextID, s.target.request st)] }
    | _ => none
  | .recv =>
    match s.target.pc, s.down with
    | .wait st id, q :: down =>
      if s.target.closed then none else some { s with target := s.target.receives st id q, down := down }
    | _, _ => none
  | e => (s.target.step e).map fun target => { s with target := target }

def step (s : Sys) : Ev → Option Sys
  | .loop n e =>
    ((s.source.sessions n).core.loopStep e).map fun c =>
      { s with source := s.source.set n { s.source.sessions n with core := c } }
  | .child n e =>
    ((s.source.sessions n).core.childStep e).map fun c =>
      { s with source := s.source.set n { s.source.sessions n with core := c } }
  | .source e => s.sourceStep e
  | .target e => s.targetStep e

end Sys

/-! ## What a step does -/

/-- What the target does between its calls, and how they fail. -/
inductive Turn (t : Target) : TargetEv → Target → Prop
  | cancel : Turn t .cancel { t with cancelled := true }
  | cut : t.cancelled = true → Turn t .cut { t with closed := true }
  | unsent {st : Stage} {k : Nat} : t.pc = .call st → t.nextID ≤ k → Turn t .fail ({ t with nextID := k }.failed st)
  | failed {st : Stage} {id : Nat} : t.pc = .wait st id → Turn t .fail (t.failed st)
  | noFD {n name x : Nat} {rest : List Nat} {again : Option Nat} : t.pc = .takeFD n rest name again → t.received = [] →
      Turn t .fail (t.skip n x rest)
  | takeFD {n name fd : Nat} {rest received : List Nat} {again : Option Nat} : t.pc = .takeFD n rest name again →
      t.received = fd :: received → Turn t .go ({ t with received := received }.goto
        (if again.isSome then .build n rest name (some fd) else .call (.snapshot n rest name (some fd))))
  | built {n name : Nat} {rest : List Nat} {master : Option Nat} : t.pc = .build n rest name master →
      Turn t (.build true) ((t.prepare ⟨name, master, false⟩).next rest)
  | unbuilt {n name : Nat} {rest : List Nat} {master : Option Nat} : t.pc = .build n rest name master →
      Turn t (.build false) (t.skip n name rest)
  | insert : t.pc = .insert → Turn t .go { t with hub := t.names, pc := .start 0 }
  | start {k : Nat} {a : Adoption} : t.pc = .start k → t.prepared[k]? = some a →
      Turn t .go { t with reading := t.reading ++ a.master.toList, pc := .start (k + 1) }
  | started {k : Nat} : t.pc = .start k → t.prepared[k]? = none → Turn t .go (t.goto (.call .exit))
  | close {k : Nat} : t.pc = .closing k → k < t.prepared.length → Turn t .go ((t.close k).goto (.closing (k + 1)))
  | closed {k : Nat} : t.pc = .closing k → t.prepared.length ≤ k → Turn t .go (t.leave false)

theorem turn_of_step {t t' : Target} {e : TargetEv} (h : t.step e = some t') : Turn t e t' := by
  revert h
  fun_cases Target.step t e
  all_goals intro h
  case case4 hp => cases h; exact .unsent hp (by split <;> omega)
  case case6 hp hr =>
    cases h
    rw [List.isEmpty_iff] at hr
    split <;> exact .noFD hp hr
  case case9 hp =>
    cases h
    split
    · rename_i hok; subst hok; exact .built hp
    · rename_i hok
      rw [Bool.not_eq_true] at hok
      subst hok
      exact .unbuilt hp
  case case11 hp _ _ hr => cases h; exact .takeFD hp hr
  all_goals grind [Turn]

inductive TargetMove (s : Sys) : TargetEv → Sys → Prop
  | send {st : Stage} : s.target.pc = .call st → s.target.closed = false →
      TargetMove s .send { s with target := s.target.sent st, up := s.up ++ [(s.target.nextID, s.target.request st)] }
  | recv {st : Stage} {id : Nat} {q : Nat × Reply} {down : List (Nat × Reply)} : s.target.pc = .wait st id →
      s.down = q :: down → s.target.closed = false →
      TargetMove s .recv { s with target := s.target.receives st id q, down := down }
  | act {e : TargetEv} {t : Target} : Turn s.target e t → TargetMove s e { s with target := t }

theorem targetStep_move {s s' : Sys} {e : TargetEv} (h : s.targetStep e = some s') : TargetMove s e s' := by
  revert h
  fun_cases Sys.targetStep s e
  case case2 hp hc =>
    intro h
    cases h
    simp only [Bool.or_eq_true, not_or, Bool.not_eq_true] at hc
    exact .send hp hc.1.1
  case case5 hd hp hc =>
    intro h
    cases h
    exact .recv hp hd (by simpa using hc)
  case case7 =>
    intro h
    obtain ⟨t, ht, rfl⟩ := Option.map_eq_some_iff.mp h
    exact .act (turn_of_step ht)
  all_goals intro h; cases h

inductive Move (s : Sys) : Ev → Sys → Prop
  | loop {n : Nat} {e : LoopEv} {c : Core} : LoopMove (s.source.sessions n).core e c →
      Move s (.loop n e) { s with source := s.source.set n { s.source.sessions n with core := c } }
  | child {n : Nat} {e : Core.ChildEv} {c : Core} : (s.source.sessions n).core.childStep e = some c →
      Move s (.child n e) { s with source := s.source.set n { s.source.sessions n with core := c } }
  | read {q : Nat × Request} {up : List (Nat × Request)} : s.source.admin = .idle → s.up = q :: up →
      Move s (.source .read) { s with source := s.source.handle q.1 q.2, up := up }
  | readFailed : s.source.admin = .idle →
      Move s (.source .readFailed) { s with source := s.source.goto (.leaving none) }
  | write {id : Nat} {r : Reply} {a : After} {ok : Bool} {source : Source} : s.source.admin = .reply id r a →
      s.source.wrote ok = some source → (ok = true → s.target.closed = false) →
      Move s (.source (.write ok)) { s with source := source, down := if ok then s.down ++ [(id, r)] else s.down }
  | act {e : AdminEv} {source : Source} : Act s.source e source →
      Move s (.source (.act e)) { s with source := source }
  | target {e : TargetEv} {s' : Sys} : TargetMove s e s' → Move s (.target e) s'

theorem step_move {s s' : Sys} {e : Ev} (h : s.step e = some s') : Move s e s' := by
  cases e with
  | loop n e =>
    obtain ⟨c, hc, rfl⟩ := Option.map_eq_some_iff.mp h
    exact .loop (loopStep_move hc)
  | child n e =>
    obtain ⟨c, hc, rfl⟩ := Option.map_eq_some_iff.mp h
    exact .child hc
  | target e => exact .target (targetStep_move h)
  | source e =>
    cases e with
    | read =>
      simp only [Sys.step, Sys.sourceStep] at h
      split at h
      · rename_i ha hu; cases h; exact .read ha hu
      · cases h
    | readFailed =>
      simp only [Sys.step, Sys.sourceStep, Option.ite_none_right_eq_some, Option.some.injEq] at h
      obtain ⟨ha, rfl⟩ := h
      exact .readFailed ha
    | write ok =>
      simp only [Sys.step, Sys.sourceStep] at h
      split at h
      · rename_i ha
        simp only [Option.ite_none_left_eq_some, Bool.and_eq_true, not_and, Bool.not_eq_true] at h
        obtain ⟨hc, h⟩ := h
        obtain ⟨source, hw, rfl⟩ := Option.map_eq_some_iff.mp h
        exact .write ha hw hc
      · cases h
    | act e =>
      obtain ⟨source, ha, rfl⟩ := Option.map_eq_some_iff.mp h
      exact .act (act_of_step ha)

/-! ## Where an upgrade begins -/

/-- A session between two migrations: adopted without a master, or after any run since it
    was started or adopted. -/
def Resting (x : Release.Sys) : Prop :=
  x = ⟨Core.dead, .idle⟩ ∨
    Release.machine.Reach Machine.always x ∧ x.handler = .idle ∧ x.core.migrated = false

/-- The source with its sessions, and a target that has just connected. -/
def begun (sessions : Nat → Release.Sys) (hub : List Nat) : Sys where
  source := ⟨sessions, hub, [], false, .idle⟩
  target := ⟨.call .list, 1, false, false, [], [], [], [], []⟩
  up := []
  down := []
  names := hub

def machine : Machine Sys Ev where
  init s := ∃ sessions hub, (∀ n, Resting (sessions n)) ∧ s = begun sessions hub
  step := Sys.step

end Ghostline.Handoff
