/-
  Ghostline.Handoff.Source — the source of a rolling upgrade (server.go: `handleAdmin`).

  The handler serves one connection. `Admin` is where it stands between two actions that
  a copy loop or the other process can see; where it stands within `beginMigration` and
  `finishMigration` of a session is that session's `Handler`. Reading requests and writing
  replies is left to the connection (`Handoff.Upgrade`).

  - Names are numbers, and a session is known by its name: the map `sessions` of the hub
    only loses names here. The batch keeps every other call out of the hub.
  - `pending` has the names of the map `pending`; a session's ticket is its handler's.
  - A request is one of the six the target makes, with its parameters decoded.
  - What a snapshot holds is not looked at: the reply says only that there is one.
-/

import Ghostline.Session.Halt

namespace Ghostline.Handoff

open Lib Session

/-! ## Messages -/

inductive Request where
  | list
  | adopt (name : Nat)
  | snapshot (name : Nat)
  | commit (names : List Nat)
  | abort (names : List Nat)
  | exit
  deriving DecidableEq, Repr

inductive Reply where
  /-- `none`: an error of the session itself, its ticket's or its log's. -/
  | error (e : Option Err)
  | listed (names : List Nat)
  /-- The session's name and whether it is alive; `fd` is the session whose master comes along. -/
  | adopted (name : Nat) (alive : Bool) (fd : Option Nat)
  | snapshot
  | resolved (committed : Nat)
  | exiting
  deriving DecidableEq, Repr

/-- The descriptors that come with a reply. -/
def Reply.fds : Reply → List Nat
  | .adopted _ _ fd => fd.toList
  | _ => []

def errMigrationBusy : Err := .other "session migration already in progress"

def errMigrationStale : Err := .other "session migration is no longer active"

/-! ## The handler -/

/-- What follows a reply: the next request, the end of an idle batch first, or the return. -/
inductive After where
  | again
  | endBatch
  | leave
  deriving DecidableEq, Repr

inductive Admin where
  /-- Waiting for a request. -/
  | idle
  | listing (id : Nat)
  /-- `adopt`: up to the reply, and resolving the ticket after a failure. -/
  | adopting (id name : Nat)
  | undoing (id name : Nat) (e : Option Err)
  /-- `commit` and `abort`: `rest` is what the current loop over the names has still to do. -/
  | preflight (id : Nat) (names rest : List Nat)
  | rollback (id : Nat) (rest : List Nat) (e : Option Err)
  | resolving (id : Nat) (commit : Bool) (names rest : List Nat) (failed : Bool)
  | recovering (id : Nat) (rest : List Nat)
  | forgetting (id : Nat) (commit : Bool) (names rest : List Nat)
  | reply (id : Nat) (r : Reply) (after : After)
  /-- In the deferred call, resolving the session named. -/
  | leaving (name : Option Nat)
  | returned
  deriving DecidableEq, Repr

inductive AdminEv where
  | go
  /-- `list`: every session is described, or the hub is closed, or a description fails. -/
  | listed
  | hubClosed
  | listFailed
  | timeout
  /-- `adopt`: the session is described, or its log has failed. -/
  | described (ok : Bool)
  /-- The deferred call goes on with this session. -/
  | pick (name : Nat)
  deriving DecidableEq, Repr

structure Source where
  sessions : Nat → Release.Sys
  hub : List Nat
  pending : List Nat
  batchFrozen : Bool
  admin : Admin

namespace Source

variable (s : Source)

def set (n : Nat) (x : Release.Sys) : Source := { s with sessions := Function.update s.sessions n x }

def setHandler (n : Nat) (h : Handler) : Source := s.set n { s.sessions n with handler := h }

def goto (a : Admin) : Source := { s with admin := a }

def refuse (id : Nat) (e : Option Err) : Source := s.goto (.reply id (.error e) .again)

/-- `delete(pending, name)`. -/
def forget (n : Nat) : Source := { s.setHandler n .idle with pending := s.pending.filter (· ≠ n) }

def remove (n : Nat) : Source := { s with hub := s.hub.filter (· ≠ n) }

def endBatchIfIdle : Source := if s.batchFrozen && s.pending.isEmpty then { s with batchFrozen := false } else s

/-! ## Requests -/

def adopt (id n : Nat) : Source :=
  if !s.batchFrozen then s.refuse id (some (.other "send list before adopt"))
  else if n ∈ s.pending then s.refuse id (some (.other "session already prepared"))
  else if n ∉ s.hub then s.refuse id (some (.sentinel .sessionNotFound))
  else
    match Release.step (s.sessions n) .begin with
    | none => s.refuse id (some errMigrationBusy)
    | some x => { s.set n x with pending := s.pending ++ [n] }.goto (.adopting id n)

/-- Each name once, and each prepared. -/
def prepared (names : List Nat) : Bool := decide names.Nodup && names.all (· ∈ s.pending)

def handle (id : Nat) : Request → Source
  | .list => if s.batchFrozen then s.refuse id (some (.other "migration batch already active")) else s.goto (.listing id)
  | .adopt n => s.adopt id n
  | .snapshot n =>
    if n ∈ s.pending then s.goto (.reply id .snapshot .again)
    else s.refuse id (some (.other "session not prepared for adoption"))
  | .commit names =>
    if s.prepared names then s.goto (.preflight id names names)
    else s.refuse id (some (.other "one or more sessions not prepared"))
  | .abort names =>
    if s.prepared names then s.goto (.resolving id false names names false)
    else s.refuse id (some (.other "one or more sessions not prepared"))
  | .exit =>
    if s.pending.isEmpty then s.goto (.reply id .exiting .leave)
    else s.refuse id (some (.other "migration batch is not committed"))

/-! ## Actions -/

/-- The next action of `resolveAdoption`; its result once it is over. -/
def resolveAdoption (n : Nat) (commit : Bool) : Option (Source × Option Bool) :=
  match (s.sessions n).handler with
  | .awaiting t | .prepared t => some (s.setHandler n (.finish t (.start commit)), none)
  | .finish _ (.finished err) => some (s, some (err && commit))
  | .finish t f => ((s.sessions n).core.finStep t f).map fun p => (s.set n ⟨p.1, .finish t p.2⟩, none)
  | _ => none

/-- The session's migration is the one of its ticket. -/
def current (n : Nat) : Bool :=
  match (s.sessions n).handler.ticket with
  | some t => (s.sessions n).core.migration == some t
  | none => false

/-- What the preflight finds wrong with a session. -/
def unstable (n : Nat) : Option (Option Err) :=
  match (s.sessions n).handler.ticket with
  | some t =>
    if ((s.sessions n).core.tickets t).failed then some none
    else if s.current n then none
    else some (some errMigrationStale)
  | none => none

def step (e : AdminEv) : Option Source :=
  match s.admin, e with
  | .listing id, .listed => some ({ s with batchFrozen := true }.goto (.reply id (.listed s.hub) .again))
  | .listing id, .hubClosed => some (s.refuse id (some (.other "migration batch already active")))
  | .listing id, .listFailed => some (s.refuse id none)
  | .adopting id n, .go =>
    match (s.sessions n).handler with
    | .wake t => some (s.set n ⟨(s.sessions n).core.signalMigrationWake, .awaiting t⟩)
    | .awaiting t =>
      if ((s.sessions n).core.tickets t).stable then
        some (if ((s.sessions n).core.tickets t).failed then s.goto (.undoing id n none) else s.setHandler n (.prepared t))
      else none
    | _ => none
  | .adopting id n, .timeout =>
    match (s.sessions n).handler with
    | .awaiting _ => some (s.goto (.undoing id n (some (.other "migration timed out"))))
    | _ => none
  | .adopting id n, .described ok =>
    match (s.sessions n).handler with
    | .prepared t =>
      let c := (s.sessions n).core
      some (s.goto (if ok then .reply id (.adopted n (!c.done) (if (c.tickets t).alive then some n else none)) .again
        else .undoing id n none))
    | _ => none
  | .undoing id n e, .go =>
    (s.resolveAdoption n false).map fun r => if r.2.isSome then (r.1.forget n).refuse id e else r.1
  | .preflight id names [], .go => some (s.goto (.resolving id true names names false))
  | .preflight id names (n :: rest), .go =>
    some (s.goto (match s.unstable n with
      | some e => .rollback id names e
      | none => .preflight id names rest))
  | .rollback id [] e, .go => some (s.endBatchIfIdle.refuse id e)
  | .rollback id (n :: rest) e, .go =>
    match (s.sessions n).handler with
    | .prepared _ =>
      if s.current n then (s.resolveAdoption n false).map (·.1) else some ((s.forget n).goto (.rollback id rest e))
    | _ => (s.resolveAdoption n false).map fun r => if r.2.isSome then (r.1.forget n).goto (.rollback id rest e) else r.1
  | .resolving id commit names [] failed, .go =>
    some (s.goto (if failed then .recovering id names else .forgetting id commit names names))
  | .resolving id commit names (n :: rest) failed, .go =>
    (s.resolveAdoption n commit).map fun r =>
      match r.2 with
      | some err => r.1.goto (.resolving id commit names rest (failed || err))
      | none => r.1
  | .recovering id [], .go => some (s.endBatchIfIdle.goto (.reply id (.error none) .leave))
  | .recovering id (n :: rest), .go =>
    match (s.sessions n).handler with
    | .finish t (.finished _) =>
      if s.current n then some (s.setHandler n (.finish t (.start false)))
      else
        let s' := if (s.sessions n).core.migrated then (s.forget n).remove n else s.forget n
        some (s'.goto (.recovering id rest))
    | _ => (s.resolveAdoption n false).map (·.1)
  | .forgetting id commit names [], .go =>
    some (s.goto (.reply id (.resolved names.length) (if commit then .endBatch else .again)))
  | .forgetting id commit names (n :: rest), .go =>
    let s' := if commit then (s.forget n).remove n else s.forget n
    some (s'.goto (.forgetting id commit names rest))
  | .leaving none, .pick n => if n ∈ s.pending then some (s.goto (.leaving (some n))) else none
  | .leaving none, .go => if s.pending.isEmpty then some ({ s with batchFrozen := false }.goto .returned) else none
  | .leaving (some n), .go =>
    (s.resolveAdoption n false).map fun r => if r.2.isSome then (r.1.forget n).goto (.leaving none) else r.1
  | _, _ => none

/-- What the handler does when its reply was written, or was not. -/
def wrote (ok : Bool) : Option Source :=
  match s.admin with
  | .reply _ r after =>
    match r, after, ok with
    | .error _, .again, _ => some (s.goto .idle)
    | _, .leave, _ => some (s.goto (.leaving none))
    | _, .again, true => some (s.goto .idle)
    | _, .endBatch, true => some (s.endBatchIfIdle.goto .idle)
    | _, _, false => some (s.goto (.leaving none))
  | _ => none

end Source

/-! ## What an action does -/

/-- The session whose ticket is being resolved, and the decision. -/
def Admin.resolves : Admin → Option (Nat × Bool)
  | .undoing _ n _ | .rollback _ (n :: _) _ | .leaving (some n) | .recovering _ (n :: _) => some (n, false)
  | .resolving _ commit _ (n :: _) _ => some (n, commit)
  | _ => none

variable {s s' : Source} {e : AdminEv}

inductive Resolve (s : Source) (n : Nat) (commit : Bool) : Source → Option Bool → Prop
  | start {t : Nat} : (s.sessions n).handler = .awaiting t ∨ (s.sessions n).handler = .prepared t →
      Resolve s n commit (s.setHandler n (.finish t (.start commit))) none
  | act {t : Nat} {f f' : Core.Fin} {c : Core} : (s.sessions n).handler = .finish t f →
      FinMove (s.sessions n).core t f c f' → Resolve s n commit (s.set n ⟨c, .finish t f'⟩) none
  | ended {t : Nat} {err : Bool} : (s.sessions n).handler = .finish t (.finished err) →
      Resolve s n commit s (some (err && commit))

theorem resolveAdoption_move {n : Nat} {commit : Bool} {r : Source × Option Bool}
    (h : s.resolveAdoption n commit = some r) : Resolve s n commit r.1 r.2 := by
  unfold Source.resolveAdoption at h
  split at h
  · rename_i hh; cases h; exact .start (.inl hh)
  · rename_i hh; cases h; exact .start (.inr hh)
  · rename_i hh; cases h; exact .ended hh
  · rename_i hh
    obtain ⟨p, hp, rfl⟩ := Option.map_eq_some_iff.mp h
    exact .act hh (finStep_move hp)
  · cases h

inductive Act (s : Source) : AdminEv → Source → Prop
  | listed {id : Nat} : s.admin = .listing id →
      Act s .listed ({ s with batchFrozen := true }.goto (.reply id (.listed s.hub) .again))
  | unlisted {id : Nat} {e : AdminEv} {err : Option Err} : s.admin = .listing id → Act s e (s.refuse id err)
  | signal {id n t : Nat} : s.admin = .adopting id n → (s.sessions n).handler = .wake t →
      Act s .go (s.set n ⟨(s.sessions n).core.signalMigrationWake, .awaiting t⟩)
  | stable {id n t : Nat} : s.admin = .adopting id n → (s.sessions n).handler = .awaiting t →
      ((s.sessions n).core.tickets t).stable = true → ((s.sessions n).core.tickets t).failed = false →
      Act s .go (s.setHandler n (.prepared t))
  | described {id n t : Nat} : s.admin = .adopting id n → (s.sessions n).handler = .prepared t →
      Act s (.described true) (s.goto (.reply id (.adopted n (!(s.sessions n).core.done)
        (if ((s.sessions n).core.tickets t).alive then some n else none)) .again))
  /-- The ticket has failed or not come in time, or the log has failed. -/
  | undo {id n t : Nat} {e : AdminEv} {err : Option Err} : s.admin = .adopting id n →
      (s.sessions n).handler = .awaiting t ∨ (s.sessions n).handler = .prepared t → Act s e (s.goto (.undoing id n err))
  | resolve {n : Nat} {commit : Bool} {s' : Source} : s.admin.resolves = some (n, commit) →
      Resolve s n commit s' none → Act s .go s'
  | undone {id n : Nat} {err : Option Err} {b : Bool} : s.admin = .undoing id n err → Resolve s n false s (some b) →
      Act s .go ((s.forget n).refuse id err)
  | preflight {id n : Nat} {names rest : List Nat} : s.admin = .preflight id names (n :: rest) → s.unstable n = none →
      Act s .go (s.goto (.preflight id names rest))
  | unsettled {id n : Nat} {names rest : List Nat} {err : Option Err} : s.admin = .preflight id names (n :: rest) →
      Act s .go (s.goto (.rollback id names err))
  | settled {id : Nat} {names : List Nat} : s.admin = .preflight id names [] →
      Act s .go (s.goto (.resolving id true names names false))
  | rolledBack {id : Nat} {err : Option Err} : s.admin = .rollback id [] err → Act s .go (s.endBatchIfIdle.refuse id err)
  | stale {id n t : Nat} {rest : List Nat} {err : Option Err} : s.admin = .rollback id (n :: rest) err →
      (s.sessions n).handler = .prepared t → Act s .go ((s.forget n).goto (.rollback id rest err))
  | rolled {id n : Nat} {rest : List Nat} {err : Option Err} {b : Bool} : s.admin = .rollback id (n :: rest) err →
      Resolve s n false s (some b) → Act s .go ((s.forget n).goto (.rollback id rest err))
  | resolved {id n : Nat} {names rest : List Nat} {commit failed err : Bool} :
      s.admin = .resolving id commit names (n :: rest) failed → Resolve s n commit s (some err) →
      Act s .go (s.goto (.resolving id commit names rest (failed || err)))
  | resolvedAll {id : Nat} {names : List Nat} {commit failed : Bool} : s.admin = .resolving id commit names [] failed →
      Act s .go (s.goto (if failed then .recovering id names else .forgetting id commit names names))
  | recover {id : Nat} {rest : List Nat} {s' : Source} : s.admin = .recovering id rest → Act s .go s'
  | forget {id n : Nat} {names rest : List Nat} {commit : Bool} : s.admin = .forgetting id commit names (n :: rest) →
      Act s .go ((if commit then (s.forget n).remove n else s.forget n).goto (.forgetting id commit names rest))
  | forgotten {id : Nat} {names : List Nat} {commit : Bool} : s.admin = .forgetting id commit names [] →
      Act s .go (s.goto (.reply id (.resolved names.length) (if commit then .endBatch else .again)))
  | pick {n : Nat} : s.admin = .leaving none → n ∈ s.pending → Act s (.pick n) (s.goto (.leaving (some n)))
  | left {n : Nat} {b : Bool} : s.admin = .leaving (some n) → Resolve s n false s (some b) →
      Act s .go ((s.forget n).goto (.leaving none))
  | done : s.admin = .leaving none → s.pending = [] →
      Act s .go ({ s with batchFrozen := false }.goto .returned)

/-- The handler that has a reply to write does nothing else. -/
theorem Act.no_reply {e : AdminEv} {i : Nat} {r : Reply} {a : After} (h : Act s e s') : s.admin ≠ .reply i r a := by
  intro ha
  cases h <;> simp_all [Admin.resolves]

theorem Resolve.finished {n : Nat} {commit b : Bool} (h : Resolve s n commit s' (some b)) :
    ∃ t err, (s.sessions n).handler = .finish t (.finished err) ∧ b = (err && commit) ∧ s' = s := by
  cases h with
  | ended hh => exact ⟨_, _, hh, rfl, rfl⟩

/-- What resolves a session goes on with it, or is over with nothing changed. -/
theorem resolveAdoption_map {n : Nat} {commit : Bool} {g : Source × Option Bool → Source}
    (h : (s.resolveAdoption n commit).map g = some s') :
    (∃ t, Resolve s n commit t none ∧ s' = g (t, none)) ∨ ∃ b, Resolve s n commit s (some b) ∧ s' = g (s, some b) := by
  obtain ⟨⟨t, b⟩, hr, rfl⟩ := Option.map_eq_some_iff.mp h
  have hm := resolveAdoption_move hr
  cases b with
  | none => exact .inl ⟨t, hm, rfl⟩
  | some b =>
    obtain ⟨-, -, -, -, rfl⟩ := hm.finished
    exact .inr ⟨b, hm, rfl⟩

theorem act_of_step (h : s.step e = some s') : Act s e s' := by
  revert h
  fun_cases Source.step s e
  all_goals intro h
  case case10 ha _ hh _ =>
    cases h
    split
    · rename_i hok; subst hok; exact .described ha hh
    · exact .undo ha (.inr hh)
  case case12 ha =>
    rcases resolveAdoption_map h with ⟨t, hr, rfl⟩ | ⟨b, hr, rfl⟩
    · exact .resolve (by rw [ha]; rfl) hr
    · exact .undone ha hr
  case case14 ha =>
    cases h
    split
    · exact .unsettled ha
    · rename_i hu; exact .preflight ha hu
  case case16 ha _ hh _ =>
    rcases resolveAdoption_map h with ⟨t, hr, rfl⟩ | ⟨b, hr, rfl⟩
    · exact .resolve (by rw [ha]; rfl) hr
    · obtain ⟨_, _, h', -, -⟩ := hr.finished
      cases hh.symm.trans h'
  case case18 ha _ =>
    rcases resolveAdoption_map h with ⟨t, hr, rfl⟩ | ⟨b, hr, rfl⟩
    · exact .resolve (by rw [ha]; rfl) hr
    · exact .rolled ha hr
  case case20 ha =>
    rcases resolveAdoption_map h with ⟨t, hr, rfl⟩ | ⟨b, hr, rfl⟩
    · exact .resolve (by rw [ha]; rfl) hr
    · exact .resolved ha hr
  case case31 ha =>
    rcases resolveAdoption_map h with ⟨t, hr, rfl⟩ | ⟨b, hr, rfl⟩
    · exact .resolve (by rw [ha]; rfl) hr
    · exact .left ha hr
  all_goals grind [Act]

end Ghostline.Handoff
