/-
  Ghostline.Handoff.Rollback — what a failed adoption leaves behind (migrate.go:
  `adoptSessionsWithReport`; process.go: `adoptLossyState`, `close`; migrate_v0.go:
  `adoptV0State`).

  The call runs to its end here, with what it gets from the outside, the outcome of every
  request and of every system call that may fail, given in an `Attempt`.

  - Descriptors are those that came over the connection, by the order they came in. A
    read may bring any number of them.
  - `root` has the directories the attempt has created under the output root.
  - A session is prepared around the source's output directory, or around a new one: the
    v0 handoff makes one to replay a spool into, the lossy recovery when the source's does
    not open.

  Every descriptor is closed at the end (`Accounts`). But the rollback only closes the
  logs, so a directory that was made for a session that had been prepared stays
  (`failed_adoption_leaves_nothing_iff`).
-/

import Mathlib.Data.List.Perm.Basic
import Ghostline.Types

namespace Ghostline.Handoff.Rollback

/-! ## The target process -/

structure HubState where
  closed : Bool
  sessions : List String
  pending : List String
  deriving DecidableEq, Repr

structure World where
  hub : HubState
  /-- How many descriptors have come in, -/
  arrived : Nat
  /-- those that are open, -/
  opened : List Nat
  /-- and those of them that no session has taken (`transport.received`). -/
  received : List Nat
  created : Nat
  root : List Nat
  deriving DecidableEq, Repr

def World.start (hub : HubState) : World := ⟨hub, 0, [], [], 0, []⟩

/-- A request and its reply; `fds` descriptors come in on the way. -/
structure Call where
  fds : Nat
  ok : Bool
  deriving DecidableEq, Repr

namespace World

variable (w : World)

def receive (n : Nat) : World :=
  let fds := List.range' w.arrived n
  { w with arrived := w.arrived + n, opened := w.opened ++ fds, received := w.received ++ fds }

/-- `n` descriptors come in if it has to wait for one. -/
def takeFD (n : Nat) : Option Nat × World :=
  let w := if w.received = [] then w.receive n else w
  match w.received with
  | [] => (none, w)
  | fd :: rest => (some fd, { w with received := rest })

def close (fd : Nat) : World := { w with opened := w.opened.erase fd }

/-- `closeFileQuietly`; a session that has stopped has no master. -/
def closeMaster : Option Nat → World
  | none => w
  | some fd => w.close fd

def closeReceived : World := w.received.foldl close { w with received := [] }

end World

/-! ## Sessions -/

/-- The reply to `adopt`, and what comes in while its descriptor is waited for. -/
structure Handover where
  call : Call
  name : String
  alive : Bool
  wait : Nat
  deriving DecidableEq, Repr

/-- The master; none if the session has stopped. -/
def receiveAdoptedSession (h : Handover) (w : World) : Option (Option Nat) × World :=
  let w := w.receive h.call.fds
  if !h.call.ok then (none, w)
  else if !h.alive then (some none, w)
  else
    match w.takeFD h.wait with
    | (none, w) => (none, w)
    | (some fd, w) => (some (some fd), w)

/-- Of `createOutputLog`: the directory is made, its segment opens, and if it does not the
    directory is removed again. -/
structure Creation where
  made : Bool
  opens : Bool
  removed : Bool
  deriving DecidableEq, Repr

def createOutputLog (c : Creation) (w : World) : Option Nat × World :=
  if !c.made then (none, w)
  else
    let directory := w.created
    let w := { w with created := w.created + 1, root := w.root ++ [directory] }
    if c.opens then (some directory, w)
    else (none, if c.removed then { w with root := w.root.erase directory } else w)

def discard (removed : Bool) (directory : Nat) (w : World) : World :=
  if removed then { w with root := w.root.erase directory } else w

structure State where
  name : String
  master : Option Nat
  /-- The directory that was made for it. -/
  directory : Option Nat
  deriving DecidableEq, Repr

/-- The wake pipe is made for a session with a master only. -/
def adoptStateWithTerminal (pipe : Bool) (master : Option Nat) : Bool := master.isNone || pipe

/-- A session around a new log; `built` says whether the rest of it can be built, and if not
    the log is discarded. -/
def onFreshLog (c : Creation) (built removed : Bool) (name : String) (master : Option Nat) (w : World) :
    Option State × World :=
  match createOutputLog c w with
  | (none, w) => (none, w)
  | (some directory, w) =>
    if built then (some ⟨name, master, some directory⟩, w) else (none, discard removed directory w)

structure Native where
  /-- The payload is there and decodes, -/
  payload : Bool
  /-- the source's log opens, -/
  opens : Bool
  /-- and the terminal can be restored from it. -/
  restored : Bool
  pipe : Bool
  deriving DecidableEq, Repr

def adoptState (o : Native) (name : String) (master : Option Nat) : Option State :=
  if o.payload && o.opens && o.restored && adoptStateWithTerminal o.pipe master then some ⟨name, master, none⟩ else none

structure Lossy where
  opens : Bool
  fresh : Creation
  vt : Bool
  pipe : Bool
  removed : Bool
  deriving DecidableEq, Repr

def adoptLossyState (o : Lossy) (name : String) (master : Option Nat) (w : World) : Option State × World :=
  let built := o.vt && adoptStateWithTerminal o.pipe master
  if o.opens then (if built then some ⟨name, master, none⟩ else none, w)
  else onFreshLog o.fresh built o.removed name master w

structure V0 where
  fresh : Creation
  vt : Bool
  replayed : Bool
  pipe : Bool
  removed : Bool
  deriving DecidableEq, Repr

def adoptV0State (o : V0) (name : String) (master : Option Nat) (w : World) : Option State × World :=
  onFreshLog o.fresh (o.vt && o.replayed && adoptStateWithTerminal o.pipe master) o.removed name master w

def adoptNativeOrLossyState (native : Native) (lossy : Lossy) (name : String) (master : Option Nat) (w : World) :
    Option State × World :=
  match adoptState native name master with
  | some state => (some state, w)
  | none => adoptLossyState lossy name master w

/-- A listed session, and all that may happen to it. -/
structure Session where
  name : String
  handover : Handover
  /-- The v0 metadata names a spool. -/
  spool : Bool
  v0 : V0
  snapshot : Call
  retry : Handover
  native : Native
  lossy : Lossy
  /-- What comes in with the reply to its own abort. -/
  abort : Nat
  deriving DecidableEq, Repr

/-- A session that could not be built is skipped: its master is closed and it is aborted. -/
def orSkip (s : Session) (master : Option Nat) : Option State × World → Option State × World
  | (some state, w) => (some state, w)
  | (none, w) => (none, (w.closeMaster master).receive s.abort)

/-- One turn of the loop. -/
def prepare (v0Handoff : Bool) (s : Session) (w : World) : Option State × World :=
  match receiveAdoptedSession s.handover w with
  | (none, w) => (none, w.receive s.abort)
  | (some master, w) =>
    if v0Handoff then
      if !s.spool then orSkip s master (adoptLossyState s.lossy s.handover.name master w)
      else
        match adoptV0State s.v0 s.handover.name master w with
        | (some state, w) => (some state, w)
        | (none, w) => orSkip s master (adoptLossyState s.lossy s.handover.name master w)
    else if s.snapshot.ok then
      orSkip s master
        (adoptNativeOrLossyState s.native s.lossy s.handover.name master (w.receive s.snapshot.fds))
    else
      match receiveAdoptedSession s.retry ((w.receive s.snapshot.fds).closeMaster master) with
      | (none, w) => (none, w.receive s.abort)
      | (some master, w) => orSkip s master (adoptLossyState s.lossy s.retry.name master w)

/-- The loop: the prepared states and the skipped names. -/
def prepareAll (v0Handoff : Bool) : List Session → World → (List State × List String) × World
  | [], w => (([], []), w)
  | s :: rest, w =>
    let (state, w) := prepare v0Handoff s w
    let ((prepared, skipped), w) := prepareAll v0Handoff rest w
    ((state.toList ++ prepared, if state.isNone then s.name :: skipped else skipped), w)

/-! ## The call -/

def protocolVersion : String := "1.0.0"
def v0CompatibilityProtocolVersion : String := "0.8.0"
def v0HandoffProtocolVersion : String := "ghostline-v0-to-v1-1"

structure Attempt where
  mkdirAll : Bool
  dial : Bool
  list : Call
  version : String
  handoffVersion : String
  sessions : List Session
  commit : Call
  committed : Nat
  abort : Nat
  exit : Nat
  deriving DecidableEq, Repr

inductive Failure where
  | closed
  | notEmpty
  | createOutputDir
  | connect
  | list
  | handoff (version : String)
  | protocol (version : String)
  | unrecovered (skipped : List String)
  | commit
  | miscounted (committed want : Nat)
  deriving DecidableEq, Repr

/-- What comes before the loop: whether it is a v0 handoff. -/
def opening (a : Attempt) (w : World) : Except Failure Bool × World :=
  if w.hub.closed then (.error .closed, w)
  else if w.hub.sessions ≠ [] ∨ w.hub.pending ≠ [] then (.error .notEmpty, w)
  else if !a.mkdirAll then (.error .createOutputDir, w)
  else if !a.dial then (.error .connect, w)
  else
    let w := w.receive a.list.fds
    if !a.list.ok then (.error .list, w)
    else if a.version = protocolVersion then (.ok false, w)
    else if a.version = v0CompatibilityProtocolVersion then
      if a.handoffVersion = v0HandoffProtocolVersion then (.ok true, w) else (.error (.handoff a.handoffVersion), w)
    else (.error (.protocol a.version), w)

/-- The deferred `abort`, of a call that has not committed. -/
def abort (a : Attempt) (prepared : List State) (w : World) : World :=
  if prepared = [] then w else prepared.foldl (fun w state => w.closeMaster state.master) (w.receive a.abort)

/-- The number of sessions adopted, or the error. -/
def adoptSessionsWithReport (a : Attempt) (hub : HubState) : Except Failure Nat × World :=
  match opening a (World.start hub) with
  | (.error e, w) => (.error e, w.closeReceived)
  | (.ok v0Handoff, w) =>
    let ((prepared, skipped), w) := prepareAll v0Handoff a.sessions w
    if skipped ≠ [] then (.error (.unrecovered skipped), (abort a prepared w).closeReceived)
    else
      let w := w.receive a.commit.fds
      if !a.commit.ok then (.error .commit, (abort a prepared w).closeReceived)
      else if a.committed ≠ prepared.length then
        (.error (.miscounted a.committed prepared.length), (abort a prepared w).closeReceived)
      else
        let hub := { w.hub with sessions := w.hub.sessions ++ prepared.map State.name }
        (.ok prepared.length, (World.receive { w with hub := hub } a.exit).closeReceived)

/-! ## Descriptors -/

variable {w w' : World} {held : List Nat} {master : Option Nat}

/-- What is open is with the transport or `held` by a session. -/
def Accounts (w : World) (held : List Nat) : Prop := w.opened.Perm (w.received ++ held)

/-- Only the directories differ. -/
structure Apart (w w' : World) : Prop where
  hub : w'.hub = w.hub
  opened : w'.opened = w.opened
  received : w'.received = w.received

theorem Apart.refl (w : World) : Apart w w := ⟨rfl, rfl, rfl⟩

theorem Apart.trans {w₁ w₂ w₃ : World} (h : Apart w₁ w₂) (h' : Apart w₂ w₃) : Apart w₁ w₃ :=
  ⟨h'.hub.trans h.hub, h'.opened.trans h.opened, h'.received.trans h.received⟩

theorem Accounts.apart (h : Accounts w held) (ha : Apart w w') : Accounts w' held := by
  unfold Accounts
  rw [ha.opened, ha.received]
  exact h

theorem Accounts.receive (h : Accounts w held) (n : Nat) : Accounts (w.receive n) held := by
  have hfds := h.append_right (List.range' w.arrived n)
  refine hfds.trans ?_
  simp only [World.receive, List.append_assoc]
  exact List.perm_append_comm.append_left _

theorem Accounts.close {fd : Nat} (h : Accounts w (fd :: held)) : Accounts (w.close fd) held := by
  have hmiddle : w.opened.Perm (fd :: (w.received ++ held)) := h.trans List.perm_middle
  simpa [Accounts, World.close] using hmiddle.erase fd

theorem Accounts.closeMaster (h : Accounts w (master.toList ++ held)) : Accounts (w.closeMaster master) held := by
  cases master with
  | none => exact h
  | some fd => exact h.close

theorem Accounts.takeFD {n : Nat} {fd : Option Nat} (h : Accounts w held) (ht : w.takeFD n = (fd, w')) :
    Accounts w' (fd.toList ++ held) := by
  have hwaited : Accounts (if w.received = [] then w.receive n else w) held := by
    split
    · exact h.receive n
    · exact h
  unfold World.takeFD at ht
  simp only at ht
  split at ht
  · obtain ⟨rfl, rfl⟩ := Prod.mk.inj ht
    exact hwaited
  · rename_i fd rest hr
    obtain ⟨rfl, rfl⟩ := Prod.mk.inj ht
    unfold Accounts at hwaited
    rw [hr] at hwaited
    exact hwaited.trans List.perm_middle.symm

theorem Accounts.closeReceived (h : Accounts w []) : w.closeReceived.opened = [] := by
  have hall : ∀ (received : List Nat) (w : World), w.opened.Perm received →
      (received.foldl World.close w).opened = [] := by
    intro received
    induction received with
    | nil => exact fun w h => h.eq_nil
    | cons fd received ih => exact fun w h => ih _ (by simpa [World.close] using h.erase fd)
  exact hall w.received _ (by simpa [Accounts] using h)

/-- What one turn of a loop leaves alone, the loop does. -/
theorem foldl_kept {α β : Type} (step : World → α → World) (field : World → β)
    (h : ∀ w x, field (step w x) = field w) : ∀ (xs : List α) (w : World), field (xs.foldl step w) = field w := by
  intro xs
  induction xs with
  | nil => exact fun w => rfl
  | cons x xs ih => exact fun w => (ih _).trans (h w x)

theorem closeMaster_hub : (w.closeMaster master).hub = w.hub := by cases master <;> rfl

theorem closeReceived_hub : w.closeReceived.hub = w.hub :=
  foldl_kept World.close World.hub (fun _ _ => rfl) w.received _

/-! ## Building a session -/

/-- A state that was built has the master it was built around. -/
def Around (master : Option Nat) (r : Option State) : Prop := ∀ state, r = some state → state.master = master

/-- The outcome of an attempt to build a session. -/
structure Built (master : Option Nat) (w : World) (q : Option State × World) : Prop where
  around : Around master q.1
  apart : Apart w q.2

section

variable {name : String}

theorem createOutputLog_apart (c : Creation) (w : World) : Apart w (createOutputLog c w).2 := by
  unfold createOutputLog
  simp only
  repeat' split
  all_goals exact ⟨rfl, rfl, rfl⟩

theorem discard_apart (removed : Bool) (directory : Nat) (w : World) : Apart w (discard removed directory w) := by
  unfold discard
  split <;> exact ⟨rfl, rfl, rfl⟩

theorem onFreshLog_built (c : Creation) (built removed : Bool) :
    Built master w (onFreshLog c built removed name master w) := by
  unfold onFreshLog
  have hc := createOutputLog_apart c w
  generalize createOutputLog c w = q at hc ⊢
  obtain ⟨directory, w₁⟩ := q
  cases directory with
  | none => exact ⟨by simp [Around], hc⟩
  | some directory =>
    simp only
    split
    · exact ⟨by simp [Around], hc⟩
    · exact ⟨by simp [Around], hc.trans (discard_apart ..)⟩

theorem adoptLossyState_built (o : Lossy) : Built master w (adoptLossyState o name master w) := by
  unfold adoptLossyState
  simp only
  split
  · refine ⟨?_, .refl w⟩
    intro state hs
    simp only at hs
    split at hs
    · exact (Option.some.inj hs) ▸ rfl
    · cases hs
  · exact onFreshLog_built ..

theorem adoptNativeOrLossyState_built (native : Native) (lossy : Lossy) :
    Built master w (adoptNativeOrLossyState native lossy name master w) := by
  unfold adoptNativeOrLossyState
  split
  · rename_i state hs
    refine ⟨?_, .refl w⟩
    unfold adoptState at hs
    split at hs
    · obtain rfl := Option.some.inj hs
      simp [Around]
    · cases hs
  · exact adoptLossyState_built lossy

end

/-- The masters of states. -/
def masters (states : List State) : List Nat := states.flatMap fun state => state.master.toList

/-- What one turn does to the descriptors and the hub. -/
structure Turned (w w' : World) (r : Option State) : Prop where
  hub : w'.hub = w.hub
  accounts : ∀ held, Accounts w held → Accounts w' (masters r.toList ++ held)

theorem received_spec {h : Handover} {r : Option (Option Nat)} (hr : receiveAdoptedSession h w = (r, w')) :
    w'.hub = w.hub ∧ ∀ held, Accounts w held → Accounts w' (r.join.toList ++ held) := by
  unfold receiveAdoptedSession at hr
  simp only at hr
  split at hr
  · obtain ⟨rfl, rfl⟩ := Prod.mk.inj hr
    exact ⟨rfl, fun held ha => ha.receive _⟩
  · split at hr
    · obtain ⟨rfl, rfl⟩ := Prod.mk.inj hr
      exact ⟨rfl, fun held ha => ha.receive _⟩
    · have hhub : ((w.receive h.call.fds).takeFD h.wait).2.hub = w.hub := by
        unfold World.takeFD
        simp only
        split <;> split <;> rfl
      generalize ht : (w.receive h.call.fds).takeFD h.wait = q at hr hhub
      obtain ⟨fd, w₁⟩ := q
      cases fd <;>
      · simp only at hr
        obtain ⟨rfl, rfl⟩ := Prod.mk.inj hr
        exact ⟨hhub, fun held ha => (ha.receive _).takeFD ht⟩

/-- A state takes the master over. -/
theorem Built.turned {state : State} {w₁ : World} (h : Built master w (some state, w₁)) :
    w₁.hub = w.hub ∧ ∀ held, Accounts w (master.toList ++ held) → Accounts w₁ (masters [state] ++ held) := by
  refine ⟨h.apart.hub, fun held ha => ?_⟩
  have hmaster := h.around state rfl
  simpa [masters, hmaster] using ha.apart h.apart

/-- What is not built is skipped, and its master closed. -/
theorem Built.orSkip {q : Option State × World} (h : Built master w q) (s : Session) :
    (orSkip s master q).2.hub = w.hub ∧ ∀ held, Accounts w (master.toList ++ held) →
      Accounts (orSkip s master q).2 (masters (orSkip s master q).1.toList ++ held) := by
  obtain ⟨r, w₁⟩ := q
  cases r with
  | none =>
    refine ⟨closeMaster_hub.trans h.apart.hub, fun held ha => ?_⟩
    exact (ha.apart h.apart).closeMaster.receive s.abort
  | some state => exact h.turned

theorem prepare_turned (v0Handoff : Bool) (s : Session) (w : World) :
    Turned w (prepare v0Handoff s w).2 (prepare v0Handoff s w).1 := by
  unfold prepare
  generalize hq : receiveAdoptedSession s.handover w = q
  obtain ⟨handed, w₁⟩ := q
  obtain ⟨hhub, hacc⟩ := received_spec hq
  cases handed with
  | none => exact ⟨hhub, fun held ha => (hacc held ha).receive _⟩
  | some master =>
    simp only
    split
    · split
      · -- v0 without a spool
        obtain ⟨hhub', hacc'⟩ := (adoptLossyState_built (w := w₁) s.lossy).orSkip s
        exact ⟨hhub'.trans hhub, fun held ha => hacc' held (hacc held ha)⟩
      · have hv : Built master w₁ (adoptV0State s.v0 s.handover.name master w₁) := onFreshLog_built ..
        generalize adoptV0State s.v0 s.handover.name master w₁ = q at hv ⊢
        obtain ⟨r, w₂⟩ := q
        cases r with
        | some state => exact ⟨hv.turned.1.trans hhub, fun held ha => hv.turned.2 held (hacc held ha)⟩
        | none =>
          obtain ⟨hhub', hacc'⟩ := (adoptLossyState_built (w := w₂) s.lossy).orSkip s
          exact ⟨(hhub'.trans hv.apart.hub).trans hhub, fun held ha => hacc' held ((hacc held ha).apart hv.apart)⟩
    · split
      · obtain ⟨hhub', hacc'⟩ := (adoptNativeOrLossyState_built s.native s.lossy).orSkip s
        exact ⟨hhub'.trans hhub, fun held ha => hacc' held ((hacc held ha).receive _)⟩
      · -- the first master is closed and a second one asked for
        generalize hr : receiveAdoptedSession s.retry ((w₁.receive s.snapshot.fds).closeMaster master) = q
        obtain ⟨again, w₂⟩ := q
        obtain ⟨hhub₂, hacc₂⟩ := received_spec hr
        have hback : ∀ held, Accounts w held → Accounts ((w₁.receive s.snapshot.fds).closeMaster master) held :=
          fun held ha => ((hacc held ha).receive _).closeMaster
        have hhub₂ : w₂.hub = w.hub := hhub₂.trans (closeMaster_hub.trans hhub)
        cases again with
        | none => exact ⟨hhub₂, fun held ha => (hacc₂ held (hback held ha)).receive _⟩
        | some master' =>
          obtain ⟨hhub', hacc'⟩ := (adoptLossyState_built (w := w₂) s.lossy).orSkip s
          exact ⟨hhub'.trans hhub₂, fun held ha => hacc' held (hacc₂ held (hback held ha))⟩

theorem prepareAll_spec (v0Handoff : Bool) : ∀ (sessions : List Session) (w : World),
    (prepareAll v0Handoff sessions w).2.hub = w.hub ∧ ∀ held, Accounts w held →
      Accounts (prepareAll v0Handoff sessions w).2 (masters (prepareAll v0Handoff sessions w).1.1 ++ held) := by
  intro sessions
  induction sessions with
  | nil => exact fun w => ⟨rfl, fun held ha => ha⟩
  | cons s sessions ih =>
    intro w
    have hturn := prepare_turned v0Handoff s w
    obtain ⟨hhub, hacc⟩ := ih (prepare v0Handoff s w).2
    refine ⟨hhub.trans hturn.hub, fun held ha => ?_⟩
    refine (hacc _ (hturn.accounts held ha)).trans (List.Perm.append_left _ ?_)
    simp only [prepareAll, masters, List.flatMap_append, List.append_assoc]
    rw [← List.append_assoc, ← List.append_assoc]
    exact List.perm_append_comm.append_right _

theorem abort_spec (a : Attempt) {prepared : List State} (h : Accounts w (masters prepared)) :
    Accounts (abort a prepared w) [] ∧ (abort a prepared w).hub = w.hub := by
  have hall : ∀ (states : List State) (w : World), Accounts w (masters states) →
      Accounts (states.foldl (fun w state => w.closeMaster state.master) w) [] ∧
        (states.foldl (fun w state => w.closeMaster state.master) w).hub = w.hub := by
    intro states
    induction states with
    | nil => exact fun w h => ⟨h, rfl⟩
    | cons state states ih =>
      intro w h
      have hrest : Accounts (w.closeMaster state.master) (masters states) := Accounts.closeMaster h
      obtain ⟨hacc, hhub⟩ := ih _ hrest
      exact ⟨hacc, hhub.trans closeMaster_hub⟩
  unfold abort
  split
  · rename_i hnone
    subst hnone
    exact ⟨h, rfl⟩
  · exact hall prepared _ (h.receive a.abort)

/-! ## Directories -/

/-- A log that could not be opened is not removed again. -/
def Creation.orphaned (c : Creation) : Bool := c.made && !c.opens && !c.removed

/-- A session around a new log leaves its directory when it is built, and when it is not and
    the directory cannot be removed. -/
def Creation.leaves (c : Creation) (built removed : Bool) : Bool :=
  c.orphaned || c.made && c.opens && (built || !removed)

def Lossy.leaves (o : Lossy) (master : Option Nat) : Bool :=
  !o.opens && o.fresh.leaves (o.vt && adoptStateWithTerminal o.pipe master) o.removed

def V0.built (o : V0) (master : Option Nat) : Bool :=
  o.fresh.made && o.fresh.opens && (o.vt && o.replayed && adoptStateWithTerminal o.pipe master)

def V0.leaves (o : V0) (master : Option Nat) : Bool :=
  o.fresh.leaves (o.vt && o.replayed && adoptStateWithTerminal o.pipe master) o.removed

def Native.built (o : Native) (master : Option Nat) : Bool :=
  o.payload && o.opens && o.restored && adoptStateWithTerminal o.pipe master

/-- The session is handed over, and one of the ways it is then built leaves a directory. -/
def Session.leaves (v0Handoff : Bool) (s : Session) (w : World) : Bool :=
  match receiveAdoptedSession s.handover w with
  | (none, _) => false
  | (some master, w) =>
    if v0Handoff then
      if s.spool then s.v0.leaves master || !s.v0.built master && s.lossy.leaves master else s.lossy.leaves master
    else if s.snapshot.ok then !s.native.built master && s.lossy.leaves master
    else
      match receiveAdoptedSession s.retry ((w.receive s.snapshot.fds).closeMaster master) with
      | (none, _) => false
      | (some master, _) => s.lossy.leaves master

/-- No session leaves one, each looked at in the state before its turn. -/
def LeavesNone (v0Handoff : Bool) : List Session → World → Prop
  | [], _ => True
  | s :: rest, w => s.leaves v0Handoff w = false ∧ LeavesNone v0Handoff rest (prepare v0Handoff s w).2

def Attempt.LeavesNone (a : Attempt) (hub : HubState) : Prop :=
  ∀ v0Handoff, (opening a (World.start hub)).1 = .ok v0Handoff →
    Rollback.LeavesNone v0Handoff a.sessions (opening a (World.start hub)).2

@[simp] theorem receive_root (n : Nat) : (w.receive n).root = w.root := rfl

@[simp] theorem closeMaster_root : (w.closeMaster master).root = w.root := by cases master <;> rfl

@[simp] theorem closeReceived_root : w.closeReceived.root = w.root :=
  foldl_kept World.close World.root (fun _ _ => rfl) w.received _

@[simp] theorem abort_root (a : Attempt) (prepared : List State) : (abort a prepared w).root = w.root := by
  unfold abort
  split
  · rfl
  · exact foldl_kept _ World.root (fun _ _ => closeMaster_root) prepared _

theorem takeFD_root (n : Nat) : (w.takeFD n).2.root = w.root := by
  unfold World.takeFD
  simp only
  split <;> split <;> rfl

theorem received_root (h : Handover) : (receiveAdoptedSession h w).2.root = w.root := by
  have ht := takeFD_root (w := w.receive h.call.fds) h.wait
  unfold receiveAdoptedSession
  simp only
  generalize (w.receive h.call.fds).takeFD h.wait = q at ht ⊢
  obtain ⟨fd, w₁⟩ := q
  split
  · rfl
  · split
    · rfl
    · cases fd <;> exact ht

/-- A directory that was added and removed. -/
theorem erase_added_isEmpty (root : List Nat) (d : Nat) : ((root ++ [d]).erase d).isEmpty = root.isEmpty := by
  have hlen : ((root ++ [d]).erase d).length = root.length := by simp
  rw [Bool.eq_iff_iff, List.isEmpty_iff, List.isEmpty_iff, ← List.length_eq_zero_iff, hlen, List.length_eq_zero_iff]

theorem onFreshLog_root (c : Creation) (built removed : Bool) (name : String) :
    (onFreshLog c built removed name master w).2.root.isEmpty = (w.root.isEmpty && !c.leaves built removed) := by
  unfold onFreshLog createOutputLog discard Creation.leaves Creation.orphaned
  cases c.made <;> cases c.opens <;> cases c.removed <;> cases built <;> cases removed <;>
    simp [erase_added_isEmpty]

theorem onFreshLog_isSome (c : Creation) (built removed : Bool) (name : String) :
    (onFreshLog c built removed name master w).1.isSome = (c.made && c.opens && built) := by
  unfold onFreshLog createOutputLog
  cases c.made <;> cases c.opens <;> cases built <;> simp

theorem adoptLossyState_root (o : Lossy) (name : String) :
    (adoptLossyState o name master w).2.root.isEmpty = (w.root.isEmpty && !o.leaves master) := by
  unfold adoptLossyState Lossy.leaves
  simp only
  cases o.opens with
  | true => simp
  | false => simpa using onFreshLog_root ..

theorem adoptNativeOrLossyState_root (native : Native) (lossy : Lossy) (name : String) :
    (adoptNativeOrLossyState native lossy name master w).2.root.isEmpty =
      (w.root.isEmpty && !(!native.built master && lossy.leaves master)) := by
  have hbuilt : (adoptState native name master).isSome = native.built master := by
    unfold adoptState Native.built
    split <;> simp_all
  unfold adoptNativeOrLossyState
  rw [← hbuilt]
  cases adoptState native name master with
  | none => simpa using adoptLossyState_root lossy name
  | some state => simp

theorem orSkip_root (s : Session) (r : Option State × World) : (orSkip s master r).2.root = r.2.root := by
  obtain ⟨r, w⟩ := r
  cases r with
  | none => simp [orSkip]
  | some state => rfl

/-- A turn leaves a directory exactly when its session does. -/
theorem prepare_root (v0Handoff : Bool) (s : Session) (w : World) :
    (prepare v0Handoff s w).2.root.isEmpty = (w.root.isEmpty && !s.leaves v0Handoff w) := by
  unfold prepare Session.leaves
  have hroot := received_root (w := w) s.handover
  generalize receiveAdoptedSession s.handover w = q at hroot ⊢
  obtain ⟨handed, w₁⟩ := q
  cases handed with
  | none => simp_all
  | some master =>
    simp only at hroot ⊢
    split
    · cases s.spool with
      | false => simp [orSkip_root, adoptLossyState_root, hroot]
      | true =>
        have hfresh : (adoptV0State s.v0 s.handover.name master w₁).2.root.isEmpty =
            (w₁.root.isEmpty && !s.v0.leaves master) := onFreshLog_root ..
        have hbuilt : (adoptV0State s.v0 s.handover.name master w₁).1.isSome = s.v0.built master :=
          onFreshLog_isSome ..
        generalize adoptV0State s.v0 s.handover.name master w₁ = q at hfresh hbuilt ⊢
        obtain ⟨r, w₂⟩ := q
        rw [← hbuilt]
        cases r with
        | none => simpa [orSkip_root, adoptLossyState_root, hroot, Bool.and_assoc] using congrArg (· && _) hfresh
        | some state => simpa [hroot] using hfresh
    · split
      · simp [orSkip_root, adoptNativeOrLossyState_root, hroot]
      · have hroot₂ := received_root (w := (w₁.receive s.snapshot.fds).closeMaster master) s.retry
        generalize receiveAdoptedSession s.retry ((w₁.receive s.snapshot.fds).closeMaster master) = q at hroot₂ ⊢
        obtain ⟨again, w₂⟩ := q
        simp only [closeMaster_root, receive_root, hroot] at hroot₂
        cases again with
        | none => simp [hroot₂]
        | some master' => simp [orSkip_root, adoptLossyState_root, hroot₂]

theorem prepareAll_root (v0Handoff : Bool) : ∀ (sessions : List Session) (w : World),
    (prepareAll v0Handoff sessions w).2.root.isEmpty = true ↔ w.root.isEmpty = true ∧ LeavesNone v0Handoff sessions w := by
  intro sessions
  induction sessions with
  | nil =>
    intro w
    simp [prepareAll, LeavesNone]
  | cons s sessions ih =>
    intro w
    have hrest : (prepareAll v0Handoff (s :: sessions) w).2 =
        (prepareAll v0Handoff sessions (prepare v0Handoff s w).2).2 := rfl
    rw [hrest, ih, prepare_root, LeavesNone, Bool.and_eq_true, Bool.not_eq_true', and_assoc]

/-! ## The call -/

/-- What comes before the loop makes no directory and takes no descriptor. -/
theorem opening_spec (a : Attempt) (hub : HubState) :
    (opening a (World.start hub)).2.hub = hub ∧ (opening a (World.start hub)).2.root = [] ∧
      Accounts (opening a (World.start hub)).2 [] := by
  have hstart : Accounts (World.start hub) [] := .refl _
  unfold opening
  simp only
  repeat' split
  all_goals first | exact ⟨rfl, rfl, hstart⟩ | exact ⟨rfl, rfl, hstart.receive _⟩

/-- How a call ends that fails: behind a loop, if it came to it, with the rollback. -/
theorem adopt_failed {a : Attempt} {hub : HubState} {e : Failure} {w : World}
    (h : adoptSessionsWithReport a hub = (.error e, w)) :
    w.hub = hub ∧ w.opened = [] ∧ (w.root.isEmpty = true ↔ a.LeavesNone hub) := by
  obtain ⟨hhub, hroot, hacc⟩ := opening_spec a hub
  unfold adoptSessionsWithReport at h
  unfold Attempt.LeavesNone
  generalize opening a (World.start hub) = q at h hhub hroot hacc ⊢
  obtain ⟨opened, w₁⟩ := q
  cases opened with
  | error e₁ =>
    obtain ⟨-, rfl⟩ := Prod.mk.inj h
    exact ⟨closeReceived_hub.trans hhub, hacc.closeReceived, by simp_all⟩
  | ok v0Handoff =>
    simp only at h hhub hroot hacc
    have hloop := prepareAll_spec v0Handoff a.sessions w₁
    have hleft := prepareAll_root v0Handoff a.sessions w₁
    generalize prepareAll v0Handoff a.sessions w₁ = q at h hloop hleft
    obtain ⟨⟨prepared, skipped⟩, w₂⟩ := q
    obtain ⟨hhub₂, hacc₂⟩ := hloop
    have hheld : Accounts w₂ (masters prepared) := by simpa using hacc₂ [] hacc
    -- the three ways out are one: nothing but descriptors has come in since the loop
    have hout : ∀ w₃, w₃.hub = w₂.hub → w₃.root = w₂.root → Accounts w₃ (masters prepared) →
        (abort a prepared w₃).closeReceived.hub = hub ∧ (abort a prepared w₃).closeReceived.opened = [] ∧
        ((abort a prepared w₃).closeReceived.root.isEmpty = true ↔
          ∀ v, Except.ok v0Handoff = (.ok v : Except Failure Bool) → LeavesNone v a.sessions w₁) := by
      intro w₃ hhub₃ hroot₃ hheld₃
      obtain ⟨hnone, hkept⟩ := abort_spec a hheld₃
      refine ⟨closeReceived_hub.trans (hkept.trans (hhub₃.trans (hhub₂.trans hhub))), hnone.closeReceived, ?_⟩
      rw [closeReceived_root, abort_root, hroot₃, hleft, hroot]
      simp
    simp only at h
    split at h
    · obtain ⟨-, rfl⟩ := Prod.mk.inj h
      exact hout w₂ rfl rfl hheld
    · split at h
      · obtain ⟨-, rfl⟩ := Prod.mk.inj h
        exact hout _ rfl rfl (hheld.receive _)
      · split at h
        · obtain ⟨-, rfl⟩ := Prod.mk.inj h
          exact hout _ rfl rfl (hheld.receive _)
        · simp at h

/-- A call that fails leaves the target as it was exactly when none of its sessions leaves a
    directory. -/
theorem failed_adoption_leaves_nothing_iff {a : Attempt} {hub : HubState} {e : Failure} {w : World}
    (h : adoptSessionsWithReport a hub = (.error e, w)) :
    (w.hub = hub ∧ w.opened = [] ∧ w.root = []) ↔ a.LeavesNone hub := by
  obtain ⟨hhub, hopened, hroot⟩ := adopt_failed h
  rw [← hroot, List.isEmpty_iff]
  exact ⟨fun h => h.2.2, fun h => ⟨hhub, hopened, h⟩⟩

/-! ## Instances -/

def fine : Creation := ⟨true, true, true⟩

/-- A session that is alive and comes over with its descriptor. Its native snapshot does not
    decode; `opens` says whether the source's directory does. -/
def undecodable (name : String) (opens : Bool) : Session where
  name := name
  handover := ⟨⟨1, true⟩, name, true, 0⟩
  spool := false
  v0 := ⟨fine, true, true, true, true⟩
  snapshot := ⟨0, true⟩
  retry := ⟨⟨0, false⟩, name, true, 0⟩
  native := ⟨true, opens, false, true⟩
  lossy := ⟨opens, fine, true, true, true⟩
  abort := 0

/-- Two such sessions, the second of which is refused by the source. -/
def secondRefused (opens : Bool) : Attempt where
  mkdirAll := true
  dial := true
  list := ⟨0, true⟩
  version := protocolVersion
  handoffVersion := ""
  sessions := [undecodable "a" opens, { undecodable "b" opens with handover := ⟨⟨0, false⟩, "b", true, 0⟩ }]
  commit := ⟨0, true⟩
  committed := 1
  abort := 0
  exit := 0

def emptyHub : HubState := ⟨false, [], []⟩

theorem failed_adoption_leaves_nothing_iff_opened :
    adoptSessionsWithReport (secondRefused true) emptyHub = (.error (.unrecovered ["b"]), ⟨emptyHub, 1, [], [], 0, []⟩) ∧
      (secondRefused true).LeavesNone emptyHub :=
  ⟨by decide, (failed_adoption_leaves_nothing_iff (e := .unrecovered ["b"]) (w := ⟨emptyHub, 1, [], [], 0, []⟩)
    (by decide)).mp ⟨rfl, rfl, rfl⟩⟩

/-- The source's directory does not open, so the first session gets one of its own. It is
    there when the call has failed. -/
theorem a_failed_adoption_leaves_a_directory :
    adoptSessionsWithReport (secondRefused false) emptyHub =
      (.error (.unrecovered ["b"]), ⟨emptyHub, 1, [], [], 1, [0]⟩) := by
  decide

end Ghostline.Handoff.Rollback
