/-
  Ghostline.Rpc.Monitor — the watch on a connection while an operation runs (server.go:
  `monitorConnection`, and its owners `dispatchRequest`, `serveOutput` and `serveBlob`).

  The operation may take long, so a second goroutine reads from the connection to learn that
  the client is gone. It must be out of the way before the next request comes: the owner
  closes `stop`, sets a read deadline in the past to wake it, and waits for it. Both set the
  deadline of the one connection, so the monitor may take back the owner's; it looks at
  `stop` once more behind that, and does not read.

  The client sends the bytes of a request until it is whole and nothing more up to the
  response, but it may disconnect at any time. For every interleaving (`monitor_safe`) the
  monitor has returned when the response is written, and has read no byte; it cancels only
  if the client is gone. When `stop` is closed and it sits in its read, either the deadline
  has passed or the owner's next step sets it; and it returns within two of its own steps.
-/

import Ghostline.Lib.Machine
import Ghostline.Types

namespace Ghostline.Rpc.Watch

open Lib

/-! ## The three parties -/

inductive Deadline where
  | off
  | later
  | passed
  deriving DecidableEq, Repr

/-- Where the owner is: before a request, in it (with what it has read), and at each step up
    to the response. -/
inductive Owner where
  | idle
  | reading (got : List Byte)
  | ready
  | dispatch
  | running
  | closing
  | waking
  | waiting
  | clearing
  | responding
  | failing
  | done
  deriving DecidableEq, Repr

/-- What `monitorConnection` does next. -/
inductive Monitor where
  | check
  | clear
  | recheck
  | read
  | last
  | canceling
  | returned
  deriving DecidableEq, Repr

structure Sys where
  inbox : List Byte := []
  gone : Bool := false
  deadline : Deadline := .off
  /-- What the client has sent of its request. -/
  sent : List Byte := []
  owner : Owner := .idle
  stop : Bool := false
  monitor : Monitor := .returned
  /-- What monitors have read. -/
  eaten : List Byte := []
  canceled : Bool := false
  /-- How many monitors there were. -/
  round : Nat := 0
  deriving DecidableEq, Repr

inductive ClientEv where
  | send (b : Byte)
  | disconnect
  deriving DecidableEq, Repr

/-- A read of the owner takes a byte or fails. It answers without a monitor (`direct`), or
    does what comes next. -/
inductive OwnerEv where
  | take
  | fail
  | direct
  | go
  deriving DecidableEq, Repr

/-- What a read of the monitor returns, or what comes next. -/
inductive MonitorEv where
  | byte
  | eof
  | timeout
  | go
  deriving DecidableEq, Repr

inductive Ev where
  | tick
  | client (e : ClientEv)
  | owner (e : OwnerEv)
  | monitor (e : MonitorEv)
  deriving DecidableEq, Repr

variable (whole : List Byte → Bool)

def clientStep (s : Sys) : ClientEv → Option Sys
  | .send b =>
    if s.gone = true ∨ whole s.sent = true then none
    else some { s with inbox := s.inbox ++ [b], sent := s.sent ++ [b] }
  | .disconnect => some { s with gone := true }

def ownerStep (s : Sys) (e : OwnerEv) : Option Sys :=
  match s.owner, e with
  | .idle, .go => some { s with deadline := .later, owner := .reading [] }
  | .reading got, .take =>
    match s.inbox with
    | [] => none
    | b :: rest => some { s with inbox := rest, owner := .reading (got ++ [b]) }
  | .reading got, .go => if whole got = true then some { s with owner := .ready } else none
  | .reading _, .fail => some { s with owner := .failing }
  | .ready, .go => some { s with deadline := .off, owner := .dispatch }
  | .dispatch, .direct => some { s with owner := .responding }
  | .dispatch, .go => some { s with owner := .running, stop := false, monitor := .check, round := s.round + 1 }
  | .running, .go => some { s with owner := .closing }
  | .closing, .go => some { s with owner := .waking, stop := true }
  | .waking, .go => some { s with owner := .waiting, deadline := .passed }
  | .waiting, .go => if s.monitor = .returned then some { s with owner := .clearing } else none
  | .clearing, .go => some { s with deadline := .off, owner := .responding }
  -- the client may go on with its next request
  | .responding, .go => some { s with owner := .idle, sent := [] }
  | .responding, .fail => some { s with owner := .done, sent := [] }
  | .failing, .go => some { s with owner := .done }
  | _, _ => none

def monitorStep (s : Sys) (e : MonitorEv) : Option Sys :=
  match s.monitor, e with
  | .check, .go => some { s with monitor := if s.stop then .returned else .clear }
  | .clear, .go => some { s with deadline := .off, monitor := .recheck }
  | .recheck, .go => some { s with monitor := if s.stop then .returned else .read }
  | .read, .byte =>
    match s.inbox with
    | [] => none
    | b :: rest => some { s with inbox := rest, eaten := s.eaten ++ [b], monitor := .last }
  | .read, .eof => if s.gone = true ∧ s.inbox = [] then some { s with monitor := .last } else none
  | .read, .timeout => if s.deadline = .passed then some { s with monitor := .last } else none
  | .last, .go => some { s with monitor := if s.stop then .returned else .canceling }
  | .canceling, .go => some { s with canceled := true, monitor := .returned }
  | _, _ => none

def step (s : Sys) : Ev → Option Sys
  | .tick => if s.deadline = .later then some { s with deadline := .passed } else none
  | .client e => clientStep whole s e
  | .owner e => ownerStep whole s e
  | .monitor e => monitorStep s e

/-- One connection, from its first request on. -/
def machine : Machine Sys Ev := ⟨(· = {}), step whole⟩

/-! ## What holds at each place -/

/-- The request is read, and there is nothing behind it. -/
structure Served (inbox sent : List Byte) : Prop where
  empty : inbox = []
  complete : whole sent = true

/-- What the owner knows where it is. -/
def Owner.Holds (s : Sys) : Owner → Prop
  | .idle => s.inbox = s.sent ∧ s.monitor = .returned
  | .reading got => got ++ s.inbox = s.sent ∧ s.monitor = .returned
  | .ready => Served whole s.inbox s.sent ∧ s.monitor = .returned
  | .dispatch => Served whole s.inbox s.sent ∧ s.monitor = .returned ∧ s.deadline = .off
  | .running | .closing => Served whole s.inbox s.sent ∧ s.stop = false ∧ s.deadline = .off
  | .waking => Served whole s.inbox s.sent ∧ s.stop = true
  | .waiting => Served whole s.inbox s.sent ∧ s.stop = true ∧ (s.monitor = .read → s.deadline = .passed)
  | .clearing | .responding => Served whole s.inbox s.sent ∧ s.monitor = .returned
  | .failing | .done => s.monitor = .returned

/-- What the monitor knows where it is. -/
def Monitor.Holds (s : Sys) : Monitor → Prop
  | .last => s.gone = true ∨ s.stop = true
  | .canceling => s.gone = true
  | _ => True

structure Inv (s : Sys) : Prop where
  first : ∀ p, p <+: s.sent → whole p = true → p = s.sent
  owner : s.owner.Holds whole s
  monitor : s.monitor.Holds s
  canceled : s.canceled = true → s.gone = true
  eaten : s.eaten = []

variable {whole} {s s' : Sys}

theorem inv_init : Inv whole {} := by
  refine ⟨?_, ⟨rfl, rfl⟩, trivial, nofun, rfl⟩
  intro p hp _
  exact List.prefix_nil.mp hp

/-- While there is a monitor the owner is in the operation or behind it. -/
theorem Inv.watched (hi : Inv whole s) (hm : s.monitor ≠ .returned) : Served whole s.inbox s.sent ∧
    ((s.owner = .running ∨ s.owner = .closing) ∧ s.stop = false ∧ s.deadline = .off ∨
      s.owner = .waking ∧ s.stop = true ∨
      s.owner = .waiting ∧ s.stop = true ∧ (s.monitor = .read → s.deadline = .passed)) := by
  have ho := hi.owner
  cases hk : s.owner with
  | running =>
    rw [hk] at ho
    exact ⟨ho.1, .inl ⟨.inl rfl, ho.2⟩⟩
  | closing =>
    rw [hk] at ho
    exact ⟨ho.1, .inl ⟨.inr rfl, ho.2⟩⟩
  | waking =>
    rw [hk] at ho
    exact ⟨ho.1, .inr (.inl ⟨rfl, ho.2⟩)⟩
  | waiting =>
    rw [hk] at ho
    exact ⟨ho.1, .inr (.inr ⟨rfl, ho.2⟩)⟩
  | idle | reading | ready | clearing | responding =>
    rw [hk] at ho
    exact absurd ho.2 hm
  | dispatch =>
    rw [hk] at ho
    exact absurd ho.2.1 hm
  | failing | done =>
    rw [hk] at ho
    exact absurd ho hm

/-! ## What a step can do -/

inductive OwnerMove (whole : List Byte → Bool) (s : Sys) : Sys → Prop
  | begin : s.owner = .idle → OwnerMove whole s { s with deadline := .later, owner := .reading [] }
  | take {got rest : List Byte} {b : Byte} : s.owner = .reading got → s.inbox = b :: rest →
      OwnerMove whole s { s with inbox := rest, owner := .reading (got ++ [b]) }
  | complete {got : List Byte} : s.owner = .reading got → whole got = true →
      OwnerMove whole s { s with owner := .ready }
  | refuse {got : List Byte} : s.owner = .reading got → OwnerMove whole s { s with owner := .failing }
  | clearIdle : s.owner = .ready → OwnerMove whole s { s with deadline := .off, owner := .dispatch }
  | direct : s.owner = .dispatch → OwnerMove whole s { s with owner := .responding }
  | start : s.owner = .dispatch →
      OwnerMove whole s { s with owner := .running, stop := false, monitor := .check, round := s.round + 1 }
  | finish : s.owner = .running → OwnerMove whole s { s with owner := .closing }
  | close : s.owner = .closing → OwnerMove whole s { s with owner := .waking, stop := true }
  | wake : s.owner = .waking → OwnerMove whole s { s with owner := .waiting, deadline := .passed }
  | join : s.owner = .waiting → s.monitor = .returned → OwnerMove whole s { s with owner := .clearing }
  | clear : s.owner = .clearing → OwnerMove whole s { s with deadline := .off, owner := .responding }
  | respond : s.owner = .responding → OwnerMove whole s { s with owner := .idle, sent := [] }
  | respondLast : s.owner = .responding → OwnerMove whole s { s with owner := .done, sent := [] }
  | respondError : s.owner = .failing → OwnerMove whole s { s with owner := .done }

theorem ownerStep_move {e : OwnerEv} (h : ownerStep whole s e = some s') : OwnerMove whole s s' := by
  revert h
  fun_cases ownerStep whole s e
  all_goals intro h; grind [OwnerMove]

inductive MonitorMove (s : Sys) : Sys → Prop
  | check : s.monitor = .check → MonitorMove s { s with monitor := if s.stop then .returned else .clear }
  | clear : s.monitor = .clear → MonitorMove s { s with deadline := .off, monitor := .recheck }
  | recheck : s.monitor = .recheck → MonitorMove s { s with monitor := if s.stop then .returned else .read }
  | byte {b : Byte} {rest : List Byte} : s.monitor = .read → s.inbox = b :: rest →
      MonitorMove s { s with inbox := rest, eaten := s.eaten ++ [b], monitor := .last }
  | eof : s.monitor = .read → s.gone = true → MonitorMove s { s with monitor := .last }
  | timeout : s.monitor = .read → s.deadline = .passed → MonitorMove s { s with monitor := .last }
  | last : s.monitor = .last → MonitorMove s { s with monitor := if s.stop then .returned else .canceling }
  | cancel : s.monitor = .canceling → MonitorMove s { s with canceled := true, monitor := .returned }

theorem monitorStep_move {e : MonitorEv} (h : monitorStep s e = some s') : MonitorMove s s' := by
  revert h
  fun_cases monitorStep s e
  all_goals intro h; grind [MonitorMove]

theorem MonitorMove.ne_returned (h : MonitorMove s s') : s.monitor ≠ .returned := by
  intro hk
  cases h <;> simp_all

/-! ## Steps -/

theorem Inv.tick (hi : Inv whole s) (hd : s.deadline = .later) : Inv whole { s with deadline := .passed } := by
  refine ⟨hi.first, ?_, hi.monitor, hi.canceled, hi.eaten⟩
  have ho := hi.owner
  cases hk : s.owner with
  | dispatch | running | closing =>
    -- the deadline is off here
    rw [hk] at ho
    rw [ho.2.2] at hd
    cases hd
  | waiting =>
    rw [hk] at ho
    exact ⟨ho.1, ho.2.1, fun _ => rfl⟩
  | _ =>
    rw [hk] at ho
    exact ho

theorem Inv.disconnect (hi : Inv whole s) : Inv whole { s with gone := true } := by
  refine ⟨hi.first, ?_, ?_, fun _ => rfl, hi.eaten⟩
  · exact hi.owner
  · show s.monitor.Holds _
    cases s.monitor with
    | last => exact .inl rfl
    | canceling => rfl
    | _ => trivial

/-- What is sent is a part of a request that the owner has not read to its end. -/
theorem Inv.send (hi : Inv whole s) (hw : whole s.sent = false) (b : Byte) :
    Inv whole { s with inbox := s.inbox ++ [b], sent := s.sent ++ [b] } := by
  refine ⟨?_, ?_, hi.monitor, hi.canceled, hi.eaten⟩
  · intro p hp hwhole
    rcases List.prefix_concat_iff.mp hp with rfl | hp
    · rfl
    · rw [hi.first p hp hwhole, hw] at hwhole
      cases hwhole
  · have ho := hi.owner
    cases hk : s.owner with
    | ready | clearing | responding | waking | dispatch | running | closing | waiting =>
      rw [hk] at ho
      rw [ho.1.complete] at hw
      cases hw
    | idle =>
      rw [hk] at ho
      exact ⟨congrArg (· ++ [b]) ho.1, ho.2⟩
    | reading got =>
      rw [hk] at ho
      refine ⟨?_, ho.2⟩
      show got ++ (s.inbox ++ [b]) = s.sent ++ [b]
      rw [← List.append_assoc, ho.1]
    | failing | done =>
      rw [hk] at ho
      exact ho

theorem Inv.client (hi : Inv whole s) {e : ClientEv} (h : clientStep whole s e = some s') : Inv whole s' := by
  cases e with
  | disconnect =>
    obtain rfl := Option.some.inj h
    exact hi.disconnect
  | send b =>
    simp only [clientStep, Option.ite_none_left_eq_some, Option.some.injEq, not_or] at h
    obtain ⟨⟨-, hw⟩, rfl⟩ := h
    exact hi.send (Bool.eq_false_iff.mpr hw) b

/-- The client has nothing to send any more once the request is read. -/
theorem Inv.read_whole (hi : Inv whole s) {got : List Byte} (hread : got ++ s.inbox = s.sent)
    (hw : whole got = true) : Served whole s.inbox s.sent := by
  have hgot := hi.first got ⟨s.inbox, hread⟩ hw
  refine ⟨?_, hgot ▸ hw⟩
  rw [hgot] at hread
  exact List.append_right_eq_self.mp hread

/-- A new request. -/
theorem first_nil : ∀ p, p <+: ([] : List Byte) → whole p = true → p = [] := fun _ hp _ => List.prefix_nil.mp hp

theorem Inv.closeStop (hi : Inv whole s) (hserved : Served whole s.inbox s.sent) :
    Inv whole { s with owner := .waking, stop := true } := by
  refine ⟨hi.first, ⟨hserved, rfl⟩, ?_, hi.canceled, hi.eaten⟩
  have hm := hi.monitor
  show s.monitor.Holds _
  cases hk : s.monitor with
  | last => exact .inr rfl
  | canceling =>
    rw [hk] at hm
    exact hm
  | _ => trivial

theorem Inv.ownerMove (hi : Inv whole s) (h : OwnerMove whole s s') : Inv whole s' := by
  have ho := hi.owner
  cases h with
  | begin hk | finish hk | clear hk | respondError hk =>
    rw [hk] at ho
    exact ⟨hi.first, ho, hi.monitor, hi.canceled, hi.eaten⟩
  | @take got rest b hk hinbox =>
    rw [hk] at ho
    refine ⟨hi.first, ⟨?_, ho.2⟩, hi.monitor, hi.canceled, hi.eaten⟩
    show got ++ [b] ++ rest = s.sent
    rw [← ho.1, hinbox, List.append_assoc, List.singleton_append]
  | complete hk hw =>
    rw [hk] at ho
    exact ⟨hi.first, ⟨hi.read_whole ho.1 hw, ho.2⟩, hi.monitor, hi.canceled, hi.eaten⟩
  | refuse hk =>
    rw [hk] at ho
    exact ⟨hi.first, ho.2, hi.monitor, hi.canceled, hi.eaten⟩
  | clearIdle hk =>
    rw [hk] at ho
    exact ⟨hi.first, ⟨ho.1, ho.2, rfl⟩, hi.monitor, hi.canceled, hi.eaten⟩
  | direct hk =>
    rw [hk] at ho
    exact ⟨hi.first, ⟨ho.1, ho.2.1⟩, hi.monitor, hi.canceled, hi.eaten⟩
  | start hk =>
    rw [hk] at ho
    exact ⟨hi.first, ⟨ho.1, rfl, ho.2.2⟩, trivial, hi.canceled, hi.eaten⟩
  | close hk =>
    rw [hk] at ho
    exact hi.closeStop ho.1
  | wake hk =>
    rw [hk] at ho
    exact ⟨hi.first, ⟨ho.1, ho.2, fun _ => rfl⟩, hi.monitor, hi.canceled, hi.eaten⟩
  | join hk hm =>
    rw [hk] at ho
    exact ⟨hi.first, ⟨ho.1, hm⟩, hi.monitor, hi.canceled, hi.eaten⟩
  | respond hk =>
    rw [hk] at ho
    exact ⟨first_nil, ⟨ho.1.empty, ho.2⟩, hi.monitor, hi.canceled, hi.eaten⟩
  | respondLast hk =>
    rw [hk] at ho
    exact ⟨first_nil, ho.2, hi.monitor, hi.canceled, hi.eaten⟩

/-- The monitor goes on to `k`, and may have taken the deadline off before. It reads only while
    `stop` is open. -/
theorem Inv.goto (hi : Inv whole s) (hm : s.monitor ≠ .returned) {k : Monitor} {d : Deadline}
    (hd : d = s.deadline ∨ d = .off) (hread : k = .read → s.stop = false) (hk : k.Holds s) :
    Inv whole { s with deadline := d, monitor := k } := by
  obtain ⟨hserved, hcase⟩ := hi.watched hm
  refine ⟨hi.first, ?_, ?_, hi.canceled, hi.eaten⟩
  · show s.owner.Holds whole _
    rcases hcase with ⟨ho, hstop, hoff⟩ | ⟨ho, hstop⟩ | ⟨ho, hstop, -⟩
    · have hd : d = .off := hd.elim (fun h => h.trans hoff) id
      rcases ho with ho | ho
      · rw [ho]
        exact ⟨hserved, hstop, hd⟩
      · rw [ho]
        exact ⟨hserved, hstop, hd⟩
    · rw [ho]
      exact ⟨hserved, hstop⟩
    · rw [ho]
      refine ⟨hserved, hstop, ?_⟩
      intro h
      rw [hread h] at hstop
      cases hstop
  · cases k with
    | last => exact hk
    | canceling => exact hk
    | _ => trivial

/-- The monitor looks at `stop`, and goes on to `k` if it is open. -/
theorem Inv.look (hi : Inv whole s) (hm : s.monitor ≠ .returned) {k : Monitor} (hk : s.stop = false → k.Holds s) :
    Inv whole { s with monitor := if s.stop then .returned else k } := by
  by_cases hs : s.stop = true
  · rw [if_pos hs]
    exact hi.goto hm (.inl rfl) nofun trivial
  · have hopen := Bool.eq_false_iff.mpr hs
    rw [if_neg hs]
    exact hi.goto hm (.inl rfl) (fun _ => hopen) (hk hopen)

theorem Inv.monitorMove (hi : Inv whole s) (h : MonitorMove s s') : Inv whole s' := by
  have hholds := hi.monitor
  have hm := h.ne_returned
  obtain ⟨hserved, hcase⟩ := hi.watched hm
  cases h with
  | check | recheck => exact hi.look hm fun _ => trivial
  | clear => exact hi.goto hm (.inr rfl) nofun trivial
  | byte _ hinbox =>
    rw [hserved.empty] at hinbox
    cases hinbox
  | eof _ hgone => exact hi.goto hm (.inl rfl) nofun (.inl hgone)
  | timeout _ hpassed =>
    -- while `stop` is open there is no deadline
    refine hi.goto hm (.inl rfl) nofun (.inr ?_)
    rcases hcase with ⟨-, -, hoff⟩ | ⟨-, hstop⟩ | ⟨-, hstop, -⟩
    · rw [hoff] at hpassed
      cases hpassed
    · exact hstop
    · exact hstop
  | last hk =>
    rw [hk] at hholds
    refine hi.look hm fun hopen => ?_
    rcases hholds with hgone | hstop
    · exact hgone
    · rw [hopen] at hstop
      cases hstop
  | cancel hk =>
    rw [hk] at hholds
    have hi' := hi.goto hm (k := .returned) (.inl rfl) nofun trivial
    exact ⟨hi.first, hi'.owner, trivial, fun _ => hholds, hi.eaten⟩

theorem Inv.step (hi : Inv whole s) {e : Ev} (h : step whole s e = some s') : Inv whole s' := by
  cases e with
  | tick =>
    obtain ⟨hd, h⟩ := Option.ite_none_right_eq_some.mp h
    cases h
    exact hi.tick hd
  | client e => exact hi.client h
  | owner e => exact hi.ownerMove (ownerStep_move h)
  | monitor e => exact hi.monitorMove (monitorStep_move h)

theorem inv (h : (machine whole).Reach Machine.always s) : Inv whole s := by
  refine h.invariant ?_ fun s e s' hi _ hs => hi.step hs
  rintro s rfl
  exact inv_init

/-! ## Blocking -/

/-- The monitor is not blocked. -/
def Moves (s : Sys) : Prop := ∃ e s', monitorStep s e = some s'

/-- Only a read can block, while there is nothing to read. -/
theorem moves_of_ne_read (hm : s.monitor ≠ .returned) (hr : s.monitor ≠ .read) : Moves s := by
  refine ⟨.go, ?_⟩
  unfold monitorStep
  cases hk : s.monitor with
  | read => exact absurd hk hr
  | returned => exact absurd hk hm
  | _ => exact ⟨_, rfl⟩

theorem moves_of_passed (hk : s.monitor = .read) (hd : s.deadline = .passed) : Moves s := by
  refine ⟨.timeout, { s with monitor := .last }, ?_⟩
  unfold monitorStep
  rw [hk]
  exact if_pos hd

/-- With `stop` closed the monitor is not blocked, or the owner's next step wakes it. -/
theorem Inv.awake (hi : Inv whole s) (hstop : s.stop = true) (hm : s.monitor ≠ .returned) :
    Moves s ∨ ∃ s', ownerStep whole s .go = some s' ∧ Moves s' := by
  by_cases hk : s.monitor = .read
  · obtain ⟨-, ⟨-, hopen, -⟩ | ⟨ho, -⟩ | ⟨-, -, hpassed⟩⟩ := hi.watched hm
    · rw [hopen] at hstop
      cases hstop
    · refine .inr ⟨{ s with owner := .waiting, deadline := .passed }, ?_, moves_of_passed hk rfl⟩
      unfold ownerStep
      rw [ho]
    · exact .inl (moves_of_passed hk (hpassed hk))
  · exact .inl (moves_of_ne_read hm hk)

/-- The monitor of this round has returned. -/
def Over (round : Nat) (s : Sys) : Prop := round < s.round ∨ s.round = round ∧ s.monitor = .returned

/-- `stop` is closed, and the monitor of this round is still there. -/
def Leaving (whole : List Byte → Bool) (round : Nat) (s : Sys) : Prop :=
  Inv whole s ∧ s.stop = true ∧ s.round = round ∧ s.monitor ≠ .returned

/-- How many steps a monitor takes before the one with which it returns. -/
def Monitor.rank : Monitor → Nat
  | .clear | .read => 1
  | _ => 0

def Ev.isMonitor : Ev → Bool
  | .monitor _ => true
  | _ => false

/-- The owner starts a new round or leaves the monitor alone. -/
theorem OwnerMove.round (h : OwnerMove whole s s') :
    s'.round = s.round + 1 ∨ s'.round = s.round ∧ s'.monitor = s.monitor := by
  cases h with
  | start => exact .inl rfl
  | _ => exact .inr ⟨rfl, rfl⟩

/-- With `stop` closed a monitor returns, or its next step is the last one. -/
theorem MonitorMove.leaves (h : MonitorMove s s') (hstop : s.stop = true) : s'.monitor = .returned ∨
    s'.monitor ≠ .returned ∧ s'.monitor.rank = 0 ∧ s.monitor.rank = 1 := by
  cases h with
  | check | recheck | last => exact .inl (if_pos hstop)
  | clear hk | byte hk | eof hk | timeout hk =>
    rw [hk]
    exact .inr ⟨nofun, rfl, rfl⟩
  | cancel => exact .inl rfl

theorem MonitorMove.same (h : MonitorMove s s') : s'.round = s.round ∧ s'.stop = s.stop := by
  cases h <;> exact ⟨rfl, rfl⟩

theorem Over.step {round : Nat} (ho : Over round s) {e : Ev} (h : step whole s e = some s') : Over round s' := by
  cases e with
  | tick =>
    obtain ⟨-, h⟩ := Option.ite_none_right_eq_some.mp h
    cases h
    exact ho
  | client e =>
    cases e with
    | send b =>
      obtain ⟨-, h⟩ := Option.ite_none_left_eq_some.mp h
      cases h
      exact ho
    | disconnect =>
      cases h
      exact ho
  | owner e =>
    rcases (ownerStep_move h).round with hr | ⟨hr, hm⟩
    · rcases ho with ho | ⟨ho, -⟩
      · exact .inl (by omega)
      · exact .inl (by omega)
    · rcases ho with ho | ⟨ho, hreturned⟩
      · exact .inl (by omega)
      · exact .inr ⟨hr.trans ho, hm.trans hreturned⟩
  | monitor e =>
    have hmove := monitorStep_move h
    have hr := hmove.same.1
    rcases ho with ho | ⟨-, hreturned⟩
    · exact .inl (by omega)
    · exact absurd hreturned hmove.ne_returned

theorem Leaving.step {round : Nat} (hl : Leaving whole round s) {e : Ev} (h : step whole s e = some s') :
    Over round s' ∨ Leaving whole round s' ∧ (s'.monitor.rank + if e.isMonitor then 1 else 0) ≤ s.monitor.rank := by
  obtain ⟨hi, hstop, hr, hm⟩ := hl
  have hi' := hi.step h
  cases e with
  | tick =>
    obtain ⟨-, h⟩ := Option.ite_none_right_eq_some.mp h
    cases h
    exact .inr ⟨⟨hi', hstop, hr, hm⟩, Nat.le_refl _⟩
  | client e =>
    cases e with
    | send b =>
      obtain ⟨-, h⟩ := Option.ite_none_left_eq_some.mp h
      cases h
      exact .inr ⟨⟨hi', hstop, hr, hm⟩, Nat.le_refl _⟩
    | disconnect =>
      cases h
      exact .inr ⟨⟨hi', hstop, hr, hm⟩, Nat.le_refl _⟩
  | owner e =>
    -- it sets the deadline, or waits
    have hcase := (hi.watched hm).2
    cases ownerStep_move h with
    | wake => exact .inr ⟨⟨hi', hstop, hr, hm⟩, Nat.le_refl _⟩
    | join _ hreturned => exact absurd hreturned hm
    | _ => simp_all
  | monitor e =>
    have hmove := monitorStep_move h
    obtain ⟨hround, hs⟩ := hmove.same
    rcases hmove.leaves hstop with hreturned | ⟨hleft, h0, h1⟩
    · exact .inl (.inr ⟨hround.trans hr, hreturned⟩)
    · refine .inr ⟨⟨hi', hs.trans hstop, hround.trans hr, hleft⟩, ?_⟩
      rw [h0, h1]
      exact Nat.le_refl _

/-! ## Every interleaving -/

/-- What the owner relies on. -/
structure Safe (whole : List Byte → Bool) (s : Sys) : Prop where
  joined : s.owner = .responding → s.monitor = .returned
  uneaten : s.eaten = []
  awake : s.stop = true → s.monitor ≠ .returned → Moves s ∨ ∃ s', ownerStep whole s .go = some s' ∧ Moves s'
  canceled : s.canceled = true → s.gone = true

/-- However the three parties interleave: the monitor has returned when the response is written,
    it has read nothing, and it has canceled only if the client is gone. Once `stop` is closed
    it is not blocked for longer than up to the owner's next step, and returns with its second
    step at the latest. -/
theorem monitor_safe (h : (machine whole).Reach Machine.always s) : Safe whole s ∧
    ∀ es t, s.stop = true → (machine whole).run Machine.always s es = some t →
      Over s.round t ∨ es.countP Ev.isMonitor ≤ 1 := by
  have hi := inv h
  refine ⟨⟨?_, hi.eaten, hi.awake, hi.canceled⟩, ?_⟩
  · intro ho
    have hholds := hi.owner
    rw [ho] at hholds
    exact hholds.2
  · intro es t hstop hrun
    have hstart : Over s.round s ∨ Leaving whole s.round s := by
      by_cases hm : s.monitor = .returned
      · exact .inl (.inr ⟨rfl, hm⟩)
      · exact .inr ⟨hi, hstop, rfl, hm⟩
    have hrank : s.monitor.rank ≤ 1 := by cases s.monitor <;> decide
    refine ((machine whole).run_rank Ev.isMonitor (·.monitor.rank) (Leaving whole s.round) (Over s.round)
      (fun _ _ _ ho hs => ho.step hs) (fun _ _ _ hl _ hs => hl.step hs) hstart hrun).imp_right fun hcount => ?_
    exact Nat.le_trans hcount hrank

/-- The operation ends just when the monitor begins to read. -/
theorem monitor_safe_at_the_end : ∃ s, (machine fun request => request.length == 1).Reach Machine.always s ∧
    (s.stop = true ∧ s.monitor = .read ∧ s.deadline = .off) ∧ Safe (fun request => request.length == 1) s := by
  obtain ⟨s, hreach, hs⟩ := (machine fun request => request.length == 1).exists_reach Machine.always rfl
    [.client (.send 1), .owner .go, .owner .take, .owner .go, .owner .go, .owner .go, .monitor .go, .monitor .go,
      .monitor .go, .owner .go, .owner .go]
    (P := fun s => s.stop = true ∧ s.monitor = .read ∧ s.deadline = .off) (by decide)
  exact ⟨s, hreach, hs, (monitor_safe hreach).1⟩

end Ghostline.Rpc.Watch
