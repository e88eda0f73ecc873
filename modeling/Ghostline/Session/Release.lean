/-
  Ghostline.Session.Release — the wait of `finishMigration`.

  The machine is one session's copy loop, its child, and the admin handler's part in one
  migration after another: `beginMigration`, the wait for the ticket to be stable or for
  the preparation to time out, and `finishMigration` with either decision (server.go:
  `handleAdmin`, adopt, commit and abort).

  The loop takes up a ticket only while it is undecided. A preparation that times out
  decides the ticket whether or not the loop has seen it; a loop that comes back from a
  slow append then skips it and polls, and nothing but the child's next output or its end
  marks the ticket stopped (`a_skipped_ticket_is_waited_for`). The same holds of a loop
  that ended and waits for a child which closed its terminal and lives, unless the output
  log has failed, for then it kills the child. When a ticket is decided only with the loop
  at it or on its way out, every wait is released by the loop's own next steps
  (`every_wait_is_released`).
-/

import Mathlib.Tactic.Common
import Ghostline.Lib.Machine
import Ghostline.Session.Ticket

namespace Ghostline.Session

open Lib Ghostline.Session.Core

/-! ## The handler -/

inductive Handler where
  | idle
  | wake (t : Nat)
  /-- Waiting for the ticket to be stable, or for the time to be up. -/
  | awaiting (t : Nat)
  | prepared (t : Nat)
  | finish (t : Nat) (f : Fin)
  deriving DecidableEq, Repr

def Handler.ticket : Handler → Option Nat
  | .idle => none
  | .wake t | .awaiting t | .prepared t | .finish t _ => some t

namespace Release

structure Sys where
  core : Core
  handler : Handler

inductive Ev where
  | loop (e : LoopEv)
  | child (e : ChildEv)
  | begin
  | signal
  | stable
  | timeout
  | commit
  | abort
  /-- The next action of `finishMigration`. -/
  | finish
  deriving DecidableEq, Repr

def Ev.isLoop : Ev → Bool
  | .loop _ => true
  | _ => false

def step (s : Sys) (e : Ev) : Option Sys :=
  match e, s.handler with
  | .loop e, _ => (s.core.loopStep e).map fun c => { s with core := c }
  | .child e, _ => (s.core.childStep e).map fun c => { s with core := c }
  | .begin, .idle =>
    s.core.beginMigration.map fun c =>
      ⟨c, if s.core.done then .awaiting s.core.issued else .wake s.core.issued⟩
  | .signal, .wake t => some ⟨s.core.signalMigrationWake, .awaiting t⟩
  | .stable, .awaiting t =>
    if (s.core.tickets t).stable then
      some { s with handler := if (s.core.tickets t).failed then .finish t (.start false) else .prepared t }
    else none
  | .timeout, .awaiting t => some { s with handler := .finish t (.start false) }
  | .commit, .prepared t =>
    -- the preflight: the ticket has no error and is still the session's
    some { s with handler := .finish t (.start (!(s.core.tickets t).failed && s.core.migration == some t)) }
  | .abort, .prepared t => some { s with handler := .finish t (.start false) }
  | .finish, .finish _ (.finished _) => some { s with handler := .idle }
  | .finish, .finish t f => (s.core.finStep t f).map fun p => ⟨p.1, .finish t p.2⟩
  | _, _ => none

def machine : Machine Sys Ev where
  init s := ∃ owned, s = ⟨Core.fresh owned, .idle⟩
  step := step

/-- What the loop can find once the output log has failed (`lost`): nothing more is stored,
    and `waitSessionCommand` sees the failure. -/
def finds (lost : Bool) : Ev → Bool
  | .loop (.stored ok) => !(ok && lost)
  | .loop (.reap failed) => failed || !lost
  | _ => true

/-- The session with the failure of its log, which stays. -/
structure Logged where
  sys : Sys
  lost : Bool

inductive LoggedEv where
  | own (e : Ev)
  /-- The log fails, in an append of the loop or in another call. -/
  | fail
  deriving DecidableEq, Repr

def Logged.step (s : Logged) : LoggedEv → Option Logged
  | .own e => if finds s.lost e then (Release.step s.sys e).map fun t => { s with sys := t } else none
  | .fail => some { s with lost := true }

def logged : Machine Logged LoggedEv where
  init s := machine.init s.sys ∧ s.lost = false
  step := Logged.step

end Release

/-! ## Where the loop is -/

/-- The loop is on its way to closing `done`: it has ended, and does not wait for a child
    that nobody is killing or, with the log failed, will kill. -/
def Core.leaving (c : Core) (lost : Bool) : Bool :=
  match c.loop with
  | .ended => lost || c.migrated || !c.owned || c.exited
  | .waiting killing => killing || c.exited
  | .settle | .settleStable _ | .settleChoose _ | .settleStop _ | .closeMaster | .closeWake | .closeLog | .closeDone
  | .gone => true
  | _ => false

/-- A bound on the steps the loop still takes before the ticket is stopped or `done` closed. -/
def Core.rank (c : Core) : Nat :=
  match c.loop with
  | .drain _ n => 8 * (migrationDrainBudget - n) + 20
  | .drainRead _ n => 8 * (migrationDrainBudget - (n + 1)) + 27
  | .drainLock _ n _ => 8 * (migrationDrainBudget - n) + 24
  | .drainAppend _ n _ => 8 * (migrationDrainBudget - n) + 23
  | .drainFeed _ n _ => 8 * (migrationDrainBudget - n) + 22
  | .drainUnlock _ n _ => 8 * (migrationDrainBudget - n) + 21
  | .stable _ _ => 17
  | .parked _ _ => 16
  | .stopping _ _ _ => 15
  | .ended => 12
  | .waiting _ => if c.exited then 10 else 11
  | .settle => 9
  | .settleStable _ => 8
  | .settleChoose _ => 7
  | .settleStop _ => 6
  | .closeMaster => 5
  | .closeWake => 4
  | .closeLog => 3
  | .closeDone => 2
  | _ => 0

/-- The loop has observed ticket `t` and not marked it stopped, or is on its way out. -/
def Core.Bound (c : Core) (lost : Bool) (t : Nat) : Prop := c.loop.ticket = some t ∨ c.leaving lost = true

instance (c : Core) (lost : Bool) (t : Nat) : Decidable (c.Bound lost t) := inferInstanceAs (Decidable (_ ∨ _))

/-! ## Progress of the loop -/

variable {c c' : Core} {lost : Bool}

theorem Hop.bound {k l : Loop} {e : LoopEv} {t : Nat} (h : Hop c k e l) (hk : c.loop = k)
    (hf : Release.finds lost (.loop e) = true) (hb : c.Bound lost t) :
    (c.goto l).Bound lost t ∧ (c.goto l).rank < c.rank := by
  cases h <;> simp_all [Core.Bound, Loop.ticket, leaving, rank, goto, Release.finds]
  all_goals omega

/-- Every step of a bound loop leads to the release, or nearer to it. -/
theorem LoopMove.bound {e : LoopEv} {t : Nat} (h : LoopMove c e c') (hf : Release.finds lost (.loop e) = true)
    (hb : c.Bound lost t) : c'.released t = true ∨ c'.Bound lost t ∧ c'.rank < c.rank := by
  cases h with
  | hop h => exact .inr (h.bound rfl hf hb)
  | drainGot hl hk _ =>
    right
    simp only [Core.Bound, hl, Loop.ticket, leaving, rank, goto] at hb ⊢
    exact ⟨hb, by omega⟩
  | @stopped u failed commit hl =>
    left
    have hu : u = t := by simpa [Core.Bound, hl, Loop.ticket, leaving] using hb
    simp [released, hu, Ticket.markStopped]
  | closeDone hl => left; simp [released, goto]
  | waitKilling hl _ _ =>
    right
    simp only [Core.Bound, leaving, rank, goto, dropMaster, hl, Bool.true_or, or_true, true_and]
    split <;> omega
  | _ => right; simp_all [Core.Bound, Loop.ticket, leaving, rank, goto, updTicket, dropMaster]

theorem Core.Bound.fail {t : Nat} (hb : c.Bound lost t) : c.Bound true t := by
  refine hb.imp_right fun h => ?_
  revert h
  simp only [leaving]
  cases c.loop <;> simp

theorem Core.Bound.child {t : Nat} {e : ChildEv} (hb : c.Bound lost t) (h : c.childStep e = some c') :
    c'.Bound lost t ∧ c'.rank ≤ c.rank := by
  have hl := (SameTickets.child h).loop
  have hm := (SameTickets.child h).migrated
  obtain ⟨ho, he⟩ : c'.owned = c.owned ∧ (c.exited = true → c'.exited = true) := by
    cases childStep_move h <;> simp
  refine ⟨hb.imp (hl ▸ ·) fun h => ?_, ?_⟩
  · revert h
    simp only [leaving, hl, hm, ho]
    cases c.loop <;> simp +contextual only [Bool.or_eq_true, imp_self] <;> tauto
  · simp only [rank, hl]
    cases c.loop <;> try exact Nat.le_refl _
    -- the child's exit only shortens the wait for it
    show (if c'.exited = true then 10 else 11) ≤ if c.exited = true then 10 else 11
    rcases hx : c.exited with _ | _
    · split <;> simp
    · simp [he hx]

/-- Nobody but the loop reads the PTY while it drains. -/
def Core.Reading (c : Core) : Prop := ∀ t n, c.loop = .drainRead t n → c.ready = true

theorem Hop.reading {k l : Loop} {e : LoopEv} (h : Hop c k e l) (t n : Nat) (hl : l = .drainRead t n) :
    c.ready = true := by
  cases h <;> simp_all

theorem LoopMove.reading {e : LoopEv} (h : LoopMove c e c') (hr : c.Reading) : c'.Reading := by
  cases h with
  | hop h => exact h.reading
  | stopped hl => intro t n h; simp only [goto_loop] at h; split at h <;> cases h
  | killed hl _ => exact hr
  | _ => intro t n h; cases h

theorem Core.Reading.child {e : ChildEv} (hr : c.Reading) (h : c.childStep e = some c') : c'.Reading := by
  intro t n hl
  have hready := hr t n ((SameTickets.child h).loop ▸ hl)
  cases childStep_move h with
  | write _ =>
    simp only [ready, Bool.or_eq_true, Bool.not_eq_true', List.isEmpty_eq_false_iff] at hready ⊢
    exact hready.imp_left fun hq => by simp [hq]
  | exit => exact hready
  | hangup => simp [ready]

theorem Core.Reading.begin (hr : c.Reading) (h : c.beginMigration = some c') : c'.Reading := by
  obtain rfl := beginMigration_eq h
  exact hr

theorem FinMove.reading {t : Nat} {f f' : Fin} (h : FinMove c t f c' f') (hr : c.Reading) : c'.Reading := by
  cases h <;> exact hr

/-- A bound loop is never blocked: it needs no output of the child, and no end of it. -/
theorem Core.Bound.enabled {t : Nat} (hb : c.Bound lost t) (ht : c.Tidy) (hq : c.Reading)
    (hd : (c.tickets t).decided = true) (hr : c.released t = false) :
    ∃ e, e ≠ .broken ∧ Release.finds lost (.loop e) = true ∧ (c.loopStep e).isSome = true := by
  simp only [Core.Bound, leaving] at hb
  cases hl : c.loop <;> simp only [hl, Loop.ticket, Option.some.injEq, reduceCtorEq, or_false, false_or,
    Bool.false_eq_true] at hb
  case drain u n => exact ⟨.timeUp, by simp, rfl, by simp [loopStep, hl]⟩
  case drainRead u n =>
    have hready := hq u n hl
    rcases he : c.queue with _ | ⟨b, q⟩
    · have hh : c.hup = true := by simpa [ready, he] using hready
      exact ⟨.readFailed, by simp, rfl, by simp [loopStep, hl, he, hh]⟩
    · exact ⟨.got 1, by simp, rfl, by simp [loopStep, hl, he]⟩
  case drainAppend u n chunk => exact ⟨.stored false, by simp, rfl, by simp [loopStep, hl]⟩
  case parked u failed =>
    have hu : c.loop.awaits = some t := by simp [hl, Loop.awaits, Loop.ticket, hb]
    obtain ⟨commit, hc⟩ := Option.isSome_iff_exists.mp (ht.unread t hu hd)
    exact ⟨.go, by simp, rfl, by simp [loopStep, hl, hb, hc]⟩
  case ended =>
    exact ⟨.reap lost, by simp, by simp [Release.finds], by simp only [loopStep, hl]; split <;> simp⟩
  case waiting killing =>
    rcases he : c.exited with _ | _
    · obtain rfl : killing = true := by simpa [he] using hb
      exact ⟨.kill, by simp, rfl, by simp [loopStep, hl, he]⟩
    · exact ⟨.go, by simp, rfl, by simp [loopStep, hl, he]⟩
  case settle =>
    refine ⟨.go, by simp, rfl, ?_⟩
    simp only [loopStep, hl]
    split
    · split <;> simp
    · simp
  case gone => simp [released, ht.gone.mp hl] at hr
  all_goals exact ⟨.go, by simp, rfl, by simp [loopStep, hl]⟩

/-! ## What stays -/

/-- Tickets are only added; what is decided stays decided and what is released stays
    released. -/
structure Grows (c c' : Core) : Prop where
  issued : c.issued ≤ c'.issued
  decided : ∀ t, t < c.issued → (c.tickets t).decided = true → (c'.tickets t).decided = true
  released : ∀ t, t < c.issued → c.released t = true → c'.released t = true

theorem Grows.same (ht : c'.tickets = c.tickets) (hi : c'.issued = c.issued) (hd : c.done = true → c'.done = true) :
    Grows c c' where
  issued := Nat.le_of_eq hi.symm
  decided t _ := by rw [ht]; exact id
  released t _ := by
    simp only [Core.released, ht, Bool.or_eq_true]
    exact Or.imp_right hd

theorem Grows.goto (h : Grows c c') (l : Loop) : Grows c (c'.goto l) := ⟨h.1, h.2, h.3⟩

theorem Grows.upd {t : Nat} {f : Ticket → Ticket}
    (hd : (c.tickets t).decided = true → (f (c.tickets t)).decided = true)
    (hs : (c.tickets t).stopped = true → (f (c.tickets t)).stopped = true) : Grows c (c.updTicket t f) where
  issued := Nat.le_refl _
  decided u _ := by
    rcases eq_or_ne u t with rfl | hne
    · simpa using hd
    · simp [updTicket_ne f hne]
  released u _ := by
    have hdone : (c.updTicket t f).done = c.done := rfl
    simp only [Core.released, Bool.or_eq_true, hdone]
    refine Or.imp_left ?_
    rcases eq_or_ne u t with rfl | hne
    · simpa using hs
    · simp [updTicket_ne f hne]

theorem Grows.choose (t : Nat) (b : Bool) : Grows c (c.updTicket t (·.choose b)) := by
  refine .upd ?_ ?_ <;> simp only [Ticket.choose] <;> split <;> simp_all

theorem LoopMove.grows {e : LoopEv} (h : LoopMove c e c') : Grows c c' := by
  cases h with
  | hop _ | woken _ _ | got _ _ _ | drainGot _ _ _ | waitKilling _ _ _ | killed _ _ | closeMaster _ _ =>
    exact .same rfl rfl id
  | closeDone _ => exact .same rfl rfl fun _ => rfl
  | stable _ | receive _ _ | settleStable _ => exact .goto (.upd id id) _
  | stopped _ | settleStop _ => exact .goto (.upd id fun _ => rfl) _
  | settleChoose _ => exact .goto (.choose _ _) _

theorem Grows.child {e : ChildEv} (h : c.childStep e = some c') : Grows c c' := by
  cases childStep_move h <;> exact .same rfl rfl id

theorem Grows.begin (h : c.beginMigration = some c') : Grows c c' := by
  obtain rfl := beginMigration_eq h
  refine ⟨Nat.le_succ _, fun t ht => ?_, fun t ht => ?_⟩ <;>
    simp [Core.released, Function.update_of_ne (Nat.ne_of_lt ht)]

theorem FinMove.grows {t : Nat} {f f' : Fin} (h : FinMove c t f c' f') : Grows c c' := by
  cases h with
  | choose => exact .choose t _
  | _ => exact .same rfl rfl id

/-! ## Along a run -/

namespace Release

variable {s s' : Sys} {e : Ev}

/-- `finishMigration` waits for ticket `t`. -/
def Sys.waitsFor (s : Sys) (t : Nat) : Prop := ∃ commit, s.handler = .finish t (.wait commit)

/-- A wait is released by the loop: it has observed the ticket or is on its way out, it
    is not blocked, and a bounded number of its steps is enough, whatever else happens. -/
structure Unstuck (s : Sys) (t : Nat) (lost : Bool := false) : Prop where
  bound : s.core.released t = true ∨ s.core.Bound lost t
  moves : s.core.released t = true ∨
    ∃ e, e ≠ .broken ∧ finds lost (.loop e) = true ∧ (s.core.loopStep e).isSome = true
  released : ∀ es s', machine.run (fun _ => finds lost) s es = some s' →
    s'.core.released t = true ∨ es.countP Ev.isLoop ≤ s.core.rank

/-- A ticket is decided with the loop at it, or on its way out. -/
def decidesSeen (s : Logged) : LoggedEv → Bool
  | .own .finish =>
    match s.sys.handler with
    | .finish t (.choose _) => s.sys.core.released t || decide (s.sys.core.Bound s.lost t)
    | _ => true
  | _ => true

structure Inv (s : Sys) (lost : Bool) : Prop where
  tidy : s.core.Tidy
  reading : s.core.Reading
  issued : ∀ t, s.handler.ticket = some t → t < s.core.issued
  waits : ∀ t commit, s.handler = .finish t (.wait commit) →
    (s.core.tickets t).decided = true ∧ (s.core.released t = true ∨ s.core.Bound lost t)

/-- A turn of the handler that leaves the session alone, but for the wake byte. -/
inductive Turn (s : Sys) : Ev → Handler → Prop
  | signal {t : Nat} : s.handler = .wake t → Turn s .signal (.awaiting t)
  | stable {t : Nat} : s.handler = .awaiting t → (s.core.tickets t).stable = true →
      (s.core.tickets t).failed = false → Turn s .stable (.prepared t)
  | giveUp {e : Ev} {t : Nat} : s.handler = .awaiting t ∨ s.handler = .prepared t → Turn s e (.finish t (.start false))
  | commit {t : Nat} : s.handler = .prepared t → Turn s .commit (.finish t (.start true))
  | ended {t : Nat} {err : Bool} : s.handler = .finish t (.finished err) → Turn s .finish .idle

theorem Turn.ticket {h : Handler} (ht : Turn s e h) (t : Nat) (hh : h.ticket = some t) : s.handler.ticket = some t := by
  cases ht with
  | giveUp h => rcases h with h | h <;> rw [h] <;> exact hh
  | ended _ => cases hh
  | signal h | stable h _ _ | commit h => rw [h]; exact hh

theorem Turn.noWait {h : Handler} (ht : Turn s e h) (t : Nat) (commit : Bool) :
    h ≠ .finish t (.wait commit) ∧ s.handler ≠ .finish t (.wait commit) := by
  cases ht with
  | giveUp h => rcases h with h | h <;> simp [h]
  | signal h | stable h _ _ | commit h | ended h => simp [h]

/-- What a step does. -/
inductive Move (s : Sys) : Ev → Sys → Prop
  | loop {e : LoopEv} {c : Core} : LoopMove s.core e c → Move s (.loop e) { s with core := c }
  | child {e : ChildEv} {c : Core} : s.core.childStep e = some c → Move s (.child e) { s with core := c }
  | begin {c : Core} {h : Handler} : s.handler = .idle → s.core.beginMigration = some c →
      h = .wake s.core.issued ∨ h = .awaiting s.core.issued → Move s .begin ⟨c, h⟩
  | turn {e : Ev} {w : Nat} {h : Handler} : Turn s e h → Move s e ⟨{ s.core with wake := w }, h⟩
  | finish {t : Nat} {f f' : Fin} {c : Core} : s.handler = .finish t f → FinMove s.core t f c f' →
      Move s .finish ⟨c, .finish t f'⟩

theorem step_move (h : step s e = some s') : Move s e s' := by
  have turn : ∀ {w : Nat} {h : Handler}, Turn s e h → Move s e ⟨{ s.core with wake := w }, h⟩ := .turn
  unfold step at h
  split at h
  · obtain ⟨c, hc, rfl⟩ := Option.map_eq_some_iff.mp h
    exact .loop (loopStep_move hc)
  · obtain ⟨c, hc, rfl⟩ := Option.map_eq_some_iff.mp h
    exact .child hc
  · rename_i hh
    obtain ⟨c, hc, rfl⟩ := Option.map_eq_some_iff.mp h
    exact .begin hh hc (by split <;> simp)
  · rename_i hh
    cases h
    exact turn (.signal hh)
  · rename_i t hh
    simp only [Option.ite_none_right_eq_some, Option.some.injEq] at h
    obtain ⟨hs, rfl⟩ := h
    split
    · exact turn (.giveUp (.inl hh))
    · rename_i hf; exact turn (.stable hh hs (by simpa using hf))
  · rename_i hh
    cases h
    exact turn (.giveUp (.inl hh))
  · rename_i t hh
    cases h
    cases !(s.core.tickets t).failed && s.core.migration == some t
    · exact turn (.giveUp (.inr hh))
    · exact turn (.commit hh)
  · rename_i hh
    cases h
    exact turn (.giveUp (.inr hh))
  · rename_i hh
    cases h
    exact turn (.ended hh)
  · rename_i hh
    obtain ⟨⟨c, f'⟩, hc, rfl⟩ := Option.map_eq_some_iff.mp h
    exact .finish hh (finStep_move hc)
  · cases h

/-- Only the loop moves the loop. -/
theorem step_loop (h : step s e = some s') (hl : e.isLoop = false) : s'.core.loop = s.core.loop := by
  cases step_move h with
  | loop _ => cases hl
  | child hm => exact (SameTickets.child hm).loop
  | begin _ hm _ =>
    obtain rfl := beginMigration_eq hm
    rfl
  | turn _ => rfl
  | finish _ hm => cases hm <;> rfl

/-- The handler leaves the PTY to the loop. -/
theorem step_pty (h : step s e = some s') (hl : e.isLoop = false) (hc : ∀ x, e ≠ .child x) :
    s'.core.queue = s.core.queue ∧ s'.core.hup = s.core.hup := by
  cases step_move h with
  | loop _ => cases hl
  | child _ => exact absurd rfl (hc _)
  | begin _ hm _ =>
    obtain ⟨-, hm⟩ := Option.ite_none_left_eq_some.mp hm
    cases hm
    exact ⟨rfl, rfl⟩
  | turn _ => exact ⟨rfl, rfl⟩
  | finish _ hm => cases hm <;> exact ⟨rfl, rfl⟩

theorem step_inv (h : step s e = some s') (hf : finds lost e = true) (hok : decidesSeen ⟨s, lost⟩ (.own e) = true)
    (hi : Inv s lost) : Inv s' lost := by
  obtain ⟨ht, hq, hn, hw⟩ := hi
  cases step_move h with
  | loop hm =>
    have hg := hm.grows
    refine ⟨hm.tidy ht, hm.reading hq, fun t h => Nat.lt_of_lt_of_le (hn t h) hg.issued, fun t commit hh => ?_⟩
    obtain ⟨hd, hb⟩ := hw t commit hh
    have hlt := hn t (by rw [show s.handler = _ from hh]; rfl)
    refine ⟨hg.decided t hlt hd, ?_⟩
    rcases hb with hb | hb
    · exact .inl (hg.released t hlt hb)
    · exact (hm.bound hf hb).imp_right And.left
  | child hm =>
    have hg := Grows.child hm
    refine ⟨ht.same (.child hm), hq.child hm, fun t h => Nat.lt_of_lt_of_le (hn t h) hg.issued, fun t commit hh => ?_⟩
    obtain ⟨hd, hb⟩ := hw t commit hh
    have hlt := hn t (by rw [show s.handler = _ from hh]; rfl)
    exact ⟨hg.decided t hlt hd, hb.imp (hg.released t hlt) fun hb => (hb.child hm).1⟩
  | @begin c' h hi hm hh =>
    have hlt : s.core.issued < c'.issued := by
      obtain rfl := beginMigration_eq hm
      exact Nat.lt_succ_self _
    refine ⟨ht.begin hm, hq.begin hm, fun t h => ?_, fun t commit h => ?_⟩
    · rcases hh with rfl | rfl <;> cases h <;> exact hlt
    · rcases hh with rfl | rfl <;> cases h
  | turn hh =>
    exact ⟨ht.same ⟨rfl, rfl, rfl, rfl, rfl, rfl⟩, hq, fun t h => hn t (hh.ticket t h),
      fun t commit h => absurd h (hh.noWait t commit).1⟩
  | @finish t f f' c hh hm =>
    have hg := hm.grows
    have hlt := hn t (by rw [hh]; rfl)
    refine ⟨hm.tidy ht, hm.reading hq, ?_, ?_⟩
    · rintro u ⟨⟩
      exact Nat.lt_of_lt_of_le hlt hg.issued
    · intro u commit hu
      obtain ⟨rfl, rfl⟩ : t = u ∧ f' = .wait commit := by simpa using hu
      cases hm
      have hseen : s.core.released t = true ∨ s.core.Bound lost t := by simpa [decidesSeen, hh] using hok
      refine ⟨?_, hseen.imp_left (hg.released t hlt)⟩
      simp only [updTicket_self, Ticket.choose]
      split <;> simp_all

theorem reach_inv {s : Logged} (h : logged.Reach decidesSeen s) : Inv s.sys s.lost := by
  refine h.invariant (I := fun s => Inv s.sys s.lost) ?_ fun s e s' hi hok h => ?_
  · rintro ⟨s, lost⟩ ⟨⟨owned, rfl⟩, -⟩
    exact ⟨.fresh owned, by simp [Core.Reading, Core.fresh], by simp [Handler.ticket], by simp⟩
  · cases e with
    | own e =>
      obtain ⟨hf, h⟩ := Option.ite_none_right_eq_some.mp h
      obtain ⟨t, ht, rfl⟩ := Option.map_eq_some_iff.mp h
      exact step_inv ht hf hok hi
    | fail =>
      cases h
      exact { hi with waits := fun t commit hw => (hi.waits t commit hw).imp_right (·.imp_right (·.fail)) }

theorem step_grows (h : step s e = some s') : Grows s.core s'.core := by
  cases step_move h with
  | loop hm => exact hm.grows
  | child hm => exact .child hm
  | begin _ hm _ => exact .begin hm
  | turn _ => exact .same rfl rfl id
  | finish _ hm => exact hm.grows

/-- In a wait, the next step releases it or keeps it, and a step of the loop comes nearer. -/
theorem wait_step {t : Nat} (h : step s e = some s') (hf : finds lost e = true) (hw : s.waitsFor t)
    (hb : s.core.Bound lost t) : s'.core.released t = true ∨
      (s'.waitsFor t ∧ s'.core.Bound lost t) ∧ (s'.core.rank + if e.isLoop then 1 else 0) ≤ s.core.rank := by
  obtain ⟨commit, hw⟩ := hw
  cases step_move h with
  | loop hm => exact (hm.bound hf hb).imp_right fun ⟨hb', hr⟩ => ⟨⟨⟨commit, hw⟩, hb'⟩, hr⟩
  | child hm => exact .inr ⟨⟨⟨commit, hw⟩, (hb.child hm).1⟩, (hb.child hm).2⟩
  | begin hh _ _ => cases hh.symm.trans hw
  | turn hh => exact absurd hw (hh.noWait t commit).2
  | finish hh hm =>
    obtain ⟨rfl, rfl⟩ : _ = t ∧ _ = Fin.wait commit := by simpa using hh.symm.trans hw
    cases hm with
    | ended hr => exact .inl hr

theorem wait_released {t : Nat} (hi : t < s.core.issued) (hw : s.waitsFor t)
    (hb : s.core.released t = true ∨ s.core.Bound lost t) {es : List Ev}
    (hr : machine.run (fun _ => finds lost) s es = some s') : s'.core.released t = true ∨ es.countP Ev.isLoop ≤ s.core.rank := by
  refine (machine.run_rank Ev.isLoop (fun s => s.core.rank)
    (fun s => t < s.core.issued ∧ s.waitsFor t ∧ s.core.Bound lost t)
    (fun s => t < s.core.issued ∧ s.core.released t = true) ?_ ?_ ?_ hr).imp_left And.right
  · rintro s e s' ⟨hi, hp⟩ h
    have hg := step_grows h
    exact ⟨Nat.lt_of_lt_of_le hi hg.issued, hg.released t hi hp⟩
  · rintro s e s' ⟨hi, hw, hb⟩ hf h
    have hi' := Nat.lt_of_lt_of_le hi (step_grows h).issued
    exact (wait_step h hf hw hb).imp (⟨hi', ·⟩) fun ⟨hk, hle⟩ => ⟨⟨hi', hk⟩, hle⟩
  · exact hb.imp (⟨hi, ·⟩) (⟨hi, hw, ·⟩)

/-- When no ticket is decided before the loop is at it or on its way out, every wait of
    `finishMigration` is released by the loop's own steps. -/
theorem every_wait_is_released {s : Logged} (h : logged.Reach decidesSeen s) (t : Nat) (hw : s.sys.waitsFor t) :
    Unstuck s.sys t s.lost := by
  obtain ⟨htidy, hreading, hissued, hwaits⟩ := reach_inv h
  obtain ⟨commit, hc⟩ := hw
  obtain ⟨hd, hb⟩ := hwaits t commit hc
  refine ⟨hb, ?_, fun es s' => wait_released (hissued t (by rw [hc]; rfl)) ⟨commit, hc⟩ hb⟩
  rcases hr : s.sys.core.released t with _ | _
  · have hb := hb.resolve_left (by simp [hr])
    exact .inr (hb.enabled htidy hreading hd hr)
  · exact .inl rfl

/-- A silent session is asked for, observed and decided. -/
def observedRun : List LoggedEv :=
  [.loop .go, .begin, .signal, .loop .woken, .loop .go, .loop .go, .timeout, .finish, .finish].map .own

/-- An append fails and the loop ends; the child lives when the ticket is decided. -/
def lostRun : List LoggedEv :=
  [.own (.loop .go), .own (.child (.write [104])), .own (.loop .readable), .own (.loop .go), .own (.loop .readable),
    .own (.loop (.got 1)), .fail, .own (.loop (.stored false)), .own (.loop .go), .own .begin, .own .signal,
    .own .timeout, .own .finish, .own .finish]

theorem every_wait_is_released_observed :
    (∃ s : Logged, logged.Reach decidesSeen s ∧ s.sys.waitsFor 0 ∧ Unstuck s.sys 0 s.lost) ∧
    ∃ s : Logged, logged.Reach decidesSeen s ∧ s.sys.waitsFor 0 ∧
      (s.sys.core.loop = .ended ∧ s.sys.core.exited = false) ∧ Unstuck s.sys 0 s.lost := by
  obtain ⟨s, hr, hw⟩ := logged.exists_reach decidesSeen (s := ⟨⟨Core.fresh true, .idle⟩, false⟩) ⟨⟨true, rfl⟩, rfl⟩
    observedRun (P := fun s => s.sys.handler = .finish 0 (.wait false)) (by decide)
  obtain ⟨u, hu, hx, he⟩ := logged.exists_reach decidesSeen (s := ⟨⟨Core.fresh true, .idle⟩, false⟩) ⟨⟨true, rfl⟩, rfl⟩
    lostRun (P := fun s => s.sys.handler = .finish 0 (.wait false) ∧ s.sys.core.loop = .ended ∧
      s.sys.core.exited = false) (by decide)
  exact ⟨⟨s, hr, ⟨false, hw⟩, every_wait_is_released hr 0 ⟨false, hw⟩⟩,
    ⟨u, hu, ⟨false, hx⟩, he, every_wait_is_released hu 0 ⟨false, hx⟩⟩⟩

/-- The loop is slow to store a chunk; the preparation times out and decides the ticket;
    the loop comes back, finds it decided, takes the wake byte and polls. -/
def skippedRun : List LoggedEv := List.map .own
  [.loop .go, .child (.write [104]), .loop .readable, .loop .go, .loop .readable, .loop (.got 1),
    .begin, .signal, .timeout, .finish, .finish,
    .loop (.stored true), .loop .go, .loop .go, .loop .go, .loop .go, .loop .woken, .loop .go, .loop .go]

/-- `finishMigration` waits for a ticket the loop has skipped: the loop polls a silent
    child that lives, and has no wake byte left to read. -/
theorem a_skipped_ticket_is_waited_for :
    ∃ s : Logged, logged.Reach Machine.always s ∧ s.sys.waitsFor 0 ∧ s.sys.core.loop = .poll ∧ s.sys.core.wake = 0 ∧
      s.sys.core.ready = false ∧ s.sys.core.exited = false ∧ ¬ Unstuck s.sys 0 s.lost := by
  obtain ⟨s, hr, hw, hl, hk, hq, he, hs⟩ := logged.exists_reach Machine.always
    (s := ⟨⟨Core.fresh true, .idle⟩, false⟩) ⟨⟨true, rfl⟩, rfl⟩ skippedRun
    (P := fun s => s.sys.handler = .finish 0 (.wait false) ∧ s.sys.core.loop = .poll ∧ s.sys.core.wake = 0 ∧
      s.sys.core.ready = false ∧ s.sys.core.exited = false ∧
      ¬ (s.sys.core.released 0 = true ∨ s.sys.core.Bound s.lost 0)) (by decide)
  exact ⟨s, hr, ⟨false, hw⟩, hl, hk, hq, he, fun h => hs h.bound⟩

end Release

end Ghostline.Session
