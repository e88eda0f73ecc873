/-
  Ghostline.Session.Wake — the wake pipe (process.go: `waitOutputOrMigration`,
  `beginMigration`, `signalMigrationWake`).

  `beginMigration` installs its ticket under `migrationMu` and writes one byte to the pipe
  after it has let go of the lock. The loop looks for a ticket and then polls the pipe and
  the PTY; a byte makes it look again. Bytes and tickets do not pair up: the loop can find
  a ticket before it has read the ticket's byte, so bytes of attempts that were given up
  stay in the pipe. What matters is the other direction (`Heard`): whenever the loop has
  looked and goes on to poll, a ticket that came after the look has its byte in the pipe,
  or its byte is still to be written.

  A byte too many costs the loop one more look and touches nothing of the PTY. `Tally`
  follows what the child wrote: to the log, in the loop's hand, or in the PTY.
-/

import Ghostline.Session.Release

namespace Ghostline.Session

open Lib Ghostline.Session.Core

/-- The loop has looked for a ticket and goes on to poll, or is blocked there. -/
def Core.AboutToPoll (c : Core) : Prop :=
  c.loop = .poll ∨ ∃ u, c.loop = .decided u ∧ (c.tickets u).decided = true

/-- A live ticket is installed that nobody has decided. -/
structure Core.Open (c : Core) (t : Nat) : Prop where
  installed : c.migration = some t
  alive : (c.tickets t).alive = true
  undecided : (c.tickets t).decided = false

/-- The loop will not look for ticket `t` again before it polls. -/
def Core.Passed (c : Core) (t : Nat) : Prop := c.loop = .poll ∨ ∃ u, c.loop = .decided u ∧ u ≠ t

theorem Core.AboutToPoll.passed {c : Core} {t : Nat} (h : c.AboutToPoll) (ho : c.Open t) : c.Passed t := by
  refine h.imp_right ?_
  rintro ⟨u, hu, hd⟩
  refine ⟨u, hu, ?_⟩
  rintro rfl
  rw [ho.undecided] at hd
  cases hd

/-- The loop comes to poll without an open ticket, but for one it has passed already. -/
theorem Hop.passed {c : Core} {k l : Loop} {e : LoopEv} {t : Nat} (h : Hop c k e l) (hk : c.loop = k) (ho : c.Open t)
    (hp : (c.goto l).Passed t) : c.Passed t := by
  have hl : l = .poll ∨ ∃ u, l = .decided u ∧ u ≠ t := hp
  cases h with
  | noTicket hm => rw [ho.installed] at hm; cases hm
  | deadTicket hm ha =>
    obtain rfl := Option.some.inj (ho.installed.symm.trans hm)
    rw [ho.alive] at ha
    cases ha
  | ticket hm =>
    obtain rfl := Option.some.inj (ho.installed.symm.trans hm)
    rcases hl with hl | ⟨u, hl, hne⟩
    · cases hl
    · exact absurd (Loop.decided.inj hl).symm hne
  | @skip u hd =>
    refine .inr ⟨u, hk, ?_⟩
    rintro rfl
    rw [ho.undecided] at hd
    cases hd
  | _ => rcases hl with hl | ⟨u, hl, -⟩ <;> cases hl

/-- A step of the loop leaves the byte where it is, unless it goes back to look. -/
theorem LoopMove.passed {c c' : Core} {e : LoopEv} {t : Nat} (h : LoopMove c e c') (ho : c'.Open t) (hp : c'.Passed t) :
    c.Open t ∧ c.Passed t ∧ c'.wake = c.wake := by
  cases h with
  | hop h => exact ⟨⟨ho.1, ho.2, ho.3⟩, h.passed rfl ⟨ho.1, ho.2, ho.3⟩ hp, rfl⟩
  | killed hl =>
    rcases hp with hp | ⟨u, hp, -⟩
    · rw [show _ = _ from hp] at hl; cases hl
    · rw [show _ = _ from hp] at hl; cases hl
  | @stopped u failed commit =>
    rcases hp with hp | ⟨u, hp, -⟩
    · cases failed <;> cases commit <;> cases hp
    · cases failed <;> cases commit <;> cases hp
  | _ => rcases hp with hp | ⟨u, hp, -⟩ <;> cases hp

namespace Release

variable {s s' : Sys} {e : Ev}

/-- The loop passes an open ticket only with the ticket's byte on its way. -/
def Heard (s : Sys) : Prop :=
  ∀ t, s.core.Open t → s.core.Passed t → 0 < s.core.wake ∨ s.handler = .wake t

theorem heard_init {owned : Bool} : Heard ⟨Core.fresh owned, .idle⟩ := by
  rintro t ⟨h, -, -⟩
  cases h

theorem Heard.of_quiet {c : Core} {h : Handler} (hi : Heard s) (hn : ∀ t, s.handler ≠ .wake t)
    (ho : ∀ t, c.Open t → s.core.Open t) (hl : c.loop = s.core.loop) (hw : s.core.wake ≤ c.wake) : Heard ⟨c, h⟩ := by
  intro t hop hp
  have hp' : s.core.Passed t := by simpa only [Core.Passed, hl] using hp
  exact .inl (Nat.lt_of_lt_of_le ((hi t (ho t hop) hp').resolve_right (hn t)) hw)

/-- A turn of the handler that has no byte to write. -/
theorem Heard.turn {h : Handler} (hi : Heard s) (hn : ∀ t, s.handler ≠ .wake t) : Heard ⟨s.core, h⟩ :=
  hi.of_quiet hn (fun _ ho => ho) rfl (Nat.le_refl _)

theorem FinMove.opens {c c' : Core} {t u : Nat} {f f' : Fin} (h : FinMove c t f c' f') (ho : c'.Open u) : c.Open u := by
  obtain ⟨h1, h2, h3⟩ := ho
  cases h with
  | abort | commit | ended | stale => exact ⟨h1, h2, h3⟩
  | mark | dropped => exact ⟨h1, h2, h3⟩
  | clear | cleared => cases h1
  | choose =>
    rcases eq_or_ne u t with rfl | hne
    · simp only [updTicket_self, Ticket.choose] at h3
      split at h3
      · rename_i hd
        rw [hd] at h3
        cases h3
      · cases h3
    · rw [updTicket_ne _ hne] at h2 h3
      exact ⟨h1, h2, h3⟩

theorem childStep_wake {c c' : Core} {e : ChildEv} (h : c.childStep e = some c') : c'.wake = c.wake := by
  cases childStep_move h <;> rfl

theorem Heard.step (hi : Heard s) (h : step s e = some s') : Heard s' := by
  unfold Release.step at h
  split at h
  · obtain ⟨c, hc, rfl⟩ := Option.map_eq_some_iff.mp h
    intro t ho hp
    obtain ⟨ho', hp', hw⟩ := (loopStep_move hc).passed ho hp
    exact hw ▸ hi t ho' hp'
  · obtain ⟨c, hc, rfl⟩ := Option.map_eq_some_iff.mp h
    have hs := SameTickets.child hc
    intro t ⟨h1, h2, h3⟩ hp
    rw [hs.tickets] at h2 h3
    have hp' : s.core.Passed t := by simpa only [Core.Passed, hs.loop] using hp
    exact childStep_wake hc ▸ hi t ⟨hs.migration ▸ h1, h2, h3⟩ hp'
  · -- the ticket is installed, and its byte is still to be written
    rename_i hh
    obtain ⟨c, hc, rfl⟩ := Option.map_eq_some_iff.mp h
    obtain rfl := beginMigration_eq hc
    intro t ho hp
    obtain rfl := Option.some.inj ho.installed
    cases hd : s.core.done with
    | false => exact .inr (by simp)
    | true =>
      have := ho.alive
      simp [hd, newMigrationTicket, Ticket.markStable, Ticket.markStopped] at this
  · cases h
    intro t _ _
    exact .inl (Nat.succ_pos _)
  · rename_i t hh
    simp only [Option.ite_none_right_eq_some, Option.some.injEq] at h
    obtain ⟨-, rfl⟩ := h
    exact hi.turn (by simp [hh])
  · rename_i hh
    cases h
    exact hi.turn (by simp [hh])
  · rename_i hh
    cases h
    exact hi.turn (by simp [hh])
  · rename_i hh
    cases h
    exact hi.turn (by simp [hh])
  · rename_i hh
    cases h
    exact hi.turn (by simp [hh])
  · rename_i hh
    obtain ⟨⟨c, f'⟩, hc, rfl⟩ := Option.map_eq_some_iff.mp h
    have hm := finStep_move hc
    refine hi.of_quiet (by simp [hh]) (fun _ => FinMove.opens hm) ?_ ?_
    · cases hm <;> rfl
    · cases hm <;> exact Nat.le_refl _
  · cases h

/-! ## The bytes of the PTY -/

/-- What the loop has read and not given to the log yet. -/
def chunk : Loop → List Byte
  | .append chunk | .drainLock _ _ chunk | .drainAppend _ _ chunk => chunk
  | _ => []

/-- A session, all its child wrote, and all that was given to the log. -/
structure Tally where
  sys : Sys
  written : List Byte
  appended : List Byte

def wrote : Ev → List Byte
  | .child (.write data) => data
  | _ => []

/-- What a step of the loop gives to `output.append`. -/
def stores (l : Loop) : LoopEv → List Byte
  | .stored _ => chunk l
  | _ => []

def gives (s : Sys) : Ev → List Byte
  | .loop e => stores s.core.loop e
  | _ => []

def Tally.step (t : Tally) (e : Ev) : Option Tally :=
  (Release.step t.sys e).map fun s => ⟨s, t.written ++ wrote e, t.appended ++ gives t.sys e⟩

def tallyMachine : Machine Tally Ev where
  init t := ∃ owned, t = ⟨⟨Core.fresh owned, .idle⟩, [], []⟩
  step := Tally.step

theorem Hop.tally {c : Core} {k l : Loop} {e : LoopEv} (h : Hop c k e l) : chunk k = stores k e ++ chunk l := by
  cases h <;> simp [chunk, stores]

/-- A step of the loop passes bytes on, from the PTY to its hand and from there to the log. -/
theorem LoopMove.tally {c c' : Core} {e : LoopEv} (h : LoopMove c e c') :
    chunk c.loop ++ c.queue = stores c.loop e ++ chunk c'.loop ++ c'.queue := by
  cases h with
  | hop h => rw [Hop.tally h]; rfl
  | got hl _ hle | drainGot hl _ hle => simp [hl, chunk, stores, Core.goto, Core.take]
  | killed hl => simp [hl, chunk, stores]
  | @stopped t failed commit hl => cases failed <;> cases commit <;> simp [hl, chunk, stores, Core.goto, Core.updTicket]
  | woken hl | stable hl | receive hl | waitKilling hl | settleStable hl | settleChoose hl | settleStop hl
  | closeMaster hl | closeDone hl => simp [hl, chunk, stores, Core.goto, Core.updTicket, Core.dropMaster]

/-- Everything the child wrote is with the log, in the loop's hand or in the PTY, in order. -/
def Tally.Whole (t : Tally) : Prop := t.written = t.appended ++ chunk t.sys.core.loop ++ t.sys.core.queue

theorem Tally.Whole.step {t t' : Tally} (hw : t.Whole) (h : t.step e = some t') : t'.Whole := by
  obtain ⟨s', hs, rfl⟩ := Option.map_eq_some_iff.mp h
  have same : wrote e = [] → gives t.sys e = [] → s'.core.loop = t.sys.core.loop → s'.core.queue = t.sys.core.queue →
      Tally.Whole ⟨s', t.written ++ wrote e, t.appended ++ gives t.sys e⟩ := by
    intro h1 h2 h3 h4
    simpa only [Tally.Whole, h1, h2, h3, h4, List.append_nil] using hw
  cases e with
  | loop x =>
    obtain ⟨c, hc, rfl⟩ := Option.map_eq_some_iff.mp hs
    show t.written ++ [] = _
    rw [List.append_nil, hw, List.append_assoc, LoopMove.tally (loopStep_move hc)]
    simp only [gives, List.append_assoc]
  | child x =>
    obtain ⟨c, hc, rfl⟩ := Option.map_eq_some_iff.mp hs
    cases childStep_move hc with
    | write _ =>
      simp only [Tally.Whole, wrote, gives, List.append_nil] at hw ⊢
      rw [hw, List.append_assoc]
    | exit | hangup => exact same rfl rfl rfl rfl
  | _ => exact same rfl rfl (step_loop hs rfl) (step_pty hs rfl fun _ h => (by cases h)).1

/-! ## The result -/

/-- No wake-up is lost: when a live undecided ticket is installed and the loop polls, or is
    about to, the pipe holds a byte or `beginMigration` has still to write it; and whatever
    the loop reads from the pipe, no byte of the PTY gets lost. -/
theorem no_wake_is_lost {t : Tally} (h : tallyMachine.Reach Machine.always t) :
    (∀ u, t.sys.core.migration = some u → (t.sys.core.tickets u).alive = true →
      (t.sys.core.tickets u).decided = false → t.sys.core.AboutToPoll →
      0 < t.sys.core.wake ∨ t.sys.handler = .wake u) ∧
    t.written = t.appended ++ chunk t.sys.core.loop ++ t.sys.core.queue := by
  have hi : Heard t.sys ∧ t.Whole := by
    refine h.invariant (I := fun t => Heard t.sys ∧ t.Whole) ?_ ?_
    · rintro t ⟨owned, rfl⟩
      exact ⟨heard_init, rfl⟩
    · rintro t e t' ⟨hh, hw⟩ - hs
      refine ⟨?_, hw.step hs⟩
      obtain ⟨s', hs', rfl⟩ := Option.map_eq_some_iff.mp hs
      exact hh.step hs'
  refine ⟨fun u h1 h2 h3 hp => ?_, hi.2⟩
  exact hi.1 u ⟨h1, h2, h3⟩ (hp.passed ⟨h1, h2, h3⟩)

/-- An attempt is given up after the loop has taken its ticket up without reading the byte;
    then the loop polls, the child writes, and a second attempt begins. -/
def surplus : List Ev :=
  [.begin, .loop .go, .loop .go, .signal, .timeout, .finish, .finish, .loop .unreadable, .loop .go, .loop .go, .loop .go,
    .finish, .finish, .finish, .loop .go, .child (.write [97]), .loop .woken, .loop .go, .begin]

theorem no_wake_is_lost_surplus : ∃ t, tallyMachine.Reach Machine.always t ∧
    (t.sys.core.migration = some 1 ∧ (t.sys.core.tickets 1).alive = true ∧ (t.sys.core.tickets 1).decided = false ∧
      t.sys.core.loop = .poll ∧ t.sys.core.wake = 0 ∧ t.sys.core.queue = [97]) ∧
    (0 < t.sys.core.wake ∨ t.sys.handler = .wake 1) := by
  obtain ⟨t, ht, h⟩ := tallyMachine.exists_reach Machine.always
    (s := ⟨⟨Core.fresh true, .idle⟩, [], []⟩) ⟨true, rfl⟩ surplus
    (P := fun t => t.sys.core.migration = some 1 ∧ (t.sys.core.tickets 1).alive = true ∧
      (t.sys.core.tickets 1).decided = false ∧ t.sys.core.loop = .poll ∧ t.sys.core.wake = 0 ∧
      t.sys.core.queue = [97]) (by decide)
  exact ⟨t, ht, h, (no_wake_is_lost ht).1 1 h.1 h.2.1 h.2.2.1 (.inl h.2.2.2.1)⟩

end Release

end Ghostline.Session
