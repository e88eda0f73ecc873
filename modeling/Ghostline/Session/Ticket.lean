/-
  Ghostline.Session.Ticket — what holds of a session's tickets in every run.

  `Tidy` is kept by every action on a session: the loop's, the child's, and those of
  `beginMigration` and `finishMigration` in any order. Its main part is `parked`: a live
  ticket that is stable, without an error and undecided has its loop parked at it.
  `Sealed` is what a commit leaves: a loop that will not read the PTY again.
-/

import Mathlib.Tactic.Common
import Ghostline.Session.Core

namespace Ghostline.Session

/-- The ticket the loop has observed and not marked stopped. -/
def Loop.ticket : Loop → Option Nat
  | .drain t _ | .drainRead t _ | .drainLock t _ _ | .drainAppend t _ _ | .drainFeed t _ _ | .drainUnlock t _ _
  | .stable t _ | .parked t _ | .stopping t _ _ => some t
  | _ => none

/-- The ticket whose decision the loop has still to receive. -/
def Loop.awaits : Loop → Option Nat
  | .stopping _ _ _ => none
  | l => l.ticket

/-- The ticket the loop is about to look at, or to settle. -/
def Loop.looksAt : Loop → Option Nat
  | .decided t | .settleStable t | .settleChoose t | .settleStop t => some t
  | l => l.ticket

/-- `copyOutputLoop` has returned. -/
def Loop.past : Loop → Bool
  | .ended | .waiting _ | .settle | .settleStable _ | .settleChoose _ | .settleStop _ | .closeMaster | .closeWake
  | .closeLog | .closeDone | .gone => true
  | _ => false

structure Core.Tidy (c : Core) : Prop where
  migrationIssued : ∀ t, c.migration = some t → t < c.issued
  loopIssued : ∀ t, c.loop.looksAt = some t → t < c.issued
  /-- The decision the loop waits for is in the channel once it is made. -/
  unread : ∀ t, c.loop.awaits = some t → (c.tickets t).decided = true → (c.tickets t).decide.isSome = true
  sent : ∀ t, (c.tickets t).decide.isSome = true → (c.tickets t).decided = true
  gone : c.loop = .gone ↔ c.done = true
  parked : ∀ t, t < c.issued → (c.tickets t).alive = true → (c.tickets t).stable = true →
    (c.tickets t).failed = false → (c.tickets t).decided = false → c.loop = .parked t false

/-- The loop will not read the PTY again. -/
def Core.Sealed (c : Core) : Prop :=
  c.loop.past = true ∨ (∃ t failed, c.loop = .stopping t failed true) ∨
    ∃ t failed, c.loop = .parked t failed ∧ (c.tickets t).decide = some true

namespace Core

variable {c c' : Core}

@[simp] theorem goto_loop (l : Loop) : (c.goto l).loop = l := rfl
@[simp] theorem goto_tickets (l : Loop) : (c.goto l).tickets = c.tickets := rfl
@[simp] theorem goto_issued (l : Loop) : (c.goto l).issued = c.issued := rfl
@[simp] theorem goto_migration (l : Loop) : (c.goto l).migration = c.migration := rfl
@[simp] theorem goto_done (l : Loop) : (c.goto l).done = c.done := rfl
@[simp] theorem goto_ready (l : Loop) : (c.goto l).ready = c.ready := rfl

@[simp] theorem updTicket_self (t : Nat) (f : Ticket → Ticket) : (c.updTicket t f).tickets t = f (c.tickets t) := by
  simp [updTicket]

theorem updTicket_ne {t u : Nat} (f : Ticket → Ticket) (h : u ≠ t) : (c.updTicket t f).tickets u = c.tickets u := by
  simp [updTicket, h]

end Core

open Ghostline.Session.Core

variable {c c' : Core}

/-! ## The loop's steps -/

theorem Core.Tidy.fresh (owned : Bool) : (Core.fresh owned).Tidy := by
  constructor <;> simp [Core.fresh, Loop.looksAt, Loop.awaits, Loop.ticket, newMigrationTicket]

theorem Core.Tidy.dead : Core.dead.Tidy := by
  constructor <;> simp [Core.dead, Core.fresh, Loop.looksAt, Loop.awaits, Loop.ticket, newMigrationTicket]

/-- A step that leaves the tickets alone and moves the loop to `l`, not from where it is
    parked: what it looks at next was the session's ticket or looked at before, and it
    takes a ticket up only undecided. -/
structure Lands (c : Core) (l : Loop) : Prop where
  looksAt : ∀ t, l.looksAt = some t → c.loop.looksAt = some t ∨ c.migration = some t
  awaits : ∀ t, l.awaits = some t → c.loop.awaits = some t ∨ (c.tickets t).decided = false
  notParked : ∀ t failed, c.loop ≠ .parked t failed

theorem Core.Tidy.lands (ht : c.Tidy) (hl : Lands c c'.loop) (hk : c'.tickets = c.tickets) (hi : c'.issued = c.issued)
    (hm : c'.migration = c.migration) (hg : c'.loop = .gone ↔ c'.done = true) : c'.Tidy where
  migrationIssued t h := hi ▸ ht.migrationIssued t (hm ▸ h)
  loopIssued t h := hi ▸ (hl.looksAt t h).elim (ht.loopIssued t) (ht.migrationIssued t)
  unread t h hd := by
    rw [hk] at hd ⊢
    rcases hl.awaits t h with ha | ha
    · exact ht.unread t ha hd
    · exact absurd (ha ▸ hd) (by decide)
  sent t := by rw [hk]; exact ht.sent t
  gone := hg
  parked t h ha hs hf hd := by
    rw [hk] at ha hs hf hd
    exact absurd (ht.parked t (hi ▸ h) ha hs hf hd) (hl.notParked t false)

theorem Hop.lands {k l : Loop} {e : LoopEv} (h : Hop c k e l) (hk : c.loop = k) : Lands c l := by
  constructor <;> cases h <;> simp_all [Loop.looksAt, Loop.awaits, Loop.ticket]

theorem Hop.notGone {k l : Loop} {e : LoopEv} (h : Hop c k e l) : l ≠ .gone ∧ k ≠ .gone := by
  cases h <;> simp

theorem awaits_looksAt {l : Loop} {t : Nat} (h : l.awaits = some t) : l.looksAt = some t := by
  cases l <;> simp_all [Loop.awaits, Loop.looksAt, Loop.ticket]

/-- A step on the ticket `t` the loop is at. -/
theorem Core.Tidy.upd {t : Nat} {f : Ticket → Ticket} {l : Loop} (ht : c.Tidy) (hc : c.loop.looksAt = some t)
    (hl : l.looksAt = some t ∨ l.looksAt = none) (hg : l ≠ .gone)
    (hs : (f (c.tickets t)).decide.isSome = true → (f (c.tickets t)).decided = true)
    (hu : l.awaits = some t → (f (c.tickets t)).decided = true → (f (c.tickets t)).decide.isSome = true)
    (hp : (f (c.tickets t)).alive = true → (f (c.tickets t)).stable = true → (f (c.tickets t)).failed = false →
      (f (c.tickets t)).decided = false → l = .parked t false) : ((c.updTicket t f).goto l).Tidy where
  migrationIssued := ht.migrationIssued
  loopIssued u h := by
    rcases hl with hl | hl
    · exact ht.loopIssued u (hc.trans (hl.symm.trans h))
    · exact absurd (hl.symm.trans h) (by simp)
  unread u h hd := by
    have hu' : u = t := by
      have := awaits_looksAt h
      rcases hl with hl | hl <;> simp_all
    subst hu'
    simp only [goto_tickets, updTicket_self] at hd ⊢
    exact hu h hd
  sent u := by
    rcases eq_or_ne u t with rfl | hne
    · simpa using hs
    · simpa [updTicket_ne f hne] using ht.sent u
  gone := by
    have hn : c.loop ≠ .gone := by intro h; simp [h, Loop.looksAt, Loop.ticket] at hc
    have hd := mt ht.gone.mpr hn
    simpa [hg, updTicket] using hd
  parked u h ha hst hf hd := by
    rcases eq_or_ne u t with rfl | hne
    · simp only [goto_tickets, updTicket_self] at ha hst hf hd
      exact hp ha hst hf hd
    · simp only [goto_tickets, updTicket_ne f hne] at ha hst hf hd
      have hu := ht.parked u h ha hst hf hd
      rw [hu] at hc
      exact absurd (Option.some.inj hc) hne

theorem LoopMove.tidy {e : LoopEv} (h : LoopMove c e c') (ht : c.Tidy) : c'.Tidy := by
  -- a live stable ticket without error is decided unless the loop is parked there
  have settled : ∀ {t}, c.loop.looksAt = some t → (∀ u f, c.loop ≠ .parked u f) → (c.tickets t).alive = true →
      (c.tickets t).stable = true → (c.tickets t).failed = false → (c.tickets t).decided = false → False :=
    fun hl hn ha hs hf hd => hn _ _ (ht.parked _ (ht.loopIssued _ hl) ha hs hf hd)
  cases h with
  | hop h =>
    have hn := h.notGone
    have hd := mt ht.gone.mpr hn.2
    exact ht.lands (h.lands rfl) rfl rfl rfl (by simp [hn.1, hd])
  | woken hl _ | got hl _ _ | drainGot hl _ _ | waitKilling hl _ _ | closeMaster hl _ | closeDone hl =>
    have hg := ht.gone
    refine ht.lands ⟨?_, ?_, ?_⟩ rfl rfl rfl ?_ <;>
      simp_all [goto, take, dropMaster, Loop.looksAt, Loop.awaits, Loop.ticket]
  | killed hl _ =>
    have hg := ht.gone
    refine ht.lands ⟨?_, ?_, ?_⟩ rfl rfl rfl ?_ <;> simp_all [Loop.looksAt, Loop.awaits, Loop.ticket]
  | @stable t failed hl =>
    have hun := ht.unread t (by simp [hl, Loop.awaits, Loop.ticket])
    refine ht.upd (by simp [hl, Loop.looksAt, Loop.ticket]) (.inl rfl) (by simp) (ht.sent t)
      (fun _ => hun) fun _ _ hf _ => ?_
    simp only [Ticket.markStable, Bool.or_eq_false_iff] at hf
    rw [hf.2]
  | @receive t failed commit hl hd =>
    refine ht.upd (by simp [hl, Loop.looksAt, Loop.ticket]) (.inl rfl) (by simp) (by simp)
      (by simp [Loop.awaits]) fun _ _ _ hu => ?_
    exact absurd (ht.sent t (by simp [hd])) (by simpa using hu)
  | @stopped t failed commit hl =>
    have hc : c.loop.looksAt = some t := by simp [hl, Loop.looksAt, Loop.ticket]
    refine ht.upd hc (.inr ?_) ?_ (ht.sent t) ?_ fun ha hs hf hd => ?_
    case refine_4 => exact (settled hc (by simp [hl]) ha hs hf hd).elim
    all_goals cases failed <;> cases commit <;> simp [Loop.looksAt, Loop.awaits, Loop.ticket]
  | @settleStable t hl =>
    exact ht.upd (by simp [hl, Loop.looksAt]) (.inl rfl) (by simp) (ht.sent t)
      (by simp [Loop.awaits, Loop.ticket]) (by simp [Ticket.markStable])
  | @settleChoose t hl =>
    have hs := ht.sent t
    refine ht.upd (by simp [hl, Loop.looksAt]) (.inl rfl) (by simp) ?_ (by simp [Loop.awaits, Loop.ticket])
      ?_
    all_goals simp only [Ticket.choose]; split <;> simp_all
  | @settleStop t hl =>
    have hc : c.loop.looksAt = some t := by simp [hl, Loop.looksAt]
    exact ht.upd hc (.inr rfl) (by simp) (ht.sent t) (by simp [Loop.awaits, Loop.ticket])
      fun ha hs hf hd => (settled hc (by simp [hl]) ha hs hf hd).elim

/-! ## The child's and the handler's steps -/

/-- What the invariant speaks of is the same in both. -/
structure SameTickets (c c' : Core) : Prop where
  loop : c'.loop = c.loop
  tickets : c'.tickets = c.tickets
  issued : c'.issued = c.issued
  migration : c'.migration = c.migration
  done : c'.done = c.done
  migrated : c'.migrated = c.migrated

theorem Core.Tidy.same (ht : c.Tidy) (h : SameTickets c c') : c'.Tidy := by
  obtain ⟨hl, hk, hi, hm, hd, -⟩ := h
  constructor <;> simp only [hl, hk, hi, hm, hd]
  exacts [ht.migrationIssued, ht.loopIssued, ht.unread, ht.sent, ht.gone, ht.parked]

theorem SameTickets.child {e : ChildEv} (h : c.childStep e = some c') : SameTickets c c' := by
  cases childStep_move h <;> exact ⟨rfl, rfl, rfl, rfl, rfl, rfl⟩

theorem Core.Tidy.begin (ht : c.Tidy) (h : c.beginMigration = some c') : c'.Tidy := by
  obtain rfl := beginMigration_eq h
  have old : ∀ {u}, c.loop.looksAt = some u → u ≠ c.issued := fun hu => Nat.ne_of_lt (ht.loopIssued _ hu)
  refine ⟨?_, fun u hu => Nat.lt_succ_of_lt (ht.loopIssued u hu), fun u hu => ?_, fun u => ?_, ht.gone, ?_⟩
  · intro u hu
    cases hu
    exact Nat.lt_succ_self _
  · simpa [old (awaits_looksAt hu)] using ht.unread u hu
  · rcases eq_or_ne u c.issued with rfl | hne
    · rcases c.done <;> simp [newMigrationTicket, Ticket.markStable, Ticket.markStopped]
    · simpa [hne] using ht.sent u
  · intro u hu ha hs hf hd
    rcases eq_or_ne u c.issued with rfl | hne
    · -- the new ticket is dead, or not stable yet
      rcases hdone : c.done <;> simp [hdone, newMigrationTicket, Ticket.markStable, Ticket.markStopped] at ha hs
    · simp only [Function.update_of_ne hne] at ha hs hf hd
      exact ht.parked u (by simp only at hu; omega) ha hs hf hd

/-- Deciding a ticket, by whoever comes first. -/
theorem Core.Tidy.choose (ht : c.Tidy) (t : Nat) (b : Bool) : (c.updTicket t (·.choose b)).Tidy := by
  have other : ∀ {u}, u ≠ t → (c.updTicket t (·.choose b)).tickets u = c.tickets u := fun h => updTicket_ne _ h
  have own : (c.updTicket t (·.choose b)).tickets t = (c.tickets t).choose b := updTicket_self _ _
  refine ⟨ht.migrationIssued, ht.loopIssued, fun u hu => ?_, fun u => ?_, ht.gone, fun u hu ha hs hf hd => ?_⟩
  · rcases eq_or_ne u t with rfl | hne
    · rw [own, Ticket.choose]
      split
      · exact ht.unread u hu
      · simp
    · rw [other hne]; exact ht.unread u hu
  · rcases eq_or_ne u t with rfl | hne
    · rw [own, Ticket.choose]
      split
      · exact ht.sent u
      · simp
    · rw [other hne]; exact ht.sent u
  · rcases eq_or_ne u t with rfl | hne
    · rw [own, Ticket.choose] at hd
      split at hd
      · rename_i h; exact absurd hd (by simp [h])
      · cases hd
    · rw [other hne] at ha hs hf hd; exact ht.parked u hu ha hs hf hd

theorem FinMove.tidy {t : Nat} {f f' : Fin} (h : FinMove c t f c' f') (ht : c.Tidy) : c'.Tidy := by
  cases h with
  | abort _ | commit _ | ended _ | stale _ => exact ht
  | choose => exact ht.choose t _
  | mark | dropped => exact ⟨ht.1, ht.2, ht.3, ht.4, ht.5, ht.6⟩
  | clear _ | cleared _ => exact ⟨by simp, ht.2, ht.3, ht.4, ht.5, ht.6⟩

/-! ## A sealed loop -/

theorem Hop.past {k l : Loop} {e : LoopEv} (h : Hop c k e l) (hk : k.past = true) : l.past = true := by
  cases h <;> simp_all [Loop.past]

theorem LoopMove.sealed {e : LoopEv} (h : LoopMove c e c') (hs : c.Sealed) : c'.Sealed := by
  rcases hs with hp | ⟨t, failed, hl⟩ | ⟨t, failed, hl, hd⟩
  · left
    cases h with
    | hop h => exact h.past hp
    | killed _ _ => exact hp
    | _ => simp_all [Loop.past]
  · left
    cases h with
    | hop h => rw [hl] at h; cases h
    | _ => simp_all [Loop.past]
  · right; left
    cases h with
    | hop h => rw [hl] at h; cases h
    | receive hl' hd' =>
      obtain ⟨rfl, rfl⟩ : t = _ ∧ failed = _ := by simpa using hl.symm.trans hl'
      cases hd.symm.trans hd'
      exact ⟨t, failed, rfl⟩
    | _ => simp_all

/-- Who leaves the loop where it is, and the decision it waits for, leaves it sealed. -/
theorem Core.Sealed.keep (hs : c.Sealed) (hl : c'.loop = c.loop)
    (hd : ∀ t, c.loop.looksAt = some t → (c.tickets t).decide = some true → (c'.tickets t).decide = some true) :
    c'.Sealed := by
  unfold Core.Sealed
  rw [hl]
  refine hs.imp_right (.imp_right ?_)
  rintro ⟨t, failed, h, ht⟩
  exact ⟨t, failed, h, hd t (by rw [h]; rfl) ht⟩

theorem Core.Sealed.same (hs : c.Sealed) (h : SameTickets c c') : c'.Sealed :=
  hs.keep h.loop fun t _ ht => by rw [h.tickets]; exact ht

theorem Core.Sealed.begin (hs : c.Sealed) (ht : c.Tidy) (h : c.beginMigration = some c') : c'.Sealed := by
  obtain rfl := beginMigration_eq h
  refine hs.keep rfl fun t hl => ?_
  simp [Function.update_of_ne (Nat.ne_of_lt (ht.loopIssued t hl))]

theorem Core.Sealed.choose (hs : c.Sealed) (ht : c.Tidy) (t : Nat) (b : Bool) :
    (c.updTicket t (·.choose b)).Sealed := by
  refine hs.keep rfl fun u _ hd => ?_
  rcases eq_or_ne u t with rfl | hne
  · -- a decision in the channel was made already
    have := ht.sent u (by simp [hd])
    simpa [Ticket.choose, this] using hd
  · rwa [updTicket_ne _ hne]

theorem FinMove.sealed {t : Nat} {f f' : Fin} (h : FinMove c t f c' f') (ht : c.Tidy) (hs : c.Sealed) : c'.Sealed := by
  cases h with
  | choose => exact hs.choose ht t _
  | _ => exact hs

end Ghostline.Session
