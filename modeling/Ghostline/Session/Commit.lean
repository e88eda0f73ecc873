/-
  Ghostline.Session.Commit — what a committed migration leaves of the source's session.

  `Safe` holds in every state of every run of `Release.machine`: while a ticket is
  prepared its loop is parked at it, or gone (`Prepared.still`), and once the session is
  marked migrated its loop is sealed, but for the moment before the decision.
-/

import Ghostline.Session.Release

namespace Ghostline.Session

open Ghostline.Session.Core

variable {c c' : Core} {t : Nat}

/-- Ticket `t` is asked for: it is the session's, and decided only after a failure. -/
structure Core.Asked (c : Core) (t : Nat) : Prop where
  issued : t < c.issued
  current : c.migration = some t
  running : (c.tickets t).alive = true ∨ c.done = true
  decided : (c.tickets t).decided = true → (c.tickets t).failed = true

structure Core.Prepared (c : Core) (t : Nat) : Prop where
  issued : t < c.issued
  current : c.migration = some t
  running : (c.tickets t).alive = true ∨ c.done = true
  stable : (c.tickets t).stable = true
  clean : (c.tickets t).failed = false
  undecided : (c.tickets t).decided = false

theorem Core.Asked.same (h : c.Asked t) (hs : SameTickets c c') : c'.Asked t := by
  obtain ⟨-, hk, hi, hm, hd, -⟩ := hs
  exact ⟨hi ▸ h.issued, hm ▸ h.current, by rw [hk, hd]; exact h.running, by rw [hk]; exact h.decided⟩

theorem Core.Prepared.same (h : c.Prepared t) (hs : SameTickets c c') : c'.Prepared t := by
  obtain ⟨-, hk, hi, hm, hd, -⟩ := hs
  refine ⟨hi ▸ h.issued, hm ▸ h.current, ?_, ?_, ?_, ?_⟩ <;> rw [hk]
  exacts [hd ▸ h.running, h.stable, h.clean, h.undecided]

theorem Core.Prepared.loop (h : c.Prepared t) (ht : c.Tidy) : c.loop = .parked t false ∨ c.loop = .gone :=
  h.running.imp (fun ha => ht.parked t h.issued ha h.stable h.clean h.undecided) ht.gone.mpr

/-- The loop of a prepared ticket does not move. -/
theorem Core.Prepared.still (h : c.Prepared t) (ht : c.Tidy) {e : LoopEv} : ¬ LoopMove c e c' := by
  intro hm
  rcases h.loop ht with hl | hl
  · cases hm with
    | hop hh => rw [hl] at hh; cases hh
    | receive hl' hd =>
      cases hl.symm.trans hl'
      have := ht.sent t (by simp [hd])
      simp [h.undecided] at this
    | _ => simp_all
  · cases hm with
    | hop hh => rw [hl] at hh; cases hh
    | _ => simp_all

theorem Core.Prepared.seal (h : c.Prepared t) (ht : c.Tidy) : (c.updTicket t (·.choose true)).Sealed := by
  rcases h.loop ht with hl | hl
  · exact .inr (.inr ⟨t, false, hl, by simp [Ticket.choose, h.undecided]⟩)
  · exact .inl (by rw [show (c.updTicket t _).loop = c.loop from rfl, hl]; rfl)

/-- The loop settles a ticket by its failure first. -/
def Core.Settling (c : Core) : Prop := ∀ t, c.loop = .settleChoose t → (c.tickets t).failed = true

theorem LoopMove.settling {e : LoopEv} (h : LoopMove c e c') (hs : c.Settling) : c'.Settling := by
  cases h with
  | hop h =>
    intro t hl
    generalize c.loop = k at h
    simp only [goto_loop] at hl
    subst hl
    cases h
  | settleStable hl => rintro u hu; cases hu; simp [Ticket.markStable]
  | stopped hl => intro u hu; simp only [goto_loop] at hu; split at hu <;> cases hu
  | killed hl _ => exact hs
  | _ => intro u hu; cases hu

theorem LoopMove.asked {e : LoopEv} (h : LoopMove c e c') (hs : c.Settling) (ha : c.Asked t) : c'.Asked t := by
  obtain ⟨hi, hc, hr, hd⟩ := ha
  -- a step on ticket `u` keeps it alive, and decides it only when it has failed
  have upd : ∀ {u : Nat} {f : Ticket → Ticket} {l : Loop}, (f (c.tickets u)).alive = (c.tickets u).alive →
      ((c.tickets u).failed = true → (f (c.tickets u)).failed = true) →
      ((f (c.tickets u)).decided = true → (c.tickets u).decided = true ∨ (c.tickets u).failed = true) →
      ((c.updTicket u f).goto l).Asked t := by
    intro u f l h1 h2 h3
    rcases eq_or_ne t u with rfl | hne
    · refine ⟨hi, hc, hr.imp_left ?_, ?_⟩ <;> simp only [goto_tickets, updTicket_self]
      · exact fun h => h1.trans h
      · exact fun h => h2 ((h3 h).elim hd id)
    · refine ⟨hi, hc, ?_, ?_⟩ <;> simp only [goto_tickets, updTicket_ne f hne]
      · exact hr
      · exact hd
  cases h with
  | stable _ | settleStable _ =>
    exact upd rfl (fun h => by simp [Ticket.markStable, h]) fun h => .inl h
  | receive _ _ | stopped _ | settleStop _ => exact upd rfl id fun h => .inl h
  | settleChoose hl =>
    have hf := hs _ hl
    refine upd ?_ ?_ fun _ => .inr hf <;> simp only [Ticket.choose] <;> split <;> simp
  | closeDone _ => exact ⟨hi, hc, .inr rfl, hd⟩
  | _ => exact ⟨hi, hc, hr, hd⟩

theorem LoopMove.migrated {e : LoopEv} (h : LoopMove c e c') : c'.migrated = c.migrated := by
  cases h <;> rfl

/-! ## Along a run -/

namespace Release

variable {s s' : Sys} {e : Ev}

/-- The ticket the handler found prepared and has not decided. -/
def ready : Handler → Option Nat
  | .prepared t | .finish t (.start true) | .finish t .mark | .finish t (.choose true) => some t
  | _ => none

structure Safe (s : Sys) : Prop where
  tidy : s.core.Tidy
  settling : s.core.Settling
  asked : ∀ t, s.handler = .wake t ∨ s.handler = .awaiting t → s.core.Asked t
  prepared : ∀ t, ready s.handler = some t → s.core.Prepared t
  sealed : s.core.migrated = true → (∃ t, s.handler = .finish t (.choose true)) ∨ s.core.Sealed

theorem Safe.init {c : Core} (ht : c.Tidy) (hs : c.Settling) (hm : c.migrated = false) : Safe ⟨c, .idle⟩ :=
  ⟨ht, hs, by simp, by simp [Release.ready], by simp [hm]⟩

/-- The invariant speaks of the tickets only. -/
theorem Safe.same {c : Core} (h : Safe s) (hs : SameTickets s.core c) : Safe { s with core := c } where
  tidy := h.tidy.same hs
  settling t hl := by rw [hs.tickets]; exact h.settling t (hs.loop ▸ hl)
  asked t ht := (h.asked t ht).same hs
  prepared t ht := (h.prepared t ht).same hs
  sealed hm := (h.sealed (hs.migrated ▸ hm)).imp_right (·.same hs)

/-- Outside the moment before a commit is decided, a migrated session is sealed. -/
theorem Safe.sealed_of (hi : Safe s) (hh : ∀ t, s.handler ≠ .finish t (.choose true)) (hm : s.core.migrated = true) :
    s.core.Sealed :=
  (hi.sealed hm).resolve_left fun ⟨t, h⟩ => hh t h

theorem Safe.begin {c : Core} {h : Handler} (hi : Safe s) (hh : s.handler = .idle)
    (hm : s.core.beginMigration = some c) (ht : h = .wake s.core.issued ∨ h = .awaiting s.core.issued) :
    Safe ⟨c, h⟩ := by
  have tidy := hi.tidy.begin hm
  have sealed : s.core.migrated = true → c.Sealed := fun hg => (hi.sealed_of (by simp [hh]) hg).begin hi.tidy hm
  obtain rfl := beginMigration_eq hm
  refine ⟨tidy, fun u hl => ?_, fun u hu => ?_, fun u hu => ?_, fun hg => .inr (sealed hg)⟩
  · have hlt := hi.tidy.loopIssued u (by rw [show s.core.loop = _ from hl]; rfl)
    simp only [Function.update_of_ne (Nat.ne_of_lt hlt)]
    exact hi.settling u hl
  · obtain rfl : u = s.core.issued := by rcases ht with rfl | rfl <;> simpa [eq_comm] using hu
    refine ⟨Nat.lt_succ_self _, rfl, ?_, ?_⟩ <;> rcases hd : s.core.done <;>
      simp [newMigrationTicket, Ticket.markStable, Ticket.markStopped]
  · rcases ht with rfl | rfl <;> cases hu

theorem Safe.turn {h : Handler} (hi : Safe s) (ht : Turn s e h) : Safe { s with handler := h } := by
  have sealed : ∀ t, s.handler ≠ .finish t (.choose true) := by
    intro t
    cases ht with
    | giveUp hh => rcases hh with hh | hh <;> simp [hh]
    | signal hh | stable hh _ _ | commit hh | ended hh => simp [hh]
  refine ⟨hi.tidy, hi.settling, fun u hu => ?_, fun u hu => ?_, fun hg => .inr (hi.sealed_of sealed hg)⟩
  · cases ht with
    | signal hh => exact hi.asked u (by rcases hu with hu | hu <;> cases hu; exact .inl hh)
    | stable _ _ _ | giveUp _ | commit _ | ended _ => rcases hu with hu | hu <;> cases hu
  · cases ht with
    | stable hh hst hf =>
      cases hu
      obtain ⟨h1, h2, h3, h4⟩ := hi.asked u (.inr hh)
      exact ⟨h1, h2, h3, hst, hf, by simpa [hf] using h4⟩
    | commit hh => cases hu; exact hi.prepared u (by rw [hh]; rfl)
    | signal _ | giveUp _ | ended _ => cases hu

theorem Safe.finish {t : Nat} {f f' : Fin} {c : Core} (hi : Safe s) (hh : s.handler = .finish t f)
    (hm : FinMove s.core t f c f') : Safe ⟨c, .finish t f'⟩ := by
  have tidy := hm.tidy hi.tidy
  have noAsk : ∀ u, (Handler.finish t f' = .wake u ∨ Handler.finish t f' = .awaiting u) → c.Asked u := by
    rintro u (hu | hu) <;> cases hu
  -- away from the decision to commit, the loop is sealed as before
  have sealed : f ≠ .choose true → s.core.migrated = true → c.Sealed := fun hf hg =>
    hm.sealed hi.tidy (hi.sealed_of (fun u hu => hf (by cases hh.symm.trans hu; rfl)) hg)
  have settling : c.Settling := by
    cases hm with
    | choose =>
      intro u hl
      have := hi.settling u hl
      rcases eq_or_ne u t with rfl | hne
      · simp only [updTicket_self, Ticket.choose]; split <;> exact this
      · rw [updTicket_ne _ hne]; exact this
    | _ => exact hi.settling
  refine ⟨tidy, settling, noAsk, fun u hu => ?_, fun hg => ?_⟩
  · cases hm with
    | commit _ => cases hu; exact hi.prepared t (by rw [hh]; rfl)
    | mark =>
      cases hu
      obtain ⟨h1, h2, h3, h4, h5, h6⟩ := hi.prepared t (by rw [hh]; rfl)
      exact ⟨h1, h2, h3, h4, h5, h6⟩
    | _ => cases hu
  · cases hm with
    | mark => exact .inl ⟨t, rfl⟩
    | @choose commit =>
      cases commit with
      | false => exact .inr (sealed (by simp) hg)
      | true => exact .inr ((hi.prepared t (by rw [hh]; rfl)).seal hi.tidy)
    | _ => exact .inr (sealed (by simp) hg)

theorem Safe.loop {c : Core} {e : LoopEv} (hi : Safe s) (hm : LoopMove s.core e c) : Safe { s with core := c } := by
  refine ⟨hm.tidy hi.tidy, hm.settling hi.settling, fun t ht => hm.asked hi.settling (hi.asked t ht),
    fun t ht => absurd hm ((hi.prepared t ht).still hi.tidy), fun hg => ?_⟩
  exact (hi.sealed (hm.migrated ▸ hg)).imp_right hm.sealed

theorem Safe.step (h : step s e = some s') (hi : Safe s) : Safe s' := by
  cases step_move h with
  | loop hm => exact hi.loop hm
  | child hm => exact hi.same (.child hm)
  | begin hh hm ht => exact hi.begin hh hm ht
  | turn ht => exact (hi.turn ht).same ⟨rfl, rfl, rfl, rfl, rfl, rfl⟩
  | finish hh hm => exact hi.finish hh hm

end Release

end Ghostline.Session
