/-
  Ghostline.Session.Pause — a migration holds the session's gate while the loop is at its
  ticket.

  `beginMigration` takes `operationMu` before the ticket can be seen, and `finishMigration`
  gives it back once the ticket is stopped or the loop is gone. The loop takes a ticket up
  only undecided. So from the drain to the mark the handler is not past its wait
  (`Paused.at_ticket`), whichever side is slow and whatever is decided.
-/

import Ghostline.Session.Halt

namespace Ghostline.Session

open Ghostline.Session.Core

/-- Before the decision, and up to the end of the wait. -/
def Core.Fin.early : Fin → Bool
  | .start _ | .mark | .choose _ => true
  | _ => false

def Core.Fin.waits : Fin → Bool
  | .wait _ => true
  | f => f.early

/-- The handler has not decided ticket `t`. -/
def Handler.asks (t : Nat) : Handler → Bool
  | .idle => false
  | .wake u | .awaiting u | .prepared u => u == t
  | .finish u f => u == t && f.early

/-- The handler is not past the wait for ticket `t`. -/
def Handler.keeps (t : Nat) : Handler → Bool
  | .idle => false
  | .wake u | .awaiting u | .prepared u => u == t
  | .finish u f => u == t && f.waits

theorem Handler.keeps_of_asks {t : Nat} {h : Handler} (ha : h.asks t = true) : h.keeps t = true := by
  cases h with
  | finish u f => cases f <;> simp_all [Handler.asks, Handler.keeps, Fin.early, Fin.waits]
  | _ => exact ha

namespace Release

structure Paused (s : Sys) : Prop where
  safe : Safe s
  stops : s.core.Stops
  marked : ∀ t f, s.handler = .finish t f → f.marked = true → s.core.migrated = true
  sent : ∀ t, (s.core.tickets t).decide = some true → s.core.migrated = true
  received : ∀ t failed, s.core.loop = .stopping t failed true → s.core.migrated = true
  seen : ∀ t, s.core.loop = .decided t → (s.core.tickets t).alive = true
  undecided : ∀ t, t < s.core.issued → (s.core.tickets t).alive = true → (s.core.tickets t).decided = false →
    s.handler.asks t = true
  at_ticket : ∀ t, s.core.loop.ticket = some t → (s.core.tickets t).stopped = false ∧ s.handler.keeps t = true

variable {s s' : Sys} {e : Ev}

theorem Paused.same {c : Core} (h : Paused s) (hs : SameTickets s.core c) : Paused { s with core := c } := by
  have stops := h.stops.same hs
  have safe := h.safe.same hs
  obtain ⟨hl, hk, hi, -, -, hm⟩ := hs
  refine ⟨safe, stops, ?_, ?_, ?_, ?_, ?_, ?_⟩ <;> simp only [hl, hk, hi, hm]
  exacts [h.marked, h.sent, h.received, h.seen, h.undecided, h.at_ticket]

/-- The loop takes up a ticket it has found alive and undecided. -/
theorem hop_ticket {c : Core} {k l : Loop} {x : LoopEv} {t : Nat} (h : Hop c k x l) (hl : l.ticket = some t) :
    k.ticket = some t ∨ k = .decided t ∧ (c.tickets t).decided = false := by
  cases h <;> first | exact .inl hl | cases hl
  exact .inr ⟨rfl, ‹_›⟩

theorem hop_seen {c : Core} {k l : Loop} {x : LoopEv} {t : Nat} (h : Hop c k x l) (hl : l = .decided t) :
    (c.tickets t).alive = true := by
  cases h <;> cases hl
  assumption

/-- A step of the loop on ticket `t`, which it is at before it is at it after. -/
theorem Paused.upd {t : Nat} {f : Ticket → Ticket} {l : Loop} (h : Paused s)
    (hm : ∃ x, LoopMove s.core x ((s.core.updTicket t f).goto l))
    (ha : (f (s.core.tickets t)).alive = (s.core.tickets t).alive)
    (hd : (f (s.core.tickets t)).decided = false → (s.core.tickets t).decided = false)
    (hs : (f (s.core.tickets t)).decide = some true → (s.core.tickets t).decide = some true)
    (hl : ∀ u, l.ticket = some u → u = t ∧ s.core.loop.ticket = some t ∧
      (f (s.core.tickets t)).stopped = (s.core.tickets t).stopped)
    (hn : ∀ u, l ≠ .decided u) (hr : ∀ u failed, l = .stopping u failed true → s.core.migrated = true) :
    Paused { s with core := (s.core.updTicket t f).goto l } := by
  obtain ⟨x, hm⟩ := hm
  refine ⟨h.safe.loop hm, hm.stops h.safe.tidy h.stops, h.marked, fun u hu => ?_, hr, fun u hu => absurd hu (hn u),
    fun u hi hal hdec => ?_, fun u hu => ?_⟩
  · rcases eq_or_ne u t with rfl | hne
    · simp only [goto_tickets, updTicket_self] at hu
      exact h.sent u (hs hu)
    · simp only [goto_tickets, updTicket_ne f hne] at hu
      exact h.sent u hu
  · rcases eq_or_ne u t with rfl | hne
    · simp only [goto_tickets, updTicket_self] at hal hdec
      exact h.undecided u hi (ha ▸ hal) (hd hdec)
    · simp only [goto_tickets, updTicket_ne f hne] at hal hdec
      exact h.undecided u hi hal hdec
  · obtain ⟨rfl, hk, hst⟩ := hl u hu
    simp only [goto_tickets, updTicket_self, hst]
    exact h.at_ticket u hk

theorem Paused.loop {x : LoopEv} {c : Core} (h : Paused s) (hm : LoopMove s.core x c) : Paused { s with core := c } := by
  have stops := hm.stops h.safe.tidy h.stops
  have safe := h.safe.loop hm
  cases hm with
  | hop hh =>
    refine ⟨safe, stops, h.marked, h.sent, fun t f hl => ?_, fun t hl => ?_, h.undecided, fun t hl => ?_⟩
    · generalize s.core.loop = k at hh
      cases hh <;> cases hl
    · have hseen := hop_seen hh hl
      exact hseen
    · rcases hop_ticket hh hl with hk | ⟨hk, hd⟩
      · exact h.at_ticket t hk
      · -- it is the handler's, and cannot be stopped yet
        have halive := h.seen t hk
        have hi := h.safe.tidy.loopIssued t (by rw [hk]; rfl)
        refine ⟨?_, Handler.keeps_of_asks (h.undecided t hi halive hd)⟩
        by_contra hs
        have := h.stops.stopped t halive (by simpa using hs)
        simp [hd] at this
  | drainGot hl hk hq =>
    refine ⟨safe, stops, h.marked, h.sent, fun _ _ hx => (by cases hx), fun _ hx => (by cases hx), h.undecided,
      fun t ht => ?_⟩
    exact h.at_ticket t (by rw [hl]; exact ht)
  | @stable t failed hl =>
    refine h.upd ⟨_, .stable hl⟩ rfl id id (fun u hu => ⟨?_, by rw [hl]; rfl, rfl⟩) (by simp) (by simp)
    exact (Option.some.inj hu).symm
  | @receive t failed commit hl hd =>
    refine h.upd ⟨_, .receive hl hd⟩ rfl id (by simp) (fun u hu => ⟨?_, by rw [hl]; rfl, rfl⟩) (by simp) fun u f hx => ?_
    · exact (Option.some.inj hu).symm
    · cases hx
      exact h.sent t hd
  | @stopped t failed commit hl =>
    have hnone : (if failed || commit then Loop.ended else .check).ticket = none := by split <;> rfl
    refine h.upd ⟨_, .stopped hl⟩ rfl id id (fun u hu => absurd (hnone.symm.trans hu) (by simp)) ?_ ?_
    · intro u; split <;> simp
    · intro u f hx; split at hx <;> cases hx
  | @settleStable t hl => exact h.upd ⟨_, .settleStable hl⟩ rfl id id (fun u hu => by cases hu) (by simp) (by simp)
  | @settleChoose t hl =>
    refine h.upd ⟨_, .settleChoose hl⟩ ?_ ?_ ?_ (fun u hu => by cases hu) (by simp) (by simp) <;>
      simp only [Ticket.choose] <;> split <;> simp_all
  | @settleStop t hl => exact h.upd ⟨_, .settleStop hl⟩ rfl id id (fun u hu => by cases hu) (by simp) (by simp)
  | killed hl _ => exact ⟨safe, stops, h.marked, h.sent, h.received, h.seen, h.undecided, h.at_ticket⟩
  | woken _ _ | got _ _ _ | waitKilling _ _ _ | closeMaster _ _ | closeDone _ =>
    exact ⟨safe, stops, h.marked, h.sent, fun _ _ hx => (by cases hx), fun _ hx => (by cases hx), h.undecided,
      fun _ hx => (by cases hx)⟩

theorem Paused.begin {c : Core} {h : Handler} (hi : Paused s) (hh : s.handler = .idle)
    (hm : s.core.beginMigration = some c) (ht : h = .wake s.core.issued ∨ h = .awaiting s.core.issued) :
    Paused ⟨c, h⟩ := by
  have safe := hi.safe.begin hh hm ht
  have stops := hi.stops.begin hi.safe.tidy hm
  have noLoop : ∀ t, s.core.loop.ticket ≠ some t := fun t hl => by
    have := (hi.at_ticket t hl).2
    rw [hh] at this
    cases this
  obtain rfl := beginMigration_eq hm
  refine ⟨safe, stops, ?_, fun t hd => ?_, hi.received, fun t hl => ?_, fun t hlt ha hd => ?_, fun t hl => absurd hl (noLoop t)⟩
  · rcases ht with rfl | rfl <;> intro t f ht <;> cases ht
  · rcases eq_or_ne t s.core.issued with rfl | hne
    · rcases hdone : s.core.done <;>
        simp [hdone, newMigrationTicket, Ticket.markStable, Ticket.markStopped] at hd
    · simp only [Function.update_of_ne hne] at hd
      exact hi.sent t hd
  · have hlt := hi.safe.tidy.loopIssued t (by rw [show s.core.loop = _ from hl]; rfl)
    simp only [Function.update_of_ne (Nat.ne_of_lt hlt)]
    exact hi.seen t hl
  · rcases eq_or_ne t s.core.issued with rfl | hne
    · rcases ht with rfl | rfl <;> simp [Handler.asks]
    · simp only [Function.update_of_ne hne] at ha hd
      have := hi.undecided t (by simp only at hlt; omega) ha hd
      rw [hh] at this
      cases this

/-- The handler of a finish keeps, and asks for, no ticket but its own. -/
theorem finish_keeps {t u : Nat} {f : Fin} (hh : s.handler = .finish t f) (hu : s.handler.keeps u = true) :
    u = t ∧ f.waits = true := by
  rw [hh] at hu
  simp only [Handler.keeps, Bool.and_eq_true, beq_iff_eq] at hu
  exact ⟨hu.1.symm, hu.2⟩

theorem finish_asks {t u : Nat} {f : Fin} (hh : s.handler = .finish t f) (hu : s.handler.asks u = true) :
    u = t ∧ f.early = true := by
  rw [hh] at hu
  simp only [Handler.asks, Bool.and_eq_true, beq_iff_eq] at hu
  exact ⟨hu.1.symm, hu.2⟩

theorem Paused.choose {t : Nat} {commit : Bool} (hi : Paused s) (hh : s.handler = .finish t (.choose commit)) :
    Paused ⟨s.core.updTicket t (·.choose commit), .finish t (.wait commit)⟩ := by
  have hm : FinMove s.core t (.choose commit) (s.core.updTicket t (·.choose commit)) (.wait commit) := .choose
  have own : (s.core.updTicket t (·.choose commit)).tickets t = (s.core.tickets t).choose commit := updTicket_self _ _
  have hdec : ((s.core.tickets t).choose commit).decided = true := by simp only [Ticket.choose]; split <;> simp_all
  refine ⟨hi.safe.finish hh hm, hm.stops hi.stops, fun u g hu hg => ?_, fun u hu => ?_, hi.received, fun u hu => ?_,
    fun u h1 h2 h3 => ?_, fun u hu => ?_⟩
  · cases hu
    exact hi.marked t _ hh hg
  · show s.core.migrated = true
    rcases eq_or_ne u t with rfl | hne
    · rw [own] at hu
      simp only [Ticket.choose] at hu
      split at hu
      · exact hi.sent u hu
      · cases hu
        exact hi.marked u _ hh rfl
    · rw [updTicket_ne _ hne] at hu
      exact hi.sent u hu
  · have := hi.seen u hu
    rcases eq_or_ne u t with rfl | hne
    · rw [own]; simp only [Ticket.choose]; split <;> exact this
    · rwa [updTicket_ne _ hne]
  · rcases eq_or_ne u t with rfl | hne
    · rw [own, hdec] at h3; cases h3
    · rw [updTicket_ne _ hne] at h2 h3
      exact absurd (finish_asks hh (hi.undecided u h1 h2 h3)).1 hne
  · obtain ⟨hs, hkeep⟩ := hi.at_ticket u hu
    obtain ⟨rfl, -⟩ := finish_keeps hh hkeep
    refine ⟨?_, by simp [Handler.keeps, Fin.waits]⟩
    rw [own]; simp only [Ticket.choose]; split <;> exact hs

/-- The loop is not at the ticket any more when the handler goes on. -/
theorem Paused.ended {t : Nat} {commit : Bool} (hi : Paused s) (hh : s.handler = .finish t (.wait commit))
    (hr : s.core.released t = true) : Paused ⟨s.core, .finish t (.clear commit)⟩ := by
  refine ⟨hi.safe.finish hh (.ended hr), hi.stops, fun u g hu hg => ?_, hi.sent, hi.received, hi.seen,
    fun u h1 h2 h3 => ?_, fun u hu => ?_⟩
  · cases hu
    exact hi.marked t _ hh hg
  · cases (finish_asks hh (hi.undecided u h1 h2 h3)).2
  · obtain ⟨hs, hkeep⟩ := hi.at_ticket u hu
    obtain ⟨rfl, -⟩ := finish_keeps hh hkeep
    have hd : s.core.done = true := by simpa [released, hs] using hr
    rw [hi.safe.tidy.gone.mpr hd] at hu
    cases hu

theorem Paused.finish {t : Nat} {f f' : Fin} {c : Core} (hi : Paused s) (hh : s.handler = .finish t f)
    (hm : FinMove s.core t f c f') : Paused ⟨c, .finish t f'⟩ := by
  have safe := hi.safe.finish hh hm
  have stops := hm.stops hi.stops
  -- the other moves leave the loop and the tickets alone
  have rest : (f'.early = true ∨ f.early = false) → (f'.waits = true ∨ f.waits = false) →
      c.loop = s.core.loop → c.tickets = s.core.tickets → c.issued = s.core.issued →
      (s.core.migrated = true → c.migrated = true) → (f'.marked = true → c.migrated = true) →
      Paused ⟨c, .finish t f'⟩ := by
    intro he hw hl hk hn hmig hmark
    refine ⟨safe, stops, fun u g hu hg => hmark ((Handler.finish.inj hu).2 ▸ hg), ?_, ?_, ?_, ?_, ?_⟩ <;>
      simp only [hl, hk, hn]
    · exact fun u hu => hmig (hi.sent u hu)
    · exact fun u fl hu => hmig (hi.received u fl hu)
    · exact hi.seen
    · intro u h1 h2 h3
      obtain ⟨rfl, hf⟩ := finish_asks hh (hi.undecided u h1 h2 h3)
      simp [Handler.asks, he.resolve_right (by simp [hf])]
    · intro u hu
      obtain ⟨hs, hkeep⟩ := hi.at_ticket u hu
      obtain ⟨rfl, hf⟩ := finish_keeps hh hkeep
      exact ⟨hs, by simp [Handler.keeps, hw.resolve_right (by simp [hf])]⟩
  cases hm with
  | abort _ | commit _ => exact rest (.inl rfl) (.inl rfl) rfl rfl rfl id (by simp [Fin.marked])
  | mark => exact rest (.inl rfl) (.inl rfl) rfl rfl rfl (fun _ => rfl) fun _ => rfl
  | choose => exact hi.choose hh
  | ended hr => exact hi.ended hh hr
  | clear _ => exact rest (.inr rfl) (.inr rfl) rfl rfl rfl id fun _ => hi.marked t _ hh rfl
  | cleared _ | stale _ | dropped => exact rest (.inr rfl) (.inr rfl) rfl rfl rfl id (by simp [Fin.marked])

theorem Paused.turn {h : Handler} (hi : Paused s) (ht : Turn s e h) : Paused { s with handler := h } := by
  have asks : ∀ t, s.handler.asks t = true → h.asks t = true := by
    intro t ha
    cases ht with
    | giveUp hh => rcases hh with hh | hh <;> rw [hh] at ha <;> simpa [Handler.asks, Fin.early] using ha
    | signal hh | stable hh _ _ | commit hh => rw [hh] at ha; simpa [Handler.asks, Fin.early] using ha
    | ended hh => rw [hh] at ha; simp [Handler.asks, Fin.early] at ha
  have keeps : ∀ t, s.handler.keeps t = true → h.keeps t = true := by
    intro t ha
    cases ht with
    | giveUp hh => rcases hh with hh | hh <;> rw [hh] at ha <;> simpa [Handler.keeps, Fin.waits, Fin.early] using ha
    | signal hh | stable hh _ _ | commit hh => rw [hh] at ha; simpa [Handler.keeps, Fin.waits, Fin.early] using ha
    | ended hh => rw [hh] at ha; simp [Handler.keeps, Fin.waits, Fin.early] at ha
  refine ⟨hi.safe.turn ht, hi.stops, fun t f hh hf => ?_, hi.sent, hi.received, hi.seen,
    fun t h1 h2 h3 => asks t (hi.undecided t h1 h2 h3), fun t hl => ⟨(hi.at_ticket t hl).1, keeps t (hi.at_ticket t hl).2⟩⟩
  subst hh
  cases ht <;> cases hf

theorem Paused.step (h : step s e = some s') (hi : Paused s) : Paused s' := by
  cases step_move h with
  | loop hm => exact hi.loop hm
  | child hm => exact hi.same (.child hm)
  | begin hh hm ht => exact hi.begin hh hm ht
  | turn ht => exact (hi.turn ht).same ⟨rfl, rfl, rfl, rfl, rfl, rfl⟩
  | finish hh hm => exact hi.finish hh hm

theorem Paused.init {c : Core} (ht : c.Tidy) (hl : c.loop = .check ∨ c.loop = .gone) (hi : c.issued = 0)
    (hk : ∀ t, c.tickets t = newMigrationTicket true) (hm : c.migrated = false) : Paused ⟨c, .idle⟩ := by
  refine ⟨.init ht ?_ hm, ⟨?_, ?_⟩, ?_, ?_, ?_, ?_, ?_, ?_⟩
  · rcases hl with hl | hl <;> simp [Core.Settling, hl]
  · simp [hk, newMigrationTicket]
  · rcases hl with hl | hl <;> simp [hl, Loop.leaves]
  · simp
  · simp [hk, newMigrationTicket]
  · rcases hl with hl | hl <;> simp [hl]
  · rcases hl with hl | hl <;> simp [hl]
  · simp [hi]
  · rcases hl with hl | hl <;> simp [hl, Loop.ticket]

end Release

end Ghostline.Session
