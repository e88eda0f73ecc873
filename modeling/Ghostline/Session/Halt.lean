/-
  Ghostline.Session.Halt — a commit is finished when the loop of the session has returned.

  A live ticket is marked stopped after its decision (`Stops`), so a prepared one is not
  stopped yet. Its commit leaves the loop with nothing to do but to mark it stopped and
  return (`Halts`), and `finishMigration` waits for that mark. `Kept` adds what an
  undecided or aborted migration leaves alone: only the loop's own end closes the master
  of a session that is not marked migrated.
-/

import Ghostline.Session.Commit

namespace Ghostline.Session

open Ghostline.Session.Core

variable {c c' : Core} {t : Nat}

/-! ## Tickets are stopped after their decision -/

/-- The ticket the loop is about to mark stopped. -/
def Loop.leaves : Loop → Option Nat
  | .stopping t _ _ | .settleStop t => some t
  | _ => none

structure Core.Stops (c : Core) : Prop where
  stopped : ∀ t, (c.tickets t).alive = true → (c.tickets t).stopped = true → (c.tickets t).decided = true
  leaves : ∀ t, c.loop.leaves = some t → (c.tickets t).decided = true

theorem Core.Stops.same (h : c.Stops) (hs : SameTickets c c') : c'.Stops := by
  obtain ⟨hl, hk, -, -, -, -⟩ := hs
  constructor <;> simp only [hl, hk]
  exacts [h.stopped, h.leaves]

/-- A step on ticket `t` that keeps it alive or not, and stops it only once decided. -/
theorem Core.Stops.upd {f : Ticket → Ticket} {l : Loop} (h : c.Stops) (ha : (f (c.tickets t)).alive = (c.tickets t).alive)
    (hd : (c.tickets t).decided = true → (f (c.tickets t)).decided = true)
    (hs : (f (c.tickets t)).stopped = true → (c.tickets t).stopped = true ∨ (f (c.tickets t)).decided = true)
    (hl : ∀ u, l.leaves = some u → u = t ∧ (f (c.tickets t)).decided = true ∨ (c.tickets u).decided = true) :
    ((c.updTicket t f).goto l).Stops := by
  constructor <;> intro u <;> simp only [goto_tickets, goto_loop]
  · rcases eq_or_ne u t with rfl | hne
    · rw [updTicket_self, ha]
      exact fun halive hstop => (hs hstop).elim (fun h' => hd (h.stopped u halive h')) id
    · rw [updTicket_ne f hne]
      exact h.stopped u
  · intro hu
    rcases eq_or_ne u t with rfl | hne
    · rw [updTicket_self]
      exact (hl u hu).elim And.right hd
    · rw [updTicket_ne f hne]
      exact (hl u hu).elim (fun h => absurd h.1 hne) id

theorem Hop.leaves {k l : Loop} {e : LoopEv} (h : Hop c k e l) : l.leaves = none := by
  cases h <;> rfl

theorem LoopMove.stops {e : LoopEv} (h : LoopMove c e c') (ht : c.Tidy) (hs : c.Stops) : c'.Stops := by
  cases h with
  | hop h => exact ⟨hs.stopped, fun u hu => absurd (h.leaves.symm.trans hu) (by simp)⟩
  | stable _ | settleStable _ => exact hs.upd rfl id .inl (by simp [Loop.leaves])
  | @receive t failed commit _ hd =>
    have hdec := ht.sent t (by simp [hd])
    exact hs.upd rfl id .inl (by simp [Loop.leaves, hdec])
  | @stopped t failed commit hl =>
    have hdec := hs.leaves t (by rw [hl]; rfl)
    exact hs.upd rfl id (fun _ => .inr hdec) (by split <;> simp [Loop.leaves])
  | @settleChoose t _ =>
    have hdec : ((c.tickets t).choose false).decided = true := by simp only [Ticket.choose]; split <;> simp_all
    refine hs.upd ?_ (fun _ => hdec) (fun _ => .inr hdec) (by simp [Loop.leaves, hdec])
    simp only [Ticket.choose]; split <;> rfl
  | @settleStop t hl =>
    have hdec := hs.leaves t (by rw [hl]; rfl)
    exact hs.upd rfl id (fun _ => .inr hdec) (by simp [Loop.leaves])
  | killed _ _ => exact ⟨hs.stopped, hs.leaves⟩
  | _ => exact ⟨hs.stopped, by simp [Loop.leaves]⟩

theorem leaves_looksAt {l : Loop} (h : l.leaves = some t) : l.looksAt = some t := by
  cases l <;> simp_all [Loop.leaves, Loop.looksAt, Loop.ticket]

theorem Core.Stops.begin (hs : c.Stops) (ht : c.Tidy) (h : c.beginMigration = some c') : c'.Stops := by
  obtain rfl := beginMigration_eq h
  refine ⟨fun u => ?_, fun u hu => ?_⟩
  · rcases eq_or_ne u c.issued with rfl | hne
    · rcases hd : c.done <;> simp [newMigrationTicket, Ticket.markStable, Ticket.markStopped]
    · simp only [Function.update_of_ne hne]
      exact hs.stopped u
  · have hlt := ht.loopIssued u (leaves_looksAt hu)
    simp only [Function.update_of_ne (Nat.ne_of_lt hlt)]
    exact hs.leaves u hu

theorem FinMove.stops {f f' : Fin} (h : FinMove c t f c' f') (hs : c.Stops) : c'.Stops := by
  cases h with
  | @choose commit =>
    have hdec : ((c.tickets t).choose commit).decided = true := by simp only [Ticket.choose]; split <;> simp_all
    have hset : ((c.updTicket t (·.choose commit)).goto c.loop).Stops := by
      refine hs.upd ?_ (fun _ => hdec) (fun _ => .inr hdec) fun u hu => .inr (hs.leaves u hu)
      simp only [Ticket.choose]; split <;> rfl
    exact hset
  | _ => exact ⟨hs.stopped, hs.leaves⟩

/-! ## A committed loop returns -/

/-- Ticket `t` is decided, without an error, and the loop has returned, or has only to mark
    it stopped before it does. -/
structure Core.Halts (c : Core) (t : Nat) : Prop where
  decided : (c.tickets t).decided = true
  clean : (c.tickets t).failed = false
  only : ∀ u, c.migration = some u → u = t
  loop : c.loop.past = true ∧ c.loop.looksAt = none ∨ (c.tickets t).stopped = false ∧
    ∃ failed, c.loop = .stopping t failed true ∨ c.loop = .parked t failed ∧ (c.tickets t).decide = some true

theorem Core.Prepared.halts (h : c.Prepared t) (ht : c.Tidy) (hs : c.Stops) :
    (c.updTicket t (·.choose true)).Halts t := by
  have hset : (c.updTicket t (·.choose true)).tickets t = { c.tickets t with decided := true, decide := some true } := by
    simp [Ticket.choose, h.undecided]
  refine ⟨by rw [hset], by rw [hset]; exact h.clean, fun u hu => Option.some.inj (hu.symm.trans h.current), ?_⟩
  rcases h.loop ht with hl | hl
  · right
    have halive : (c.tickets t).alive = true := h.running.resolve_right fun hd => by simp [ht.gone.mpr hd] at hl
    have hstop : (c.tickets t).stopped = false := by
      by_contra hc
      have := hs.stopped t halive (by simpa using hc)
      simp [h.undecided] at this
    rw [hset]
    exact ⟨hstop, false, .inr ⟨hl, rfl⟩⟩
  · left
    show c.loop.past = true ∧ c.loop.looksAt = none
    rw [hl]
    exact ⟨rfl, rfl⟩

theorem LoopMove.past {e : LoopEv} (h : LoopMove c e c') (hp : c.loop.past = true) : c'.loop.past = true := by
  cases h with
  | hop h => exact h.past hp
  | killed _ _ => exact hp
  | _ => simp_all [Loop.past]

theorem LoopMove.migration {e : LoopEv} (h : LoopMove c e c') : c'.migration = c.migration := by
  cases h <;> rfl

theorem Hop.halts {k l : Loop} {e : LoopEv} (h : Hop c k e l) (hp : k.past = true) (hk : k.looksAt = none)
    (hd : ∀ u, c.migration = some u → (c.tickets u).decided = true) : l.past = true ∧ l.looksAt = none := by
  cases h with
  | settling hm hu => simp [hd _ hm] at hu
  | _ => simp_all [Loop.past, Loop.looksAt, Loop.ticket]

theorem LoopMove.halts {e : LoopEv} (h : LoopMove c e c') (hs : c.Halts t) : c'.Halts t := by
  have hd : ∀ u, c.migration = some u → (c.tickets u).decided = true := fun u hu => hs.only u hu ▸ hs.decided
  obtain ⟨hdec, hclean, honly, ⟨hp, hk⟩ | ⟨hstop, failed, hl | ⟨hl, hch⟩⟩⟩ := hs
  · cases h with
    | hop h => exact ⟨hdec, hclean, honly, .inl (h.halts hp hk hd)⟩
    | killed _ _ => exact ⟨hdec, hclean, honly, .inl ⟨hp, hk⟩⟩
    | waitKilling _ _ _ | closeMaster _ _ | closeDone _ => exact ⟨hdec, hclean, honly, .inl ⟨rfl, rfl⟩⟩
    | _ => simp_all [Loop.past, Loop.looksAt]
  · cases h with
    | hop h => rw [hl] at h; cases h
    | stopped hl' =>
      cases hl.symm.trans hl'
      refine ⟨?_, ?_, honly, .inl ?_⟩
      · simpa [Ticket.markStopped] using hdec
      · simpa [Ticket.markStopped] using hclean
      · simp [Loop.past, Loop.looksAt, Loop.ticket]
    | _ => simp_all
  · cases h with
    | hop h => rw [hl] at h; cases h
    | receive hl' hd' =>
      cases hl.symm.trans hl'
      cases hch.symm.trans hd'
      refine ⟨by simpa using hdec, by simpa using hclean, honly, .inr ⟨by simpa using hstop, failed, .inl rfl⟩⟩
    | _ => simp_all

theorem Core.Halts.same (h : c.Halts t) (hs : SameTickets c c') : c'.Halts t := by
  obtain ⟨hl, hk, -, hm, -, -⟩ := hs
  obtain ⟨h1, h2, h3, h4⟩ := h
  exact ⟨by rw [hk]; exact h1, by rw [hk]; exact h2, by rw [hm]; exact h3, by rw [hl, hk]; exact h4⟩

/-- The wait of `finishMigration` is over when the loop has returned. -/
theorem Core.Halts.past (h : c.Halts t) (ht : c.Tidy) (hr : c.released t = true) : c.loop.past = true := by
  rcases h.loop with ⟨hp, -⟩ | ⟨hstop, -⟩
  · exact hp
  · have hd : c.done = true := by simpa [released, hstop] using hr
    rw [ht.gone.mpr hd]
    rfl

/-! ## Along a run -/

/-- Actions of `finishMigration` with the session marked migrated. -/
def Core.Fin.marked : Fin → Bool
  | .choose commit | .wait commit | .clear commit => commit
  | .closeMaster => true
  | _ => false

/-- Those with the commit decided as well. -/
def Core.Fin.decided : Fin → Bool
  | .wait commit | .clear commit => commit
  | .closeMaster => true
  | _ => false

/-- Those behind the wait. -/
def Core.Fin.left : Fin → Bool
  | .clear commit => commit
  | .closeMaster => true
  | _ => false

/-- Actions of a `finishMigration` that aborts, and of one that commits. -/
def Core.Fin.aborts : Fin → Bool
  | .start commit | .choose commit | .wait commit | .clear commit => !commit
  | .finished _ => true
  | _ => false

def Core.Fin.commits : Fin → Bool
  | .start commit | .choose commit | .wait commit | .clear commit => commit
  | .mark | .closeMaster => true
  | .finished _ => false

theorem LoopMove.done {e : LoopEv} (h : LoopMove c e c') (hd : c.done = true) : c'.done = true := by
  cases h <;> first | exact hd | rfl

theorem FinMove.done_eq {f f' : Fin} (h : FinMove c t f c' f') : c'.done = c.done := by
  cases h <;> rfl

theorem FinMove.loop_eq {f f' : Fin} (h : FinMove c t f c' f') : c'.loop = c.loop := by
  cases h <;> rfl

theorem FinMove.aborts {f f' : Fin} (h : FinMove c t f c' f') (hf : f.aborts = true) :
    f'.aborts = true ∧ c'.migrated = c.migrated := by
  cases h <;> simp_all [Fin.aborts, updTicket]

namespace Release

variable {s s' : Sys} {e : Ev}

structure Kept (s : Sys) : Prop extends Safe s where
  stops : s.core.Stops
  marked : ∀ t f, s.handler = .finish t f → f.marked = true → s.core.migrated = true
  halts : ∀ t f, s.handler = .finish t f → f.decided = true → s.core.Halts t
  current : ∀ t f, s.handler = .finish t f → f.decided = true → f = .closeMaster ∨ s.core.migration = some t
  left : ∀ t f, s.handler = .finish t f → f.left = true → s.core.loop.past = true
  master : s.core.migrated = false → s.core.master = .closed → s.core.loop.past = true

theorem Kept.loop {c : Core} {e : LoopEv} (hi : Kept s) (hm : LoopMove s.core e c) : Kept { s with core := c } := by
  have hg := hm.migrated
  refine ⟨hi.toSafe.loop hm, hm.stops hi.tidy hi.stops, fun t f hh hf => hg.trans (hi.marked t f hh hf),
    fun t f hh hf => hm.halts (hi.halts t f hh hf), fun t f hh hf => (hi.current t f hh hf).imp_right (hm.migration).trans,
    fun t f hh hf => hm.past (hi.left t f hh hf), fun hn hc => ?_⟩
  have old : s.core.master = .closed → c.loop.past = true := fun h => hm.past (hi.master (hg.symm.trans hn) h)
  -- the loop drops the master on its way out
  cases hm with
  | waitKilling _ _ _ | closeMaster _ _ => rfl
  | _ => exact old hc

theorem Kept.child {c : Core} {e : ChildEv} (hi : Kept s) (hc : s.core.childStep e = some c) :
    Kept { s with core := c } := by
  have hs := SameTickets.child hc
  have hm : c.master = s.core.master := by cases childStep_move hc <;> rfl
  refine ⟨hi.toSafe.same hs, hi.stops.same hs, fun t f hh hf => hs.migrated.trans (hi.marked t f hh hf),
    fun t f hh hf => (hi.halts t f hh hf).same hs, fun t f hh hf => (hi.current t f hh hf).imp_right hs.migration.trans,
    fun t f hh hf => ?_, fun hn hc => ?_⟩
  · exact hs.loop ▸ hi.left t f hh hf
  · exact hs.loop ▸ hi.master (hs.migrated ▸ hn) (hm ▸ hc)

theorem Kept.begin {c : Core} {h : Handler} (hi : Kept s) (hh : s.handler = .idle)
    (hm : s.core.beginMigration = some c) (ht : h = .wake s.core.issued ∨ h = .awaiting s.core.issued) :
    Kept ⟨c, h⟩ := by
  have safe := hi.toSafe.begin hh hm ht
  have stops := hi.stops.begin hi.tidy hm
  have noFin : ∀ t f, h ≠ .finish t f := by rcases ht with rfl | rfl <;> simp
  obtain rfl := beginMigration_eq hm
  exact ⟨safe, stops, fun t f he => absurd he (noFin t f), fun t f he => absurd he (noFin t f),
    fun t f he => absurd he (noFin t f), fun t f he => absurd he (noFin t f), hi.master⟩

/-- The handler moves on to where it has done nothing yet. -/
theorem Kept.handler {h : Handler} (hi : Kept s) (hs : Safe { s with handler := h })
    (hh : ∀ t f, h = .finish t f → ∃ commit, f = .start commit) : Kept { s with handler := h } := by
  refine ⟨hs, hi.stops, fun t f he hf => ?_, fun t f he hf => ?_, fun t f he hf => ?_, fun t f he hf => ?_, hi.master⟩
  all_goals
    obtain ⟨commit, rfl⟩ := hh t f he
    cases hf

theorem Kept.wake (hi : Kept s) (w : Nat) : Kept { s with core := { s.core with wake := w } } :=
  have hs : SameTickets s.core { s.core with wake := w } := ⟨rfl, rfl, rfl, rfl, rfl, rfl⟩
  ⟨hi.toSafe.same hs, hi.stops.same hs, hi.marked, fun t f hh hf => (hi.halts t f hh hf).same hs, hi.current, hi.left,
    hi.master⟩

theorem Kept.turn {h : Handler} (hi : Kept s) (ht : Turn s e h) : Kept { s with handler := h } := by
  refine hi.handler (hi.toSafe.turn ht) fun t f he => ?_
  cases ht with
  | giveUp _ | commit _ => cases he; exact ⟨_, rfl⟩
  | signal _ | stable _ _ _ | ended _ => cases he

/-- The handler drops its ticket, or decides on an abort. -/
theorem Kept.drop {h : Handler} (hi : Kept s) (hq : ∀ t, s.handler ≠ .finish t (.choose true))
    (hh : h = .idle ∨ ∃ t, h = .finish t (.start false)) : Kept { s with handler := h } := by
  refine hi.handler ⟨hi.tidy, hi.settling, fun t ht => ?_, fun t ht => ?_, fun hg => .inr (hi.sealed_of hq hg)⟩ ?_
  · rcases hh with rfl | ⟨u, rfl⟩ <;> simp at ht
  · rcases hh with rfl | ⟨u, rfl⟩ <;> cases ht
  · rintro t f rfl
    rcases hh with hh | ⟨u, hh⟩ <;> cases hh
    exact ⟨false, rfl⟩

theorem Kept.finish {t : Nat} {f f' : Fin} {c : Core} (hi : Kept s) (hh : s.handler = .finish t f)
    (hm : FinMove s.core t f c f') : Kept ⟨c, .finish t f'⟩ := by
  have safe := hi.toSafe.finish hh hm
  have stops := hm.stops hi.stops
  have hmark := hi.marked t f hh
  have hhalt := hi.halts t f hh
  have hcur := hi.current t f hh
  have hleft := hi.left t f hh
  refine ⟨safe, stops, fun u g he hg => ?_, fun u g he hg => ?_, fun u g he hg => ?_, fun u g he hg => ?_, fun hn hc => ?_⟩
  · cases he
    cases hm with
    | choose | ended _ | clear _ => exact hmark hg
    | mark => rfl
    | _ => cases hg
  · cases he
    cases hm with
    | @choose commit =>
      obtain rfl : commit = true := hg
      exact (hi.prepared t (by rw [hh]; rfl)).halts hi.tidy hi.stops
    | ended _ => exact hhalt hg
    | clear _ =>
      obtain ⟨h1, h2, -, h4⟩ := hhalt rfl
      exact ⟨h1, h2, by simp, h4⟩
    | _ => cases hg
  · cases he
    cases hm with
    | @choose commit =>
      obtain rfl : commit = true := hg
      exact .inr (hi.prepared t (by rw [hh]; rfl)).current
    | ended _ => exact .inr ((hcur hg).resolve_left (by simp))
    | clear _ => exact .inl rfl
    | _ => cases hg
  · cases he
    cases hm with
    | @ended commit hr =>
      obtain rfl : commit = true := hg
      exact (hhalt rfl).past hi.tidy hr
    | clear _ => exact hleft rfl
    | _ => cases hg
  · cases hm with
    | dropped => exact absurd ((hmark rfl).symm.trans hn) (by decide)
    | mark => cases hn
    | _ => exact hi.master hn hc

/-- The last action of a commit: it has no error, and the loop has returned. -/
theorem Kept.commit_clean {t : Nat} {f : Fin} {err : Bool} {c : Core} (hi : Kept s) (hh : s.handler = .finish t f)
    (hf : f.decided = true) (hm : FinMove s.core t f c (.finished err)) : err = false ∧ c.loop.past = true := by
  have hclean := (hi.halts t f hh hf).clean
  have hleft := hi.left t f hh
  cases hm with
  | @cleared commit _ =>
    obtain rfl : commit = true := hf
    exact ⟨hclean, hleft rfl⟩
  | @stale commit hs =>
    exact absurd ((hi.current t _ hh hf).resolve_left (by simp)) hs
  | dropped => exact ⟨hclean, hleft rfl⟩

/-- A commit goes on to its end without an error. -/
theorem Kept.commits {t : Nat} {f f' : Fin} {c : Core} (hi : Kept s) (hh : s.handler = .finish t f)
    (hf : f.commits = true) (hm : FinMove s.core t f c f') :
    f'.commits = true ∨ f' = .finished false ∧ c.loop.past = true := by
  cases hm with
  | @abort commit hc =>
    -- a prepared ticket has no error
    obtain rfl : commit = true := hf
    have := (hi.prepared t (by rw [hh]; rfl)).clean
    simp_all
  | @cleared commit hm =>
    obtain rfl : commit = true := hf
    obtain ⟨he, hp⟩ := hi.commit_clean hh rfl (.cleared hm)
    exact .inr ⟨by rw [he], hp⟩
  | @stale commit hm =>
    obtain rfl : commit = true := hf
    exact absurd (hi.commit_clean hh rfl (.stale hm)).1 (by decide)
  | dropped =>
    obtain ⟨he, hp⟩ := hi.commit_clean hh rfl .dropped
    exact .inr ⟨by rw [he], hp⟩
  | commit _ | mark | clear _ => exact .inl rfl
  | choose | ended _ => exact .inl hf

theorem Kept.step (h : step s e = some s') (hi : Kept s) : Kept s' := by
  cases step_move h with
  | loop hm => exact hi.loop hm
  | child hm => exact hi.child hm
  | begin hh hm ht => exact hi.begin hh hm ht
  | turn ht => exact (hi.turn ht).wake _
  | finish hh hm => exact hi.finish hh hm

theorem Kept.init {c : Core} (ht : c.Tidy) (hs : c.Settling) (hst : c.Stops) (hg : c.migrated = false)
    (hm : c.master ≠ .closed) : Kept ⟨c, .idle⟩ := by
  refine ⟨.init ht hs hg, hst, ?_, ?_, ?_, ?_, ?_⟩
  iterate 4 intro t f h; cases h
  · exact fun _ h => absurd h hm

theorem Kept.dead : Kept ⟨Core.dead, .idle⟩ :=
  .init .dead (fun t h => by cases h) ⟨fun t _ h => (by cases h), fun t h => (by cases h)⟩ rfl
    (by simp [Core.dead])

theorem Kept.reach (h : machine.Reach Lib.Machine.always s) : Kept s := by
  refine h.invariant (fun s hs => ?_) fun s e s' hi _ h => hi.step h
  obtain ⟨owned, rfl⟩ := hs
  exact .init (.fresh owned) (fun t h => by cases h) ⟨fun t _ h => (by cases h), fun t h => (by cases h)⟩ rfl
    (by simp [fresh])

end Release

end Ghostline.Session
