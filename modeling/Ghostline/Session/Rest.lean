/-
  Ghostline.Session.Rest — a session that is being committed is at rest.

  While a prepared ticket can still be committed (`Live`), and once the session is
  migrated, nobody reads the PTY and nobody has bytes in hand (`Rests`). Up to the end of
  the commit nothing but the closing of the log happens to the store (`Live.store`).
-/

import Ghostline.Session.Bytes

namespace Ghostline.Session

open Lib Lib.Gate Output

/-! ## A ticket that can still be committed -/

/-- On the way of a commit, up to its end. -/
def Core.Fin.goes : Core.Fin → Bool
  | .start commit | .choose commit | .wait commit | .clear commit => commit
  | .mark | .closeMaster => true
  | .finished _ => false

/-- Ticket `t` is prepared, or its commit is being carried out, or was just carried out. -/
inductive Live (m : Release.Sys) (t : Nat) : Prop
  | prepared : m.handler = .prepared t → Live m t
  | goes {f : Core.Fin} : m.handler = .finish t f → f.goes = true → Live m t
  | done {err : Bool} : m.handler = .finish t (.finished err) → m.core.migrated = true → Live m t

/-- Where the handler of a migrated session can be. -/
def Handler.late : Handler → Bool
  | .idle | .finish _ (.finished _) => true
  | .finish _ f => f.marked
  | _ => false

variable {s s' : Sys} {e : Ev} {t : Nat}

theorem Live.ne_idle {m : Release.Sys} (h : Live m t) : m.handler ≠ .idle := by
  cases h with
  | prepared hh | goes hh _ | done hh _ => simp [hh]

theorem Release.late_step {m m' : Release.Sys} {x : Release.Ev} (h : Release.step m x = some m')
    (hb : m.handler = .idle → m.core.migrated = false) (hl : m.core.migrated = true → m.handler.late = true)
    (hg : m'.core.migrated = true) : m'.handler.late = true := by
  cases Release.step_move h with
  | loop hm => exact hl (hm.migrated ▸ hg)
  | child hm => exact hl ((SameTickets.child hm).migrated ▸ hg)
  | begin hh hm _ =>
    obtain ⟨-, hm⟩ := Option.ite_none_left_eq_some.mp hm
    cases hm
    exact absurd (hb hh) (by simpa using hg)
  | turn ht =>
    have hl := hl hg
    cases ht with
    | signal hh | stable hh _ _ | commit hh => rw [hh] at hl; cases hl
    | giveUp hh => rcases hh with hh | hh <;> rw [hh] at hl <;> cases hl
    | ended _ => rfl
  | finish hh hm =>
    cases hm with
    | mark => rfl
    | abort _ | commit _ => have hl := hl hg; rw [hh] at hl; cases hl
    | choose | ended _ | clear _ => have hl := hl hg; rw [hh] at hl; exact hl
    | cleared _ | stale _ | dropped => rfl

/-- A session is begun to be moved only while it is in the map, so not once it is migrated. -/
theorem late_step (hi : BatchInv s) (h : s.step e = some s') (hl : s.core.migrated = true → s.mig.handler.late = true)
    (hg : s'.core.migrated = true) : s'.mig.handler.late = true := by
  cases step_move h with
  | loop _ hm => exact hl (hm.migrated ▸ hg)
  | child hm => exact hl ((SameTickets.child hm).migrated ▸ hg)
  | begin _ hin hm =>
    refine Release.late_step hm (fun hh => ?_) hl hg
    by_contra hc
    have := hi.out (by simpa [Sys.core] using hc) hh
    rw [hin] at this
    cases this
  | handler _ hm hh _ => exact Release.late_step hm (fun hi => absurd hi hh) hl hg
  | op _ hm => exact hl (hm.same.migrated ▸ hg)
  | _ => exact hl hg

theorem Live.core {m : Release.Sys} {c : Core} (hg : c.migrated = m.core.migrated) (hv : Live { m with core := c } t) :
    Live m t := by
  cases hv with
  | prepared hh => exact .prepared hh
  | goes hh hf => exact .goes hh hf
  | done hh hd => exact .done hh (hg ▸ hd)

/-- A ticket comes to be committed by being prepared. -/
theorem Release.live_step {m m' : Release.Sys} {x : Release.Ev} (h : Release.step m x = some m')
    (hl : m.core.migrated = true → m.handler.late = true) (hv : Live m' t) : Live m t ∨ m.handler = .awaiting t := by
  cases Release.step_move h with
  | loop hm => exact .inl (hv.core hm.migrated)
  | child hm => exact .inl (hv.core (SameTickets.child hm).migrated)
  | begin _ _ hh' => rcases hh' with rfl | rfl <;> cases hv with
    | prepared hh | goes hh _ | done hh _ => cases hh
  | turn ht =>
    cases ht with
    | signal _ | ended _ => cases hv with
      | prepared hh | goes hh _ | done hh _ => cases hh
    | stable hh _ _ => cases hv with
      | prepared he => cases he; exact .inr hh
      | goes he _ | done he _ => cases he
    | giveUp _ => cases hv with
      | prepared he | done he _ => cases he
      | goes he hf => cases he; cases hf
    | commit hh => cases hv with
      | prepared he | done he _ => cases he
      | goes he _ => cases he; exact .inl (.prepared hh)
  | @finish u f f' c hh hm =>
    obtain ⟨rfl, hf⟩ : u = t ∧ (f'.goes = true ∨ (∃ err, f' = .finished err) ∧ c.migrated = true) := by
      cases hv with
      | prepared he => cases he
      | goes he hf => cases he; exact ⟨rfl, .inl hf⟩
      | done he hg => cases he; exact ⟨rfl, .inr ⟨⟨_, rfl⟩, hg⟩⟩
    refine .inl (.goes hh ?_)
    -- a session that is migrated at the end of a finish was marked by it
    have marked : c.migrated = m.core.migrated → (∃ err, f' = .finished err) → f.marked = true := by
      rintro hc ⟨err, rfl⟩
      have hf := hl (hc ▸ (hf.resolve_left (by simp [Core.Fin.goes])).2)
      rw [hh] at hf
      cases f with
      | finished _ => cases hm
      | _ => exact hf
    cases hm with
    | abort _ => rcases hf with hf | ⟨⟨_, hf⟩, -⟩ <;> cases hf
    | commit _ | mark | clear _ | dropped => rfl
    | choose | ended _ => exact hf.elim id fun hf => by obtain ⟨⟨_, hf⟩, -⟩ := hf; cases hf
    | cleared _ | stale _ => exact marked rfl ⟨_, rfl⟩

theorem live_step (h : s.step e = some s') (hl : s.core.migrated = true → s.mig.handler.late = true)
    (hv : Live s'.mig t) : Live s.mig t ∨ s.mig.handler = .awaiting t := by
  cases step_move h with
  | loop _ hm => exact .inl (Live.core hm.migrated hv)
  | child hm => exact .inl (Live.core (SameTickets.child hm).migrated hv)
  | begin _ _ hm | handler _ hm _ _ => exact Release.live_step hm hl hv
  | op _ hm => exact .inl (Live.core hm.same.migrated hv)
  | _ => exact .inl hv

/-- Ticket `t` has been taken up, and its turn to be prepared is over. -/
structure Seen (m : Release.Sys) (t : Nat) : Prop where
  issued : t < m.core.issued
  wake : m.handler ≠ .wake t
  awaiting : m.handler ≠ .awaiting t

theorem LoopMove.issued {c c' : Core} {x : LoopEv} (h : LoopMove c x c') : c'.issued = c.issued := by
  cases h <;> rfl

theorem Release.seen_step {m m' : Release.Sys} {x : Release.Ev} (h : Release.step m x = some m') (hs : Seen m t) :
    Seen m' t := by
  obtain ⟨hi, hw, ha⟩ := hs
  cases Release.step_move h with
  | loop hm => exact ⟨hm.issued ▸ hi, hw, ha⟩
  | child hm => exact ⟨(SameTickets.child hm).issued ▸ hi, hw, ha⟩
  | begin _ hm hh =>
    obtain ⟨-, hm⟩ := Option.ite_none_left_eq_some.mp hm
    cases hm
    have hne : t ≠ m.core.issued := Nat.ne_of_lt hi
    rcases hh with rfl | rfl
    · exact ⟨Nat.lt_succ_of_lt hi, by simpa using hne.symm, by simp⟩
    · exact ⟨Nat.lt_succ_of_lt hi, by simp, by simpa using hne.symm⟩
  | turn ht =>
    cases ht with
    | @signal u hh =>
      refine ⟨hi, by simp, ?_⟩
      rintro he
      cases he
      exact hw hh
    | _ => exact ⟨hi, by simp, by simp⟩
  | finish _ hm =>
    refine ⟨?_, by simp, by simp⟩
    cases hm <;> exact hi

theorem seen_step (h : s.step e = some s') (hs : Seen s.mig t) : Seen s'.mig t := by
  cases step_move h with
  | loop _ hm => exact ⟨hm.issued ▸ hs.issued, hs.wake, hs.awaiting⟩
  | child hm => exact ⟨(SameTickets.child hm).issued ▸ hs.issued, hs.wake, hs.awaiting⟩
  | begin _ _ hm | handler _ hm _ _ => exact Release.seen_step hm hs
  | op _ hm => exact ⟨hm.same.issued ▸ hs.issued, hs.wake, hs.awaiting⟩
  | _ => exact hs

/-! ## A session at rest -/

/-- The loop waits for a decision, or is on its way out. -/
def Loop.rests : Loop → Bool
  | .parked _ _ | .stopping _ _ true => true
  | l => l.past

theorem rests_carries {l : Loop} (h : l.rests = true) : (Party.loop l).reads = false ∧ (Party.loop l).hand = [] := by
  cases l <;> first | exact ⟨rfl, rfl⟩ | cases h

theorem rests_act {l : Loop} (h : l.rests = true) (w : OutputLog.Write) :
    Sys.loopAct l w = .idle ∨ Sys.loopAct l w = .closeLog := by
  cases l <;> first | exact .inl rfl | exact .inr rfl | cases h

theorem prepared_rests {c : Core} (h : c.Prepared t) (ht : c.Tidy) : c.loop.rests = true := by
  rcases h.loop ht with hl | hl <;> rw [hl] <;> rfl

theorem migrated_rests {m : Release.Sys} (hs : Release.Safe m) (hg : m.core.migrated = true) : m.core.loop.rests = true := by
  rcases hs.sealed hg with ⟨t, hh⟩ | hp | ⟨t, failed, hl⟩ | ⟨t, failed, hl, -⟩
  · exact prepared_rests (hs.prepared t (by rw [hh]; rfl)) hs.tidy
  · cases hl : m.core.loop <;> simp_all [Loop.past, Loop.rests]
  · rw [hl]; rfl
  · rw [hl]; rfl

/-- Nobody reads, and nobody has bytes in hand. -/
structure Rests (s : Sys) : Prop where
  loop : s.core.loop.rests = true
  ops : ∀ pc ∈ s.ops, pc.drains = false

theorem Rests.migrated (hi : BatchInv s) (hg : s.core.migrated = true) : Rests s := by
  refine ⟨migrated_rests hi.safe hg, fun pc hp => ?_⟩
  by_contra hd
  have := hi.unchecked hg pc hp
  rw [(Pc.drains_spec (by simpa using hd)).2.2] at this
  cases this

theorem Live.rests (hi : BatchInv s) (hp : Release.Paused s.mig) (hv : Live s.mig t) : Rests s := by
  have ready : Release.ready s.mig.handler = some t ∨ s.core.migrated = true := by
    cases hv with
    | prepared hh => rw [hh]; exact .inl rfl
    | @goes f hh hf =>
      cases f with
      | start commit => cases commit <;> simp_all [Release.ready, Core.Fin.goes]
      | mark => rw [hh]; exact .inl rfl
      | choose _ | wait _ | clear _ | closeMaster => exact .inr (hp.marked t _ hh hf)
      | finished _ => cases hf
    | done _ hg => exact .inr hg
  rcases ready with hr | hg
  · refine ⟨prepared_rests (hi.safe.prepared t hr) hi.safe.tidy, fun pc hpc => ?_⟩
    by_contra hd
    have := hi.apart (hi.busy hv.ne_idle) pc hpc
    rw [(Pc.drains_spec (by simpa using hd)).2.1] at this
    cases this
  · exact .migrated hi hg

theorem Rests.hand (hr : Rests s) : s.hand = [] := by
  rw [Sys.hand, List.flatMap_eq_nil_iff]
  intro p hp
  obtain ⟨i, hp⟩ := List.mem_iff_getElem?.mp hp
  cases p with
  | loop l => obtain ⟨-, rfl⟩ := parties_loop hp; exact (rests_carries hr.loop).2
  | op pc =>
    by_contra hne
    have := hr.ops pc (parties_op hp)
    rw [Party.Busy.op (.inr hne)] at this
    cases this

variable {base past got : List Byte}

/-- A session at rest reads nothing, and its log is given nothing. -/
theorem Rests.still (hr : Rests s) (hi : Flows base past got s) (h : s.step e = some s') (hc : ∀ x, e ≠ .child x) :
    s.core.taken s'.core = [] ∧ s'.store.appended = s.store.appended := by
  cases hi.passed h hc with
  | quiet _ hq ha => exact ⟨Core.taken_same hq, ha⟩
  | read hread _ _ _ _ =>
    exfalso
    rcases hread with hl | ⟨pc, hp, hd⟩
    · rw [(rests_carries hr.loop).1] at hl; cases hl
    · rw [hr.ops pc hp] at hd; cases hd
  | store _ hq hst =>
    refine ⟨Core.taken_same hq, ?_⟩
    rw [hst, hr.hand, appended_stored rfl, List.append_nil]

/-- Nothing but the closing of the log happens to the store of a session whose ticket can
    still be committed. -/
theorem Live.store (hi : BatchInv s) (hp : Release.Paused s.mig) (hv : Live s.mig t) (h : s.step e = some s') :
    s'.store = s.store ∨ s'.store = s.store.act .closeLog := by
  have hf := hi.busy hv.ne_idle
  cases step_move h with
  | @loop x w c _ hm =>
    rcases rests_act (hv.rests hi hp).loop w with ha | ha
    · exact .inl (by simp only [ha]; rfl)
    · exact .inr (by simp only [ha])
  | @op i x pc o hpc hm =>
    have := hi.apart hf pc (List.mem_of_getElem? hpc)
    rw [hm.inBatch hf] at this
    cases this
  | _ => exact .inl rfl

end Ghostline.Session
