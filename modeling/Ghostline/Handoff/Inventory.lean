/-
  Ghostline.Handoff.Inventory — what a target that has succeeded holds: the sessions the
  source had when it was listed.

  `Live` is an upgrade (`Handoff.Upgrade`) with other calls on the source's hub, which
  may start and delete sessions while the batch is not frozen. `inventory` records the
  hub at the listing. As long as the target has skipped nothing, the sessions it has
  prepared and those it has still to ask for are the inventory, in its order (`Covers`).
-/

import Ghostline.Handoff.Loss
import Ghostline.Handoff.Serve

namespace Ghostline.Handoff

open Lib Session

/-! ## The machine -/

structure Live where
  sys : Sys
  inventory : List Nat

inductive LiveEv where
  | sys (e : Ev)
  | opened (n : Nat)
  | deleted (n : Nat)
  deriving DecidableEq, Repr

def Sys.withSource (s : Sys) (source : Source) : Sys := { s with source := source }

namespace Live

variable (l : Live)

def withSource (source : Source) : Live := { l with sys := l.sys.withSource source }

def step : LiveEv → Option Live
  | .sys e =>
    (l.sys.step e).map fun s => ⟨s, if e = .source (.act .listed) then l.sys.source.hub else l.inventory⟩
  | .opened n => (l.sys.source.opens n).map l.withSource
  | .deleted n => (l.sys.source.deletes n).map l.withSource

end Live

/-- The names of the hub are the keys of a map. -/
def liveMachine : Machine Live LiveEv where
  init l := ∃ sessions hub, (∀ n, Resting (sessions n)) ∧ hub.Nodup ∧ l = ⟨begun sessions hub, []⟩
  step := Live.step

inductive LiveMove (l : Live) : LiveEv → Live → Prop
  | sys {e : Ev} {s : Sys} : Move l.sys e s →
      (e = .source (.act .listed) → ∃ id, l.sys.source.admin = .listing id) →
      LiveMove l (.sys e) ⟨s, if e = .source (.act .listed) then l.sys.source.hub else l.inventory⟩
  | hub {e : LiveEv} {source : Source} : HubMove l.sys.source source → LiveMove l e (l.withSource source)

theorem step_listing {a b : Source} (h : a.step .listed = some b) : ∃ id, a.admin = .listing id := by
  unfold Source.step at h
  split at h <;> first | exact ⟨_, by assumption⟩ | simp_all

/-! ## Other calls and the upgrade -/

variable {s s' : Sys} {source : Source} {names : List Nat}

theorem HubMove.onward {a b : Source} (h : HubMove a b) : Onward a b := by
  cases h with
  | @opened n _ _ hl _ =>
    refine ⟨fun m hg => ⟨fun hx => ?_, hg.2⟩, fun _ => id⟩
    rcases List.mem_append.mp hx with hx | hx
    · exact hg.1 hx
    · obtain rfl := List.mem_singleton.mp hx
      have := hg.2
      rw [hl] at this
      cases this
  | deleted _ => exact .of (fun m hx => (List.mem_filter.mp hx).1) (fun _ => id) fun _ => id

theorem HubMove.works {a b : Source} (h : HubMove a b) : Works a b := by
  obtain ⟨h1, h2, -, h4, -⟩ := h.same
  have hold : ∀ n, a.Holds n → b.Holds n := by simp only [Source.Holds, h2, h4]; exact fun _ => id
  refine ⟨h.onward, fun hf => ⟨h4 ▸ hf, hold⟩, fun i r x ha => ⟨h4.trans ha, h2⟩, fun id req hs => ?_⟩
  by_cases hr : ∃ i r x, a.admin = .reply i r x
  · obtain ⟨i, r, x, ha⟩ := hr
    simp only [Source.Serves, ha] at hs
    simp only [Source.Serves, h4, ha]
    exact ⟨hs.1, hs.2.mono h.onward hold⟩
  · exact hs.keep h4 fun i r x ha => hr ⟨i, r, x, ha⟩

theorem Inv.hub (hi : Inv s) (h : HubMove s.source source) : Inv (s.withSource source) :=
  ⟨hi.orderly.hub h, hi.phase.follows (.works h.works)⟩

/-! ## The target's part -/

/-- The listed sessions the target has still to prepare. -/
def Stage.todo : Stage → Option (List Nat)
  | .adopt n rest | .snapshot n rest _ _ | .retry n rest _ => some (n :: rest)
  | .commit | .exit => some []
  | _ => none

def Pc.todo : Pc → Option (List Nat)
  | .call st | .wait st _ => st.todo
  | .takeFD n rest _ _ | .build n rest _ _ => some (n :: rest)
  | .insert | .start _ | .returned true => some []
  | _ => none

/-- What is prepared and what is left is `names`, if nothing was skipped. -/
def Covers (names : List Nat) (t : Target) : Prop :=
  ∀ rest, t.pc.todo = some rest → t.skipped = [] → t.names ++ rest = names

section Covers

variable {t : Target} {st : Stage}

theorem covers_none (h : t.pc.todo = none) : Covers names t := fun _ hr => by rw [h] at hr; cases hr

theorem covers_skip (n name : Nat) (rest : List Nat) : Covers names (t.skip n name rest) := covers_none rfl

theorem covers_giveUp : Covers names t.giveUp := by
  unfold Target.giveUp
  split <;> exact covers_none rfl

theorem covers_next {rest : List Nat} (h : t.skipped = [] → t.names ++ rest = names) : Covers names (t.next rest) := by
  cases rest with
  | cons n rest => rintro _ ⟨⟩ hs; exact h hs
  | nil =>
    simp only [Target.next]
    split
    · rintro _ ⟨⟩ hs; exact h hs
    · exact covers_giveUp

/-- On to a place with the same to do. -/
theorem covers_goto {pc : Pc} (h : ∀ rest, st.todo = some rest → t.skipped = [] → t.names ++ rest = names)
    (hp : pc.todo = st.todo) : Covers names (t.goto pc) := fun rest hr => h rest (hp.symm.trans hr)

theorem covers_failed (h : ∀ rest, st.todo = some rest → t.skipped = [] → t.names ++ rest = names)
    (ha : ∀ name rest, st = .abortSingle name rest → t.skipped ≠ []) : Covers names (t.failed st) := by
  cases st with
  | list | abort => exact covers_none rfl
  | adopt n rest | retry n rest name => exact covers_skip _ _ _
  | snapshot n rest name master => exact covers_goto h rfl
  | abortSingle name rest => exact covers_next fun hs => absurd hs (ha name rest rfl)
  | commit => exact covers_giveUp
  | exit => exact h

theorem covers_answered {r : Reply} (h : ∀ rest, st.todo = some rest → t.skipped = [] → t.names ++ rest = names)
    (ha : ∀ name rest, st = .abortSingle name rest → t.skipped ≠ [])
    (hl : ∀ l, st = .list → r = .listed l → t.names ++ l = names) : Covers names (t.answered st r) := by
  unfold Target.answered
  split
  · exact covers_next fun _ => hl _ rfl rfl
  · exact covers_goto h (by split <;> rfl)
  · exact covers_goto h (by split <;> rfl)
  · exact covers_goto h rfl
  · split
    · exact covers_goto h rfl
    · exact covers_giveUp
  · exact covers_next fun hs => absurd hs (ha _ _ rfl)
  · exact covers_none rfl
  · exact h
  · exact covers_failed h ha

end Covers

/-- At its first call. -/
def Pc.lists : Pc → Bool
  | .call .list | .wait .list _ => true
  | _ => false

/-- Before the reply to `list` nothing is prepared, and whatever says what was listed says
    `names`. -/
structure Whole (names : List Nat) (s : Sys) : Prop where
  covers : Covers names s.target
  fresh : s.target.pc.lists = true → s.target.prepared = []
  /-- The source is asked to list by a target that waits for it, or has gone. -/
  asked : (∃ i, s.source.admin = .listing i) ∨ (∃ i, (i, .list) ∈ s.up) →
    (∃ id, s.target.pc = .wait .list id) ∨ s.target.pc = .returned false
  replies : ∀ id, s.target.pc = .wait .list id → ∀ i l,
    (∃ a, s.source.admin = .reply i (.listed l) a) ∨ (i, .listed l) ∈ s.down → l = names
  owned : s.target.pc.owns = true → s.target.skipped = []

/-! ### Steps of the target -/

/-- A target that aborts a single session has skipped it. -/
theorem Phase.skipped (hp : Phase s) {name : Nat} {rest : List Nat}
    (h : s.target.pc = .call (.abortSingle name rest) ∨ ∃ id, s.target.pc = .wait (.abortSingle name rest) id) :
    s.target.skipped ≠ [] := by
  cases hp with
  | lost h1 _ _ => rcases h with h | ⟨id, h⟩ <;> simpa [Target.lost, h] using h1
  | clean _ _ _ _ h5 => rcases h with h | ⟨id, h⟩ <;> rw [h] at h5 <;> cases h5.1
  | given h1 _ _ _ => rcases h with h | ⟨id, h⟩ <;> rw [h] at h1 <;> cases h1

theorem Whole.turn {e : TargetEv} {t : Target} (hw : Whole names s) (hp : Phase s) (ht : Turn s.target e t) :
    Covers names t := by
  have hc := hw.covers
  cases ht with
  | cancel | cut _ => exact hc
  | @unsent st k h _ =>
    rw [Covers, h] at hc
    refine covers_failed (t := { s.target with nextID := k }) hc ?_
    rintro name rest rfl
    exact hp.skipped (.inl h)
  | @failed st id h =>
    rw [Covers, h] at hc
    refine covers_failed hc ?_
    rintro name rest rfl
    exact hp.skipped (.inr ⟨id, h⟩)
  | noFD _ _ | unbuilt _ => exact covers_skip _ _ _
  | takeFD h _ =>
    rw [Covers, h] at hc
    intro rest hr
    refine hc rest ?_
    rw [← hr]
    simp only [Target.goto]
    split <;> rfl
  | @built n name rest master h =>
    refine covers_next fun hs => ?_
    have hn : name = n := by
      cases hp with
      | lost h1 _ _ => simp [Target.lost, h, show s.target.skipped = [] from hs] at h1
      | clean _ _ _ _ h5 => rw [h] at h5; exact h5.1
      | given h1 _ _ _ => rw [h] at h1; cases h1
    subst hn
    have := hc (name :: rest) (by rw [h]; rfl) hs
    simpa [Target.names, Target.prepare] using this
  | insert h | start h _ | started h _ =>
    rw [Covers, h] at hc
    exact hc
  | close h _ | closed h _ => exact covers_none rfl

section Lists

variable {t t' : Target}

theorem giveUp_lists : t.giveUp.pc.lists = false := by
  unfold Target.giveUp
  split <;> rfl

theorem next_lists (rest : List Nat) : (t.next rest).pc.lists = false := by
  cases rest with
  | cons n rest => rfl
  | nil =>
    simp only [Target.next]
    split
    · rfl
    · exact giveUp_lists

theorem failed_lists (st : Stage) : (t.failed st).pc.lists = false := by
  cases st with
  | abortSingle _ rest => exact next_lists rest
  | commit => exact giveUp_lists
  | _ => rfl

theorem answered_lists (st : Stage) (r : Reply) : (t.answered st r).pc.lists = false := by
  unfold Target.answered
  split
  · exact next_lists _
  · split <;> rfl
  · split <;> rfl
  · rfl
  · split
    · rfl
    · exact giveUp_lists
  · exact next_lists _
  · rfl
  · rfl
  · exact failed_lists _

theorem receives_lists (st : Stage) (id : Nat) (q : Nat × Reply) : (t.receives st id q).pc.lists = false := by
  unfold Target.receives
  simp only
  split
  · split
    · exact failed_lists _
    · exact answered_lists _ _
  · exact failed_lists _

/-- The target comes back to no listing. -/
theorem turn_lists {e : TargetEv} (h : Turn t e t') (hl : t'.pc.lists = true) : t'.pc = t.pc ∧ t'.prepared = t.prepared := by
  have no : ∀ {P : Prop}, t'.pc.lists = false → P := fun h => by rw [h] at hl; cases hl
  cases h with
  | cancel | cut _ => exact ⟨rfl, rfl⟩
  | unsent _ _ | failed _ => exact no (failed_lists _)
  | built _ => exact no (next_lists _)
  | takeFD _ _ => exact no (by simp only [Target.goto]; split <;> rfl)
  | noFD _ _ | unbuilt _ | insert _ | start _ _ | started _ _ | close _ _ | closed _ _ => exact no rfl

/-- And leaves it without a reply only to return. -/
theorem turn_listing {e : TargetEv} {id : Nat} (h : Turn t e t') (hp : t.pc = .wait .list id) :
    t'.pc = .wait .list id ∨ t'.pc = .returned false := by
  cases h with
  | cancel | cut _ => exact .inl hp
  | failed h => cases h.symm.trans hp; exact .inr rfl
  | unsent h _ | noFD h _ | takeFD h _ | built h | unbuilt h | insert h | start h _ | started h _ | close h _
  | closed h _ => cases h.symm.trans hp

theorem giveUp_owns : t.giveUp.pc.owns = false := by
  unfold Target.giveUp
  split <;> rfl

theorem next_owns (rest : List Nat) : (t.next rest).pc.owns = false := by
  cases rest with
  | cons n rest => rfl
  | nil =>
    simp only [Target.next]
    split
    · rfl
    · exact giveUp_owns

theorem failed_owns {st : Stage} (h : (t.failed st).pc.owns = true) : st = .exit := by
  have no : ∀ {P : Prop}, (t.failed st).pc.owns = false → P := fun h' => by rw [h'] at h; cases h
  cases st with
  | exit => rfl
  | abortSingle _ rest => exact no (next_owns rest)
  | commit => exact no giveUp_owns
  | _ => exact no rfl

theorem answered_owns {st : Stage} {r : Reply} (h : (t.answered st r).pc.owns = true) : st = .exit := by
  have no : ∀ {P : Prop}, (t.answered st r).pc.owns = false → P := fun h' => by rw [h'] at h; cases h
  revert h no
  unfold Target.answered
  split <;> intro h no
  · exact no (next_owns _)
  · exact no (by split <;> rfl)
  · exact no (by split <;> rfl)
  · exact no rfl
  · exact no (by split <;> first | rfl | exact giveUp_owns)
  · exact no (next_owns _)
  · exact no rfl
  · rfl
  · exact failed_owns h

/-- A reply makes the target an owner only where it was one. -/
theorem receives_owns {st : Stage} {id : Nat} {q : Nat × Reply} (h : (t.receives st id q).pc.owns = true) : st = .exit := by
  revert h
  unfold Target.receives
  simp only
  split
  · split
    · exact failed_owns
    · exact answered_owns
  · exact failed_owns

/-- It becomes one when it inserts what it has prepared. -/
theorem turn_owns {e : TargetEv} (h : Turn t e t') (ho : t'.pc.owns = true) :
    (t.pc.owns = true ∨ t.pc = .insert) ∧ t'.skipped = t.skipped := by
  have no : ∀ {P : Prop}, t'.pc.owns = false → P := fun h => by rw [h] at ho; cases ho
  cases h with
  | cancel | cut _ => exact ⟨.inl ho, rfl⟩
  | unsent hp _ | failed hp =>
    cases failed_owns ho
    exact ⟨.inl (by rw [hp]; rfl), rfl⟩
  | insert hp => exact ⟨.inr hp, rfl⟩
  | start hp _ | started hp _ => exact ⟨.inl (by rw [hp]; rfl), rfl⟩
  | built _ => exact no (next_owns _)
  | takeFD _ _ => exact no (by simp only [Target.goto]; split <;> rfl)
  | noFD _ _ | unbuilt _ | close _ _ | closed _ _ => exact no rfl

end Lists

theorem turn_returned {t t' : Target} {e : TargetEv} {ok : Bool} (h : Turn t e t') (hp : t.pc = .returned ok) :
    t'.pc = .returned ok := by
  cases h with
  | cancel | cut _ => exact hp
  | unsent h _ | failed h | noFD h _ | takeFD h _ | built h | unbuilt h | insert h | start h _ | started h _ | close h _
  | closed h _ => cases h.symm.trans hp

/-- While the target waits for the listing, the request or its reply is the only message. -/
theorem Inv.listing {id : Nat} (hi : Inv s) (h : s.target.pc = .wait .list id) : Carries s id .list := by
  cases hi.phase with
  | lost h1 _ _ => simp [Target.lost, h] at h1
  | clean _ _ _ _ h5 => rw [h] at h5; exact h5.2.2.2
  | given h1 _ _ _ => rw [h] at h1; cases h1

theorem Whole.send {st : Stage} (hw : Whole names s) (hi : Inv s) (hp : s.target.pc = .call st) :
    Whole names { s with target := s.target.sent st, up := s.up ++ [(s.target.nextID, s.target.request st)] } := by
  have hc := hw.covers
  rw [Covers, hp] at hc
  have hno : ¬ ((∃ i, s.source.admin = .listing i) ∨ ∃ i, (i, .list) ∈ s.up) := fun h => by
    rcases hw.asked h with ⟨id, hx⟩ | hx <;> cases hp.symm.trans hx
  refine ⟨hc, fun hx => ?_, fun h => ?_, fun id hx i l h => ?_, fun ho => hw.owned ?_⟩
  · refine hw.fresh ?_
    rw [hp]
    cases st <;> first | rfl | cases hx
  · rcases h with h | ⟨i, h⟩
    · exact absurd (.inl h) hno
    · rcases List.mem_append.mp h with h | h
      · exact absurd (.inr ⟨i, h⟩) hno
      · have hreq : s.target.request st = .list := (Prod.mk.inj (List.mem_singleton.mp h)).2.symm
        cases st <;> cases hreq
        exact .inl ⟨_, rfl⟩
  · -- nothing is under way before the first request
    cases hx
    have hq : s.Quiet := by
      cases hi.phase with
      | lost h1 _ _ => simp [Target.lost, hp] at h1
      | clean _ _ _ _ h5 => rw [hp] at h5; exact h5.2.2
      | given h1 _ _ _ => rw [hp] at h1; cases h1
    rcases h with ⟨a, h⟩ | h
    · have := hq.2.2
      rw [show s.source.admin = _ from h] at this
      cases this
    · rw [show s.down = [] from hq.2.1] at h
      cases h
  · rw [hp]
    cases st <;> first | rfl | cases ho

/-- Once the reply is there, the request is not. -/
theorem Inv.answered {st : Stage} {id : Nat} {q : Nat × Reply} (hw : Whole names s) (hi : Inv s)
    (hp : s.target.pc = .wait st id) (hmem : q ∈ s.down) :
    ¬ ((∃ i, s.source.admin = .listing i) ∨ ∃ i, (i, .list) ∈ s.up) := by
  intro h
  rcases hw.asked h with ⟨i, hx⟩ | hx
  · cases hp.symm.trans hx
    cases hi.listing hp with
    | up _ hd _ | source _ hd _ => rw [hd] at hmem; cases hmem
    | lost hq => rw [hq.2.1] at hmem; cases hmem
    | down hu _ hf _ =>
      rcases h with ⟨k, h⟩ | ⟨k, h⟩
      · rw [show s.source.admin = _ from h] at hf; cases hf
      · rw [show s.up = [] from hu] at h; cases h
  · cases hp.symm.trans hx

theorem Whole.recv {st : Stage} {id : Nat} {q : Nat × Reply} {down : List (Nat × Reply)} (hw : Whole names s)
    (hi : Inv s) (hp : s.target.pc = .wait st id) (hd : s.down = q :: down) :
    Whole names { s with target := s.target.receives st id q, down := down } := by
  have hc := hw.covers
  rw [Covers, hp] at hc
  have skipped : ∀ name rest, st = .abortSingle name rest → s.target.skipped ≠ [] := by
    rintro name rest rfl
    exact hi.phase.skipped (.inr ⟨id, hp⟩)
  have hmem : q ∈ s.down := by rw [hd]; exact .head _
  have listed : ∀ l, st = .list → q.2 = .listed l → s.target.names ++ l = names := by
    rintro l rfl hq
    have hl := hw.replies id hp q.1 l (.inr (by rw [← hq]; exact hmem))
    simp [Target.names, hw.fresh (by rw [hp]; rfl), hl]
  have hcov : Covers names (s.target.receives st id q) := by
    unfold Target.receives
    simp only
    split
    · split
      · exact covers_failed (t := { s.target with received := s.target.received ++ q.2.fds }) hc skipped
      · exact covers_answered (t := { s.target with received := s.target.received ++ q.2.fds }) hc skipped listed
    · exact covers_failed (t := { s.target with received := s.target.received ++ q.2.fds }) hc skipped
  have hpc := receives_lists (t := s.target) st id q
  have hno := hi.answered hw hp hmem
  refine ⟨hcov, fun hx => absurd (hpc.symm.trans hx) (by decide), fun h => absurd h hno, fun i hx => ?_, fun ho => ?_⟩
  · rw [show (s.target.receives st id q).pc = _ from hx] at hpc
    cases hpc
  · cases receives_owns ho
    have := hw.owned (by rw [hp]; rfl)
    unfold Target.receives
    cases q.2 <;> simpa [Target.failed, Target.answered, Target.leave] using this

theorem Whole.targetAct {e : TargetEv} {t : Target} (hw : Whole names s) (hi : Inv s) (ht : Turn s.target e t) :
    Whole names { s with target := t } := by
  refine ⟨hw.turn hi.phase ht, fun hx => ?_, fun h => ?_, fun id hx => ?_, fun ho => ?_⟩
  · obtain ⟨hpc, hprep⟩ := turn_lists ht hx
    exact hprep.trans (hw.fresh (hpc ▸ hx))
  · rcases hw.asked h with ⟨id, hx⟩ | hx
    · exact (turn_listing ht hx).imp_left fun h => ⟨id, h⟩
    · exact .inr (turn_returned ht hx)
  · have hpc := (turn_lists ht (by rw [show _ = _ from hx]; rfl)).1
    exact hw.replies id (hpc ▸ hx)
  · obtain ⟨hp, hs⟩ := turn_owns ht ho
    refine hs.trans (hp.elim hw.owned fun hp => ?_)
    cases hi.phase with
    | lost h _ _ => simp [Target.lost, hp] at h
    | clean h _ _ _ _ => exact h
    | given h _ _ _ => rw [hp] at h; cases h

theorem Whole.target {e : TargetEv} (hw : Whole names s) (hi : Inv s) (hm : TargetMove s e s') : Whole names s' := by
  cases hm with
  | send hp _ => exact hw.send hi hp
  | recv hp hd _ => exact hw.recv hi hp hd
  | act ht => exact hw.targetAct hi ht

/-! ### Steps of the source -/

/-- A reply that lists comes from the listing and has the hub; nothing goes back to it. -/
theorem act_listed {a b : Source} {e : AdminEv} (ho : Orderly a) (h : Act a e b) :
    (∀ i l x, b.admin = .reply i (.listed l) x →
      a.admin = .reply i (.listed l) x ∨ e = .listed ∧ l = a.hub ∧ ∃ k, a.admin = .listing k) ∧
    ∀ i, b.admin = .listing i → a.admin = .listing i := by
  cases h with
  | listed ha =>
    refine ⟨fun i l x h => .inr ?_, fun i h => ?_⟩
    · cases h; exact ⟨rfl, rfl, _, ha⟩
    · cases h
  | resolve _ hr => rw [hr.admin_eq]; exact ⟨fun _ _ _ => .inl, fun _ => id⟩
  | recover ha => have := ho.plan; rw [ha] at this; cases this
  | signal _ _ | stable _ _ _ _ => exact ⟨fun _ _ _ => .inl, fun _ => id⟩
  | resolvedAll _ =>
    refine ⟨fun i l x h => ?_, fun i h => ?_⟩ <;> simp only [Source.goto] at h <;> split at h <;> cases h
  | _ =>
    refine ⟨fun i l x h => ?_, fun i h => ?_⟩ <;> cases h

theorem handle_listed {a : Source} {id : Nat} {r : Request} :
    (∀ i l x, (a.handle id r).admin ≠ .reply i (.listed l) x) ∧ ∀ i, (a.handle id r).admin = .listing i → r = .list := by
  cases r with
  | adopt n =>
    simp only [Source.handle, Source.adopt]
    repeat' split
    all_goals simp [Source.refuse, Source.goto]
  | list => exact ⟨by simp only [Source.handle]; split <;> simp [Source.refuse, Source.goto], fun _ _ => rfl⟩
  | _ =>
    simp only [Source.handle]
    split <;> simp [Source.refuse, Source.goto]

/-- The source goes on with the target where it is, and lists nothing. -/
theorem Whole.stays (hw : Whole names s) (ht : s'.target = s.target)
    (ha : (∃ i, s'.source.admin = .listing i) ∨ (∃ i, (i, .list) ∈ s'.up) →
      (∃ i, s.source.admin = .listing i) ∨ ∃ i, (i, .list) ∈ s.up)
    (hr : ∀ i l, (∃ a, s'.source.admin = .reply i (.listed l) a) ∨ (i, .listed l) ∈ s'.down →
      (∃ a, s.source.admin = .reply i (.listed l) a) ∨ (i, .listed l) ∈ s.down) : Whole names s' :=
  ⟨ht ▸ hw.covers, ht ▸ hw.fresh, fun h => ht ▸ hw.asked (ha h), fun id hp i l h => hw.replies id (ht ▸ hp) i l (hr i l h),
    ht ▸ hw.owned⟩

/-- The hub is listed: from here on its names are those the target has to adopt. -/
theorem Whole.listed {i : Nat} (hw : Whole names s) (hi : Inv s) (ha : s.source.admin = .listing i)
    (hl : ∀ j l a, source.admin = .reply j (.listed l) a → l = s.source.hub) : Whole s.source.hub (s.withSource source) := by
  refine ⟨fun rest hr => ?_, hw.fresh, fun h => hw.asked (.inl ⟨i, ha⟩), fun id hp j l h => ?_, hw.owned⟩
  · rcases hw.asked (.inl ⟨i, ha⟩) with ⟨id, hp⟩ | hp <;> rw [Sys.withSource, hp] at hr <;> cases hr
  · rcases h with ⟨a, h⟩ | h
    · exact hl j l a h
    · -- the request is still in hand
      cases hi.listing hp with
      | up _ hd _ | source _ hd _ => rw [Sys.withSource, show s.down = [] from hd] at h; cases h
      | lost hq => rw [Sys.withSource, show s.down = [] from hq.2.1] at h; cases h
      | down _ _ hf _ => rw [ha] at hf; cases hf

/-- The handler goes on; the hub may be listed. -/
theorem Whole.act {e : AdminEv} (hw : Whole names s) (hi : Inv s) (ha : Act s.source e source)
    (hk : e = .listed → ∃ id, s.source.admin = .listing id) :
    Whole (if e = .listed then s.source.hub else names) (s.withSource source) := by
  obtain ⟨hl, hb⟩ := act_listed hi.orderly ha
  by_cases he : ∃ k, s.source.admin = .listing k
  · obtain ⟨k, hk⟩ := he
    have from_hub : ∀ j l a, source.admin = .reply j (.listed l) a → e = .listed ∧ l = s.source.hub := fun j l a h => by
      rcases hl j l a h with h | h
      · cases hk.symm.trans h
      · exact ⟨h.1, h.2.1⟩
    split
    · exact hw.listed hi hk fun j l a h => (from_hub j l a h).2
    · next hne =>
      refine hw.stays rfl (fun h => .inl ⟨k, hk⟩) fun i l h => .inr ?_
      rcases h with ⟨a, h⟩ | h
      · exact absurd (from_hub i l a h).1 hne
      · exact h
  · rw [if_neg fun h => he (hk h)]
    refine hw.stays rfl (fun h => ?_) fun i l h => ?_
    · rcases h with ⟨i, h⟩ | h
      · exact .inl ⟨i, hb i h⟩
      · exact .inr h
    · rcases h with ⟨a, h⟩ | h
      · rcases hl i l a h with h | h
        · exact .inl ⟨a, h⟩
        · exact absurd h.2.2 he
      · exact .inr h

theorem Whole.move {e : Ev} (hw : Whole names s) (hi : Inv s) (hm : Move s e s')
    (hk : e = .source (.act .listed) → ∃ id, s.source.admin = .listing id) :
    Whole (if e = .source (.act .listed) then s.source.hub else names) s' := by
  cases hm with
  | loop _ | child _ => exact hw.stays rfl id fun _ _ => id
  | @read q up ha hu =>
    refine hw.stays rfl (fun h => .inr ?_) fun i l h => .inr ?_
    · rcases h with ⟨i, h⟩ | ⟨i, h⟩
      · refine ⟨q.1, ?_⟩
        rw [hu, ← handle_listed.2 i h]
        exact .head _
      · exact ⟨i, by rw [hu]; exact .tail _ h⟩
    · rcases h with ⟨a, h⟩ | h
      · exact absurd h (handle_listed.1 i l a)
      · exact h
  | readFailed ha =>
    refine hw.stays rfl (fun h => .inr ?_) fun i l h => .inr ?_
    · rcases h with ⟨i, h⟩ | h
      · cases h
      · exact h
    · rcases h with ⟨a, h⟩ | h
      · cases h
      · exact h
  | @write i r a ok source ha hx _ =>
    obtain ⟨-, -, -, -, hadm⟩ := wrote_some hx
    refine hw.stays rfl (fun h => .inr ?_) fun j l h => ?_
    · rcases h with ⟨k, h⟩ | h
      · rcases hadm with hadm | hadm <;> cases hadm.symm.trans h
      · exact h
    · rcases h with ⟨b, h⟩ | h
      · rcases hadm with hadm | hadm <;> cases hadm.symm.trans h
      · cases ok with
        | false => exact .inr h
        | true =>
          rcases List.mem_append.mp h with h | h
          · exact .inr h
          · cases List.mem_singleton.mp h
            exact .inl ⟨a, ha⟩
  | @act e source ha =>
    simp only [Ev.source.injEq, SourceEv.act.injEq]
    exact hw.act hi ha fun h => hk (by rw [h])
  | target hm => exact hw.target hi hm

/-! ## Along a run -/

structure LiveInv (l : Live) : Prop where
  inv : Inv l.sys
  hub : l.sys.source.hub.Nodup
  inventory : l.inventory.Nodup
  whole : Whole l.inventory l.sys

/-- The handler and the target put nothing into the hub. -/
theorem Move.hub {e : Ev} (ho : Orderly s.source) (hm : Move s e s') : s'.source.hub.Sublist s.source.hub := by
  cases hm with
  | loop _ | child _ | readFailed _ => exact .refl _
  | read _ _ => exact handle_hub s.source _ _ ▸ .refl _
  | write _ hx _ =>
    obtain ⟨-, -, hh, -, -⟩ := wrote_some hx
    exact hh ▸ .refl _
  | act ha =>
    rcases hub_act ho ha with hh | ⟨_, m, _, _, _, hh⟩
    · exact hh ▸ .refl _
    · exact hh ▸ List.filter_sublist
  | target ht => cases ht <;> exact .refl _

theorem HubMove.nodup {a b : Source} (h : HubMove a b) (hn : a.hub.Nodup) : b.hub.Nodup := by
  cases h with
  | opened _ hm _ _ => exact List.nodup_append.mpr ⟨hn, by simp, fun x hx y hy => by grind⟩
  | deleted _ => exact hn.filter _

theorem LiveInv.move {l l' : Live} {e : LiveEv} (hi : LiveInv l) (hm : LiveMove l e l') : LiveInv l' := by
  cases hm with
  | sys hm hk =>
    refine ⟨hi.inv.move hm, hi.hub.sublist (hm.hub hi.inv.orderly), ?_, hi.whole.move hi.inv hm hk⟩
    dsimp only
    split
    · exact hi.hub
    · exact hi.inventory
  | hub h =>
    obtain ⟨-, -, -, ha, -⟩ := h.same
    refine ⟨hi.inv.hub h, h.nodup hi.hub, hi.inventory, hi.whole.stays rfl ?_ ?_⟩
    · exact fun hx => by simpa only [Live.withSource, Sys.withSource, ha] using hx
    · exact fun i l hx => by simpa only [Live.withSource, Sys.withSource, ha] using hx

theorem LiveInv.init {l : Live} (h : liveMachine.init l) : LiveInv l := by
  obtain ⟨sessions, hub, hrest, hn, rfl⟩ := h
  refine ⟨.init ⟨sessions, hub, hrest, rfl⟩, hn, List.nodup_nil, fun rest hr => ?_, fun _ => rfl, fun h => ?_, fun _ h => ?_,
    fun _ => rfl⟩
  · cases hr
  · simp [begun] at h
  · cases h

theorem Pc.owns_cases {pc : Pc} (h : pc.owns = true) :
    (∃ k, pc = .start k) ∨ pc = .call .exit ∨ (∃ id, pc = .wait .exit id) ∨ pc = .returned true := by
  cases pc with
  | call st | wait st _ => cases st <;> simp_all [Pc.owns]
  | returned ok => cases ok <;> simp_all [Pc.owns]
  | _ => simp_all [Pc.owns]

/-- A target that owns its sessions has what it prepared in its hub, and that is the inventory. -/
theorem LiveInv.owned {l : Live} (hi : LiveInv l) (h : l.sys.target.pc.owns = true) : l.sys.target.hub = l.inventory := by
  have hpc := Pc.owns_cases h
  have htodo : l.sys.target.pc.todo = some [] := by
    rcases hpc with ⟨_, hp⟩ | hp | ⟨_, hp⟩ | hp <;> rw [hp] <;> rfl
  cases hi.inv.phase with
  | lost h1 _ _ => rcases hpc with ⟨_, hp⟩ | hp | ⟨_, hp⟩ | hp <;> simp [Target.lost, hp] at h1
  | clean _ _ _ _ h5 => rcases hpc with ⟨_, hp⟩ | hp | ⟨_, hp⟩ | hp <;> rw [hp] at h5 <;> first | cases h5.1 | cases h5
  | given _ h2 _ _ => rw [h2, ← hi.whole.covers [] htodo (hi.whole.owned h), List.append_nil]

end Ghostline.Handoff
