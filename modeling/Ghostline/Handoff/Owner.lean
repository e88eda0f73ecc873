/-
  Ghostline.Handoff.Owner — at most one owner during an upgrade.

  As long as no call has failed, the two sides are in step: at most one message is under
  way, the one of the call the target waits for (`Carries`). A failed call leaves the
  sides out of step, but then the target commits nothing: it skips the session and aborts
  the rest. One failure is not the end at once, that of a `snapshot`, after which the
  session is adopted again; the source then still has it pending and refuses (`Stale`).

  So what the target relies on when it starts to read is what the reply to its own commit
  says: the sessions have left the source's hub, and their loops have returned
  (`at_most_one_owner`). Any order of steps is allowed, and any read or write may fail.
-/

import Ghostline.Handoff.Service
import Ghostline.Handoff.Upgrade

namespace Ghostline.Handoff

open Lib Session

variable {s s' : Sys} {n id : Nat} {req : Request}

/-! ## Messages under way -/

def Sys.Quiet (s : Sys) : Prop := s.up = [] ∧ s.down = [] ∧ s.source.admin.free = true

/-- The only message under way is the request `req` with the number `id`, or its reply. -/
inductive Carries (s : Sys) (id : Nat) (req : Request) : Prop
  | up : s.up = [(id, req)] → s.down = [] → s.source.admin.free = true → Carries s id req
  | source : s.up = [] → s.down = [] → s.source.Serves id req → Carries s id req
  | down {r : Reply} : s.up = [] → s.down = [(id, r)] → s.source.admin.free = true → s.source.Answers req r →
      Carries s id req
  | lost : s.Quiet → Carries s id req

/-- After a failed `snapshot`: session `n` is pending, and whatever comes under the number
    `id` of the second `adopt` is an error. -/
structure Stale (s : Sys) (n id : Nat) : Prop where
  up : ∀ q ∈ s.up, (∃ m, q.2 = .snapshot m) ∧ q.1 ≠ id ∨ q.2 = .adopt n
  admin : s.source.admin.free = true ∨ ∃ i r a, s.source.admin = .reply i r a ∧ (i = id → ∃ e, r = .error e)
  down : ∀ q ∈ s.down, q.1 = id → ∃ e, q.2 = .error e
  holds : s.source.Holds n

/-! ### Steps of the source: the message under way -/

section Source

variable {source : Source}

theorem Sys.Quiet.works (h : s.Quiet) (hw : Works s.source source) : Sys.Quiet { s with source := source } :=
  ⟨h.1, h.2.1, (hw.free h.2.2).1⟩

theorem Carries.works (h : Carries s id req) (hw : Works s.source source) : Carries { s with source := source } id req := by
  cases h with
  | up hu hd hf => exact .up hu hd (hw.free hf).1
  | source hu hd hs => exact .source hu hd (hw.serves id req hs)
  | down hu hd hf ha => exact .down hu hd (hw.free hf).1 (ha.mono hw.onward (hw.free hf).2)
  | lost hq => exact .lost (hq.works hw)

theorem Stale.works (h : Stale s n id) (hw : Works s.source source) : Stale { s with source := source } n id := by
  obtain ⟨hu, ha, hd, hh⟩ := h
  rcases ha with hf | ⟨i, r, a, ha, he⟩
  · exact ⟨hu, .inl (hw.free hf).1, hd, (hw.free hf).2 n hh⟩
  · obtain ⟨ha', hp⟩ := hw.reply i r a ha
    refine ⟨hu, .inr ⟨i, r, a, ha', he⟩, hd, ?_⟩
    have hn : n ∈ s.source.pending := hh.resolve_right (by simp [ha, Admin.gone])
    exact .inl (hp ▸ hn)

theorem Carries.head {q : Nat × Request} {up : List (Nat × Request)} (h : Carries s id req) (hu : s.up = q :: up) :
    q = (id, req) := by
  cases h with
  | up hu' _ _ => cases hu.symm.trans hu'; rfl
  | source hu' _ _ | down hu' _ _ _ => cases hu.symm.trans hu'
  | lost hq => cases hu.symm.trans hq.1

theorem Carries.read {q : Nat × Request} {up : List (Nat × Request)} (h : Carries s id req) (hu : s.up = q :: up) :
    Carries { s with source := s.source.handle q.1 q.2, up := up } id req := by
  cases h with
  | up hu' hd _ =>
    cases hu.symm.trans hu'
    exact .source rfl hd (.handle _ _ _)
  | source hu' _ _ | down hu' _ _ _ => cases hu.symm.trans hu'
  | lost hq => cases hu.symm.trans hq.1

theorem Stale.read {q : Nat × Request} {up : List (Nat × Request)} (h : Stale s n id) (hu : s.up = q :: up)
    (ha : s.source.admin = .idle) : Stale { s with source := s.source.handle q.1 q.2, up := up } n id := by
  have hn : n ∈ s.source.pending := h.holds.resolve_right (by simp [ha, Admin.gone])
  have rest : ∀ p ∈ up, (∃ m, p.2 = .snapshot m) ∧ p.1 ≠ id ∨ p.2 = .adopt n := fun p hp =>
    h.up p (by rw [hu]; exact .tail _ hp)
  have refuse : ∀ e, Stale { s with source := s.source.refuse q.1 e, up := up } n id := fun e =>
    ⟨rest, .inr ⟨q.1, .error e, .again, rfl, fun _ => ⟨e, rfl⟩⟩, h.down, .inl hn⟩
  obtain ⟨i, r⟩ := q
  rcases h.up _ (by rw [hu]; exact .head _) with ⟨⟨m, hr⟩, hne⟩ | hr
  · -- the reply to the snapshot has another number
    obtain rfl : r = .snapshot m := hr
    simp only [Source.handle]
    split
    · exact ⟨rest, .inr ⟨i, .snapshot, .again, rfl, fun hi => absurd hi hne⟩, h.down, .inl hn⟩
    · exact refuse _
  · obtain rfl : r = .adopt n := hr
    simp only [Source.handle, Source.adopt, hn, if_true]
    split
    · exact refuse _
    · exact refuse _

/-- What a written reply leaves under way. -/
theorem Carries.write {i : Nat} {r : Reply} {a : After} {ok : Bool} (h : Carries s id req)
    (ha : s.source.admin = .reply i r a) (hw : s.source.wrote ok = some source) :
    Carries { s with source := source, down := if ok then s.down ++ [(i, r)] else s.down } id req := by
  have hfree : source.admin.free = true := by
    obtain ⟨-, -, -, -, h' | h'⟩ := wrote_some hw <;> rw [h'] <;> rfl
  have busy : s.source.admin.free ≠ true := by simp [ha, Admin.free]
  cases h with
  | up _ _ hf | down _ _ hf _ => exact absurd hf busy
  | lost hq => exact absurd hq.2.2 busy
  | source hu hd hs =>
    simp only [Source.Serves, ha] at hs
    obtain ⟨rfl, hans⟩ := hs
    cases ok with
    | false => exact .lost ⟨hu, hd, hfree⟩
    | true => exact .down hu (by simp [hd]) hfree (hans.wrote hw)

theorem Stale.write {i : Nat} {r : Reply} {a : After} {ok : Bool} (h : Stale s n id)
    (ha : s.source.admin = .reply i r a) (hw : s.source.wrote ok = some source) :
    Stale { s with source := source, down := if ok then s.down ++ [(i, r)] else s.down } n id := by
  obtain ⟨-, -, -, hp, hfree⟩ := wrote_some hw
  have hn : n ∈ s.source.pending := h.holds.resolve_right (by simp [ha, Admin.gone])
  refine ⟨h.up, .inl (by rcases hfree with h' | h' <;> rw [h'] <;> rfl), fun q hq hid => ?_, .inl (hp ▸ hn)⟩
  have old : q ∈ s.down → ∃ e, q.2 = .error e := fun hq => h.down q hq hid
  cases ok with
  | false => exact old hq
  | true =>
    rcases List.mem_append.mp hq with hq | hq
    · exact old hq
    · obtain rfl := List.mem_singleton.mp hq
      rcases h.admin with hf | ⟨_, _, _, ha', he⟩
      · simp [ha, Admin.free] at hf
      · cases ha.symm.trans ha'
        exact he hid

end Source

/-! ## Where the target is -/

/-- The target has failed: it commits nothing. -/
def Target.lost (t : Target) : Bool :=
  match t.pc with
  | .call .abort | .wait .abort _ | .closing _ | .returned false => true
  | .call (.adopt _ _) | .wait (.adopt _ _) _ | .call (.snapshot _ _ _ _) | .wait (.snapshot _ _ _ _) _
  | .call (.retry _ _ _) | .wait (.retry _ _ _) _ | .call (.abortSingle _ _) | .wait (.abortSingle _ _) _
  | .takeFD _ _ _ _ | .build _ _ _ _ => !t.skipped.isEmpty
  | _ => false

/-- The state has its own session's master, or none since the session had ended. -/
def Exact (s : Source) (a : Adoption) : Prop :=
  a.closed = false ∧ (a.master = some a.name ∨ a.master = none ∧ (s.sessions a.name).core.done = true)

/-- What holds at a call of a target that has not failed, but for the second `adopt`. -/
def Ready (s : Source) : Stage → Prop
  | .list | .adopt _ _ | .commit => True
  | .snapshot n _ name master => name = n ∧ s.Holds n ∧ Exact s ⟨name, master, false⟩
  | _ => False

def At (s : Sys) : Pc → Prop
  | .call (.retry n _ _) => Stale s n s.target.nextID
  | .wait (.retry n _ _) id => Stale s n id
  | .call st => Ready s.source st ∧ s.target.received = [] ∧ s.Quiet
  | .wait st id => Ready s.source st ∧ s.target.received = [] ∧ id < s.target.nextID ∧ Carries s id (s.target.request st)
  | .takeFD n _ name none => name = n ∧ s.source.Holds n ∧ s.target.received = [n] ∧ s.Quiet
  | .build n _ name master => name = n ∧ Exact s.source ⟨name, master, false⟩ ∧ s.target.received = [] ∧ s.Quiet
  | .insert => ∀ a ∈ s.target.prepared, s.source.Gone a.name
  | _ => False

/-- The target owns its sessions. -/
def Pc.owns : Pc → Bool
  | .start _ | .call .exit | .wait .exit _ | .returned true => true
  | _ => false

inductive Phase (s : Sys) : Prop
  | lost : s.target.lost = true → s.target.hub = [] → s.target.reading = [] → Phase s
  | clean : s.target.skipped = [] → s.target.hub = [] → s.target.reading = [] →
      (∀ a ∈ s.target.prepared, Exact s.source a) → At s s.target.pc → Phase s
  | given : s.target.pc.owns = true → s.target.hub = s.target.names →
      (∀ a ∈ s.target.prepared, Exact s.source a ∧ s.source.Gone a.name) →
      (∀ m ∈ s.target.reading, ∃ a ∈ s.target.prepared, a.master = some m) → Phase s

/-! ### Steps of the source: the phase -/

/-- A step of the source, for the target. -/
structure Follows (s s' : Sys) : Prop where
  target : s'.target = s.target
  onward : Onward s.source s'.source
  quiet : s.Quiet → s'.Quiet
  carries : ∀ id req, Carries s id req → Carries s' id req
  stale : ∀ n id, Stale s n id → Stale s' n id
  /-- While a snapshot is asked for, or nothing is, no session is given up. -/
  holds : ∀ n m id, Carries s id (.snapshot m) → s.source.Holds n → s'.source.Holds n

theorem Exact.mono {a b : Source} {x : Adoption} (h : Exact a x) (ho : Onward a b) : Exact b x :=
  ⟨h.1, h.2.imp_right fun h => ⟨h.1, ho.done _ h.2⟩⟩

theorem Ready.follows {st : Stage} (h : Ready s.source st) (hf : Follows s s')
    (hc : ∀ m, s.target.request st = .snapshot m → ∃ id, Carries s id (.snapshot m)) : Ready s'.source st := by
  cases st with
  | snapshot n rest name master =>
    obtain ⟨id, hc⟩ := hc name rfl
    exact ⟨h.1, hf.holds n name id hc h.2.1, h.2.2.mono hf.onward⟩
  | _ => exact h

theorem At.follows {pc : Pc} (h : At s pc) (hf : Follows s s') : At s' pc := by
  have call : ∀ st, Ready s.source st ∧ s.target.received = [] ∧ s.Quiet →
      Ready s'.source st ∧ s'.target.received = [] ∧ s'.Quiet := fun st h =>
    ⟨h.1.follows hf fun _ _ => ⟨0, .lost h.2.2⟩, hf.target ▸ h.2.1, hf.quiet h.2.2⟩
  have wait : ∀ st id, Ready s.source st ∧ s.target.received = [] ∧ id < s.target.nextID ∧ Carries s id (s.target.request st) →
      Ready s'.source st ∧ s'.target.received = [] ∧ id < s'.target.nextID ∧ Carries s' id (s'.target.request st) := by
    rintro st id ⟨h1, h2, h3, h4⟩
    rw [hf.target]
    exact ⟨h1.follows hf fun m hm => ⟨id, hm ▸ h4⟩, h2, h3, hf.carries _ _ h4⟩
  cases pc with
  | call st =>
    cases st with
    | retry n rest name =>
      have := hf.stale _ _ h
      rwa [← hf.target] at this
    | _ => exact call _ h
  | wait st id =>
    cases st with
    | retry n rest name => exact hf.stale _ _ h
    | _ => exact wait _ id h
  | takeFD n rest name again =>
    cases again with
    | none => exact ⟨h.1, hf.holds n n 0 (.lost h.2.2.2) h.2.1, hf.target ▸ h.2.2.1, hf.quiet h.2.2.2⟩
    | some _ => cases h
  | build n rest name master => exact ⟨h.1, h.2.1.mono hf.onward, hf.target ▸ h.2.2.1, hf.quiet h.2.2.2⟩
  | insert => exact fun a ha => hf.onward.gone _ (h a (hf.target ▸ ha))
  | _ => cases h

theorem Phase.follows (h : Phase s) (hf : Follows s s') : Phase s' := by
  have ht := hf.target
  cases h with
  | lost h1 h2 h3 => exact .lost (ht ▸ h1) (ht ▸ h2) (ht ▸ h3)
  | clean h1 h2 h3 h4 h5 =>
    exact .clean (ht ▸ h1) (ht ▸ h2) (ht ▸ h3) (ht ▸ fun a ha => (h4 a ha).mono hf.onward) (ht ▸ h5.follows hf)
  | given h1 h2 h3 h4 =>
    exact .given (ht ▸ h1) (ht ▸ h2) (ht ▸ fun a ha => ⟨(h3 a ha).1.mono hf.onward, hf.onward.gone _ (h3 a ha).2⟩)
      (ht ▸ h4)

section Source

variable {source : Source}

/-- While a snapshot is asked for, the source has at most a reply in hand. -/
theorem Carries.calm {m : Nat} (h : Carries s id (.snapshot m)) :
    s.source.admin.free = true ∨ ∃ i r a, s.source.admin = .reply i r a := by
  cases h with
  | up _ _ hf | down _ _ hf _ => exact .inl hf
  | lost hq => exact .inl hq.2.2
  | source _ _ hs =>
    right
    cases ha : s.source.admin with
    | reply i r a => exact ⟨i, r, a, rfl⟩
    | resolving _ commit _ _ _ | forgetting _ commit _ _ =>
      simp only [Source.Serves, ha] at hs
      cases commit <;> cases hs.2
    | _ => simp [Source.Serves, ha] at hs

theorem Follows.works (hw : Works s.source source) : Follows s { s with source := source } where
  target := rfl
  onward := hw.onward
  quiet h := h.works hw
  carries _ _ h := h.works hw
  stale _ _ h := h.works hw
  holds n m id hc h := by
    rcases hc.calm with hf | ⟨i, r, a, ha⟩
    · exact (hw.free hf).2 n h
    · exact .inl ((hw.reply i r a ha).2 ▸ h.resolve_right (by simp [ha, Admin.gone]))

theorem Onward.handle (a : Source) (id : Nat) (r : Request) : Onward a (a.handle id r) := by
  have plain : ∀ x, Onward a (a.goto x) := fun x => (Onward.refl a).goto
  cases r with
  | adopt n =>
    simp only [Source.handle, Source.adopt]
    repeat' split
    all_goals first | exact plain _ | skip
    rename_i x hx
    obtain ⟨-, c, hc, rfl⟩ := begin_some hx
    obtain ⟨hl, hd, -⟩ := beginMigration_same hc
    have hset : Onward a (a.set n ⟨c, if (a.sessions n).core.done then .awaiting (a.sessions n).core.issued
        else .wake (a.sessions n).core.issued⟩) := .set (fun h => hl ▸ h) fun h => hd ▸ h
    exact ⟨hset.gone, hset.done⟩
  | _ =>
    simp only [Source.handle]
    split <;> exact plain _

theorem Follows.read {q : Nat × Request} {up : List (Nat × Request)} (hu : s.up = q :: up)
    (ha : s.source.admin = .idle) : Follows s { s with source := s.source.handle q.1 q.2, up := up } where
  target := rfl
  onward := .handle s.source q.1 q.2
  quiet h := by cases hu.symm.trans h.1
  carries _ _ h := h.read hu
  stale _ _ h := h.read hu ha
  holds n m id hc h := by
    have hn : n ∈ s.source.pending := h.resolve_right (by simp [ha, Admin.gone])
    obtain rfl := hc.head hu
    simp only [Source.handle]
    split <;> exact .inl hn

theorem Follows.write {i : Nat} {r : Reply} {a : After} {ok : Bool} (ha : s.source.admin = .reply i r a)
    (hw : s.source.wrote ok = some source) :
    Follows s { s with source := source, down := if ok then s.down ++ [(i, r)] else s.down } := by
  obtain ⟨-, h1, h2, h3, -⟩ := wrote_some hw
  refine ⟨rfl, ?_, fun h => ?_, fun _ _ h => h.write ha hw, fun _ _ h => h.write ha hw, fun n _ _ _ h => .inl ?_⟩
  · exact .of (fun n hn => h2 ▸ hn) (fun n hn => by rw [h1]; exact hn) fun n hn => by rw [h1]; exact hn
  · have := h.2.2
    simp [ha, Admin.free] at this
  · exact h3 ▸ h.resolve_right (by simp [ha, Admin.gone])

end Source

/-! ### Steps of the target -/

section Lost

variable {t t' : Target}

/-- Waiting for a reply, the target has failed when it had at the call. -/
theorem lost_wait (st : Stage) (id : Nat) : (t.goto (.wait st id)).lost = (t.goto (.call st)).lost := by
  cases st <;> rfl

theorem giveUp_lost : t.giveUp.lost = true ∧ t.giveUp.hub = t.hub ∧ t.giveUp.reading = t.reading := by
  unfold Target.giveUp
  split <;> exact ⟨rfl, rfl, rfl⟩

theorem skip_lost (n name : Nat) (rest : List Nat) :
    (t.skip n name rest).lost = true ∧ (t.skip n name rest).hub = t.hub ∧ (t.skip n name rest).reading = t.reading := by
  refine ⟨?_, rfl, rfl⟩
  simp [Target.skip, Target.goto, Target.lost]

theorem next_lost (h : t.skipped.isEmpty = false) (rest : List Nat) :
    (t.next rest).lost = true ∧ (t.next rest).hub = t.hub ∧ (t.next rest).reading = t.reading := by
  cases rest with
  | cons n rest => exact ⟨by simp [Target.next, Target.goto, Target.lost, h], rfl, rfl⟩
  | nil =>
    simp only [Target.next, h]
    exact giveUp_lost

theorem failed_lost {st : Stage} (h : (t.goto (.call st)).lost = true) :
    (t.failed st).lost = true ∧ (t.failed st).hub = t.hub ∧ (t.failed st).reading = t.reading := by
  cases st with
  | list | commit | exit => cases h
  | adopt n rest | retry n rest name => exact skip_lost _ _ _
  | snapshot n rest name master => exact ⟨h, rfl, rfl⟩
  | abortSingle name rest => exact next_lost (by simpa [Target.goto, Target.lost] using h) rest
  | abort => exact ⟨rfl, rfl, rfl⟩

theorem answered_lost {st : Stage} {r : Reply} (h : (t.goto (.call st)).lost = true) :
    (t.answered st r).lost = true ∧ (t.answered st r).hub = t.hub ∧ (t.answered st r).reading = t.reading := by
  unfold Target.answered
  split
  · cases h
  · split <;> exact ⟨h, rfl, rfl⟩
  · split <;> exact ⟨h, rfl, rfl⟩
  · exact ⟨h, rfl, rfl⟩
  · cases h
  · exact next_lost (by simpa [Target.goto, Target.lost] using h) _
  · exact ⟨rfl, rfl, rfl⟩
  · cases h
  · exact failed_lost h

theorem lost_call {st : Stage} (hp : t.pc = .call st) : t.lost = (t.goto (.call st)).lost := by
  rw [← hp]; rfl

theorem lost_waiting {st : Stage} {id : Nat} (hp : t.pc = .wait st id) : t.lost = (t.goto (.call st)).lost := by
  rw [← lost_wait st id, ← hp]; rfl

theorem receives_lost {st : Stage} {id : Nat} {q : Nat × Reply} (hp : t.pc = .wait st id) (h : t.lost = true) :
    (t.receives st id q).lost = true ∧ (t.receives st id q).hub = t.hub ∧ (t.receives st id q).reading = t.reading := by
  rw [lost_waiting hp] at h
  unfold Target.receives
  split
  · split
    · exact failed_lost h
    · exact answered_lost h
  · exact failed_lost h

theorem turn_lost {e : TargetEv} (hs : Turn t e t') (h : t.lost = true) :
    t'.lost = true ∧ t'.hub = t.hub ∧ t'.reading = t.reading := by
  cases hs with
  | cancel | cut _ => exact ⟨h, rfl, rfl⟩
  | unsent hp _ => exact failed_lost (lost_call hp ▸ h)
  | failed hp => exact failed_lost (lost_waiting hp ▸ h)
  | noFD _ _ | unbuilt _ => exact skip_lost _ _ _
  | takeFD hp _ =>
    have hsk : t.skipped.isEmpty = false := by simpa [Target.lost, hp] using h
    split <;> exact ⟨by simp [Target.goto, Target.lost, hsk], rfl, rfl⟩
  | built hp => exact next_lost (by simpa [Target.lost, hp, Target.prepare] using h) _
  | insert hp | start hp _ | started hp _ => simp [Target.lost, hp] at h
  | close _ _ | closed _ _ => exact ⟨rfl, rfl, rfl⟩

end Lost

/-- The messages under way are none of the target's. -/
theorem Carries.retarget (h : Carries s id req) (t : Target) : Carries { s with target := t } id req := by
  cases h with
  | up hu hd hf => exact .up hu hd hf
  | source hu hd hs => exact .source hu hd hs
  | down hu hd hf ha => exact .down hu hd hf ha
  | lost hq => exact .lost hq

theorem Stale.retarget (h : Stale s n id) (t : Target) : Stale { s with target := t } n id :=
  ⟨h.up, h.admin, h.down, h.holds⟩

theorem Sys.Quiet.stale (h : s.Quiet) (hh : s.source.Holds n) (id : Nat) : Stale s n id :=
  ⟨by simp [h.1], .inl h.2.2, by simp [h.2.1], hh⟩

/-- A snapshot given up leaves its own message under way, under its own number. -/
theorem Carries.stale {m b : Nat} (h : Carries s id (.snapshot m)) (hh : s.source.Holds n) (hne : id ≠ b) :
    Stale s n b := by
  have hcalm := h.calm
  cases h with
  | up hu hd hf => exact ⟨by simp [hu, hne], .inl hf, by simp [hd], hh⟩
  | down hu hd hf _ => exact ⟨by simp [hu], .inl hf, by simp [hd, hne], hh⟩
  | lost hq => exact hq.stale hh b
  | source hu hd hs =>
    refine ⟨by simp [hu], .inr ?_, by simp [hd], hh⟩
    obtain ⟨i, r, a, ha⟩ := hcalm.resolve_left (by simp [hs.busy])
    simp only [Source.Serves, ha] at hs
    exact ⟨i, r, a, ha, fun hi => absurd (hs.1.symm.trans hi) hne⟩

section Clean

variable {t : Target}

theorem At.retarget {pc : Pc} (h : At s pc) (hn : t.nextID = s.target.nextID) (hr : t.received = s.target.received)
    (hp : t.prepared = s.target.prepared) : At { s with target := t } pc := by
  have hreq : ∀ st, t.request st = s.target.request st := fun st => by cases st <;> simp [Target.request, Target.names, hp]
  cases pc with
  | call st =>
    cases st with
    | retry n rest name => exact Stale.retarget (hn.symm ▸ h) t
    | _ => exact ⟨h.1, hr.trans h.2.1, h.2.2⟩
  | wait st id =>
    cases st with
    | retry n rest name => exact Stale.retarget h t
    | _ => exact ⟨h.1, hr.trans h.2.1, hn ▸ h.2.2.1, hreq _ ▸ h.2.2.2.retarget t⟩
  | takeFD n rest name again =>
    cases again with
    | none => exact ⟨h.1, h.2.1, hr.trans h.2.2.1, h.2.2.2⟩
    | some _ => cases h
  | build n rest name master => exact ⟨h.1, h.2.1, hr.trans h.2.2.1, h.2.2.2⟩
  | insert => exact fun a ha => h a (hp ▸ ha)
  | _ => cases h

/-- A call that fails ends the adoption, but for a `snapshot`. -/
theorem Phase.failed {st : Stage} (h1 : t.skipped = []) (h2 : t.hub = []) (h3 : t.reading = [])
    (h4 : ∀ a ∈ t.prepared, Exact s.source a) (hst : Ready s.source st ∨ ∃ n rest name, st = .retry n rest name)
    (hs : ∀ n rest name master, st = .snapshot n rest name master → Stale s n t.nextID) :
    Phase { s with target := t.failed st } := by
  -- the target has failed when its next state says so
  have lost : ∀ t' : Target, t'.lost = true ∧ t'.hub = t.hub ∧ t'.reading = t.reading → Phase { s with target := t' } :=
    fun t' h => .lost h.1 (h.2.1.trans h2) (h.2.2.trans h3)
  cases st with
  | list => exact lost _ ⟨rfl, rfl, rfl⟩
  | adopt n rest | retry n rest name => exact lost _ (skip_lost _ _ _)
  | snapshot n rest name master => exact .clean h1 h2 h3 h4 ((hs n rest name master rfl).retarget _)
  | commit => exact lost _ giveUp_lost
  | abortSingle _ _ | abort | exit => rcases hst with h | ⟨_, _, _, h⟩ <;> cases h

/-- On to the next session, or to the commit. -/
theorem Phase.next (h1 : t.skipped = []) (h2 : t.hub = []) (h3 : t.reading = [])
    (h4 : ∀ a ∈ t.prepared, Exact s.source a) (hr : t.received = []) (hq : s.Quiet) (rest : List Nat) :
    Phase { s with target := t.next rest } := by
  cases rest with
  | cons n rest => exact .clean h1 h2 h3 h4 ⟨trivial, hr, hq⟩
  | nil =>
    have hnext : t.next [] = t.goto (.call .commit) := by simp [Target.next, h1]
    rw [hnext]
    exact .clean h1 h2 h3 h4 ⟨trivial, hr, hq⟩

/-- A call that gets its reply goes on as the reply says. -/
theorem Phase.answered {st : Stage} {r : Reply} (h1 : t.skipped = []) (h2 : t.hub = []) (h3 : t.reading = [])
    (h4 : ∀ a ∈ t.prepared, Exact s.source a) (hr : t.received = r.fds) (hq : s.Quiet) (hst : Ready s.source st)
    (ha : s.source.Answers (t.request st) r) : Phase { s with target := t.answered st r } := by
  have failed : Phase { s with target := t.failed st } := by
    refine Phase.failed h1 h2 h3 h4 (.inl hst) ?_
    rintro n rest name master rfl
    exact hq.stale hst.2.1 _
  cases st with
  | list =>
    cases r with
    | listed names => exact Phase.next h1 h2 h3 h4 hr hq names
    | _ => exact failed
  | adopt n rest =>
    cases r with
    | adopted name alive fd =>
      obtain ⟨rfl, hh, ⟨rfl, rfl⟩ | ⟨rfl, rfl, hd⟩⟩ := ha
      · exact .clean h1 h2 h3 h4 ⟨rfl, hh, hr, hq⟩
      · exact .clean h1 h2 h3 h4 ⟨⟨rfl, hh, rfl, .inr ⟨rfl, hd⟩⟩, hr, hq⟩
    | _ => exact failed
  | snapshot n rest name master =>
    cases r with
    | snapshot => exact .clean h1 h2 h3 h4 ⟨hst.1, hst.2.2, hr, hq⟩
    | _ => exact failed
  | commit =>
    cases r with
    | resolved k =>
      simp only [Target.answered]
      split
      · exact .clean h1 h2 h3 h4 fun a hm => ha a.name (List.mem_map_of_mem hm)
      · exact failed
    | _ => exact failed
  | retry _ _ _ | abortSingle _ _ | abort | exit => cases hst

end Clean

theorem Phase.send {st : Stage} (h : Phase s) (hp : s.target.pc = .call st) :
    Phase { s with target := s.target.sent st, up := s.up ++ [(s.target.nextID, s.target.request st)] } := by
  cases h with
  | lost h1 h2 h3 =>
    refine .lost ?_ h2 h3
    rw [lost_call hp, ← lost_wait st s.target.nextID] at h1
    exact h1
  | given h1 h2 h3 h4 =>
    refine .given ?_ h2 h3 h4
    rw [hp] at h1
    cases st <;> first | rfl | cases h1
  | clean h1 h2 h3 h4 h5 =>
    refine .clean h1 h2 h3 h4 ?_
    rw [hp] at h5
    have wait : ∀ st', Ready s.source st' ∧ s.target.received = [] ∧ s.Quiet → Carries
        { s with target := s.target.sent st, up := s.up ++ [(s.target.nextID, s.target.request st')] }
        s.target.nextID (s.target.request st') := fun st' h => .up (by simp [h.2.2.1]) h.2.2.2.1 h.2.2.2.2
    cases st with
    | retry n rest name =>
      refine ⟨fun q hq => ?_, h5.admin, h5.down, h5.holds⟩
      rcases List.mem_append.mp hq with hq | hq
      · exact h5.up q hq
      · rw [List.mem_singleton.mp hq]; exact .inr rfl
    | list | adopt _ _ | snapshot _ _ _ _ | commit => exact ⟨h5.1, h5.2.1, Nat.lt_succ_self _, wait _ h5⟩
    | abortSingle _ _ | abort | exit => cases h5.1

theorem Phase.recv {st : Stage} {q : Nat × Reply} {down : List (Nat × Reply)} (h : Phase s)
    (hp : s.target.pc = .wait st id) (hd : s.down = q :: down) :
    Phase { s with target := s.target.receives st id q, down := down } := by
  cases h with
  | lost h1 h2 h3 =>
    obtain ⟨h1', h2', h3'⟩ := receives_lost (q := q) hp h1
    exact .lost h1' (h2'.trans h2) (h3'.trans h3)
  | given h1 h2 h3 h4 =>
    rw [hp] at h1
    cases st with
    | exit =>
      have hx : s.target.receives .exit id q = { s.target with received := s.target.received ++ q.2.fds }.leave true := by
        unfold Target.receives
        cases q.2 <;> simp [Target.failed, Target.answered]
      rw [hx]
      exact .given rfl h2 h3 h4
    | _ => cases h1
  | clean h1 h2 h3 h4 h5 =>
    rw [hp] at h5
    have refused : (∃ n rest name, st = .retry n rest name) → Phase { s with
        target := { s.target with received := s.target.received ++ q.2.fds }.failed st, down := down } := by
      rintro ⟨n, rest, name, rfl⟩
      exact Phase.failed (s := { s with down := down }) h1 h2 h3 h4 (.inr ⟨n, rest, name, rfl⟩) (by simp)
    have ready : Ready s.source st ∧ s.target.received = [] ∧ id < s.target.nextID ∧ Carries s id (s.target.request st) →
        Phase { s with target := s.target.receives st id q, down := down } := by
      rintro ⟨hst, hr, -, hc⟩
      cases hc with
      | up _ hd' _ | source _ hd' _ => cases hd.symm.trans hd'
      | lost hq => cases hd.symm.trans hq.2.1
      | @down r hu hd' hf ha =>
        cases hd.symm.trans hd'
        have hq : Sys.Quiet { s with down := [] } := ⟨hu, rfl, hf⟩
        unfold Target.receives
        simp only [if_true]
        split
        · refine Phase.failed (s := { s with down := [] }) h1 h2 h3 h4 (.inl hst) ?_
          rintro n rest name master rfl
          exact hq.stale hst.2.1 _
        · exact Phase.answered (s := { s with down := [] }) h1 h2 h3 h4 (by simp [hr]) hq hst ha
    cases st with
    | retry n rest name =>
      -- whatever it reads, it is not a session
      unfold Target.receives
      simp only
      split
      · rename_i hid
        obtain ⟨e, he⟩ := h5.down q (by rw [hd]; exact .head _) hid
        simp only [he]
        have := refused ⟨n, rest, name, rfl⟩
        rwa [he] at this
      · exact refused ⟨n, rest, name, rfl⟩
    | _ => exact ready h5

/-- A target that owns its sessions only starts their loops, and retires the source. -/
theorem Phase.given_turn {e : TargetEv} {t : Target} (h1 : s.target.pc.owns = true) (h2 : s.target.hub = s.target.names)
    (h3 : ∀ a ∈ s.target.prepared, Exact s.source a ∧ s.source.Gone a.name)
    (h4 : ∀ m ∈ s.target.reading, ∃ a ∈ s.target.prepared, a.master = some m) (hs : Turn s.target e t) :
    Phase { s with target := t } := by
  cases hs with
  | cancel | cut _ => exact .given h1 h2 h3 h4
  | @unsent st k hp _ | @failed st k hp =>
    rw [hp] at h1
    cases st with
    | exit => exact .given rfl h2 h3 h4
    | _ => cases h1
  | @start k a hp ha =>
    refine .given rfl h2 h3 fun m hm => ?_
    rcases List.mem_append.mp hm with hm | hm
    · exact h4 m hm
    · exact ⟨a, List.mem_of_getElem? ha, by simpa using hm⟩
  | started _ _ => exact .given rfl h2 h3 h4
  | takeFD hp _ | noFD hp _ | built hp | unbuilt hp | insert hp | close hp _ | closed hp _ => rw [hp] at h1; cases h1

theorem Phase.clean_turn {e : TargetEv} {t : Target} (h1 : s.target.skipped = []) (h2 : s.target.hub = [])
    (h3 : s.target.reading = []) (h4 : ∀ a ∈ s.target.prepared, Exact s.source a) (h5 : At s s.target.pc)
    (hs : Turn s.target e t) : Phase { s with target := t } := by
  have skipped : ∀ n name rest, Phase { s with target := s.target.skip n name rest } := fun n name rest => by
    obtain ⟨h1', h2', h3'⟩ := skip_lost (t := s.target) n name rest
    exact .lost h1' (h2'.trans h2) (h3'.trans h3)
  cases hs with
  | cancel | cut _ => exact .clean h1 h2 h3 h4 (h5.retarget rfl rfl rfl)
  | @unsent st k hp _ =>
    rw [hp] at h5
    cases st with
    | snapshot n rest name master =>
      refine Phase.failed h1 h2 h3 h4 (.inl h5.1) ?_
      rintro n rest name master ⟨⟩
      exact h5.2.2.stale h5.1.2.1 _
    | retry n rest name => exact Phase.failed h1 h2 h3 h4 (.inr ⟨n, rest, name, rfl⟩) (by simp)
    | _ => exact Phase.failed h1 h2 h3 h4 (.inl h5.1) (by simp)
  | @failed st id hp =>
    rw [hp] at h5
    cases st with
    | snapshot n rest name master =>
      obtain ⟨hst, -, hid, hc⟩ := h5
      refine Phase.failed h1 h2 h3 h4 (.inl hst) ?_
      rintro n rest name master ⟨⟩
      exact hc.stale hst.2.1 (Nat.ne_of_lt hid)
    | retry n rest name => exact Phase.failed h1 h2 h3 h4 (.inr ⟨n, rest, name, rfl⟩) (by simp)
    | _ => exact Phase.failed h1 h2 h3 h4 (.inl h5.1) (by simp)
  | noFD _ _ | unbuilt _ => exact skipped _ _ _
  | @takeFD n name fd rest received again hp hr =>
    rw [hp] at h5
    cases again with
    | some _ => cases h5
    | none =>
      obtain ⟨rfl, hh, hr', hq⟩ := h5
      cases hr.symm.trans hr'
      exact .clean h1 h2 h3 h4 ⟨⟨rfl, hh, rfl, .inl rfl⟩, rfl, hq⟩
  | @built n name rest master hp =>
    rw [hp] at h5
    obtain ⟨rfl, hx, hr, hq⟩ := h5
    refine Phase.next (t := s.target.prepare _) h1 h2 h3 (fun a ha => ?_) hr hq rest
    rcases List.mem_append.mp ha with ha | ha
    · exact h4 a ha
    · rw [List.mem_singleton.mp ha]; exact hx
  | insert hp =>
    rw [hp] at h5
    exact .given rfl rfl (fun a ha => ⟨h4 a ha, h5 a ha⟩) (by simp [h3])
  | start hp _ | started hp _ | close hp _ | closed hp _ => rw [hp] at h5; cases h5

theorem Phase.target {e : TargetEv} (h : Phase s) (hm : TargetMove s e s') : Phase s' := by
  cases hm with
  | send hp _ => exact h.send hp
  | recv hp hd _ => exact h.recv hp hd
  | act hs =>
    cases h with
    | lost h1 h2 h3 =>
      obtain ⟨h1', h2', h3'⟩ := turn_lost hs h1
      exact .lost h1' (h2'.trans h2) (h3'.trans h3)
    | given h1 h2 h3 h4 => exact .given_turn h1 h2 h3 h4 hs
    | clean h1 h2 h3 h4 h5 => exact .clean_turn h1 h2 h3 h4 h5 hs

/-! ## Along a run -/

structure Inv (s : Sys) : Prop where
  orderly : Orderly s.source
  phase : Phase s

theorem Inv.move {e : Ev} (hi : Inv s) (h : Move s e s') : Inv s' := by
  obtain ⟨ho, hp⟩ := hi
  cases h with
  | loop hm => exact ⟨ho.loop hm, hp.follows (.works (.set (.loop hm)))⟩
  | child hc => exact ⟨ho.child hc, hp.follows (.works (.set (.child hc)))⟩
  | read ha hu => exact ⟨ho.handle ha _ _, hp.follows (.read hu ha)⟩
  | readFailed ha => exact ⟨ho.readFailed ha, hp.follows (.works (.readFailed ha))⟩
  | write ha hw _ => exact ⟨ho.wrote hw, hp.follows (.write ha hw)⟩
  | act ha => exact ⟨ho.act ha, hp.follows (.works (.act ho ha))⟩
  | target hm =>
    refine ⟨?_, hp.target hm⟩
    cases hm <;> exact ho

theorem Inv.step {e : Ev} (h : s.step e = some s') (hi : Inv s) : Inv s' := hi.move (step_move h)

theorem Resting.kept {x : Release.Sys} (h : Resting x) :
    Release.Kept x ∧ x.handler = .idle ∧ x.core.migrated = false := by
  rcases h with rfl | ⟨hr, hh, hm⟩
  · exact ⟨.dead, rfl, rfl⟩
  · exact ⟨.reach hr, hh, hm⟩

theorem Inv.init (h : machine.init s) : Inv s := by
  obtain ⟨sessions, hub, hrest, rfl⟩ := h
  have rest := fun n => (hrest n).kept
  refine ⟨⟨fun n => (rest n).1, trivial, fun n => .inl (rest n).2.1, fun n _ hm => ?_⟩, ?_⟩
  · exact absurd ((rest n).2.2.symm.trans hm) (by decide)
  · exact .clean rfl rfl rfl (by simp [begun]) ⟨trivial, rfl, rfl, rfl, rfl⟩

theorem Inv.reach {ok : Sys → Ev → Bool} (h : machine.Reach ok s) : Inv s :=
  h.invariant (fun _ => .init) fun _ _ _ hi _ h => hi.step h

/-- In every state of every upgrade, a PTY the target reads is one the source's copy loop
    of that session has returned from, and no session of the target's map is in the
    source's. -/
theorem at_most_one_owner (h : machine.Reach Machine.always s) :
    (∀ m ∈ s.target.reading, (s.source.sessions m).core.loop.past = true) ∧
      ∀ n ∈ s.target.hub, n ∉ s.source.hub := by
  cases (Inv.reach h).phase with
  | lost _ h2 h3 | clean _ h2 h3 _ _ => simp [h2, h3]
  | given _ h2 h3 h4 =>
    refine ⟨fun m hm => ?_, fun n hn => ?_⟩
    · obtain ⟨a, ha, hma⟩ := h4 m hm
      obtain ⟨⟨-, hx⟩, hg⟩ := h3 a ha
      have hname : m = a.name := by simpa [hma] using hx
      exact hname ▸ hg.2
    · rw [h2] at hn
      obtain ⟨a, ha, rfl⟩ := List.mem_map.mp hn
      exact (h3 a ha).2.1

/-- Two sessions, one just started and one adopted before without a master. -/
def twoSessions : Sys := begun (fun n => if n = 0 then ⟨Core.fresh true, .idle⟩ else ⟨Core.dead, .idle⟩) [0, 1]

theorem twoSessions_init : machine.init twoSessions := by
  refine ⟨_, _, fun n => ?_, rfl⟩
  by_cases hn : n = 0
  · simp only [hn, if_true]
    exact .inr ⟨.init ⟨true, rfl⟩, rfl, rfl⟩
  · simp only [hn, if_false]
    exact .inl rfl

/-- The sessions are listed, and the first one is adopted and snapshot. -/
def firstRun : List Ev :=
  [.target .send, .source .read, .source (.act .listed), .source (.write true), .target .recv,
    .target .send, .source .read, .source (.act .go), .loop 0 .go, .loop 0 .go, .loop 0 .unreadable, .loop 0 .go,
    .source (.act .go), .source (.act (.described true)), .source (.write true), .target .recv, .target .go,
    .target .send, .source .read, .source (.write true), .target .recv, .target (.build true)]

/-- So is the second one, which has stopped, and the commit is sent. -/
def preparedRun : List Ev :=
  firstRun ++ [.target .send, .source .read, .source (.act .go), .source (.act (.described true)), .source (.write true),
    .target .recv, .target .send, .source .read, .source (.write true), .target .recv, .target (.build true),
    .target .send]

def acts (k : Nat) : List Ev := List.replicate k (.source (.act .go))

/-- The source reads the commit and carries it out. -/
def committedRun : List Ev := .source .read :: acts 7 ++ .loop 0 .go :: .loop 0 .go :: acts 15

/-- From the reply to the commit to the return. -/
def retiredRun : List Ev :=
  [.source (.write true), .target .recv, .target .go, .target .go, .target .go, .target .go, .target .send, .source .read,
    .source (.write true), .target .recv]

theorem at_most_one_owner_adopted : ∃ s : Sys, machine.Reach Machine.always s ∧ s.target.reading = [0] ∧
    s.target.hub = [0, 1] ∧ (s.source.sessions 0).core.loop.past = true ∧ 0 ∉ s.source.hub := by
  obtain ⟨s, hs, hr, hh⟩ := machine.exists_reach Machine.always twoSessions_init
    (preparedRun ++ committedRun ++ [.source (.write true), .target .recv, .target .go, .target .go, .target .go])
    (P := fun s => s.target.reading = [0] ∧ s.target.hub = [0, 1]) (by decide)
  obtain ⟨h1, h2⟩ := at_most_one_owner hs
  exact ⟨s, hs, hr, hh, h1 0 (by simp [hr]), h2 0 (by simp [hh])⟩

end Ghostline.Handoff
