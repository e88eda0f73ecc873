/-
  Ghostline.Handoff.Service — what the source's reply to a request says.

  `Answers` is what the target may rely on when a reply to its call is a success: an
  adopted session is still pending and comes with its own master, unless it had ended;
  the sessions of a commit have left the hub and their loops have returned. `Serves` is
  kept from the reading of a request to the writing of its reply.
-/

import Ghostline.Handoff.Roles

namespace Ghostline.Handoff

open Lib Session

variable {s s' : Source} {e : AdminEv} {n id : Nat} {req : Request}

/-- The handler has no request in hand, or is on its way out. -/
def Admin.free : Admin → Bool
  | .idle | .leaving _ | .returned => true
  | _ => false

def Admin.gone : Admin → Bool
  | .leaving _ | .returned => true
  | _ => false

/-- The session is prepared for this connection, as long as the handler serves it. -/
def Source.Holds (s : Source) (n : Nat) : Prop := n ∈ s.pending ∨ s.admin.gone = true

def Source.Answers (s : Source) : Request → Reply → Prop
  | .adopt n, .adopted name alive fd => name = n ∧ s.Holds n ∧
      (alive = true ∧ fd = some n ∨ alive = false ∧ fd = none ∧ (s.sessions n).core.done = true)
  | .commit names, .resolved _ => ∀ n ∈ names, s.Gone n
  | _, _ => True

/-- The handler has the request `req` with the number `id` in hand. -/
def Source.Serves (s : Source) (id : Nat) (req : Request) : Prop :=
  match s.admin with
  | .listing i => i = id ∧ req = .list
  | .adopting i n | .undoing i n _ => i = id ∧ req = .adopt n
  | .preflight i names _ => i = id ∧ req = .commit names
  | .rollback i _ _ | .recovering i _ => i = id ∧ ∃ names, req = .commit names
  | .resolving i commit names _ _ | .forgetting i commit names _ => i = id ∧ req = if commit then .commit names else .abort names
  | .reply i r _ => i = id ∧ s.Answers req r
  | _ => False

theorem Source.Serves.busy (h : s.Serves id req) : s.admin.free = false := by
  unfold Source.Serves at h
  split at h <;> simp_all [Admin.free]

/-! ## What stays -/

/-- What a reply says of the sessions stays true. -/
structure Onward (s s' : Source) : Prop where
  gone : ∀ n, s.Gone n → s'.Gone n
  done : ∀ n, (s.sessions n).core.done = true → (s'.sessions n).core.done = true

theorem Onward.refl (s : Source) : Onward s s := ⟨fun _ => id, fun _ => id⟩

theorem Onward.of (hh : ∀ n, n ∈ s'.hub → n ∈ s.hub)
    (hl : ∀ n, (s.sessions n).core.loop.past = true → (s'.sessions n).core.loop.past = true)
    (hd : ∀ n, (s.sessions n).core.done = true → (s'.sessions n).core.done = true) : Onward s s' :=
  ⟨fun n h => ⟨fun hn => h.1 (hh n hn), hl n h.2⟩, hd⟩

theorem Onward.set {x : Release.Sys} (hl : (s.sessions n).core.loop.past = true → x.core.loop.past = true)
    (hd : (s.sessions n).core.done = true → x.core.done = true) : Onward s (s.set n x) := by
  refine .of (fun _ => id) (fun m => ?_) fun m => ?_
  · exact forall_set (P := fun m y => (s.sessions m).core.loop.past = true → y.core.loop.past = true) hl (fun _ _ => id) m
  · exact forall_set (P := fun m y => (s.sessions m).core.done = true → y.core.done = true) hd (fun _ _ => id) m

theorem Onward.loop {c : Core} {x : LoopEv} (hm : LoopMove (s.sessions n).core x c) :
    Onward s (s.set n { s.sessions n with core := c }) := .set hm.past hm.done

theorem Onward.child {c : Core} {x : Core.ChildEv} (hc : (s.sessions n).core.childStep x = some c) :
    Onward s (s.set n { s.sessions n with core := c }) := by
  have hs := SameTickets.child hc
  exact .set (fun h => hs.loop ▸ h) fun h => hs.done ▸ h

theorem Onward.forget : Onward s (s.forget n) := by
  refine .of (fun _ h => h) (fun m => ?_) fun m => ?_ <;> rw [forget_core] <;> exact id

theorem Onward.resolve {commit : Bool} {b : Option Bool} (h : Resolve s n commit s' b) : Onward s s' := by
  cases h with
  | start _ => exact .set id id
  | act _ hm => exact .set (fun h => hm.loop_eq ▸ h) fun h => hm.done_eq ▸ h
  | ended _ => exact .refl s

/-- Where the handler goes is of no matter. -/
theorem Onward.goto {a : Admin} (h : Onward s s') : Onward s (s'.goto a) := ⟨h.gone, h.done⟩

theorem Onward.trans {s'' : Source} (h : Onward s s') (h' : Onward s' s'') : Onward s s'' :=
  ⟨fun n hn => h'.gone n (h.gone n hn), fun n hn => h'.done n (h.done n hn)⟩

theorem Onward.endBatchIfIdle : Onward s s.endBatchIfIdle := by
  obtain ⟨h1, h2, -, -⟩ := endBatchIfIdle_same (s := s)
  exact .of (fun n h => h2 ▸ h) (fun n h => by rw [h1]; exact h) fun n h => by rw [h1]; exact h

theorem Onward.act (hi : Orderly s) (h : Act s e s') : Onward s s' := by
  cases h with
  | listed _ | unlisted _ | described _ _ | undo _ _ | preflight _ _ | unsettled _ | settled _ | resolved _ _
  | resolvedAll _ | forgotten _ | pick _ _ | done _ _ => exact ⟨fun _ h => h, fun _ h => h⟩
  | signal _ _ | stable _ _ _ _ => exact .set id id
  | resolve _ hr => exact .resolve hr
  | undone _ _ | stale _ _ | rolled _ _ | left _ _ => exact Onward.forget.goto
  | rolledBack _ => exact Onward.endBatchIfIdle.goto
  | recover ha => have := hi.plan; rw [ha] at this; cases this
  | @forget _ n _ _ commit _ =>
    cases commit with
    | false => exact Onward.forget.goto
    | true =>
      refine Onward.goto (Onward.forget.trans (.of (fun m hm => ?_) (fun _ => id) fun _ => id))
      exact (List.mem_filter.mp hm).1

theorem Source.Answers.mono {r : Reply} (h : s.Answers req r) (ho : Onward s s') (hh : ∀ n, s.Holds n → s'.Holds n) :
    s'.Answers req r := by
  unfold Source.Answers at h ⊢
  split
  · obtain ⟨h1, h2, h3⟩ := h
    exact ⟨h1, hh _ h2, h3.imp_right fun h => ⟨h.1, h.2.1, ho.done _ h.2.2⟩⟩
  · exact fun n hn => ho.gone n (h n hn)
  · trivial

/-! ## From the request to the reply -/

theorem Source.Serves.handle (s : Source) (id : Nat) (req : Request) : (s.handle id req).Serves id req := by
  have refuse : ∀ e, (s.refuse id e).Serves id req := fun e => ⟨rfl, by unfold Source.Answers; split <;> simp_all⟩
  cases req with
  | list =>
    simp only [Source.handle]
    split
    · exact refuse _
    · exact ⟨rfl, rfl⟩
  | adopt n =>
    simp only [Source.handle, Source.adopt]
    repeat' split
    all_goals first | exact refuse _ | exact ⟨rfl, rfl⟩
  | snapshot n =>
    simp only [Source.handle]
    split
    · exact ⟨rfl, trivial⟩
    · exact refuse _
  | commit names | abort names =>
    simp only [Source.handle]
    split
    · exact ⟨rfl, rfl⟩
    · exact refuse _
  | exit =>
    simp only [Source.handle]
    split
    · exact ⟨rfl, trivial⟩
    · exact refuse _

theorem Resolve.admin_eq {commit : Bool} {b : Option Bool} (h : Resolve s n commit s' b) : s'.admin = s.admin := by
  cases h <;> rfl

/-- A prepared ticket is of a live session exactly when the session has not ended. -/
theorem prepared_alive {x : Release.Sys} {t : Nat} (hk : Release.Kept x) (hh : x.handler = .prepared t) :
    (x.core.tickets t).alive = !x.core.done := by
  have hp := hk.prepared t (by rw [hh]; rfl)
  cases ha : (x.core.tickets t).alive with
  | false =>
    have := hp.running.resolve_left (by simp [ha])
    simp [this]
  | true =>
    cases hd : x.core.done with
    | false => rfl
    | true =>
      have hl := hk.tidy.parked t hp.issued ha hp.stable hp.clean hp.undecided
      rw [hk.tidy.gone.mpr hd] at hl
      cases hl

/-- Before the reply, only where the handler stands counts. -/
theorem Source.Serves.keep (hs : s.Serves id req) (ha : s'.admin = s.admin) (hr : ∀ i r a, s.admin ≠ .reply i r a) :
    s'.Serves id req := by
  unfold Source.Serves at hs ⊢
  rw [ha]
  cases h : s.admin <;> simp_all

theorem Source.Serves.act (hs : s.Serves id req) (hi : Orderly s) (h : Act s e s') : s'.Serves id req := by
  have hp := hi.plan
  cases h with
  | listed ha | unlisted ha =>
    simp only [Source.Serves, ha] at hs
    obtain ⟨rfl, rfl⟩ := hs
    exact ⟨rfl, trivial⟩
  | signal ha _ | stable ha _ _ _ => exact hs.keep rfl (by simp [ha])
  | @described _ n t ha hh =>
    simp only [Source.Serves, ha] at hs
    obtain ⟨rfl, rfl⟩ := hs
    rw [ha] at hp
    refine ⟨rfl, rfl, .inl hp, ?_⟩
    rw [prepared_alive (hi.kept n) hh]
    cases hd : (s.sessions n).core.done
    · exact .inl ⟨rfl, rfl⟩
    · exact .inr ⟨rfl, rfl, hd⟩
  | undo ha _ =>
    simp only [Source.Serves, ha] at hs
    exact hs
  | resolve ha hr => exact hs.keep hr.admin_eq fun i r a h => by rw [h] at ha; cases ha
  | undone ha _ =>
    simp only [Source.Serves, ha] at hs
    obtain ⟨rfl, rfl⟩ := hs
    exact ⟨rfl, trivial⟩
  | preflight ha _ | settled ha => simp only [Source.Serves, ha] at hs; exact hs
  | unsettled ha => simp only [Source.Serves, ha] at hs; exact ⟨hs.1, _, hs.2⟩
  | rolledBack ha =>
    simp only [Source.Serves, ha] at hs
    obtain ⟨rfl, names, rfl⟩ := hs
    exact ⟨rfl, trivial⟩
  | stale ha _ | rolled ha _ => simp only [Source.Serves, ha] at hs; exact hs
  | resolved ha _ | forget ha => simp only [Source.Serves, ha] at hs; exact hs
  | @resolvedAll _ names commit failed ha =>
    simp only [Source.Serves, ha] at hs
    rw [ha] at hp
    obtain ⟨-, -, rfl⟩ := hp
    exact hs
  | recover ha => rw [ha] at hp; cases hp
  | @forgotten _ names commit ha =>
    simp only [Source.Serves, ha] at hs
    rw [ha] at hp
    obtain ⟨rfl, rfl⟩ := hs
    refine ⟨rfl, ?_⟩
    cases commit with
    | false => trivial
    | true => exact fun n hn => hp.2.2 rfl n hn (by simp)
  | pick ha _ | left ha _ | done ha _ => simp [Source.Serves, ha] at hs

/-! ## Steps that touch no message -/

/-- On its way out the handler serves nobody. -/
theorem Act.gone (h : Act s e s') (hf : s.admin.free = true) : s'.admin.gone = true := by
  cases h with
  | resolve ha hr =>
    rw [hr.admin_eq]
    cases hs : s.admin <;> simp_all [Admin.free, Admin.gone, Admin.resolves]
  | pick ha _ | left ha _ | done ha _ => rfl
  | _ => simp_all [Admin.free]

/-- A step of the source that neither reads a request nor writes a reply. -/
structure Works (s s' : Source) : Prop where
  onward : Onward s s'
  free : s.admin.free = true → s'.admin.free = true ∧ ∀ n, s.Holds n → s'.Holds n
  reply : ∀ i r a, s.admin = .reply i r a → s'.admin = .reply i r a ∧ s'.pending = s.pending
  serves : ∀ id req, s.Serves id req → s'.Serves id req

theorem gone_free {a : Admin} (h : a.gone = true) : a.free = true := by
  cases a <;> simp_all [Admin.gone, Admin.free]

theorem Works.set {x : Release.Sys} (ho : Onward s (s.set n x)) : Works s (s.set n x) where
  onward := ho
  free h := ⟨h, fun _ => id⟩
  reply _ _ _ h := ⟨h, rfl⟩
  serves id req h := by
    by_cases hr : ∃ i r a, s.admin = .reply i r a
    · obtain ⟨i, r, a, ha⟩ := hr
      simp only [Source.Serves, ha] at h
      have ha' : (s.set n x).admin = .reply i r a := ha
      simp only [Source.Serves, ha']
      exact ⟨h.1, h.2.mono ho fun _ hn => hn⟩
    · exact h.keep rfl fun i r a ha => hr ⟨i, r, a, ha⟩

theorem Works.act (hi : Orderly s) (h : Act s e s') : Works s s' where
  onward := .act hi h
  free hf := ⟨gone_free (h.gone hf), fun _ _ => .inr (h.gone hf)⟩
  reply _ _ _ ha := absurd ha h.no_reply
  serves _ _ hs := hs.act hi h

theorem Works.readFailed (ha : s.admin = .idle) : Works s (s.goto (.leaving none)) where
  onward := (Onward.refl s).goto
  free _ := ⟨rfl, fun _ _ => .inr rfl⟩
  reply i r a h := by cases ha.symm.trans h
  serves id req h := by simp [Source.Serves, ha] at h

/-- Writing the reply leaves what it says. -/
theorem Source.Answers.wrote {ok : Bool} {r : Reply} (h : s.Answers req r) (hw : s.wrote ok = some s') :
    s'.Answers req r := by
  obtain ⟨⟨i, r', a, ha⟩, h1, h2, h3, -⟩ := wrote_some hw
  refine h.mono (.of (fun n hn => h2 ▸ hn) (fun n hn => by rw [h1]; exact hn) fun n hn => by rw [h1]; exact hn) fun n hn => ?_
  left
  rw [h3]
  exact hn.resolve_right (by simp [ha, Admin.gone])

end Ghostline.Handoff
