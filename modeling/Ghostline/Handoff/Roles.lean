/-
  Ghostline.Handoff.Roles — what the source's sessions are to its handler.

  Where the handler stands gives every session a `Role`: at rest, worked on by a handler
  that may only abort it, being committed, or committed. `Orderly` is kept by every step
  of the source: each session fits its role, a session marked migrated is being committed
  or was, and those a commit has taken from the hub have a loop that has returned. The
  preflight leaves nothing that could fail half-way: a commit has no error to recover from.
-/

import Mathlib.Data.List.Infix
import Ghostline.Handoff.Source

namespace Ghostline.Handoff

open Lib Session

/-! ## Roles -/

inductive Role where
  | rest
  | busy
  | commits
  | committed
  deriving DecidableEq, Repr

/-- The session is the target's, or about to be. -/
def Role.gives : Role → Bool
  | .commits | .committed => true
  | _ => false

/-- The session's handler is where its role says. -/
def Role.Fits (x : Release.Sys) : Role → Prop
  | .rest => x.handler = .idle ∨ ∃ t, x.handler = .prepared t
  | .busy => ∀ t f, x.handler = .finish t f → f.aborts = true
  | .commits =>
    (∀ t, x.handler ≠ .wake t ∧ x.handler ≠ .awaiting t) ∧ ∀ t f, x.handler = .finish t f →
      f.commits = true ∨ f = .finished false ∧ x.core.loop.past = true
  | .committed => x.core.loop.past = true ∧ ∃ t err, x.handler = .finish t (.finished err)

def Admin.role : Admin → Nat → Role
  | .adopting _ m, n | .undoing _ m _, n | .rollback _ (m :: _) _, n | .leaving (some m), n =>
    if n = m then .busy else .rest
  | .resolving _ commit names rest _, n =>
    if rest.head? = some n then if commit then .commits else .busy
    else if n ∈ rest ∨ n ∉ names then .rest
    else if commit then .committed else .busy
  | .forgetting _ commit _ rest, n =>
    if n ∈ rest then if commit then .committed else .busy else .rest
  | _, _ => .rest

variable {s s' : Source} {e : AdminEv} {x x' : Release.Sys} {n : Nat}

/-- Only a commit gives sessions away. -/
theorem Admin.role_gives {a : Admin} (h : (a.role n).gives = true) :
    (∃ id names rest failed, a = .resolving id true names rest failed) ∨ ∃ id names rest, a = .forgetting id true names rest := by
  cases a with
  | resolving id commit names rest failed =>
    cases commit with
    | true => exact .inl ⟨id, names, rest, failed, rfl⟩
    | false => simp only [Admin.role] at h; grind [Role.gives]
  | forgetting id commit names rest =>
    cases commit with
    | true => exact .inr ⟨id, names, rest, rfl⟩
    | false => simp only [Admin.role] at h; grind [Role.gives]
  | _ => simp only [Admin.role] at h; grind [Role.gives]

theorem role_rollback (id : Nat) (rest : List Nat) (err : Option Err) (m : Nat) :
    ((Admin.rollback id rest err).role m).gives = false := by
  rw [Bool.eq_false_iff]
  intro h
  rcases Admin.role_gives h with ⟨_, _, _, _, h⟩ | ⟨_, _, _, h⟩ <;> cases h

theorem Role.Fits.busy (h : Role.Fits x .rest) : Role.Fits x .busy := by
  rintro t f hf
  rcases h with h | ⟨u, h⟩ <;> cases h.symm.trans hf

theorem Role.Fits.commits (h : Role.Fits x .rest) : Role.Fits x .commits := by
  refine ⟨fun t => ?_, fun t f hf => ?_⟩
  · rcases h with h | ⟨u, h⟩ <;> simp [h]
  · rcases h with h | ⟨u, h⟩ <;> cases h.symm.trans hf

/-- Steps of the session itself change no role: its handler stays, and a loop that has
    returned stays so. -/
theorem Role.Fits.core {r : Role} (h : r.Fits x) (hh : x'.handler = x.handler)
    (hp : x.core.loop.past = true → x'.core.loop.past = true) : r.Fits x' := by
  cases r with
  | rest | busy => simpa only [Role.Fits, hh] using h
  | commits =>
    simp only [Role.Fits, hh] at h ⊢
    exact ⟨h.1, fun t f hf => (h.2 t f hf).imp_right fun h => ⟨h.1, hp h.2⟩⟩
  | committed =>
    simp only [Role.Fits, hh] at h ⊢
    exact ⟨hp h.1, h.2⟩

/-- Only in a commit the handler is about to decide on one. -/
theorem Role.Fits.noChoice {r : Role} (h : r.Fits x) (hr : r ≠ .commits) (t : Nat) : x.handler ≠ .finish t (.choose true) := by
  intro hh
  cases r with
  | rest => rcases h with h | ⟨u, h⟩ <;> cases h.symm.trans hh
  | busy => exact absurd (h t _ hh) (by decide)
  | commits => exact hr rfl
  | committed => obtain ⟨-, u, err, h⟩ := h; cases h.symm.trans hh

/-! ## The invariant -/

/-- The session has left the hub, and its loop has returned. -/
def Source.Gone (s : Source) (n : Nat) : Prop := n ∉ s.hub ∧ (s.sessions n).core.loop.past = true

/-- What the handler has established where it stands. -/
def Admin.Plan (pending : List Nat) (gone : Nat → Prop) : Admin → Prop
  | .adopting _ n => n ∈ pending
  | .preflight _ names _ => names.Nodup
  | .resolving _ _ names rest failed => names.Nodup ∧ rest <:+ names ∧ failed = false
  | .recovering _ _ => False
  | .forgetting _ commit names rest => names.Nodup ∧ rest <:+ names ∧
      (commit = true → ∀ n ∈ names, n ∉ rest → gone n)
  | _ => True

theorem Admin.Plan.mono {a : Admin} {pending : List Nat} {g g' : Nat → Prop} (h : a.Plan pending g)
    (hg : ∀ n, g n → g' n) : a.Plan pending g' := by
  cases a with
  | forgetting id commit names rest => exact ⟨h.1, h.2.1, fun hc n hn hr => hg n (h.2.2 hc n hn hr)⟩
  | _ => exact h

structure Orderly (s : Source) : Prop where
  kept : ∀ n, Release.Kept (s.sessions n)
  plan : s.admin.Plan s.pending s.Gone
  role : ∀ n, (s.admin.role n).Fits (s.sessions n)
  owner : ∀ n ∈ s.hub, (s.sessions n).core.migrated = true → (s.admin.role n).gives = true

@[simp] theorem set_self : (s.set n x).sessions n = x := by simp [Source.set]

theorem set_ne {m : Nat} (h : m ≠ n) : (s.set n x).sessions m = s.sessions m := by simp [Source.set, h]

/-- What holds of the new value and of the other sessions holds of all. -/
theorem forall_set {P : Nat → Release.Sys → Prop} (hn : P n x) (hm : ∀ m, m ≠ n → P m (s.sessions m)) (m : Nat) :
    P m ((s.set n x).sessions m) := by
  rcases eq_or_ne m n with rfl | h
  · rwa [set_self]
  · rw [set_ne h]; exact hm m h

/-- Forgetting a session leaves its loop and its tickets. -/
theorem forget_core (m : Nat) : ((s.forget n).sessions m).core = (s.sessions m).core := by
  exact forall_set (x := { s.sessions n with handler := .idle }) (P := fun m y => y.core = (s.sessions m).core) rfl
    (fun _ _ => rfl) m

/-- The handler goes on, with the sessions and the hub as they are. -/
theorem Orderly.moves (hi : Orderly s) (hs : s'.sessions = s.sessions) (hh : s'.hub = s.hub)
    (hp : s'.admin.Plan s'.pending s.Gone) (hr : ∀ n, (s'.admin.role n).Fits (s.sessions n))
    (ho : ∀ n, (s.admin.role n).gives = true → (s'.admin.role n).gives = true) : Orderly s' := by
  have hg : s'.Gone = s.Gone := by funext n; simp only [Source.Gone, hs, hh]
  refine ⟨?_, hg ▸ hp, ?_, ?_⟩
  · rw [hs]; exact hi.kept
  · rw [hs]; exact hr
  · rw [hs, hh]; exact fun n hn hm => ho n (hi.owner n hn hm)

/-- A session changes, with the handler where it is. -/
theorem Orderly.sets (hi : Orderly s) (hk : Release.Kept x) (hr : (s.admin.role n).Fits x)
    (hp : (s.sessions n).core.loop.past = true → x.core.loop.past = true)
    (hg : x.core.migrated = true → (s.sessions n).core.migrated = true ∨ (s.admin.role n).gives = true) :
    Orderly (s.set n x) := by
  refine ⟨forall_set (P := fun _ => Release.Kept) hk fun m _ => hi.kept m, hi.plan.mono fun m hm => ⟨hm.1, ?_⟩,
    forall_set (P := fun m y => (s.admin.role m).Fits y) hr fun m _ => hi.role m, fun m hm => ?_⟩
  · have := hm.2
    revert this
    exact forall_set (P := fun m y => (s.sessions m).core.loop.past = true → y.core.loop.past = true) hp (fun _ _ => id) m
  · revert hm
    refine forall_set (P := fun m y => m ∈ s.hub → y.core.migrated = true → (s.admin.role m).gives = true)
      (fun hm hx => ?_) (fun k _ => hi.owner k) m
    exact (hg hx).elim (hi.owner n hm) id

/-- The handler is through with session `n` and goes on; the session may leave the hub. -/
theorem Orderly.forgets (hi : Orderly s) (hub : List Nat) (a : Admin) (hh : ∀ m ∈ hub, m ∈ s.hub)
    (hq : s.admin.role n ≠ .commits) (hn : (a.role n).Fits { s.sessions n with handler := .idle })
    (hp : a.Plan (s.forget n).pending fun m => m ∉ hub ∧ (s.sessions m).core.loop.past = true)
    (hr : ∀ m, m ≠ n → (a.role m).Fits (s.sessions m))
    (ho : ∀ m ∈ hub, (s.admin.role m).gives = true → (a.role m).gives = true) :
    Orderly ({ s.forget n with hub := hub }.goto a) := by
  have hk : Release.Kept { s.sessions n with handler := .idle } :=
    (hi.kept n).drop ((hi.role n).noChoice hq) (.inl rfl)
  refine ⟨forall_set (P := fun _ => Release.Kept) hk fun m _ => hi.kept m, hp.mono fun m hm => ⟨hm.1, ?_⟩,
    forall_set (P := fun m y => (a.role m).Fits y) hn hr, fun m hm => ?_⟩
  · show ((s.forget n).sessions m).core.loop.past = true
    rw [forget_core]
    exact hm.2
  · show ((s.forget n).sessions m).core.migrated = true → _
    rw [forget_core]
    exact fun hg => ho m hm (hi.owner m (hh m hm) hg)

/-! ## The steps -/

theorem Orderly.loop {c : Core} {x : LoopEv} (hi : Orderly s) (hm : LoopMove (s.sessions n).core x c) :
    Orderly (s.set n { s.sessions n with core := c }) :=
  hi.sets ((hi.kept n).loop hm) ((hi.role n).core rfl hm.past) hm.past fun hg => .inl (hm.migrated ▸ hg)

theorem Orderly.child {c : Core} {x : Core.ChildEv} (hi : Orderly s) (hc : (s.sessions n).core.childStep x = some c) :
    Orderly (s.set n { s.sessions n with core := c }) := by
  have hs := SameTickets.child hc
  have hp : (s.sessions n).core.loop.past = true → c.loop.past = true := fun h => hs.loop ▸ h
  exact hi.sets ((hi.kept n).child hc) ((hi.role n).core rfl hp) hp fun hg => .inl (hs.migrated ▸ hg)

/-- The session being resolved is busy, or in a commit. -/
theorem Admin.resolves_role {a : Admin} {commit : Bool} {pending : List Nat} {gone : Nat → Prop}
    (h : a.resolves = some (n, commit)) (hp : a.Plan pending gone) : a.role n = if commit then .commits else .busy := by
  cases a with
  | undoing id m e => cases h; simp [Admin.role]
  | rollback id rest e | resolving id c names rest failed =>
    cases rest with
    | nil => cases h
    | cons m rest => cases h; simp [Admin.role]
  | leaving m =>
    cases m with
    | none => cases h
    | some m => cases h; simp [Admin.role]
  | recovering id rest => cases hp
  | _ => cases h

theorem Orderly.resolve {commit : Bool} (hi : Orderly s) (ha : s.admin.resolves = some (n, commit))
    (h : Resolve s n commit s' none) : Orderly s' := by
  have hrole := Admin.resolves_role ha hi.plan
  have hfit := hi.role n
  rw [hrole] at hfit
  generalize hr : none = r at h
  cases h with
  | ended _ => cases hr
  | @start t hh =>
    have hk : Release.Kept { s.sessions n with handler := .finish t (.start commit) } := by
      cases commit with
      | false => exact (hi.kept n).turn (e := .abort) (.giveUp hh)
      | true =>
        have hp := hh.resolve_left (hfit.1 t).2
        exact (hi.kept n).turn (.commit hp)
    refine hi.sets hk ?_ id .inl
    rw [hrole]
    cases commit with
    | false => rintro u f hf; cases hf; rfl
    | true => exact ⟨by simp, by rintro u f hf; cases hf; exact .inl rfl⟩
  | @act t f f' c hh hm =>
    refine hi.sets ((hi.kept n).finish hh hm) ?_ (fun hp => hm.loop_eq ▸ hp) ?_
    · rw [hrole]
      cases commit with
      | false => rintro u g hg; cases hg; exact (hm.aborts (hfit t f hh)).1
      | true =>
        refine ⟨by simp, ?_⟩
        rintro u g hg
        cases hg
        rcases hfit.2 t f hh with hf | ⟨rfl, -⟩
        · exact (hi.kept n).commits hh hf hm
        · cases hm
    · intro hg
      rw [hrole]
      cases commit with
      | false => exact .inl ((hm.aborts (hfit t f hh)).2 ▸ hg)
      | true => exact .inr rfl

/-- A handler without a session in work takes some up. -/
theorem Orderly.takes (hi : Orderly s) (hs : s'.sessions = s.sessions) (hh : s'.hub = s.hub)
    (hp : s'.admin.Plan s'.pending s.Gone) (ha : ∀ n, s.admin.role n = .rest)
    (hr : ∀ n, s'.admin.role n ≠ .committed) : Orderly s' := by
  refine hi.moves hs hh hp (fun n => ?_) fun n h => by rw [ha] at h; cases h
  have hrest : Role.Fits (s.sessions n) .rest := ha n ▸ hi.role n
  have hne := hr n
  cases hr' : s'.admin.role n with
  | rest => exact hrest
  | busy => exact hrest.busy
  | commits => exact hrest.commits
  | committed => exact absurd hr' hne

/-- A handler with one session in work is through with it. -/
theorem Orderly.drops {a : Admin} (hi : Orderly s) (ha : ∀ m, s.admin.role m = if m = n then .busy else .rest)
    (hp : a.Plan (s.forget n).pending s.Gone) (hr : ∀ m, (a.role m).gives = false) :
    Orderly ((s.forget n).goto a) := by
  refine hi.forgets s.hub a (fun _ h => h) (by simp [ha]) ?_ hp (fun m hm => ?_) fun m _ h => ?_
  · have hn := hr n
    cases hr' : a.role n with
    | rest => exact .inl rfl
    | busy => intro t f h; cases h
    | commits | committed => rw [hr'] at hn; cases hn
  · have hrest : Role.Fits (s.sessions m) .rest := by simpa [ha, hm] using hi.role m
    have hn := hr m
    cases hr' : a.role m with
    | rest => exact hrest
    | busy => exact hrest.busy
    | commits | committed => rw [hr'] at hn; cases hn
  · rw [ha] at h; split at h <;> cases h

theorem endBatchIfIdle_same : s.endBatchIfIdle.sessions = s.sessions ∧ s.endBatchIfIdle.hub = s.hub ∧
    s.endBatchIfIdle.admin = s.admin ∧ s.endBatchIfIdle.pending = s.pending := by
  unfold Source.endBatchIfIdle
  split <;> exact ⟨rfl, rfl, rfl, rfl⟩

/-- The roles when the loop over the names goes on to the next: that of the session it is
    through with, and those of the others. -/
theorem role_resolved (id : Nat) {names rest : List Nat} (commit f f' : Bool) (hnd : names.Nodup)
    (hsuf : n :: rest <:+ names) :
    (Admin.resolving id commit names rest f').role n = (if commit then .committed else .busy) ∧
      ∀ m, m ≠ n → (Admin.resolving id commit names rest f').role m = (Admin.resolving id commit names (n :: rest) f).role m ∨
        (Admin.resolving id commit names (n :: rest) f).role m = .rest ∧
          (Admin.resolving id commit names rest f').role m = if commit then .commits else .busy := by
  have hmem : n ∈ names := hsuf.mem (.head _)
  have hout : n ∉ rest := (List.nodup_cons.mp (hnd.sublist hsuf.sublist)).1
  refine ⟨?_, fun m hm => ?_⟩
  · have hhead : rest.head? ≠ some n := fun h => hout (List.mem_of_mem_head? h)
    simp [Admin.role, hhead, hout, hmem]
  · have hne : ¬ (n = m) := fun h => hm h.symm
    by_cases hhead : rest.head? = some m
    · have hin : m ∈ rest := List.mem_of_mem_head? hhead
      exact .inr (by simp [Admin.role, hhead, hne, hm, hin])
    · exact .inl (by simp [Admin.role, hhead, hne, hm])

/-- The loop over the names of a commit or an abort goes on to the next. -/
theorem Orderly.resolved {id : Nat} {names rest : List Nat} {commit failed err : Bool} (hi : Orderly s)
    (ha : s.admin = .resolving id commit names (n :: rest) failed) (h : Resolve s n commit s (some err)) :
    Orderly (s.goto (.resolving id commit names rest (failed || err))) := by
  obtain ⟨hnd, hsuf, rfl⟩ : names.Nodup ∧ n :: rest <:+ names ∧ failed = false := by simpa [ha, Admin.Plan] using hi.plan
  obtain ⟨t, e, hh, rfl, -⟩ := h.finished
  obtain ⟨hself, hother⟩ := role_resolved id commit false (false || (e && commit)) hnd hsuf
  rw [← ha] at hother
  -- a commit that is over has no error, and its loop has returned
  have hover : commit = true → e = false ∧ (s.sessions n).core.loop.past = true := by
    rintro rfl
    have hn := hi.role n
    simp only [ha, Admin.role, List.head?_cons, if_true] at hn
    rcases hn.2 t _ hh with hc | ⟨hc, hp⟩
    · cases hc
    · exact ⟨by simpa using hc, hp⟩
  refine hi.moves rfl rfl ⟨hnd, (List.suffix_cons n rest).trans hsuf, ?_⟩ (fun m => ?_) fun m hm => ?_
  · cases commit with
    | false => simp
    | true => simp [(hover rfl).1]
  · show Role.Fits _ ((Admin.resolving id commit names rest _).role m)
    by_cases hmn : m = n
    · subst hmn
      rw [hself]
      cases commit with
      | false => rintro u f hf; cases hh.symm.trans hf; rfl
      | true => exact ⟨(hover rfl).2, t, e, hh⟩
    · rcases hother m hmn with hr | ⟨hr, hr'⟩
      · rw [hr]; exact hi.role m
      · have hrest : Role.Fits (s.sessions m) .rest := hr ▸ hi.role m
        rw [hr']
        cases commit with
        | false => exact hrest.busy
        | true => exact hrest.commits
  · show ((Admin.resolving id commit names rest _).role m).gives = true
    by_cases hmn : m = n
    · subst hmn
      rw [hself]
      cases commit with
      | false => simp [ha, Admin.role, Role.gives] at hm
      | true => rfl
    · rcases hother m hmn with hr | ⟨hr, -⟩
      · rw [hr]; exact hm
      · rw [hr] at hm; cases hm

/-- The last loop takes the sessions out of the map `pending`, and after a commit out of the hub. -/
theorem Orderly.forget {id : Nat} {names rest : List Nat} {commit : Bool} (hi : Orderly s)
    (ha : s.admin = .forgetting id commit names (n :: rest)) :
    Orderly ((if commit then (s.forget n).remove n else s.forget n).goto (.forgetting id commit names rest)) := by
  obtain ⟨hnd, hsuf, hgone⟩ : names.Nodup ∧ n :: rest <:+ names ∧
      (commit = true → ∀ m ∈ names, m ∉ n :: rest → s.Gone m) := by
    have := hi.plan
    rwa [ha] at this
  have hout : n ∉ rest := (List.nodup_cons.mp (hnd.sublist hsuf.sublist)).1
  have hsuf' : rest <:+ names := (List.suffix_cons n rest).trans hsuf
  have hother : ∀ m, m ≠ n → (Admin.forgetting id commit names rest).role m = s.admin.role m := by
    intro m hm; simp [ha, Admin.role, hm]
  have hn := hi.role n
  have hidle : Role.Fits { s.sessions n with handler := .idle } ((Admin.forgetting id commit names rest).role n) := by
    simp [Admin.role, hout, Role.Fits]
  have hrest : ∀ m, m ≠ n → Role.Fits (s.sessions m) ((Admin.forgetting id commit names rest).role m) := fun m hm =>
    hother m hm ▸ hi.role m
  cases commit with
  | false =>
    refine hi.forgets s.hub _ (fun _ h => h) (by simp [ha, Admin.role]) hidle ⟨hnd, hsuf', by simp⟩ hrest
      fun m _ hm => ?_
    rw [ha] at hm
    simp only [Admin.role] at hm
    split at hm <;> cases hm
  | true =>
    have hpast : (s.sessions n).core.loop.past = true := by
      simp only [ha, Admin.role, List.mem_cons, true_or, if_true] at hn
      exact hn.1
    refine hi.forgets (s.hub.filter (· ≠ n)) _ (fun m hm => (List.mem_filter.mp hm).1) (by simp [ha, Admin.role]) hidle
      ⟨hnd, hsuf', fun _ m hm hr => ?_⟩ hrest fun m hm hg => ?_
    · by_cases hmn : m = n
      · subst hmn; exact ⟨by simp, hpast⟩
      · obtain ⟨h1, h2⟩ := hgone rfl m hm (by simp [hmn, hr])
        exact ⟨fun h => h1 (List.mem_filter.mp h).1, h2⟩
    · have hmn : m ≠ n := by simpa using (List.mem_filter.mp hm).2
      rw [hother m hmn]
      exact hg

theorem Orderly.act (hi : Orderly s) (h : Act s e s') : Orderly s' := by
  have hp := hi.plan
  cases h with
  | listed ha | unlisted ha =>
    exact hi.takes rfl rfl trivial (by simp [ha, Admin.role]) (by simp [Source.goto, Source.refuse, Admin.role])
  | @signal _ n t ha hh =>
    have hk := ((hi.kept n).turn (.signal hh)).wake ((s.sessions n).core.wake + 1)
    refine hi.sets hk ?_ id .inl
    rw [ha]
    simp [Admin.role, Role.Fits]
  | @stable _ n t ha hh hst hf =>
    refine hi.sets ((hi.kept n).turn (.stable hh hst hf)) ?_ id .inl
    rw [ha]
    simp [Admin.role, Role.Fits]
  | @described _ n t ha hh =>
    refine hi.moves rfl rfl trivial (fun m => ?_) fun m hm => ?_
    · by_cases hmn : m = n
      · subst hmn; exact .inr ⟨t, hh⟩
      · have hr := hi.role m
        rw [ha] at hr
        simp only [Admin.role, hmn, if_false] at hr
        exact hr
    · rw [ha] at hm; simp only [Admin.role] at hm; split at hm <;> cases hm
  | @undo id n t e err ha hh =>
    have hr : ∀ m, (Admin.undoing id n err).role m = s.admin.role m := by simp [ha, Admin.role]
    exact hi.moves rfl rfl trivial (fun m => (hr m).symm ▸ hi.role m) fun m hm => (hr m).symm ▸ hm
  | resolve ha hr => exact hi.resolve ha hr
  | undone ha _ => exact hi.drops (by simp [ha, Admin.role]) trivial fun _ => rfl
  | preflight ha _ =>
    rw [ha] at hp
    exact hi.takes rfl rfl hp (by simp [ha, Admin.role]) (by simp [Source.goto, Admin.role])
  | @unsettled id n names rest err ha =>
    refine hi.takes rfl rfl trivial (by simp [ha, Admin.role]) fun m hm => ?_
    have := role_rollback id names err m
    rw [show (Admin.rollback id names err).role m = _ from hm] at this
    cases this
  | settled ha =>
    rw [ha] at hp
    refine hi.takes rfl rfl ⟨hp, List.suffix_rfl, rfl⟩ (by simp [ha, Admin.role]) fun m => ?_
    simp only [Source.goto, Admin.role]
    split
    · simp
    · split <;> simp_all
  | rolledBack ha =>
    obtain ⟨h1, h2, -, -⟩ := endBatchIfIdle_same (s := s)
    exact hi.takes h1 h2 trivial (by simp [ha, Admin.role]) (by simp [Source.goto, Source.refuse, Admin.role])
  | stale ha _ | rolled ha _ => exact hi.drops (by simp [ha, Admin.role]) trivial (role_rollback _ _ _)
  | resolved ha hr => exact hi.resolved ha hr
  | @resolvedAll id names commit failed ha =>
    rw [ha] at hp
    obtain ⟨hnd, -, rfl⟩ := hp
    have hr : ∀ m, (Admin.forgetting id commit names names).role m = s.admin.role m := by
      intro m
      by_cases hm : m ∈ names <;> simp [ha, Admin.role, hm]
    exact hi.moves rfl rfl ⟨hnd, List.suffix_rfl, fun _ m hm hn => absurd hm hn⟩ (fun m => (hr m).symm ▸ hi.role m)
      fun m hm => (hr m).symm ▸ hm
  | recover ha => rw [ha] at hp; cases hp
  | forget ha => exact hi.forget ha
  | @forgotten id names commit ha =>
    exact hi.takes rfl rfl trivial (by simp [ha, Admin.role]) (by simp [Source.goto, Admin.role])
  | pick ha hn =>
    refine hi.takes rfl rfl trivial (by simp [ha, Admin.role]) fun m => ?_
    simp only [Source.goto, Admin.role]
    split <;> simp
  | left ha hr => exact hi.drops (by simp [ha, Admin.role]) trivial fun _ => rfl
  | done ha hp => exact hi.takes rfl rfl trivial (by simp [ha, Admin.role]) (by simp [Source.goto, Admin.role])

/-! ## Requests and replies -/

theorem begin_some (h : Release.step x .begin = some x') :
    x.handler = .idle ∧ ∃ c, x.core.beginMigration = some c ∧
      x' = ⟨c, if x.core.done then .awaiting x.core.issued else .wake x.core.issued⟩ := by
  cases hh : x.handler <;> simp only [Release.step, hh, reduceCtorEq, Option.map_eq_some_iff] at h
  obtain ⟨c, hc, rfl⟩ := h
  exact ⟨rfl, c, hc, rfl⟩

theorem beginMigration_same {c c' : Core} (h : c.beginMigration = some c') :
    c'.loop = c.loop ∧ c'.done = c.done ∧ c'.migrated = c.migrated := by
  obtain rfl := beginMigration_eq h
  exact ⟨rfl, rfl, rfl⟩

theorem Orderly.begin {id : Nat} (hi : Orderly s) (ha : s.admin = .idle)
    (h : Release.step (s.sessions n) .begin = some x) :
    Orderly ({ s.set n x with pending := s.pending ++ [n] }.goto (.adopting id n)) := by
  obtain ⟨hh, c, hc, rfl⟩ := begin_some h
  obtain ⟨hl, -, hg⟩ := beginMigration_same hc
  have hadopt : Orderly ({ s with pending := s.pending ++ [n] }.goto (.adopting id n)) := by
    refine hi.takes rfl rfl (by simp [Source.goto, Admin.Plan]) (by simp [ha, Admin.role]) fun m => ?_
    simp only [Source.goto, Admin.role]
    split <;> simp
  refine hadopt.sets ((hi.kept n).begin hh hc ?_) ?_ (fun hp => hl ▸ hp) fun hm => .inl (hg ▸ hm)
  · split <;> simp
  · simp only [Source.goto, Admin.role, if_true, Role.Fits]
    intro t f hf
    split at hf <;> cases hf

theorem Orderly.handle (hi : Orderly s) (ha : s.admin = .idle) (id : Nat) (r : Request) : Orderly (s.handle id r) := by
  -- a request that takes no session up
  have free : ∀ a : Admin, a.Plan s.pending s.Gone → (∀ n, a.role n ≠ .committed) → Orderly (s.goto a) := fun a hp hr =>
    hi.takes rfl rfl hp (by simp [ha, Admin.role]) hr
  have refuse : ∀ e, Orderly (s.refuse id e) := fun e => free _ trivial (by simp [Admin.role])
  have nodup : ∀ {names}, s.prepared names = true → names.Nodup := fun h => by
    simp only [Source.prepared, Bool.and_eq_true, decide_eq_true_eq] at h
    exact h.1
  cases r with
  | list =>
    simp only [Source.handle]
    split
    · exact refuse _
    · exact free _ trivial (by simp [Admin.role])
  | adopt n =>
    simp only [Source.handle, Source.adopt]
    repeat' split
    all_goals first | exact refuse _ | exact hi.begin ha ‹_›
  | snapshot n | exit =>
    simp only [Source.handle]
    split
    · exact free _ trivial (by simp [Admin.role])
    · exact refuse _
  | commit names =>
    simp only [Source.handle]
    split
    · exact free _ (nodup ‹_›) (by simp [Admin.role])
    · exact refuse _
  | abort names =>
    simp only [Source.handle]
    split
    · refine free _ ⟨nodup ‹_›, List.suffix_rfl, rfl⟩ fun m => ?_
      simp only [Admin.role]
      repeat' split
      all_goals simp_all
    · exact refuse _

theorem wrote_some {ok : Bool} (h : s.wrote ok = some s') :
    (∃ id r after, s.admin = .reply id r after) ∧ s'.sessions = s.sessions ∧ s'.hub = s.hub ∧ s'.pending = s.pending ∧
      (s'.admin = .idle ∨ s'.admin = .leaving none) := by
  obtain ⟨h1, h2, -, h4⟩ := endBatchIfIdle_same (s := s)
  unfold Source.wrote at h
  split at h
  · rename_i id r after ha
    refine ⟨⟨id, r, after, ha⟩, ?_⟩
    split at h <;> cases h <;> simp [Source.goto, h1, h2, h4]
  · cases h

theorem Orderly.wrote {ok : Bool} (hi : Orderly s) (h : s.wrote ok = some s') : Orderly s' := by
  obtain ⟨⟨id, r, after, ha⟩, h1, h2, -, ha'⟩ := wrote_some h
  refine hi.takes h1 h2 ?_ (by simp [ha, Admin.role]) fun n => ?_ <;> rcases ha' with ha' | ha' <;> rw [ha']
  all_goals first | trivial | simp [Admin.role]

theorem Orderly.readFailed (hi : Orderly s) (ha : s.admin = .idle) : Orderly (s.goto (.leaving none)) :=
  hi.takes rfl rfl trivial (by simp [ha, Admin.role]) (by simp [Source.goto, Admin.role])

end Ghostline.Handoff
