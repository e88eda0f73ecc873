/-
  Ghostline.Handoff.Batch — a commit takes all the sessions it names, or none.

  `Course` follows a commit from the request to the reply, with the copy loops, the
  children and other calls going on at any point. The preflight has found every ticket
  stable, so its loop is parked or gone (`Session.Commit`): nothing can fail between the
  first session and the last, no session is left to recover, and each `finishMigration`
  has a loop that hears its decision (`Heard`).
-/

import Ghostline.Handoff.Serve

namespace Ghostline.Handoff

open Lib Session

variable {s t t' : Source} {names : List Nat} {n : Nat}

/-! ## The wait of a commit -/

/-- Ticket `t` is released, or the loop has only to hear its commit, or to say so. -/
def Heard (c : Core) (t : Nat) : Prop :=
  t < c.issued ∧ (c.released t = true ∨ ∃ failed, c.loop = .stopping t failed true ∨
    c.loop = .parked t failed ∧ (c.tickets t).decide = some true)

theorem Heard.loop {c c' : Core} {e : LoopEv} {t : Nat} (h : Heard c t) (hm : LoopMove c e c') : Heard c' t := by
  obtain ⟨hi, hr⟩ := h
  have hg := hm.grows
  refine ⟨Nat.lt_of_lt_of_le hi hg.issued, ?_⟩
  rcases hr with hr | ⟨failed, hl | ⟨hl, hd⟩⟩
  · exact .inl (hg.released t hi hr)
  · left
    cases hm with
    | hop h => rw [hl] at h; cases h
    | stopped hl' => cases hl.symm.trans hl'; simp [Core.released, Ticket.markStopped]
    | _ => simp_all
  · right
    cases hm with
    | hop h => rw [hl] at h; cases h
    | receive hl' hd' =>
      cases hl.symm.trans hl'
      cases hd.symm.trans hd'
      exact ⟨failed, .inl rfl⟩
    | _ => simp_all

theorem Heard.child {c c' : Core} {e : Core.ChildEv} {t : Nat} (h : Heard c t) (hc : c.childStep e = some c') :
    Heard c' t := by
  have hs := SameTickets.child hc
  simp only [Heard, Core.released, hs.issued, hs.tickets, hs.done, hs.loop]
  exact h

/-- The commit of a prepared ticket is heard. -/
theorem Heard.choose {c : Core} {t : Nat} (hp : c.Prepared t) (ht : c.Tidy) : Heard (c.updTicket t (·.choose true)) t := by
  refine ⟨hp.issued, ?_⟩
  rcases hp.loop ht with hl | hl
  · exact .inr ⟨false, .inr ⟨hl, by simp [Ticket.choose, hp.undecided]⟩⟩
  · left
    have hd : c.done = true := ht.gone.mp hl
    simp [Core.released, Core.updTicket, hd]

/-- A commit's wait is heard. -/
def Waits (x : Release.Sys) : Prop := ∀ t, x.handler = .finish t (.wait true) → Heard x.core t

theorem Waits.move {x y : Release.Sys} (hk : Release.Kept x) (h : Waits x) (hm : SessionMove x y) : Waits y := by
  intro t ht
  cases hm with
  | same => exact h t ht
  | loop hm => exact (h t ht).loop hm
  | child hc => exact (h t ht).child hc
  | begin _ _ hh => rcases hh with rfl | rfl <;> cases ht
  | signal _ | stable _ | start _ | drop => cases ht
  | finish hh hm =>
    cases ht
    cases hm
    exact Heard.choose (hk.prepared t (by rw [hh]; rfl)) hk.tidy

/-- A wait that is heard ends. -/
theorem Waits.unstuck {x : Release.Sys} {t : Nat} (h : Waits x) (hh : x.handler = .finish t (.wait true)) :
    Release.Unstuck x t := by
  obtain ⟨hi, hr⟩ := h t hh
  have hb : x.core.released t = true ∨ x.core.Bound false t := by
    refine hr.imp_right fun ⟨failed, hl⟩ => .inl ?_
    rcases hl with hl | ⟨hl, -⟩ <;> simp [hl, Loop.ticket]
  refine ⟨hb, hr.imp_right fun ⟨failed, hl⟩ => ⟨.go, by simp, rfl, ?_⟩,
    fun es y => Release.wait_released hi ⟨true, hh⟩ hb⟩
  rcases hl with hl | ⟨hl, hd⟩ <;> simp [Core.loopStep, *]

/-! ## From the request to the reply -/

/-- No session named is marked migrated, or leaves the hub. -/
def Untouched (s : Source) (names : List Nat) (t : Source) : Prop :=
  ∀ n ∈ names, (t.sessions n).core.migrated = (s.sessions n).core.migrated ∧ (n ∈ t.hub ↔ n ∈ s.hub)

/-- Every session named is marked migrated and has left the hub. -/
def Taken (names : List Nat) (t : Source) : Prop := ∀ n ∈ names, (t.sessions n).core.migrated = true ∧ n ∉ t.hub

/-- What a commit of `names`, read in `s`, has done in `t` when the handler is there. -/
def Course (s : Source) (names : List Nat) (t : Source) : Admin → Prop
  | .preflight _ names' _ => names' = names ∧ Untouched s names t
  | .rollback _ _ _ => Untouched s names t
  | .resolving _ commit names' rest _ => commit = true ∧ names' = names ∧ ∀ n ∈ names,
      (n ∉ rest ∨ ∃ u err, (t.sessions n).handler = .finish u (.finished err)) → (t.sessions n).core.migrated = true
  | .forgetting _ commit names' rest => commit = true ∧ names' = names ∧
      ∀ n ∈ names, (t.sessions n).core.migrated = true ∧ (n ∉ rest → n ∉ t.hub)
  | .reply _ r _ => r = .resolved names.length ∧ names.Nodup ∧ Taken names t ∨ (∃ e, r = .error e) ∧ Untouched s names t
  | _ => False

/-- The handler has not come to its reply. -/
def Admin.works : Admin → Bool
  | .reply _ _ _ => false
  | _ => true

theorem Untouched.of (h : Untouched s names t)
    (hm : ∀ n, (t'.sessions n).core.migrated = (t.sessions n).core.migrated) (hh : t'.hub = t.hub) : Untouched s names t' := by
  intro n hn
  rw [hm, hh]
  exact h n hn

theorem Course.read (s : Source) (id : Nat) (names : List Nat) :
    Course s names (s.handle id (.commit names)) (s.handle id (.commit names)).admin := by
  have here : Untouched s names s := fun n _ => ⟨rfl, Iff.rfl⟩
  simp only [Source.handle]
  split
  · exact ⟨rfl, here⟩
  · exact .inr ⟨⟨_, rfl⟩, here⟩

/-- The sessions go on: none loses its mark, and none is finished that is not marked. -/
structure Advances (t t' : Source) : Prop where
  hub : t'.hub = t.hub
  mark : ∀ n, (t.sessions n).core.migrated = true → (t'.sessions n).core.migrated = true
  finished : ∀ n u err, (t'.sessions n).handler = .finish u (.finished err) →
    (∃ u err, (t.sessions n).handler = .finish u (.finished err)) ∨ (t'.sessions n).core.migrated = true

theorem Advances.set {x : Release.Sys} (hm : (t.sessions n).core.migrated = true → x.core.migrated = true)
    (hf : ∀ u err, x.handler = .finish u (.finished err) →
      (∃ u err, (t.sessions n).handler = .finish u (.finished err)) ∨ x.core.migrated = true) : Advances t (t.set n x) where
  hub := rfl
  mark m := forall_set (P := fun m y => (t.sessions m).core.migrated = true → y.core.migrated = true) hm (fun _ _ => id) m
  finished m := forall_set (P := fun m y => ∀ u err, y.handler = .finish u (.finished err) →
    (∃ u err, (t.sessions m).handler = .finish u (.finished err)) ∨ y.core.migrated = true) hf
    (fun _ _ u err h => .inl ⟨u, err, h⟩) m

/-- The loop over the names, as the sessions go on. -/
theorem Course.resolving {id : Nat} {rest : List Nat} {commit failed : Bool}
    (h : Course s names t (.resolving id commit names rest failed)) (ha : Advances t t') :
    Course s names t' (.resolving id commit names rest failed) := by
  refine ⟨h.1, rfl, fun n hn ho => ?_⟩
  have old := h.2.2 n hn
  rcases ho with ho | ⟨u, err, ho⟩
  · exact ha.mark n (old (.inl ho))
  · rcases ha.finished n u err ho with hx | hx
    · exact ha.mark n (old (.inr hx))
    · exact hx

theorem Course.advances {a : Admin} (h : Course s names t a) (hw : a.works = true)
    (hu : ∀ n, (t'.sessions n).core.migrated = (t.sessions n).core.migrated) (ha : Advances t t') : Course s names t' a := by
  cases a with
  | preflight _ _ _ => exact ⟨h.1, h.2.of hu ha.hub⟩
  | rollback _ _ _ => exact Untouched.of h hu ha.hub
  | resolving _ _ _ _ _ =>
    have hn := h.2.1
    subst hn
    exact Course.resolving h ha
  | forgetting _ _ _ _ =>
    refine ⟨h.1, h.2.1, fun n hn => ?_⟩
    rw [hu, ha.hub]
    exact h.2.2 n hn
  | reply _ _ _ => cases hw
  | _ => exact h

theorem finMove_mark {c c' : Core} {u : Nat} {f f' : Core.Fin} (h : FinMove c u f c' f') (hm : c.migrated = true) :
    c'.migrated = true := by
  cases h <;> first | exact hm | rfl

/-- A commit is over with the session marked. -/
theorem finished_marked {x : Release.Sys} {u : Nat} {f : Core.Fin} {c : Core} {err : Bool} (hk : Release.Kept x)
    (hh : x.handler = .finish u f) (hf : f.commits = true) (hm : FinMove x.core u f c (.finished err)) :
    c.migrated = true := by
  refine finMove_mark hm (hk.marked u f hh ?_)
  cases hm with
  | cleared _ | stale _ => exact hf
  | dropped => rfl

theorem Course.resolve {commit : Bool} (hi : Orderly t) (h : Course s names t t.admin)
    (ha : t.admin.resolves = some (n, commit)) (hr : Resolve t n commit t' none) : Course s names t' t'.admin := by
  rw [hr.admin_eq]
  have hrole := Admin.resolves_role ha hi.plan
  have hfit := hi.role n
  rw [hrole] at hfit
  have hkept := hi.kept n
  -- an abort marks nothing; a commit is over only with its session marked
  have aborts : commit = false → ∀ m, (t'.sessions m).core.migrated = (t.sessions m).core.migrated := by
    rintro rfl m
    cases hr with
    | @start u _ =>
      exact forall_set (x := { t.sessions n with handler := .finish u (.start false) })
        (P := fun m y => y.core.migrated = (t.sessions m).core.migrated) rfl (fun _ _ => rfl) m
    | act hh hm =>
      exact forall_set (P := fun m y => y.core.migrated = (t.sessions m).core.migrated) (hm.aborts (hfit _ _ hh)).2
        (fun _ _ => rfl) m
  have commits : commit = true → Advances t t' := by
    rintro rfl
    cases hr with
    | start _ => exact .set id (by rintro u err ⟨⟩)
    | act hh hm =>
      refine .set (finMove_mark hm) ?_
      rintro u err ⟨⟩
      rcases hfit.2 _ _ hh with hf | ⟨rfl, -⟩
      · exact .inr (finished_marked hkept hh hf hm)
      · cases hm
  have hub : t'.hub = t.hub := by cases hr <;> rfl
  cases hadm : t.admin with
  | rollback id rest e =>
    rw [hadm] at h ha
    cases rest with
    | nil => cases ha
    | cons m rest => cases ha; exact Untouched.of h (aborts rfl) hub
  | resolving id c names' rest failed =>
    rw [hadm] at h ha
    have hc := h.1
    have hn := h.2.1
    subst hc hn
    cases rest with
    | nil => cases ha
    | cons m rest => cases ha; exact Course.resolving h (commits rfl)
  | preflight _ _ _ | forgetting _ _ _ _ | reply _ _ _ => rw [hadm] at ha; cases ha
  | _ => rw [hadm] at h; cases h

theorem forget_mark (m : Nat) : ((t.forget n).sessions m).core.migrated = (t.sessions m).core.migrated := by
  rw [forget_core]

theorem Course.act {e : AdminEv} (hi : Orderly t) (h : Course s names t t.admin) (ha : Act t e t') :
    Course s names t' t'.admin := by
  have hp := hi.plan
  cases ha with
  | listed ha | unlisted ha | signal ha _ | stable ha _ _ _ | described ha _ | undo ha _ | undone ha _ | pick ha _
  | left ha _ | done ha _ => rw [ha] at h; cases h
  | recover ha => rw [ha] at hp; cases hp
  | resolve ha hr => exact h.resolve hi ha hr
  | preflight ha _ | unsettled ha => rw [ha] at h; first | exact h | exact h.2
  | @settled id names' ha =>
    rw [ha] at h
    obtain ⟨rfl, -⟩ := h
    refine ⟨rfl, rfl, fun m hm ho => ?_⟩
    -- before the first decision no session is finished
    have hrest := hi.role m
    rw [ha] at hrest
    rcases ho with ho | ⟨u, err, ho⟩
    · exact absurd hm ho
    · rcases hrest with hx | ⟨v, hx⟩ <;> cases hx.symm.trans ho
  | rolledBack ha =>
    rw [ha] at h
    obtain ⟨h1, h2, -, -⟩ := endBatchIfIdle_same (s := t)
    exact .inr ⟨⟨_, rfl⟩, Untouched.of h (fun m => by rw [← h1]; rfl) h2⟩
  | stale ha _ | rolled ha _ =>
    rw [ha] at h
    exact Untouched.of h (fun m => forget_mark m) rfl
  | @resolved id n names' rest commit failed err ha hr =>
    rw [ha] at h
    obtain ⟨rfl, rfl, hmark⟩ := h
    obtain ⟨u, err', hh, -, -⟩ := hr.finished
    refine ⟨rfl, rfl, fun m hm ho => hmark m hm ?_⟩
    rcases ho with ho | ho
    · by_cases hmn : m = n
      · subst hmn; exact .inr ⟨u, err', hh⟩
      · exact .inl (by simp [hmn, ho])
    · exact .inr ho
  | @resolvedAll id names' commit failed ha =>
    rw [ha] at h hp
    obtain ⟨rfl, rfl, hmark⟩ := h
    obtain ⟨-, -, rfl⟩ := hp
    exact ⟨rfl, rfl, fun m hm => ⟨hmark m hm (.inl (by simp)), fun hn => absurd hm hn⟩⟩
  | @forget id n names' rest commit ha =>
    rw [ha] at h
    obtain ⟨rfl, rfl, hmark⟩ := h
    refine ⟨rfl, rfl, fun m hm => ⟨(forget_mark m).trans (hmark m hm).1, fun hr hx => ?_⟩⟩
    obtain ⟨hx, hne⟩ := List.mem_filter.mp hx
    have hmn : m ≠ n := by simpa using hne
    exact (hmark m hm).2 (by simp [hmn, hr]) hx
  | @forgotten id names' commit ha =>
    rw [ha] at h hp
    obtain ⟨rfl, rfl, hmark⟩ := h
    exact .inl ⟨rfl, hp.1, fun m hm => ⟨(hmark m hm).1, (hmark m hm).2 (by simp)⟩⟩

/-! ## Along a run -/

structure Commits (s : Source) (names : List Nat) (t : Source) : Prop where
  course : Course s names t t.admin
  /-- Other calls stay out of the hub until the reply. -/
  frozen : t.admin.works = true → names = [] ∨ t.batchFrozen = true

theorem Course.frozen {e : AdminEv} (h : Course s names t t.admin) (hi : Orderly t) (ha : Act t e t')
    (hw : t'.admin.works = true) : t'.batchFrozen = t.batchFrozen := by
  cases ha with
  | listed ha | unlisted ha | done ha _ => rw [ha] at h; cases h
  | recover ha => have := hi.plan; rw [ha] at this; cases this
  | rolledBack _ => cases hw
  | resolve _ hr => cases hr <;> rfl
  | @forget _ _ _ _ commit _ => cases commit <;> rfl
  | _ => rfl

/-- A commit of no sessions has none to lose. -/
theorem Course.empty {a : Admin} (h : Course s [] t a) (hw : a.works = true) : Course s [] t' a := by
  cases a with
  | preflight _ _ _ => exact ⟨h.1, by simp [Untouched]⟩
  | rollback _ _ _ => simp [Course, Untouched]
  | resolving _ _ _ _ _ | forgetting _ _ _ _ => exact ⟨h.1, h.2.1, by simp⟩
  | reply _ _ _ => cases hw
  | _ => exact h

theorem Commits.serve {e : ServeEv} (h : Commits s names t) (hi : Orderly t) (hw : t.admin.works = true)
    (hm : ServeMove t e t') : Commits s names t' := by
  -- a call that finds the batch open finds no session named
  have outside : t.batchFrozen = false → t'.admin = t.admin → t'.batchFrozen = t.batchFrozen → Commits s names t' := by
    intro hf ha hb
    obtain rfl := (h.frozen hw).resolve_right (by simp [hf])
    exact ⟨ha ▸ h.course.empty hw, fun _ => .inl rfl⟩
  cases hm with
  | @loop n _ c hm =>
    refine ⟨h.course.advances hw (fun m => ?_) (.set (fun hg => hm.migrated ▸ hg) fun u err hx => .inl ⟨u, err, hx⟩),
      h.frozen⟩
    exact forall_set (x := { t.sessions n with core := c })
      (P := fun m y => y.core.migrated = (t.sessions m).core.migrated) hm.migrated (fun _ _ => rfl) m
  | @child n _ c hc =>
    have hs := SameTickets.child hc
    refine ⟨h.course.advances hw (fun m => ?_) (.set (fun hg => hs.migrated ▸ hg) fun u err hx => .inl ⟨u, err, hx⟩),
      h.frozen⟩
    exact forall_set (x := { t.sessions n with core := c })
      (P := fun m y => y.core.migrated = (t.sessions m).core.migrated) hs.migrated (fun _ _ => rfl) m
  | hub hh =>
    obtain ⟨-, -, h3, h4, hf⟩ := hh.same
    exact outside hf h4 h3
  | read ha | refused ha | readFailed ha => have := h.course; rw [ha] at this; cases this
  | write hx => obtain ⟨⟨_, _, _, ha⟩, -⟩ := wrote_some hx; rw [ha] at hw; cases hw
  | act ha => exact ⟨h.course.act hi ha, fun hw' => by rw [h.course.frozen hi ha hw']; exact h.frozen hw⟩

/-- The steps from a request to its reply. -/
def untilReply (a : Served) (_ : ServeEv) : Bool := a.source.admin.works

theorem commits_run {a b : Served} {id : Nat} {es : List ServeEv} (h : serveMachine.Reach Machine.always a)
    (hr : serveMachine.run untilReply a (.read id (.request (.commit names)) :: es) = some b) :
    Commits a.source names b.source ∧ serveMachine.Reach Machine.always b := by
  simp only [Machine.run, Option.ite_none_right_eq_some, Option.bind_eq_some_iff] at hr
  obtain ⟨-, c, hc, hr⟩ := hr
  refine serveMachine.run_stable
    (P := fun b => Commits a.source names b.source ∧ serveMachine.Reach Machine.always b) ?_ ?_ hr
  · rintro x e y ⟨hx, hreach⟩ hw he
    exact ⟨hx.serve (serve_reach hreach).1 hw (serve_move he), .step e hreach rfl he⟩
  · refine ⟨?_, .step _ h rfl hc⟩
    have hfrozen := (serve_reach h).2.frozen
    simp only [serveMachine, Served.step, Option.ite_none_right_eq_some, Option.some.injEq] at hc
    obtain ⟨-, rfl⟩ := hc
    refine ⟨.read a.source id names, fun hw => ?_⟩
    simp only [Source.receive, Source.handle] at hw ⊢
    split at hw
    · rename_i hp
      rw [if_pos hp]
      refine hfrozen.imp_left fun he => List.eq_nil_iff_forall_not_mem.mpr fun n hn => ?_
      simp only [Source.prepared, Bool.and_eq_true, List.all_eq_true, decide_eq_true_eq] at hp
      have := hp.2 n hn
      rw [he] at this
      cases this
    · cases hw

/-- From the reading of a commit to its reply, whatever the copy loops, the children and
    other calls do in between: the reply says that the sessions named were taken, each
    once, and they are marked migrated and out of the hub, or it is an error and none of
    them is; after the preflight every `finishMigration` goes on as a commit and returns no
    error, with a loop that ends its wait; and there is nothing to recover. -/
theorem commit_all_or_nothing {a b : Served} {id : Nat} {es : List ServeEv} (h : serveMachine.Reach Machine.always a)
    (hr : serveMachine.run untilReply a (.read id (.request (.commit names)) :: es) = some b) :
    (∀ i r after, b.source.admin = .reply i r after →
      r = .resolved names.length ∧ names.Nodup ∧ Taken names b.source ∨
        (∃ e, r = .error e) ∧ Untouched a.source names b.source) ∧
    (∀ i names' rest failed, b.source.admin = .resolving i true names' rest failed → failed = false ∧
      ∀ n u f, rest.head? = some n → (b.source.sessions n).handler = .finish u f →
        (f.commits = true ∨ f = .finished false) ∧ (f = .wait true → Release.Unstuck (b.source.sessions n) u)) ∧
    ∀ i rest, b.source.admin ≠ .recovering i rest := by
  obtain ⟨hc, hreach⟩ := commits_run h hr
  obtain ⟨ho, -⟩ := serve_reach hreach
  have hplan := ho.plan
  refine ⟨fun i r after ha => ?_, fun i names' rest failed ha => ⟨?_, fun n u f hn hh => ⟨?_, ?_⟩⟩, fun i rest ha => ?_⟩
  · have := hc.course
    rwa [ha] at this
  · rw [ha] at hplan
    exact hplan.2.2
  · have hfit := ho.role n
    rw [ha] at hfit
    simp only [Admin.role, hn, if_true] at hfit
    exact (hfit.2 u f hh).imp_right And.left
  · rintro rfl
    have hw : Waits (b.source.sessions n) := by
      refine serve_sessions (fun x hx t ht => ?_) (fun x y hk hx hm => hx.move hk hm) hreach n
      cases hx.symm.trans ht
    exact hw.unstuck hh
  · rw [ha] at hplan
    cases hplan

/-- A commit of both, up to its reply; the child of the live one ends in the middle. -/
def commitRun : List ServeEv :=
  (.read 4 (.request (.commit [1, 0])) :: List.replicate 3 (.act .go) : List ServeEv) ++
    ([.child 0 .exit, .child 0 .hangup] : List ServeEv) ++ (List.replicate 11 (.act .go) : List ServeEv) ++
    ([.loop 0 .go, .loop 0 .go] : List ServeEv) ++ (List.replicate 8 (.act .go) : List ServeEv)

theorem commit_all_or_nothing_both :
    ∃ a b, serveMachine.Reach Machine.always a ∧ serveMachine.run untilReply a commitRun = some b ∧
      (∃ after, b.source.admin = .reply 4 (.resolved 2) after) ∧ Taken [1, 0] b.source := by
  have hrun : (serveMachine.run Machine.always servedTwo adoptedRun).any (fun a =>
      (serveMachine.run untilReply a commitRun).any fun b => b.source.admin == .reply 4 (.resolved 2) .endBatch) = true := by
    decide
  obtain ⟨a, ha, hrun⟩ := (Option.any_eq_true _ _).mp hrun
  obtain ⟨b, hb, hadm⟩ := (Option.any_eq_true _ _).mp hrun
  have hadm : b.source.admin = .reply 4 (.resolved 2) .endBatch := by simpa using hadm
  have hreach := serveMachine.run_reach (.init servedTwo_init) ha
  refine ⟨a, b, hreach, hb, ⟨_, hadm⟩, ?_⟩
  rcases (commit_all_or_nothing hreach hb).1 _ _ _ hadm with ⟨-, -, h⟩ | ⟨⟨e, he⟩, -⟩
  · exact h
  · cases he

end Ghostline.Handoff
