/-
  Ghostline.Handoff.Loss — what becomes of the sessions of an upgrade that fails.

  Until the source carries out a commit, every session stays its own. The commit takes
  them from its hub before the reply is written, and a target that does not get this reply
  gives up and closes what it prepared: then nobody has the sessions
  (`a_lost_commit_reply_loses_the_sessions`).

  When the source reads a commit only from a target that waits for the reply, and nothing
  fails until the target has read it (`acknowledged`), no session is lost
  (`no_session_is_lost`).
-/

import Ghostline.Handoff.Owner

namespace Ghostline.Handoff

open Lib Session

variable {s s' : Sys} {n : Nat}

/-! ## Owning a session -/

/-- The session is in the hub, and only its own loop, at its end, may have closed its master. -/
def Source.Owns (s : Source) (n : Nat) : Prop :=
  n ∈ s.hub ∧ (s.sessions n).core.migrated = false ∧
    ((s.sessions n).core.master = .closed → (s.sessions n).core.loop.past = true)

/-- The session is in the target's hub with its own master, or without one since it had ended. -/
def Sys.TargetOwns (s : Sys) (n : Nat) : Prop :=
  n ∈ s.target.hub ∧ ∃ a ∈ s.target.prepared, a.name = n ∧ Exact s.source a

/-! ## Acknowledged commits -/

/-- The target waits for the reply to a commit the source has read. -/
def Sys.awaitsCommit (s : Sys) : Bool :=
  match s.target.pc with
  | .wait .commit _ => s.up.isEmpty
  | _ => false

/-- The commits of the run are read while the target waits for them, and from then on no
    read or write fails until the target has the reply. -/
def acknowledged (s : Sys) : Ev → Bool
  | .source .read =>
    match s.up with
    | (id, .commit _) :: _ => s.target.pc == .wait .commit id && !s.target.closed
    | _ => true
  | .source (.write false) | .target .fail | .target .cut => !s.awaitsCommit
  | _ => true

/-- The handler is at a commit: it is the one the target waits for. -/
def Sys.Commits (s : Sys) : Prop :=
  match s.source.admin with
  | .preflight id names _ | .resolving id true names _ _ | .forgetting id true names _ =>
    s.target.pc = .wait .commit id ∧ s.up = [] ∧ names = s.target.names
  | .reply id r .endBatch => s.target.pc = .wait .commit id ∧ s.up = [] ∧ r = .resolved s.target.prepared.length
  | _ => True

/-- The sessions are being handed over, or have been. -/
inductive Sys.Passing (s : Sys) : Prop
  | forgetting {id : Nat} {names rest : List Nat} : s.source.admin = .forgetting id true names rest → Passing s
  | reply {id : Nat} {r : Reply} : s.source.admin = .reply id r .endBatch → Passing s
  | down {id : Nat} : s.target.pc = .wait .commit id → s.up = [] → s.down = [(id, .resolved s.target.prepared.length)] →
      Passing s
  | insert : s.target.pc = .insert → Passing s
  | owns : s.target.pc.owns = true → Passing s

structure Held (s : Sys) : Prop where
  inv : Inv s
  commits : s.Commits
  /-- A session that has left the source's hub is among those the target has prepared. -/
  passing : ∀ n ∈ s.names, n ∉ s.source.hub → s.Passing ∧ n ∈ s.target.names

/-! ## Steps of the source -/

theorem Sys.awaitsCommit_iff : s.awaitsCommit = true ↔ ∃ id, s.target.pc = .wait .commit id ∧ s.up = [] := by
  unfold Sys.awaitsCommit
  split <;> simp_all

/-- What the two sides have in common while the target waits for a commit. -/
theorem Inv.carries {id : Nat} (hi : Inv s) (hp : s.target.pc = .wait .commit id) :
    Carries s id (.commit s.target.names) := by
  cases hi.phase with
  | lost h _ _ => simp [Target.lost, hp] at h
  | given h _ _ _ => rw [hp] at h; cases h
  | clean _ _ _ _ h => rw [hp] at h; exact h.2.2.2

/-- A handler at a commit has read it, and not replied. -/
theorem Inv.no_down {id : Nat} (hi : Inv s) (hp : s.target.pc = .wait .commit id) (hf : s.source.admin.free = false) :
    s.down = [] := by
  cases hi.carries hp with
  | up _ hd _ | source _ hd _ => exact hd
  | down _ _ h _ => rw [hf] at h; cases h
  | lost hq => exact hq.2.1

/-- Only the loop over the names of a commit takes a session from the hub. -/
theorem hub_act {a b : Source} {e : AdminEv} (hi : Orderly a) (h : Act a e b) :
    b.hub = a.hub ∨ ∃ id m names rest, a.admin = .forgetting id true names (m :: rest) ∧ b.hub = a.hub.filter (· ≠ m) := by
  cases h with
  | resolve _ hr => cases hr <;> exact .inl rfl
  | rolledBack _ => exact .inl endBatchIfIdle_same.2.1
  | recover ha => have := hi.plan; rw [ha] at this; cases this
  | @forget id m names rest commit ha =>
    cases commit with
    | false => exact .inl rfl
    | true => exact .inr ⟨id, m, names, rest, ha, rfl⟩
  | _ => exact .inl rfl

theorem Sys.Commits.act {e : AdminEv} {source : Source} (hi : Orderly s.source) (hc : s.Commits)
    (h : Act s.source e source) : Sys.Commits { s with source := source } := by
  have hp := hi.plan
  unfold Sys.Commits at hc
  cases h with
  | signal ha _ | stable ha _ _ _ => simp [Sys.Commits, Source.set, Source.setHandler, ha]
  | resolve ha hr => simpa [Sys.Commits, hr.admin_eq] using hc
  | preflight ha _ | settled ha => rw [ha] at hc; exact hc
  | @resolved _ _ _ _ commit _ _ ha _ | @forget _ _ _ _ commit ha => rw [ha] at hc; cases commit <;> exact hc
  | @resolvedAll _ _ commit failed ha =>
    rw [ha] at hp hc
    obtain ⟨-, -, rfl⟩ := hp
    cases commit <;> exact hc
  | recover ha => rw [ha] at hp; cases hp
  | @forgotten _ _ commit ha =>
    rw [ha] at hc
    cases commit with
    | false => trivial
    | true =>
      obtain ⟨h1, h2, rfl⟩ := hc
      exact ⟨h1, h2, by simp [Target.names]⟩
  | _ => trivial

theorem Sys.Passing.act {e : AdminEv} {source : Source} (hp : s.Passing) (h : Act s.source e source) :
    Sys.Passing { s with source := source } := by
  cases hp with
  | down h1 h2 h3 => exact .down h1 h2 h3
  | insert h => exact .insert h
  | owns h => exact .owns h
  | forgetting ha =>
    cases h with
    | forget ha' => cases ha.symm.trans ha'; exact .forgetting rfl
    | forgotten ha' => cases ha.symm.trans ha'; exact .reply rfl
    | _ => simp_all [Admin.resolves]
  | reply ha => exact absurd ha h.no_reply

theorem Held.act {e : AdminEv} {source : Source} (hi : Held s) (h : Act s.source e source)
    (hi' : Inv { s with source := source }) : Held { s with source := source } := by
  have ho := hi.inv.orderly
  refine ⟨hi', hi.commits.act ho h, fun n hn hh => ?_⟩
  rcases hub_act ho h with hub | ⟨id, m, names, rest, ha, hub⟩
  · obtain ⟨hp, ht⟩ := hi.passing n hn (hub ▸ hh)
    exact ⟨hp.act h, ht⟩
  · have hc := hi.commits
    have hplan := ho.plan
    simp only [Sys.Commits, ha] at hc
    rw [ha] at hplan
    refine ⟨(Sys.Passing.forgetting ha).act h, ?_⟩
    by_cases hn' : n ∈ s.source.hub
    · have hm : n = m := by
        simp only [hub, List.mem_filter, hn', true_and] at hh
        simpa using hh
      rw [hm]
      show m ∈ s.target.names
      rw [← hc.2.2]
      exact hplan.2.1.mem (.head _)
    · exact (hi.passing n hn hn').2

/-- Reading a request takes no session from the hub. -/
theorem handle_hub (a : Source) (id : Nat) (r : Request) : (a.handle id r).hub = a.hub := by
  cases r <;> simp only [Source.handle, Source.adopt, Source.refuse] <;> repeat' split
  all_goals rfl

/-- A request read leaves the handler at a commit only when it is one. -/
theorem handle_admin (a : Source) (id : Nat) (r : Request) :
    (∃ names, r = .commit names ∧ (a.handle id r).admin = .preflight id names names) ∨
      Sys.Commits { s with source := a.handle id r } := by
  cases r with
  | commit names =>
    simp only [Source.handle]
    split
    · exact .inl ⟨names, rfl, rfl⟩
    · exact .inr trivial
  | _ =>
    right
    simp only [Source.handle, Source.adopt, Source.refuse]
    repeat' split
    all_goals trivial

theorem Held.read {q : Nat × Request} {up : List (Nat × Request)} (hi : Held s) (ha : s.source.admin = .idle)
    (hu : s.up = q :: up) (hg : acknowledged s (.source .read) = true)
    (hi' : Inv { s with source := s.source.handle q.1 q.2, up := up }) :
    Held { s with source := s.source.handle q.1 q.2, up := up } := by
  obtain ⟨id, r⟩ := q
  refine ⟨hi', ?_, fun n hn hh => ?_⟩
  · rcases handle_admin (s := { s with up := up }) s.source id r with ⟨names, rfl, hr⟩ | hc
    · simp only [acknowledged, hu, Bool.and_eq_true, beq_iff_eq, Bool.not_eq_true'] at hg
      obtain ⟨hp, -⟩ := hg
      have hc := hi.inv.carries hp
      cases hc.head hu
      have hup : up = [] := by
        cases hc with
        | up hu' _ _ => cases hu.symm.trans hu'; rfl
        | source hu' _ _ | down hu' _ _ _ => cases hu.symm.trans hu'
        | lost hq => cases hu.symm.trans hq.1
      simp only [Sys.Commits, hr]
      exact ⟨hp, hup, trivial⟩
    · exact hc
  · obtain ⟨hp, ht⟩ := hi.passing n hn (by rw [← handle_hub s.source id r]; exact hh)
    refine ⟨?_, ht⟩
    cases hp with
    | forgetting ha' | reply ha' => cases ha.symm.trans ha'
    | down _ hu' _ => cases hu.symm.trans hu'
    | insert h => exact .insert h
    | owns h => exact .owns h

theorem Held.write {id : Nat} {r : Reply} {a : After} {ok : Bool} {source : Source} (hi : Held s)
    (ha : s.source.admin = .reply id r a) (hw : s.source.wrote ok = some source)
    (hg : acknowledged s (.source (.write ok)) = true)
    (hi' : Inv { s with source := source, down := if ok then s.down ++ [(id, r)] else s.down }) :
    Held { s with source := source, down := if ok then s.down ++ [(id, r)] else s.down } := by
  obtain ⟨-, -, hub, -, hadmin⟩ := wrote_some hw
  refine ⟨hi', by rcases hadmin with h | h <;> simp [Sys.Commits, h], fun n hn hh => ?_⟩
  obtain ⟨hp, ht⟩ := hi.passing n hn (hub ▸ hh)
  refine ⟨?_, ht⟩
  have busy : s.source.admin.free = false := by rw [ha]; rfl
  cases hp with
  | forgetting ha' => cases ha.symm.trans ha'
  | insert h => exact .insert h
  | owns h => exact .owns h
  | down h1 _ h3 => cases h3.symm.trans (hi.inv.no_down h1 busy)
  | reply ha' =>
    -- the reply to the commit is written, since the target waits for it
    cases ha.symm.trans ha'
    have hc := hi.commits
    simp only [Sys.Commits, ha] at hc
    obtain ⟨h1, h2, rfl⟩ := hc
    cases ok with
    | false =>
      simp only [acknowledged, Bool.not_eq_true'] at hg
      rw [Sys.awaitsCommit_iff.mpr ⟨id, h1, h2⟩] at hg
      cases hg
    | true => exact .down h1 h2 (by simp [hi.inv.no_down h1 busy])

/-! ## Steps of the target -/

/-- Nothing but the reply lets the target go on. -/
theorem TargetMove.awaits {e : TargetEv} {id : Nat} (hm : TargetMove s e s') (hp : s.target.pc = .wait .commit id)
    (hu : s.up = []) (hg : acknowledged s (.target e) = true) :
    s' = { s with target := { s.target with cancelled := true } } ∨
      ∃ q down, s.down = q :: down ∧ s' = { s with target := s.target.receives .commit id q, down := down } := by
  have hw := Sys.awaitsCommit_iff.mpr ⟨id, hp, hu⟩
  cases hm with
  | send hp' _ => cases hp.symm.trans hp'
  | recv hp' hd _ => cases hp.symm.trans hp'; exact .inr ⟨_, _, hd, rfl⟩
  | act ht =>
    cases ht with
    | cancel => exact .inl rfl
    | cut _ | unsent _ _ | failed _ | noFD _ _ => simp [acknowledged, hw] at hg
    | takeFD hp' _ | built hp' | unbuilt hp' | insert hp' | start hp' _ | started hp' _ | close hp' _ | closed hp' _ =>
      cases hp.symm.trans hp'

/-- A target that owns the sessions keeps them. -/
theorem TargetMove.owns {e : TargetEv} (hm : TargetMove s e s') (ho : s.target.pc.owns = true) :
    s'.target.pc.owns = true ∧ s'.target.prepared = s.target.prepared := by
  have exit : ∀ {st}, (Pc.call st).owns = true → st = .exit := fun {st} h => by cases st <;> first | rfl | cases h
  have exiting : ∀ {st id}, (Pc.wait st id).owns = true → st = .exit := fun {st id} h => by cases st <;> first | rfl | cases h
  cases hm with
  | send hp _ => rw [hp] at ho; cases exit ho; exact ⟨rfl, rfl⟩
  | @recv st id q down hp _ _ =>
    rw [hp] at ho
    cases exiting ho
    unfold Target.receives
    cases q.2 <;> simp [Target.failed, Target.answered, Target.leave, Pc.owns]
  | act ht =>
    cases ht with
    | cancel | cut _ => exact ⟨ho, rfl⟩
    | unsent hp _ => rw [hp] at ho; cases exit ho; exact ⟨rfl, rfl⟩
    | failed hp => rw [hp] at ho; cases exiting ho; exact ⟨rfl, rfl⟩
    | start _ _ | started _ _ => exact ⟨rfl, rfl⟩
    | takeFD hp _ | noFD hp _ | built hp | unbuilt hp | insert hp | close hp _ | closed hp _ => rw [hp] at ho; cases ho

theorem TargetMove.same {e : TargetEv} (hm : TargetMove s e s') : s'.source = s.source ∧ s'.names = s.names := by
  cases hm <;> exact ⟨rfl, rfl⟩

theorem TargetMove.commits {e : TargetEv} (hi : Held s) (hm : TargetMove s e s')
    (hg : acknowledged s (.target e) = true) : s'.Commits := by
  have hc := hi.commits
  -- the target waits while the handler is at its commit
  have stuck : ∀ {id}, s.target.pc = .wait .commit id → s.up = [] → s.source.admin.free = false →
      s' = { s with target := { s.target with cancelled := true } } := fun {id} hp hu hf => by
    rcases hm.awaits hp hu hg with h | ⟨q, down, hd, -⟩
    · exact h
    · cases hd.symm.trans (hi.inv.no_down hp hf)
  obtain ⟨hs, -⟩ := hm.same
  unfold Sys.Commits at hc ⊢
  rw [hs]
  split at hc <;> first | trivial | skip
  all_goals
    rename_i ha
    rw [stuck hc.1 hc.2.1 (by rw [ha]; rfl)]
    exact hc

theorem TargetMove.passing {e : TargetEv} (hi : Held s) (hm : TargetMove s e s')
    (hg : acknowledged s (.target e) = true) (hp : s.Passing) : s'.Passing ∧ s'.target.names = s.target.names := by
  obtain ⟨hs, -⟩ := hm.same
  cases hp with
  | forgetting ha =>
    have hc := hi.commits
    simp only [Sys.Commits, ha] at hc
    rcases hm.awaits hc.1 hc.2.1 hg with rfl | ⟨q, down, hd, -⟩
    · exact ⟨.forgetting ha, rfl⟩
    · cases hd.symm.trans (hi.inv.no_down hc.1 (by rw [ha]; rfl))
  | reply ha =>
    have hc := hi.commits
    simp only [Sys.Commits, ha] at hc
    rcases hm.awaits hc.1 hc.2.1 hg with rfl | ⟨q, down, hd, -⟩
    · exact ⟨.reply ha, rfl⟩
    · cases hd.symm.trans (hi.inv.no_down hc.1 (by rw [ha]; rfl))
  | @down id h1 h2 h3 =>
    rcases hm.awaits h1 h2 hg with rfl | ⟨q, down, hd, rfl⟩
    · exact ⟨.down h1 h2 h3, rfl⟩
    · cases hd.symm.trans h3
      have hr : s.target.receives .commit id (id, .resolved s.target.prepared.length) =
          { s.target with received := s.target.received ++ [] }.goto .insert := by
        simp [Target.receives, Target.answered, Reply.fds]
      exact ⟨.insert (by rw [hr]; rfl), by rw [hr]; rfl⟩
  | owns ho =>
    obtain ⟨h1, h2⟩ := hm.owns ho
    exact ⟨.owns h1, by rw [Target.names, h2, Target.names]⟩
  | insert hp =>
    cases hm with
    | send hp' _ | recv hp' _ _ => cases hp.symm.trans hp'
    | act ht =>
      cases ht with
      | cancel | cut _ => exact ⟨.insert hp, rfl⟩
      | insert _ => exact ⟨.owns rfl, rfl⟩
      | unsent hp' _ | failed hp' | noFD hp' _ | takeFD hp' _ | built hp' | unbuilt hp' | start hp' _ | started hp' _
      | close hp' _ | closed hp' _ => cases hp.symm.trans hp'

theorem Held.target {e : TargetEv} (hi : Held s) (hm : TargetMove s e s') (hg : acknowledged s (.target e) = true)
    (hi' : Inv s') : Held s' := by
  obtain ⟨hs, hnames⟩ := hm.same
  refine ⟨hi', hm.commits hi hg, fun n hn hh => ?_⟩
  rw [hnames] at hn
  rw [hs] at hh
  obtain ⟨hp, ht⟩ := hi.passing n hn hh
  obtain ⟨hp', hn'⟩ := hm.passing hi hg hp
  exact ⟨hp', hn' ▸ ht⟩

/-! ## Along a run -/

theorem Held.step {e : Ev} (hg : acknowledged s e = true) (h : s.step e = some s') (hi : Held s) : Held s' := by
  have hi' := hi.inv.step h
  cases step_move h with
  | loop _ | child _ =>
    refine ⟨hi', hi.commits, fun n hn hh => ?_⟩
    obtain ⟨hp, ht⟩ := hi.passing n hn hh
    refine ⟨?_, ht⟩
    cases hp with
    | forgetting ha => exact .forgetting ha
    | reply ha => exact .reply ha
    | down h1 h2 h3 => exact .down h1 h2 h3
    | insert h => exact .insert h
    | owns h => exact .owns h
  | read ha hu => exact hi.read ha hu hg hi'
  | readFailed ha =>
    refine ⟨hi', trivial, fun n hn hh => ?_⟩
    obtain ⟨hp, ht⟩ := hi.passing n hn hh
    refine ⟨?_, ht⟩
    cases hp with
    | forgetting ha' | reply ha' => cases ha.symm.trans ha'
    | down h1 h2 h3 => exact .down h1 h2 h3
    | insert h => exact .insert h
    | owns h => exact .owns h
  | write ha hw _ => exact hi.write ha hw hg hi'
  | act ha => exact hi.act ha hi'
  | target hm => exact hi.target hm hg hi'

theorem Held.init (h : machine.init s) : Held s := by
  have hi := Inv.init h
  obtain ⟨sessions, hub, hrest, rfl⟩ := h
  exact ⟨hi, trivial, fun n hn hh => absurd hn hh⟩

theorem Held.reach (h : machine.Reach acknowledged s) : Held s :=
  h.invariant (fun _ => .init) fun _ _ _ hi hg h => hi.step hg h

/-- A session of the hub whose handler is at no commit is the source's. -/
theorem Inv.owns (hi : Inv s) (hn : n ∈ s.source.hub) (hr : (s.source.admin.role n).gives = false) : s.source.Owns n := by
  have hm : (s.source.sessions n).core.migrated = false := by
    rw [Bool.eq_false_iff]
    intro hm
    rw [hi.orderly.owner n hn hm] at hr
    cases hr
  exact ⟨hn, hm, (hi.orderly.kept n).master hm⟩

/-- A target that has failed waits for no commit. -/
theorem Held.not_passing (hi : Held s) (hp : s.target.pc = .returned false) : ¬ s.Passing := by
  intro h
  have hc := hi.commits
  cases h with
  | forgetting ha | reply ha =>
    simp only [Sys.Commits, ha] at hc
    cases hp.symm.trans hc.1
  | down h1 _ _ => cases hp.symm.trans h1
  | insert h => cases hp.symm.trans h
  | owns h => rw [hp] at h; cases h

theorem Held.no_commit (hi : Held s) (hp : s.target.pc = .returned false) (n : Nat) :
    (s.source.admin.role n).gives = false := by
  have hc := hi.commits
  rw [Bool.eq_false_iff]
  intro hr
  obtain ⟨_, _, _, _, ha⟩ | ⟨_, _, _, ha⟩ := Admin.role_gives hr <;>
  · simp only [Sys.Commits, ha] at hc
    cases hp.symm.trans hc.1

/-- In every upgrade with acknowledged commits: when both sides have returned, each session
    the source began with is owned by one of them; and once the target has returned an
    error, the source owns them all. -/
theorem no_session_is_lost (h : machine.Reach acknowledged s) :
    (∀ ok, s.source.admin = .returned → s.target.pc = .returned ok → ∀ n ∈ s.names, s.source.Owns n ∨ s.TargetOwns n) ∧
      (s.target.pc = .returned false → ∀ n ∈ s.names, s.source.Owns n) := by
  have hi := Held.reach h
  refine ⟨fun ok ha hp n hn => ?_, fun hp n hn => ?_⟩
  · by_cases hh : n ∈ s.source.hub
    · exact .inl (hi.inv.owns hh (by rw [ha]; rfl))
    · obtain ⟨hpass, ht⟩ := hi.passing n hn hh
      right
      cases hi.inv.phase with
      | given _ h2 h3 _ =>
        obtain ⟨a, hm, rfl⟩ := List.mem_map.mp ht
        exact ⟨h2 ▸ ht, a, hm, rfl, (h3 a hm).1⟩
      | lost h1 _ _ =>
        cases ok with
        | true => simp [Target.lost, hp] at h1
        | false => exact absurd hpass (hi.not_passing hp)
      | clean _ _ _ _ h5 => rw [hp] at h5; cases h5
  · by_cases hh : n ∈ s.source.hub
    · exact hi.inv.owns hh (hi.no_commit hp n)
    · exact absurd (hi.passing n hn hh).1 (hi.not_passing hp)

/-- The connection breaks before the source has read the commit, and both sides give up. -/
def brokenRun : List Ev :=
  [.target .fail, .target .fail, .target .go, .target .go, .target .go, .source .readFailed, .source (.act (.pick 0))] ++
    acts 3 ++ .loop 0 .go :: .loop 0 .go :: acts 3 ++ .source (.act (.pick 1)) :: acts 7

theorem no_session_is_lost_broken : ∃ s : Sys, machine.Reach acknowledged s ∧ s.source.admin = .returned ∧
    s.target.pc = .returned false ∧ s.names = [0, 1] ∧ s.source.Owns 0 ∧ s.source.Owns 1 := by
  obtain ⟨s, hs, ha, hp, hn⟩ := machine.exists_reach acknowledged twoSessions_init (preparedRun ++ brokenRun)
    (P := fun s => s.source.admin = .returned ∧ s.target.pc = .returned false ∧ s.names = [0, 1]) (by decide)
  have owns := (no_session_is_lost hs).2 hp
  exact ⟨s, hs, ha, hp, hn, owns 0 (by simp [hn]), owns 1 (by simp [hn])⟩

/-- The source has committed both sessions and written the reply; the connection breaks
    before the target reads it. Both sides return, the source without the sessions and with
    the master of the live one closed, the target with an error and what it prepared closed. -/
theorem a_lost_commit_reply_loses_the_sessions : ∃ s : Sys, machine.Reach Machine.always s ∧
    s.source.admin = .returned ∧ s.target.pc = .returned false ∧ s.names = [0, 1] ∧ s.source.hub = [] ∧
    (s.source.sessions 0).core.master = .closed ∧ s.target.hub = [] ∧ s.target.prepared.all (·.closed) = true := by
  refine machine.exists_reach Machine.always twoSessions_init (preparedRun ++ committedRun ++
    ([.source (.write true), .target .fail, .target .fail, .target .go, .target .go, .target .go, .source .readFailed,
      .source (.act .go)] : List Ev)) (P := fun s => s.source.admin = .returned ∧ s.target.pc = .returned false ∧
    s.names = [0, 1] ∧ s.source.hub = [] ∧ (s.source.sessions 0).core.master = .closed ∧ s.target.hub = [] ∧
    s.target.prepared.all (·.closed) = true) (by decide)

end Ghostline.Handoff
