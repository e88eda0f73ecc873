/-
  Ghostline.Handoff.Starts — sessions that are started on the source during an upgrade.

  `Hub.Start` holds `lifecycleMu` for reading until its session is in the map; the handler
  holds it for writing from `list` to the end of the batch. The inventory is closed in
  between. But the batch ends with the reply to the commit, and the source retires on a
  later request: a call that has waited for the lock gets it then, starts its session and
  returns it, and nobody has it when the source is gone
  (`a_session_started_after_the_commit_is_lost`).

  When no call gets the lock once the commit is answered (`beforeCommit`), the sessions of a
  source that retires are the target's (`started_sessions_are_adopted`).

  - A call that has the lock puts its session into the map and releases the lock in one
    step: nothing can be seen in between.
  - A call may get the lock while the handler waits for it.
-/

import Ghostline.Handoff.Inventory

namespace Ghostline.Handoff

open Lib Session

/-! ## The machine -/

structure Creating where
  live : Live
  /-- The calls that wait for `lifecycleMu`, and those that hold it. -/
  waiting : List Nat
  holding : List Nat
  /-- The sessions `Start` has returned. -/
  started : List Nat
  /-- The reply to a commit is written. -/
  ended : Bool
  /-- `requestExit` is called. -/
  retired : Bool

inductive CreateEv where
  | sys (e : Ev)
  | create (n : Nat)
  | lock (n : Nat)
  | finish (n : Nat)
  | refuse (n : Nat)
  deriving DecidableEq, Repr

def Sys.ends (s : Sys) (e : Ev) : Bool :=
  match e, s.source.admin with
  | .source (.write true), .reply _ (.resolved _) .endBatch => true
  | _, _ => false

def Sys.retires (s : Sys) (e : Ev) : Bool :=
  match e, s.source.admin with
  | .source (.write true), .reply _ .exiting _ => true
  | _, _ => false

namespace Creating

variable (s : Creating)

def step : CreateEv → Option Creating
  | .sys e =>
    -- the batch begins when no call has the lock
    if e = .source (.act .listed) ∧ s.holding ≠ [] then none
    else
      (s.live.step (.sys e)).map fun l =>
        { s with live := l, ended := s.ended || s.live.sys.ends e, retired := s.retired || s.live.sys.retires e }
  | .create n => some { s with waiting := s.waiting ++ [n] }
  | .lock n =>
    if n ∈ s.waiting ∧ s.live.sys.source.batchFrozen = false then
      some { s with waiting := s.waiting.erase n, holding := s.holding ++ [n] }
    else none
  | .finish n =>
    if n ∈ s.holding then
      (s.live.step (.opened n)).map fun l =>
        { s with live := l, holding := s.holding.erase n, started := s.started ++ [n] }
    else none
  | .refuse n => if n ∈ s.holding then some { s with holding := s.holding.erase n } else none

end Creating

def createMachine : Machine Creating CreateEv where
  init s := ∃ l, liveMachine.init l ∧ s = ⟨l, [], [], [], false, false⟩
  step := Creating.step

/-- No call gets the lock once the commit is answered. -/
def beforeCommit (s : Creating) : CreateEv → Bool
  | .lock _ => !s.ended
  | _ => true

/-! ## What a step does -/

variable {s s' : Creating}

/-- After a step of the upgrade. -/
def Creating.after (s : Creating) (e : Ev) (sys : Sys) : Creating :=
  { s with
    live := ⟨sys, if e = .source (.act .listed) then s.live.sys.source.hub else s.live.inventory⟩
    ended := s.ended || s.live.sys.ends e
    retired := s.retired || s.live.sys.retires e }

inductive CreateMove (s : Creating) : CreateEv → Creating → Prop
  | sys {e : Ev} {sys : Sys} : Move s.live.sys e sys →
      (e = .source (.act .listed) → s.holding = [] ∧ ∃ id, s.live.sys.source.admin = .listing id) →
      CreateMove s (.sys e) (s.after e sys)
  | create {n : Nat} : CreateMove s (.create n) { s with waiting := s.waiting ++ [n] }
  | lock {n : Nat} : s.live.sys.source.batchFrozen = false →
      CreateMove s (.lock n) { s with waiting := s.waiting.erase n, holding := s.holding ++ [n] }
  | finish {n : Nat} {source : Source} : n ∈ s.holding → HubMove s.live.sys.source source →
      source.hub = s.live.sys.source.hub ++ [n] → CreateMove s (.finish n)
        { s with live := s.live.withSource source, holding := s.holding.erase n, started := s.started ++ [n] }
  | refuse {n : Nat} : CreateMove s (.refuse n) { s with holding := s.holding.erase n }

theorem create_move {e : CreateEv} (h : s.step e = some s') : CreateMove s e s' := by
  cases e with
  | sys e =>
    obtain ⟨hl, h⟩ := Option.ite_none_left_eq_some.mp h
    obtain ⟨l, hx, rfl⟩ := Option.map_eq_some_iff.mp h
    obtain ⟨sys, hs, rfl⟩ := Option.map_eq_some_iff.mp hx
    refine .sys (step_move hs) fun he => ⟨by simpa [he] using hl, ?_⟩
    subst he
    obtain ⟨x, hx, -⟩ := Option.map_eq_some_iff.mp hs
    exact step_listing hx
  | create n => cases h; exact .create
  | lock n =>
    obtain ⟨hc, h⟩ := Option.ite_none_right_eq_some.mp h
    cases h
    exact .lock hc.2
  | finish n =>
    obtain ⟨hn, h⟩ := Option.ite_none_right_eq_some.mp h
    obtain ⟨l, hx, rfl⟩ := Option.map_eq_some_iff.mp h
    obtain ⟨source, ho, rfl⟩ := Option.map_eq_some_iff.mp hx
    have hm := opens_move ho
    obtain ⟨-, ho⟩ := Option.ite_none_right_eq_some.mp ho
    cases ho
    exact .finish hn hm rfl
  | refuse n =>
    obtain ⟨-, h⟩ := Option.ite_none_right_eq_some.mp h
    cases h
    exact .refuse

/-! ## The target -/

section Target

variable {t t' : Target}

/-- After the listing, and before the reply to the commit. -/
def Pc.between (pc : Pc) : Bool := !pc.lists && !pc.owns && pc != .insert

theorem Pc.between_iff {pc : Pc} : pc.between = true ↔ pc.lists = false ∧ pc.owns = false ∧ pc ≠ .insert := by
  simp [Pc.between, and_assoc]

theorem next_insert (rest : List Nat) : (t.next rest).pc ≠ .insert := by
  cases rest with
  | cons n rest => simp [Target.next, Target.goto]
  | nil =>
    simp only [Target.next, Target.giveUp]
    repeat' split
    all_goals simp [Target.goto, Target.leave]

theorem failed_insert (st : Stage) : (t.failed st).pc ≠ .insert := by
  cases st with
  | abortSingle _ rest => exact next_insert rest
  | commit =>
    simp only [Target.failed, Target.giveUp]
    split <;> simp [Target.goto, Target.leave]
  | _ => simp [Target.failed, Target.leave, Target.skip, Target.goto]

theorem answered_insert {st : Stage} {r : Reply} (h : (t.answered st r).pc = .insert) : ∃ k, r = .resolved k := by
  revert h
  unfold Target.answered
  split <;> intro h
  · exact absurd h (next_insert _)
  · split at h <;> cases h
  · split at h <;> cases h
  · cases h
  · exact ⟨_, rfl⟩
  · exact ⟨_, rfl⟩
  · exact ⟨_, rfl⟩
  · cases h
  · exact absurd h (failed_insert _)

theorem receives_between {st : Stage} {id : Nat} {q : Nat × Reply} (hq : ∀ k, q.2 ≠ .resolved k) (hst : st ≠ .exit) :
    (t.receives st id q).pc.between = true := by
  refine Pc.between_iff.mpr ⟨receives_lists _ _ _, Bool.eq_false_iff.mpr fun h => hst (receives_owns h), fun h => ?_⟩
  revert h
  unfold Target.receives
  simp only
  split
  · split
    · exact failed_insert _
    · exact fun h => (answered_insert h).elim hq
  · exact failed_insert _

theorem turn_between {e : TargetEv} (ht : Turn t e t') (h : t.pc.between = true) : t'.pc.between = true := by
  obtain ⟨h1, h2, h3⟩ := Pc.between_iff.mp h
  refine Pc.between_iff.mpr ⟨Bool.eq_false_iff.mpr fun h => ?_, Bool.eq_false_iff.mpr fun h => ?_, fun h => ?_⟩
  · rw [(turn_lists ht h).1, h1] at h
    cases h
  · rcases (turn_owns ht h).1 with h | h
    · exact absurd (h2.symm.trans h) (by decide)
    · exact h3 h
  · cases ht with
    | cancel | cut _ => exact h3 h
    | unsent _ _ | failed _ => exact failed_insert _ h
    | built _ => exact next_insert _ h
    | takeFD _ _ => simp only [Target.goto] at h; split at h <;> cases h
    | _ => cases h

theorem sent_lists {st : Stage} : (t.sent st).pc.lists = (Pc.call st).lists := by cases st <;> rfl

theorem sent_between {st : Stage} (hp : t.pc = .call st) (h : t.pc.between = true) : (t.sent st).pc.between = true := by
  rw [hp] at h
  cases st <;> first | rfl | cases h

end Target

/-! ## The handler -/

section Handler

variable {a b : Source} {e : AdminEv}

/-- At an abort, up to its reply. -/
def Admin.aborts : Admin → Bool
  | .resolving _ false _ _ _ | .forgetting _ false _ _ => true
  | .reply _ (.resolved _) after => after != .endBatch
  | _ => false

theorem act_aborts (ho : Orderly a) (h : Act a e b) (hb : b.admin.aborts = true) : a.admin.aborts = true := by
  cases h with
  | resolve _ hr => rwa [hr.admin_eq] at hb
  | recover ha => have := ho.plan; rw [ha] at this; cases this
  | signal _ _ | stable _ _ _ _ => exact hb
  | @resolved _ _ _ _ commit _ _ ha _ | @forget _ _ _ _ commit ha | @forgotten _ _ commit ha =>
    rw [ha]; cases commit <;> first | rfl | cases hb
  | @resolvedAll _ _ commit failed ha =>
    rw [ha]
    cases commit with
    | false => rfl
    | true => cases failed <;> cases hb
  | _ => cases hb

theorem handle_aborts {id : Nat} {r : Request} (h : (a.handle id r).admin.aborts = true) : ∃ names, r = .abort names := by
  revert h
  cases r with
  | abort names => exact fun _ => ⟨names, rfl⟩
  | adopt n =>
    simp only [Source.handle, Source.adopt]
    repeat' split
    all_goals intro h; cases h
  | _ =>
    simp only [Source.handle]
    split <;> intro h <;> cases h

/-- A reply that ends the batch is one to a commit. -/
def Source.Tied (s : Source) : Prop := ∀ i r, s.admin = .reply i r .endBatch → ∃ k, r = .resolved k

theorem Source.Tied.act (h : a.Tied) (ho : Orderly a) (ha : Act a e b) : b.Tied := by
  intro i r hb
  cases ha with
  | resolve _ hr => rw [hr.admin_eq] at hb; exact h i r hb
  | recover ha => have := ho.plan; rw [ha] at this; cases this
  | signal _ _ | stable _ _ _ _ => exact h i r hb
  | resolvedAll _ => simp only [Source.goto] at hb; split at hb <;> cases hb
  | forgotten _ => exact ⟨_, (Admin.reply.inj hb).2.1.symm⟩
  | _ => cases hb

theorem Source.Tied.handle (id : Nat) (r : Request) : (a.handle id r).Tied := by
  intro i x hb
  cases r with
  | adopt n =>
    simp only [Source.handle, Source.adopt] at hb
    repeat' split at hb
    all_goals cases hb
  | _ =>
    simp only [Source.handle] at hb
    split at hb <;> cases hb

theorem Source.Tied.wrote {ok : Bool} (h : a.wrote ok = some b) : b.Tied := by
  intro i r hb
  obtain ⟨-, -, -, -, hx | hx⟩ := wrote_some h <;> cases hx.symm.trans hb

/-- The batch goes on unless its end is written. -/
theorem wrote_frozen {ok : Bool} (h : a.wrote ok = some b) (hn : ok = true → ∀ i r, a.admin ≠ .reply i r .endBatch) :
    b.batchFrozen = a.batchFrozen := by
  unfold Source.wrote at h
  split at h
  · rename_i i r after ha
    split at h <;> cases h <;> first | rfl | exact absurd ha (hn rfl i _)
  · cases h

theorem handle_frozen (id : Nat) (r : Request) : (a.handle id r).batchFrozen = a.batchFrozen := by
  cases r with
  | adopt n =>
    simp only [Source.handle, Source.adopt]
    repeat' split
    all_goals rfl
  | _ =>
    simp only [Source.handle]
    split <;> rfl

/-- Only the listing, the end of a rollback and the return touch the lock. -/
theorem act_frozen (ho : Orderly a) (h : Act a e b) :
    b.batchFrozen = a.batchFrozen ∨ (∃ i, a.admin = .listing i) ∨
      (∃ i x, a.admin = .rollback i [] x ∧ b.admin = .reply i (.error x) .again) ∨ b.admin.gone = true := by
  cases h with
  | listed ha => exact .inr (.inl ⟨_, ha⟩)
  | resolve _ hr => cases hr <;> exact .inl rfl
  | rolledBack ha => exact .inr (.inr (.inl ⟨_, _, ha, rfl⟩))
  | recover ha => have := ho.plan; rw [ha] at this; cases this
  | done _ _ => exact .inr (.inr (.inr rfl))
  | @forget _ _ _ _ commit _ => cases commit <;> exact .inl rfl
  | _ => exact .inl rfl

theorem handle_reply {id i : Nat} {r : Request} {x : Reply} {after : After} (h : (a.handle id r).admin = .reply i x after) :
    (∃ e, x = .error e) ∨ x = .snapshot ∨ x = .exiting ∧ r = .exit := by
  revert h
  cases r with
  | adopt n =>
    simp only [Source.handle, Source.adopt]
    repeat' split
    all_goals intro h; cases h
    all_goals exact .inl ⟨_, rfl⟩
  | _ =>
    simp only [Source.handle]
    split <;> intro h <;> cases h <;> simp

end Handler

/-! ## What is kept -/

namespace Creating

/-- The sessions that were started are those of the inventory, and none is on its way. -/
def Closed (s : Creating) : Prop := s.holding = [] ∧ ∀ n ∈ s.started, n ∈ s.live.inventory

def Shut (s : Creating) : Prop := s.live.sys.source.batchFrozen = true ∧ s.Closed

end Creating

/-- Where the upgrade stands, for the calls. -/
inductive Standing (s : Creating) : Prop
  | lost : s.live.sys.target.lost = true → Standing s
  | listing : s.live.sys.target.pc.lists = true → (∀ n ∈ s.started, n ∈ s.live.sys.source.hub) →
      (∀ i k a, s.live.sys.source.admin ≠ .reply i (.resolved k) a) →
      (∀ i l, (∃ a, s.live.sys.source.admin = .reply i (.listed l) a) ∨ (i, .listed l) ∈ s.live.sys.down →
        s.Shut ∨ s.live.sys.source.admin.gone = true) → Standing s
  | shut : s.live.sys.target.pc.between = true → s.Shut → (∀ q ∈ s.live.sys.down, ∀ k, q.2 ≠ .resolved k) → Standing s
  /-- The handler has left before a commit. -/
  | gone : s.live.sys.target.pc.between = true → s.live.sys.source.admin.gone = true →
      (∀ q ∈ s.live.sys.down, ∀ k, q.2 ≠ .resolved k) → Standing s
  /-- The commit was refused. -/
  | refused {id : Nat} : s.live.sys.target.pc = .wait .commit id → s.live.sys.up = [] →
      (s.live.sys.source.admin.free = true ∨ ∃ i x a, s.live.sys.source.admin = .reply i (.error x) a) →
      (∀ q ∈ s.live.sys.down, ∃ x, q.2 = .error x) → Standing s
  | ended : s.live.sys.target.pc.lists = false → s.ended = true → s.Closed → Standing s

/-- An abort is asked for or carried out, and so is a retirement. -/
def Sys.Aborts (s : Sys) : Prop := (∃ i names, (i, .abort names) ∈ s.up) ∨ s.source.admin.aborts = true

def Sys.Exits (s : Sys) : Prop := (∃ i, (i, .exit) ∈ s.up) ∨ ∃ i x, s.source.admin = .reply i .exiting x

structure Kept (s : Creating) : Prop where
  live : LiveInv s.live
  tied : s.live.sys.source.Tied
  /-- Only a target that has failed aborts, and only one that owns its sessions retires the source. -/
  aborts : s.live.sys.Aborts → s.live.sys.target.lost = true
  exits : s.live.sys.Exits ∨ s.retired = true → s.live.sys.target.pc.owns = true
  standing : Standing s

/-! ### The handler's steps -/

section

variable {sys : Sys} {source : Source}

/-- Only the sessions' own state changes. -/
theorem Standing.inner (h : Standing s) {n : Nat} {x : Release.Sys} {e : Ev} (he : e ≠ .source (.act .listed)) :
    Standing (s.after e (s.live.sys.withSource (s.live.sys.source.set n x))) := by
  have hinv : (s.after e (s.live.sys.withSource (s.live.sys.source.set n x))).live.inventory = s.live.inventory := if_neg he
  cases h with
  | lost h => exact .lost h
  | listing h1 h2 h3 h4 =>
    refine .listing h1 h2 h3 fun i l h => (h4 i l h).imp_left fun hs => ?_
    exact ⟨hs.1, hs.2.1, hinv ▸ hs.2.2⟩
  | shut h1 h2 h3 => exact .shut h1 ⟨h2.1, h2.2.1, hinv ▸ h2.2.2⟩ h3
  | gone h1 h2 h3 => exact .gone h1 h2 h3
  | refused h1 h2 h3 h4 => exact .refused h1 h2 h3 h4
  | ended h1 h2 h3 => exact .ended h1 (by simp [Creating.after, h2]) ⟨h3.1, hinv ▸ h3.2⟩

theorem Standing.read {q : Nat × Request} {up : List (Nat × Request)} (h : Standing s)
    (ha : s.live.sys.source.admin = .idle) (hu : s.live.sys.up = q :: up) :
    Standing (s.after (.source .read) { s.live.sys with source := s.live.sys.source.handle q.1 q.2, up := up }) := by
  have shut : s.Shut → (s.after (.source .read)
      { s.live.sys with source := s.live.sys.source.handle q.1 q.2, up := up }).Shut := fun h =>
    ⟨(handle_frozen _ _).trans h.1, h.2⟩
  cases h with
  | lost h => exact .lost h
  | listing h1 h2 h3 h4 =>
    refine .listing h1 (fun n hn => ?_) (fun i k a hr => ?_) fun i l h => .inl (shut ?_)
    · exact (handle_hub s.live.sys.source q.1 q.2).symm ▸ h2 n hn
    · rcases handle_reply hr with ⟨e, he⟩ | he | he
      · cases he
      · cases he
      · cases he.1
    · rcases h with ⟨a, h⟩ | h
      · exact absurd h (handle_listed.1 i l a)
      · exact (h4 i l (.inr h)).resolve_right (by simp [ha, Admin.gone])
  | shut h1 h2 h3 => exact .shut h1 (shut h2) h3
  | gone _ h2 _ => simp [ha, Admin.gone] at h2
  | refused _ h2 _ _ => cases hu.symm.trans h2
  | ended h1 h2 h3 => exact .ended h1 (by simp [Creating.after, h2]) h3

theorem Standing.readFailed (h : Standing s) (ha : s.live.sys.source.admin = .idle) :
    Standing (s.after (.source .readFailed) (s.live.sys.withSource (s.live.sys.source.goto (.leaving none)))) := by
  cases h with
  | lost h => exact .lost h
  | listing h1 h2 _ _ => exact .listing h1 h2 (fun i k a h => by cases h) fun _ _ _ => .inr rfl
  | shut h1 h2 h3 => exact .shut h1 h2 h3
  | gone _ h2 _ => simp [ha, Admin.gone] at h2
  | refused h1 h2 _ h4 => exact .refused h1 h2 (.inl rfl) h4
  | ended h1 h2 h3 => exact .ended h1 (by simp [Creating.after, h2]) h3

/-- The reply to a commit ends the batch, which was closed up to here. -/
theorem Standing.write {i : Nat} {r : Reply} {a : After} {ok : Bool} (h : Standing s) (htied : s.live.sys.source.Tied)
    (hab : s.live.sys.source.admin.aborts = true → s.live.sys.target.lost = true)
    (ha : s.live.sys.source.admin = .reply i r a) (hx : s.live.sys.source.wrote ok = some source) :
    Standing (s.after (.source (.write ok)) { s.live.sys with
      source := source, down := if ok then s.live.sys.down ++ [(i, r)] else s.live.sys.down }) := by
  obtain ⟨-, -, hub, -, hidle⟩ := wrote_some hx
  have hfree : source.admin.free = true := by rcases hidle with h | h <;> rw [h] <;> rfl
  have noreply : ∀ j x b, source.admin ≠ .reply j x b := fun j x b hr => by rw [hr] at hfree; cases hfree
  have mem : ∀ q ∈ (if ok then s.live.sys.down ++ [(i, r)] else s.live.sys.down), q ∈ s.live.sys.down ∨ q = (i, r) := by
    intro q hq
    cases ok with
    | false => exact .inl hq
    | true => exact (List.mem_append.mp hq).imp_right List.mem_singleton.mp
  -- unless it is the reply to a commit, the batch goes on
  have frozen : (ok = true → ∀ k, r ≠ .resolved k) → source.batchFrozen = s.live.sys.source.batchFrozen := fun hr =>
    wrote_frozen hx fun hok j x hj => by
      obtain ⟨k, rfl⟩ := htied j x hj
      cases ha.symm.trans hj
      exact hr hok k rfl
  cases h with
  | lost h => exact .lost h
  | listing h1 h2 h3 h4 =>
    have hr : ∀ k, r ≠ .resolved k := fun k hk => h3 i k a (hk ▸ ha)
    refine .listing h1 (hub ▸ h2) (fun j k b => noreply j _ b) fun j l h => .inl ?_
    have hs : s.Shut := by
      refine (h4 j l ?_).resolve_right (by simp [ha, Admin.gone])
      rcases h with ⟨b, h⟩ | h
      · exact absurd h (noreply _ _ _)
      · rcases mem _ h with h | h
        · exact .inr h
        · cases h
          exact .inl ⟨a, ha⟩
    exact ⟨(frozen fun _ => hr).trans hs.1, hs.2⟩
  | shut h1 h2 h3 =>
    by_cases hr : ok = true ∧ ∃ k, r = .resolved k
    · obtain ⟨rfl, k, rfl⟩ := hr
      by_cases hb : a = .endBatch
      · subst hb
        exact .ended (Pc.between_iff.mp h1).1 (by simp [Creating.after, Sys.ends, ha]) h2.2
      · exact .lost (hab (by rw [ha]; simpa [Admin.aborts] using hb))
    · have hr' : ok = true → ∀ k, r ≠ .resolved k := fun hok k hk => hr ⟨hok, k, hk⟩
      refine .shut h1 ⟨(frozen hr').trans h2.1, h2.2⟩ fun q hq k => ?_
      cases ok with
      | false => exact h3 q hq k
      | true =>
        rcases mem q hq with hq | rfl
        · exact h3 q hq k
        · exact hr' rfl k
  | gone _ h2 _ => simp [ha, Admin.gone] at h2
  | refused h1 h2 h3 h4 =>
    refine .refused h1 h2 (.inl hfree) fun q hq => ?_
    rcases mem q hq with hq | rfl
    · exact h4 q hq
    · rcases h3 with hf | ⟨j, x, b, hj⟩
      · simp [ha, Admin.free] at hf
      · cases ha.symm.trans hj
        exact ⟨x, rfl⟩
  | ended h1 h2 h3 => exact .ended h1 (by simp [Creating.after, h2]) h3

theorem Source.Serves.list {a : Source} {id : Nat} (h : a.Serves id .list) :
    a.admin = .listing id ∨ ∃ r after, a.admin = .reply id r after := by
  cases ha : a.admin with
  | listing i => simp only [Source.Serves, ha] at h; exact .inl (by rw [h.1])
  | reply i r after => simp only [Source.Serves, ha] at h; exact .inr ⟨r, after, by rw [h.1]⟩
  | resolving _ commit _ _ _ | forgetting _ commit _ _ =>
    simp only [Source.Serves, ha] at h
    cases commit <;> cases h.2
  | _ => simp [Source.Serves, ha] at h

/-- Before the listing is read, the source has no request in hand, or that one. -/
theorem Inv.at_listing (hi : Inv sys) (h : sys.target.pc.lists = true) :
    sys.source.admin.free = true ∨ ∃ id, sys.down = [] ∧ sys.source.Serves id .list := by
  have quiet : sys.target.pc = .call .list → sys.Quiet := fun hp => by
    cases hi.phase with
    | lost h1 _ _ => simp [Target.lost, hp] at h1
    | clean _ _ _ _ h5 => rw [hp] at h5; exact h5.2.2
    | given h1 _ _ _ => rw [hp] at h1; cases h1
  cases hp : sys.target.pc with
  | call st =>
    rw [hp] at h
    cases st with
    | list => exact .inl (quiet hp).2.2
    | _ => cases h
  | wait st id =>
    rw [hp] at h
    cases st with
    | list =>
      cases hi.listing hp with
      | up _ _ hf | down _ _ hf _ => exact .inl hf
      | lost hq => exact .inl hq.2.2
      | source _ hd hs => exact .inr ⟨id, hd, hs⟩
    | _ => cases h
  | _ => rw [hp] at h; cases h

/-- While the source takes a commit back, the target waits for its reply. -/
theorem Inv.at_rollback {i : Nat} {rest : List Nat} {x : Option Err} (hi : Inv sys) (hl : sys.target.lost = false)
    (hb : sys.target.pc.between = true) (ha : sys.source.admin = .rollback i rest x) :
    ∃ id, sys.target.pc = .wait .commit id ∧ sys.up = [] ∧ sys.down = [] := by
  have busy : sys.source.admin.free ≠ true := by simp [ha, Admin.free]
  obtain ⟨-, ho, hins⟩ := Pc.between_iff.mp hb
  cases hi.phase with
  | lost h _ _ => exact absurd (hl.symm.trans h) (by decide)
  | given h _ _ _ => exact absurd (ho.symm.trans h) (by decide)
  | clean _ _ _ _ hat =>
    cases hp : sys.target.pc with
    | call st =>
      rw [hp] at hat
      cases st with
      | retry _ _ _ => rcases hat.admin with hf | ⟨_, _, _, hr, -⟩ <;> simp_all
      | _ => exact absurd hat.2.2.2.2 busy
    | wait st id =>
      rw [hp] at hat
      have carried : Carries sys id (sys.target.request st) → (∃ names, sys.target.request st = .commit names) ∧
          sys.up = [] ∧ sys.down = [] := fun hc => by
        cases hc with
        | up _ _ hf | down _ _ hf _ => exact absurd hf busy
        | lost hq => exact absurd hq.2.2 busy
        | source hu hd hs =>
          simp only [Source.Serves, ha] at hs
          exact ⟨hs.2, hu, hd⟩
      cases st with
      | retry _ _ _ => rcases hat.admin with hf | ⟨_, _, _, hr, -⟩ <;> simp_all
      | commit => exact ⟨id, rfl, (carried hat.2.2.2).2⟩
      | _ => obtain ⟨_, hr⟩ := (carried hat.2.2.2).1; cases hr
    | takeFD n rest name again =>
      rw [hp] at hat
      cases again with
      | none => exact absurd hat.2.2.2.2.2 busy
      | some _ => cases hat
    | build n rest name master => rw [hp] at hat; exact absurd hat.2.2.2.2.2 busy
    | insert => exact absurd hp hins
    | _ => rw [hp] at hat; cases hat

theorem Standing.act {e : AdminEv} (h : Standing s) (hi : LiveInv s.live) (ha : Act s.live.sys.source e source)
    (hk : e = .listed → s.holding = [] ∧ ∃ id, s.live.sys.source.admin = .listing id) :
    Standing (s.after (.source (.act e)) (s.live.sys.withSource source)) := by
  have ho := hi.inv.orderly
  -- the source lists for a target that waits for it, or has gone
  have unlisted : s.live.sys.target.pc.lists = false → s.live.sys.target.lost = true ∨
      (∀ k, s.live.sys.source.admin ≠ .listing k) ∧ e ≠ .listed := fun hp => by
    by_cases hx : ∃ k, s.live.sys.source.admin = .listing k
    · rcases hi.whole.asked (.inl hx) with ⟨id, hq⟩ | hq
      · rw [hq] at hp; cases hp
      · exact .inl (by simp [Target.lost, hq])
    · exact .inr ⟨fun k hl => hx ⟨k, hl⟩, fun he => hx (hk he).2⟩
  have inv : e ≠ .listed → (s.after (.source (.act e)) (s.live.sys.withSource source)).live.inventory = s.live.inventory :=
    fun he => if_neg (by simpa using he)
  cases h with
  | lost h => exact .lost h
  | listing h1 h2 h3 h4 =>
    rcases hi.inv.at_listing h1 with hf | ⟨id, hd, hs⟩
    · -- the handler is on its way out
      have hg := ha.gone hf
      have hub : source.hub = s.live.sys.source.hub := (hub_act ho ha).resolve_right (by
        rintro ⟨_, _, _, _, hx, -⟩
        simp [hx, Admin.free] at hf)
      refine .listing h1 (hub ▸ h2) (fun i k a hr => ?_) fun _ _ _ => .inr hg
      rw [show source.admin = _ from hr] at hg
      cases hg
    · rcases hs.list with hx | ⟨r, a, hx⟩
      · cases ha with
        | listed _ =>
          refine .listing h1 h2 (fun i k a hr => by cases hr) fun _ _ _ => .inl ⟨rfl, (hk rfl).1, fun n hn => ?_⟩
          exact h2 n hn
        | unlisted _ =>
          refine .listing h1 h2 (fun i k a hr => by cases hr) fun i l h => ?_
          rcases h with ⟨a, h⟩ | h
          · cases h
          · have h : (i, .listed l) ∈ s.live.sys.down := h
            rw [hd] at h
            cases h
        | _ => simp_all [Admin.resolves]
      · exact absurd hx ha.no_reply
  | shut h1 h2 h3 =>
    by_cases hl : s.live.sys.target.lost = true
    · exact .lost hl
    obtain ⟨hno, hne⟩ := (unlisted (Pc.between_iff.mp h1).1).resolve_left hl
    rcases act_frozen ho ha with hf | ⟨i, hx⟩ | ⟨i, x, hx, hr⟩ | hg
    · exact .shut h1 ⟨hf.trans h2.1, h2.2.1, inv hne ▸ h2.2.2⟩ h3
    · exact absurd hx (hno i)
    · obtain ⟨id, hp, hu, hd⟩ := hi.inv.at_rollback (Bool.eq_false_iff.mpr hl) h1 hx
      exact .refused hp hu (.inr ⟨i, x, .again, hr⟩) (by simp [Creating.after, Sys.withSource, hd])
    · exact .gone h1 hg h3
  | gone h1 h2 h3 => exact .gone h1 (ha.gone (gone_free h2)) h3
  | refused h1 h2 h3 h4 =>
    rcases h3 with hf | ⟨i, x, a, hr⟩
    · exact .refused h1 h2 (.inl (gone_free (ha.gone hf))) h4
    · exact absurd hr ha.no_reply
  | ended h1 h2 h3 =>
    rcases unlisted h1 with hl | ⟨-, hne⟩
    · exact .lost hl
    · exact .ended h1 (by simp [Creating.after, h2]) ⟨h3.1, inv hne ▸ h3.2⟩

end

/-! ### The target's steps -/

section

variable {sys : Sys} {t t' : Target}

/-- Until the listing is read the target stays at it, or fails. -/
theorem turn_from_list {e : TargetEv} (ht : Turn t e t') (h : t.pc.lists = true) : t'.pc = t.pc ∨ t'.lost = true := by
  cases hp : t.pc with
  | call st =>
    rw [hp] at h
    cases st with
    | list =>
      cases ht with
      | cancel | cut _ => exact .inl hp
      | unsent hx _ => cases hp.symm.trans hx; exact .inr rfl
      | failed hx | noFD hx _ | takeFD hx _ | built hx | unbuilt hx | insert hx | start hx _ | started hx _ | close hx _
      | closed hx _ => cases hp.symm.trans hx
    | _ => cases h
  | wait st id =>
    rw [hp] at h
    cases st with
    | list => exact (turn_listing ht hp).imp_right fun h => by simp [Target.lost, h]
    | _ => cases h
  | _ => rw [hp] at h; cases h

/-- What it hears there is the inventory, or it fails. -/
theorem receives_list (t : Target) (id : Nat) (q : Nat × Reply) : (∃ l, q.2 = .listed l) ∨ (t.receives .list id q).lost = true := by
  unfold Target.receives
  split
  · cases h : q.2 with
    | listed l => exact .inl ⟨l, rfl⟩
    | _ => exact .inr rfl
  · exact .inr rfl

theorem wait_lists {st : Stage} {id : Nat} (h : (Pc.wait st id).lists = true) : st = .list := by
  cases st <;> first | rfl | cases h

theorem wait_between {st : Stage} {id : Nat} (h : (Pc.wait st id).between = true) : st ≠ .exit := by
  rintro rfl
  cases h

theorem Standing.recv {st : Stage} {id : Nat} {q : Nat × Reply} {down : List (Nat × Reply)} (h : Standing s)
    (hi : LiveInv s.live) (hp : s.live.sys.target.pc = .wait st id) (hd : s.live.sys.down = q :: down) :
    Standing (s.after (.target .recv) { s.live.sys with target := s.live.sys.target.receives st id q, down := down }) := by
  have hq : q ∈ s.live.sys.down := by rw [hd]; exact .head _
  have rest : (∀ q ∈ s.live.sys.down, ∀ k, q.2 ≠ .resolved k) → ∀ q ∈ down, ∀ k, q.2 ≠ .resolved k := fun h q hq =>
    h q (by rw [hd]; exact .tail _ hq)
  cases h with
  | lost h => exact .lost (receives_lost hp h).1
  | listing h1 h2 h3 h4 =>
    rw [hp] at h1
    obtain rfl := wait_lists h1
    rcases receives_list s.live.sys.target id q with ⟨l, hl⟩ | hl
    · have hb : (s.live.sys.target.receives .list id q).pc.between = true := receives_between (by simp [hl]) (by simp)
      -- it was the only message
      have hnil : down = [] := by
        cases hi.inv.listing hp with
        | up _ hx _ | source _ hx _ => cases hd.symm.trans hx
        | lost hx => cases hd.symm.trans hx.2.1
        | down _ hx _ _ => exact (List.cons.inj (hd.symm.trans hx)).2
      rcases h4 q.1 l (.inr (hl ▸ hq)) with hs | hg
      · exact .shut hb hs (by simp [Creating.after, hnil])
      · exact .gone hb hg (by simp [Creating.after, hnil])
    · exact .lost hl
  | shut h1 h2 h3 => exact .shut (receives_between (h3 q hq) (wait_between (hp ▸ h1))) h2 (rest h3)
  | gone h1 h2 h3 => exact .gone (receives_between (h3 q hq) (wait_between (hp ▸ h1))) h2 (rest h3)
  | refused h1 h2 h3 h4 =>
    cases hp.symm.trans h1
    obtain ⟨x, hx⟩ := h4 q hq
    have hf : s.live.sys.target.receives .commit id q = { s.live.sys.target with received := s.live.sys.target.received ++ q.2.fds }.giveUp := by
      unfold Target.receives
      simp only [hx, Target.failed]
      split <;> rfl
    exact .lost (by rw [Creating.after, hf]; exact giveUp_lost.1)
  | ended _ h2 h3 => exact .ended (receives_lists _ _ _) (by simp [Creating.after, h2]) h3

theorem Standing.target {e : TargetEv} (h : Standing s) (hi : LiveInv s.live) (hm : TargetMove s.live.sys e sys) :
    Standing (s.after (.target e) sys) := by
  cases hm with
  | recv hp hd _ => exact h.recv hi hp hd
  | @send st hp _ =>
    cases h with
    | lost h =>
      rw [lost_call hp, ← lost_wait st s.live.sys.target.nextID] at h
      exact .lost h
    | listing h1 h2 h3 h4 =>
      rw [hp] at h1
      exact .listing (sent_lists.trans h1) h2 h3 h4
    | shut h1 h2 h3 => exact .shut (sent_between hp h1) h2 h3
    | gone h1 h2 h3 => exact .gone (sent_between hp h1) h2 h3
    | refused h1 _ _ _ => cases hp.symm.trans h1
    | ended h1 h2 h3 =>
      rw [hp] at h1
      exact .ended (sent_lists.trans h1) (by simp [Creating.after, h2]) h3
  | @act _ t ht =>
    cases h with
    | lost h => exact .lost (turn_lost ht h).1
    | listing h1 h2 h3 h4 =>
      rcases turn_from_list ht h1 with hp | hl
      · exact .listing (hp ▸ h1) h2 h3 h4
      · exact .lost hl
    | shut h1 h2 h3 => exact .shut (turn_between ht h1) h2 h3
    | gone h1 h2 h3 => exact .gone (turn_between ht h1) h2 h3
    | refused h1 h2 h3 h4 =>
      cases ht with
      | cancel | cut _ => exact .refused h1 h2 h3 h4
      | failed hp => cases hp.symm.trans h1; exact .lost giveUp_lost.1
      | unsent hp _ | noFD hp _ | takeFD hp _ | built hp | unbuilt hp | insert hp | start hp _ | started hp _ | close hp _
      | closed hp _ => cases hp.symm.trans h1
    | ended h1 h2 h3 =>
      have hl : t.pc.lists = false := Bool.eq_false_iff.mpr fun h => by rw [(turn_lists ht h).1, h1] at h; cases h
      exact .ended hl (by simp [Creating.after, h2]) h3

theorem lost_target {e : TargetEv} {a b : Sys} (hm : TargetMove a e b) (h : a.target.lost = true) : b.target.lost = true := by
  cases hm with
  | send hp _ =>
    rw [lost_call hp, ← lost_wait _ a.target.nextID] at h
    exact h
  | recv hp _ _ => exact (receives_lost hp h).1
  | act ht => exact (turn_lost ht h).1

end

/-! ### All steps -/

section

variable {a b : Sys} {e : Ev}

/-- An abort comes from a target that has failed. -/
theorem Inv.aborting {s : Sys} {st : Stage} {names : List Nat} (hi : Inv s) (hp : s.target.pc = .call st)
    (hr : s.target.request st = .abort names) : s.target.lost = true := by
  cases hi.phase with
  | lost h _ _ => exact h
  | given h _ _ _ =>
    rw [hp] at h
    cases st with
    | exit => cases hr
    | _ => cases h
  | clean _ _ _ _ h =>
    rw [hp] at h
    cases st with
    | abortSingle _ _ | abort => cases h.1
    | _ => cases hr

theorem Move.aborts (hm : Move a e b) (hi : Inv a) (h : a.Aborts → a.target.lost = true) (hb : b.Aborts) :
    b.target.lost = true := by
  cases hm with
  | loop _ | child _ => exact h hb
  | @read q up ha hu =>
    refine h ?_
    rcases hb with ⟨i, names, hb⟩ | hb
    · exact .inl ⟨i, names, by rw [hu]; exact .tail _ hb⟩
    · obtain ⟨names, hr⟩ := handle_aborts hb
      exact .inl ⟨q.1, names, by rw [hu, ← hr]; exact .head _⟩
  | readFailed _ => exact h (hb.imp_right fun hb => by cases hb)
  | write _ hx _ =>
    refine h (hb.imp_right fun hb => ?_)
    obtain ⟨-, -, -, -, hi | hi⟩ := wrote_some hx <;> rw [show _ = _ from hi] at hb <;> cases hb
  | act ha => exact h (hb.imp_right fun hb => act_aborts hi.orderly ha hb)
  | target ht =>
    refine lost_target ht ?_
    cases ht with
    | send hp _ =>
      rcases hb with ⟨i, names, hb⟩ | hb
      · rcases List.mem_append.mp hb with hb | hb
        · exact h (.inl ⟨i, names, hb⟩)
        · exact hi.aborting hp (Prod.mk.inj (List.mem_singleton.mp hb)).2.symm
      · exact h (.inr hb)
    | recv _ _ _ | act _ => exact h hb

theorem act_exiting {a b : Source} {e : AdminEv} {i : Nat} {x : After} (ho : Orderly a) (h : Act a e b) :
    b.admin ≠ .reply i .exiting x := by
  intro hb
  cases h with
  | resolve ha hr => rw [hr.admin_eq] at hb; rw [hb] at ha; cases ha
  | recover ha => have := ho.plan; rw [ha] at this; cases this
  | signal ha _ | stable ha _ _ _ => cases ha.symm.trans hb
  | resolvedAll _ => simp only [Source.goto] at hb; split at hb <;> cases hb
  | _ => cases hb

/-- A retirement comes from a target that owns its sessions. -/
theorem Move.exits (hm : Move a e b) (ho : Orderly a.source) (h : a.Exits → a.target.pc.owns = true) (hb : b.Exits) :
    b.target.pc.owns = true := by
  cases hm with
  | loop _ | child _ => exact h hb
  | @read q up ha hu =>
    refine h (.inl ?_)
    rcases hb with ⟨i, hb⟩ | ⟨i, x, hb⟩
    · exact ⟨i, by rw [hu]; exact .tail _ hb⟩
    · rcases handle_reply hb with ⟨y, hy⟩ | hy | ⟨-, hr⟩
      · cases hy
      · cases hy
      · exact ⟨q.1, by rw [hu, ← hr]; exact .head _⟩
  | readFailed _ => exact h (hb.imp_right fun ⟨i, x, hb⟩ => by cases hb)
  | write _ hx _ =>
    refine h (hb.imp_right fun ⟨i, x, hb⟩ => ?_)
    obtain ⟨-, -, -, -, hi | hi⟩ := wrote_some hx <;> cases hi.symm.trans hb
  | act ha => exact h (hb.imp_right fun ⟨i, x, hb⟩ => absurd hb (act_exiting ho ha))
  | target ht =>
    by_cases hx : a.Exits
    · exact (ht.owns (h hx)).1
    cases ht with
    | @send st hp _ =>
      rcases hb with ⟨i, hb⟩ | hb
      · rcases List.mem_append.mp hb with hb | hb
        · exact absurd (.inl ⟨i, hb⟩) hx
        · have hr : a.target.request st = .exit := (Prod.mk.inj (List.mem_singleton.mp hb)).2.symm
          cases st <;> cases hr
          rfl
      · exact absurd (.inr hb) hx
    | recv _ _ _ | act _ => exact absurd hb hx

end

theorem Move.tied {a b : Sys} {e : Ev} (hm : Move a e b) (ho : Orderly a.source) (h : a.source.Tied) : b.source.Tied := by
  cases hm with
  | loop _ | child _ => exact h
  | read _ _ => exact .handle _ _
  | readFailed _ => exact fun i r hr => by cases hr
  | write _ hx _ => exact .wrote hx
  | act ha => exact h.act ho ha
  | target ht => exact ht.same.1 ▸ h

theorem Sys.retires_exits {a : Sys} {e : Ev} (h : a.retires e = true) : a.Exits := by
  unfold Sys.retires at h
  split at h
  · exact .inr ⟨_, _, ‹_›⟩
  · cases h

/-- Owning is for good. -/
theorem Move.owns {a b : Sys} {e : Ev} (hm : Move a e b) (h : a.target.pc.owns = true) : b.target.pc.owns = true := by
  cases hm with
  | target ht => exact (ht.owns h).1
  | _ => exact h

/-- What a step of the upgrade does for the calls. -/
theorem Kept.sys {e : Ev} {sys : Sys} (h : Kept s) (hm : Move s.live.sys e sys)
    (hk : e = .source (.act .listed) → s.holding = [] ∧ ∃ id, s.live.sys.source.admin = .listing id) :
    Kept (s.after e sys) := by
  have hi := h.live
  have ho := hi.inv.orderly
  refine ⟨hi.move (.sys hm fun he => (hk he).2), hm.tied ho h.tied, hm.aborts hi.inv h.aborts, ?_, ?_⟩
  · rintro (hx | hx)
    · exact hm.exits ho (fun hx => h.exits (.inl hx)) hx
    · rcases Bool.or_eq_true_iff.mp hx with hx | hx
      · exact hm.owns (h.exits (.inr hx))
      · exact hm.owns (h.exits (.inl (Sys.retires_exits hx)))
  · cases hm with
    | loop _ | child _ => exact h.standing.inner (by simp)
    | read ha hu => exact h.standing.read ha hu
    | readFailed ha => exact h.standing.readFailed ha
    | write ha hx _ => exact h.standing.write h.tied (fun hab => h.aborts (.inr hab)) ha hx
    | act ha => exact h.standing.act hi ha fun he => hk (by rw [he])
    | target ht => exact h.standing.target hi ht

/-! ### The calls' steps -/

/-- A call gets the lock before the inventory is closed, or when it does not matter any more. -/
theorem Standing.lock {n : Nat} (h : Standing s) (hf : s.live.sys.source.batchFrozen = false) (he : s.ended = false) :
    Standing { s with waiting := s.waiting.erase n, holding := s.holding ++ [n] } := by
  have open_ : ¬ s.Shut := fun hs => absurd (hf.symm.trans hs.1) (by decide)
  cases h with
  | lost h => exact .lost h
  | listing h1 h2 h3 h4 => exact .listing h1 h2 h3 fun i l h => .inr ((h4 i l h).resolve_left open_)
  | shut _ h2 _ => exact absurd h2 open_
  | gone h1 h2 h3 => exact .gone h1 h2 h3
  | refused h1 h2 h3 h4 => exact .refused h1 h2 h3 h4
  | ended _ h2 _ => exact absurd (he.symm.trans h2) (by decide)

theorem Standing.finish {n : Nat} {source : Source} (h : Standing s) (hn : n ∈ s.holding)
    (hm : HubMove s.live.sys.source source) (hh : source.hub = s.live.sys.source.hub ++ [n]) :
    Standing { s with
      live := s.live.withSource source, holding := s.holding.erase n, started := s.started ++ [n] } := by
  obtain ⟨-, -, -, ha, -⟩ := hm.same
  have held : ¬ s.Closed := fun hc => by rw [hc.1] at hn; cases hn
  cases h with
  | lost h => exact .lost h
  | listing h1 h2 h3 h4 =>
    refine .listing h1 (fun m hx => ?_) (fun i k a => ha ▸ h3 i k a) fun i l h => .inr ?_
    · show m ∈ source.hub
      rw [hh]
      exact List.mem_append.mpr ((List.mem_append.mp hx).imp_left (h2 m))
    · have hg := (h4 i l (h.imp_left fun ⟨a, h⟩ => ⟨a, ha.symm.trans h⟩)).resolve_left fun hs => held hs.2
      exact ha ▸ hg
  | shut _ h2 _ => exact absurd h2.2 held
  | gone h1 h2 h3 => exact .gone h1 (ha ▸ h2) h3
  | refused h1 h2 h3 h4 => exact .refused h1 h2 (ha ▸ h3) h4
  | ended _ _ h3 => exact absurd h3 held

theorem Standing.refuse {n : Nat} (h : Standing s) : Standing { s with holding := s.holding.erase n } := by
  have closed : s.Closed → ({ s with holding := s.holding.erase n } : Creating).Closed := fun hc =>
    ⟨by simp [hc.1], hc.2⟩
  cases h with
  | lost h => exact .lost h
  | listing h1 h2 h3 h4 => exact .listing h1 h2 h3 fun i l h => (h4 i l h).imp_left fun hs => ⟨hs.1, closed hs.2⟩
  | shut h1 h2 h3 => exact .shut h1 ⟨h2.1, closed h2.2⟩ h3
  | gone h1 h2 h3 => exact .gone h1 h2 h3
  | refused h1 h2 h3 h4 => exact .refused h1 h2 h3 h4
  | ended h1 h2 h3 => exact .ended h1 h2 (closed h3)

theorem Standing.create {n : Nat} (h : Standing s) : Standing { s with waiting := s.waiting ++ [n] } := by
  cases h with
  | lost h => exact .lost h
  | listing h1 h2 h3 h4 => exact .listing h1 h2 h3 h4
  | shut h1 h2 h3 => exact .shut h1 h2 h3
  | gone h1 h2 h3 => exact .gone h1 h2 h3
  | refused h1 h2 h3 h4 => exact .refused h1 h2 h3 h4
  | ended h1 h2 h3 => exact .ended h1 h2 h3

theorem Kept.move {e : CreateEv} (h : Kept s) (hg : beforeCommit s e = true) (hm : CreateMove s e s') : Kept s' := by
  cases hm with
  | sys hm hk => exact h.sys hm hk
  | create => exact ⟨h.live, h.tied, h.aborts, h.exits, h.standing.create⟩
  | lock hf => exact ⟨h.live, h.tied, h.aborts, h.exits, h.standing.lock hf (by simpa [beforeCommit] using hg)⟩
  | refuse => exact ⟨h.live, h.tied, h.aborts, h.exits, h.standing.refuse⟩
  | @finish n source hn hm hh =>
    obtain ⟨-, -, -, ha, -⟩ := hm.same
    refine ⟨h.live.move (e := .opened n) (.hub hm), ?_, ?_, ?_, h.standing.finish hn hm hh⟩
    · exact fun i r => ha ▸ h.tied i r
    · exact fun hx => h.aborts (hx.imp_right fun hx => ha ▸ hx)
    · exact fun hx => h.exits (hx.imp_left (Or.imp_right fun hx => ha ▸ hx))

theorem Kept.init (h : createMachine.init s) : Kept s := by
  obtain ⟨l, hl, rfl⟩ := h
  have hi := LiveInv.init hl
  obtain ⟨sessions, hub, -, -, rfl⟩ := hl
  refine ⟨hi, fun i r h => ?_, ?_, ?_, .listing rfl (fun _ h => ?_) (fun i k a h => ?_) ?_⟩
  · cases h
  · rintro (⟨_, _, h⟩ | h) <;> cases h
  · rintro ((⟨_, h⟩ | ⟨_, _, h⟩) | h) <;> cases h
  · cases h
  · cases h
  · rintro i l (⟨_, h⟩ | h) <;> cases h

theorem Kept.reach (h : createMachine.Reach beforeCommit s) : Kept s :=
  h.invariant (fun _ => .init) fun _ _ _ hi hg h => hi.move hg (create_move h)

/-! ## The sessions that are started -/

/-- Once the commit is answered the inventory is complete. -/
theorem Standing.closed (h : Standing s) (ho : s.live.sys.target.pc.owns = true) : s.Closed := by
  have hpc := Pc.owns_cases ho
  cases h with
  | lost h => rcases hpc with ⟨_, hp⟩ | hp | ⟨_, hp⟩ | hp <;> simp [Target.lost, hp] at h
  | listing h _ _ _ => rcases hpc with ⟨_, hp⟩ | hp | ⟨_, hp⟩ | hp <;> rw [hp] at h <;> cases h
  | shut h _ _ | gone h _ _ => exact absurd ((Pc.between_iff.mp h).2.1.symm.trans ho) (by decide)
  | refused h _ _ _ => rw [h] at ho; cases ho
  | ended _ _ h => exact h

/-- The sessions of a source that has retired are the target's. -/
theorem started_sessions_are_adopted (h : createMachine.Reach beforeCommit s) (hr : s.retired = true) :
    ∀ n ∈ s.started, n ∈ s.live.sys.target.hub := by
  have hk := Kept.reach h
  have ho := hk.exits (.inr hr)
  rw [hk.live.owned ho]
  exact (hk.standing.closed ho).2

/-- The sessions that are in the hub; all but 1 can still be started. -/
def startable (hub : List Nat) : Creating :=
  ⟨⟨begun (fun n => if n = 1 then ⟨Core.dead, .idle⟩ else ⟨Core.fresh true, .idle⟩) hub, []⟩, [], [], [], false, false⟩

theorem startable_init {hub : List Nat} (h : hub.Nodup) : createMachine.init (startable hub) := by
  refine ⟨_, ⟨_, hub, fun n => ?_, h, rfl⟩, rfl⟩
  by_cases hn : n = 1
  · simp only [hn, if_true]
    exact .inl rfl
  · simp only [hn, if_false]
    exact .inr ⟨.init ⟨true, rfl⟩, rfl, rfl⟩

/-- An upgrade with the one session that is in the hub. -/
def singleRun : List Ev :=
  firstRun ++ .target .send :: .source .read :: acts 6 ++ .loop 0 .go :: .loop 0 .go :: acts 7 ++
    [.source (.write true), .target .recv, .target .go, .target .go, .target .go, .target .send, .source .read,
      .source (.write true), .target .recv]

theorem started_sessions_are_adopted_single : ∃ s : Creating, createMachine.Reach beforeCommit s ∧ s.retired = true ∧
    s.started = [0] ∧ 0 ∈ s.live.sys.target.hub := by
  obtain ⟨s, hs, hr, hn⟩ := createMachine.exists_reach beforeCommit (startable_init List.nodup_nil)
    (([.create 0, .lock 0, .finish 0] : List CreateEv) ++ singleRun.map CreateEv.sys) (P := fun s => s.retired = true ∧ s.started = [0]) (by decide)
  exact ⟨s, hs, hr, hn, started_sessions_are_adopted hs hr 0 (by simp [hn])⟩

/-- A call waits for the lock while the batch is frozen and gets it when the commit is answered.
    The source retires all the same. -/
theorem a_session_started_after_the_commit_is_lost : ∃ s : Creating, createMachine.Reach Machine.always s ∧
    s.retired = true ∧ s.live.sys.target.pc = .returned true ∧ s.started = [2] ∧ s.live.sys.target.hub = [0, 1] ∧
    s.live.sys.source.hub = [2] := by
  refine createMachine.exists_reach Machine.always (startable_init (show [0, 1].Nodup by decide))
    (preparedRun.map CreateEv.sys ++ ([.create 2] : List CreateEv) ++ committedRun.map CreateEv.sys ++
      ([.sys (.source (.write true)), .lock 2, .finish 2] : List CreateEv) ++ retiredRun.tail.map CreateEv.sys) ?_
  decide

end Ghostline.Handoff
