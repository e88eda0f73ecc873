/-
  Ghostline.Handoff.Serve — the source's handler with any peer.

  `Handoff.Upgrade` has the target this version of the code is. Here the peer may send
  anything: any method in any order, parameters that do not decode, methods there are
  none of, and it may go away at any point. `Served` also has the calls the handler makes
  on the locks: `beginMigration` and `finishMigration` take and release a session's
  `operationMu`, `beginMigrationBatch` and `endMigrationBatch` the hub's `lifecycleMu`.

  - While the batch is not frozen other calls may start and delete sessions. A session is
    known by its number: one that is started later under an old name has another.
  - `list` and `exit` have no parameters to decode.
-/

import Ghostline.Handoff.Owner

namespace Ghostline.Handoff

open Lib Session

/-! ## Requests -/

inductive Incoming where
  | request (r : Request)
  /-- The parameters of an `adopt`, `snapshot`, `commit` or `abort` that do not decode. -/
  | malformed (message : String)
  | unknown (method : String)
  deriving DecidableEq, Repr

/-! ## Calls on the locks -/

inductive Call where
  /-- `beginMigration` of session `n` returns ticket `t`, with `operationMu` taken. -/
  | began (n t : Nat)
  | finishMigration (n t : Nat)
  /-- The last action of `finishMigration`. -/
  | unlocked (n t : Nat)
  | batchBegan
  | batchEnded
  deriving DecidableEq, Repr

namespace Source

variable (s : Source)

def receive (id : Nat) : Incoming → Source
  | .request r => s.handle id r
  | .malformed message => s.refuse id (some (.other message))
  | .unknown method => s.refuse id (some (.other ("unknown admin method: " ++ method)))

def receiveCalls : Incoming → List Call
  | .request (.adopt n) =>
    if s.batchFrozen && !decide (n ∈ s.pending) && decide (n ∈ s.hub) then
      match Release.step (s.sessions n) .begin with
      | some _ => [.began n (s.sessions n).core.issued]
      | none => []
    else []
  | _ => []

/-- The calls of `resolveAdoption`'s next action. -/
def resolveCalls (n : Nat) : List Call :=
  match (s.sessions n).handler with
  | .awaiting t | .prepared t => [.finishMigration n t]
  | .finish t f =>
    match (s.sessions n).core.finStep t f with
    | some (_, .finished _) => [.unlocked n t]
    | _ => []
  | _ => []

def endBatchCalls : List Call := if s.batchFrozen && s.pending.isEmpty then [.batchEnded] else []

def calls (e : AdminEv) : List Call :=
  match s.admin, e with
  | .listing _, .listed => [.batchBegan]
  | .listing _, .listFailed => [.batchBegan, .batchEnded]
  | .undoing _ n _, .go | .resolving _ _ _ (n :: _) _, .go | .leaving (some n), .go => s.resolveCalls n
  | .rollback _ [] _, .go | .recovering _ [], .go => s.endBatchCalls
  | .rollback _ (n :: _) _, .go =>
    match (s.sessions n).handler with
    | .prepared _ => if s.current n then s.resolveCalls n else []
    | _ => s.resolveCalls n
  | .recovering _ (n :: _), .go =>
    match (s.sessions n).handler with
    | .finish t (.finished _) => if s.current n then [.finishMigration n t] else []
    | _ => s.resolveCalls n
  | .leaving none, .go => if s.batchFrozen then [.batchEnded] else []
  | _, _ => []

def writeCalls (ok : Bool) : List Call :=
  match s.admin with
  | .reply _ _ .endBatch => if ok then s.endBatchCalls else []
  | _ => []

end Source

/-! ## Other calls -/

/-- A session no copy loop or handler has touched. -/
def unopened (x : Release.Sys) : Bool := x.core.loop == .check && x.handler == .idle && !x.core.migrated

namespace Source

variable (s : Source)

/-- A call that holds `lifecycleMu` puts a session it has started into the hub. -/
def opens (n : Nat) : Option Source :=
  if !s.batchFrozen && decide (n ∉ s.hub) && unopened (s.sessions n) then some { s with hub := s.hub ++ [n] } else none

/-- And one that deletes a session takes it out. -/
def deletes (n : Nat) : Option Source := if s.batchFrozen then none else some (s.remove n)

end Source

/-- What other calls do to the hub. -/
inductive HubMove (s : Source) : Source → Prop
  | opened {n : Nat} : s.batchFrozen = false → n ∉ s.hub → (s.sessions n).core.loop = .check →
      (s.sessions n).core.migrated = false → HubMove s { s with hub := s.hub ++ [n] }
  | deleted {n : Nat} : s.batchFrozen = false → HubMove s (s.remove n)

theorem opens_move {s s' : Source} {n : Nat} (h : s.opens n = some s') : HubMove s s' := by
  simp only [Source.opens, unopened, Option.ite_none_right_eq_some, Option.some.injEq, Bool.and_eq_true, beq_iff_eq,
    Bool.not_eq_true', decide_eq_true_eq] at h
  obtain ⟨⟨⟨hf, hn⟩, ⟨hl, -⟩, hm⟩, rfl⟩ := h
  exact .opened hf hn hl hm

theorem deletes_move {s s' : Source} {n : Nat} (h : s.deletes n = some s') : HubMove s s' := by
  simp only [Source.deletes, Option.ite_none_left_eq_some, Option.some.injEq, Bool.not_eq_true] at h
  obtain ⟨hf, rfl⟩ := h
  exact .deleted hf

/-! ## The machine -/

structure Served where
  source : Source
  calls : List Call

inductive ServeEv where
  | loop (n : Nat) (e : LoopEv)
  | child (n : Nat) (e : Core.ChildEv)
  /-- Another call changes the hub. -/
  | opened (n : Nat)
  | deleted (n : Nat)
  | read (id : Nat) (q : Incoming)
  | readFailed
  | write (ok : Bool)
  | act (e : AdminEv)
  deriving DecidableEq, Repr

namespace Served

variable (s : Served)

def step (e : ServeEv) : Option Served :=
  match e with
  | .loop n e =>
    ((s.source.sessions n).core.loopStep e).map fun c =>
      { s with source := s.source.set n { s.source.sessions n with core := c } }
  | .child n e =>
    ((s.source.sessions n).core.childStep e).map fun c =>
      { s with source := s.source.set n { s.source.sessions n with core := c } }
  | .opened n => (s.source.opens n).map fun source => { s with source := source }
  | .deleted n => (s.source.deletes n).map fun source => { s with source := source }
  | .read id q =>
    if s.source.admin = .idle then some ⟨s.source.receive id q, s.calls ++ s.source.receiveCalls q⟩ else none
  | .readFailed => if s.source.admin = .idle then some { s with source := s.source.goto (.leaving none) } else none
  | .write ok => (s.source.wrote ok).map fun source => ⟨source, s.calls ++ s.source.writeCalls ok⟩
  | .act e => (s.source.step e).map fun source => ⟨source, s.calls ++ s.source.calls e⟩

end Served

/-- A connection to a source between two upgrades. -/
def serveMachine : Machine Served ServeEv where
  init s := ∃ sessions hub, (∀ n, Resting (sessions n)) ∧ s = ⟨⟨sessions, hub, [], false, .idle⟩, []⟩
  step := Served.step

/-- What a step does to the source. -/
inductive ServeMove (s : Source) : ServeEv → Source → Prop
  | loop {n : Nat} {e : LoopEv} {c : Core} : LoopMove (s.sessions n).core e c →
      ServeMove s (.loop n e) (s.set n { s.sessions n with core := c })
  | child {n : Nat} {e : Core.ChildEv} {c : Core} : (s.sessions n).core.childStep e = some c →
      ServeMove s (.child n e) (s.set n { s.sessions n with core := c })
  | hub {e : ServeEv} {s' : Source} : HubMove s s' → ServeMove s e s'
  | read {id : Nat} {r : Request} : s.admin = .idle → ServeMove s (.read id (.request r)) (s.handle id r)
  | refused {id : Nat} {q : Incoming} {err : Err} : s.admin = .idle → ServeMove s (.read id q) (s.refuse id (some err))
  | readFailed : s.admin = .idle → ServeMove s .readFailed (s.goto (.leaving none))
  | write {ok : Bool} {s' : Source} : s.wrote ok = some s' → ServeMove s (.write ok) s'
  | act {e : AdminEv} {s' : Source} : Act s e s' → ServeMove s (.act e) s'

variable {s s' : Source} {n : Nat}

theorem serve_move {a b : Served} {e : ServeEv} (h : a.step e = some b) : ServeMove a.source e b.source := by
  cases e with
  | loop n e =>
    obtain ⟨c, hc, rfl⟩ := Option.map_eq_some_iff.mp h
    exact .loop (loopStep_move hc)
  | child n e =>
    obtain ⟨c, hc, rfl⟩ := Option.map_eq_some_iff.mp h
    exact .child hc
  | opened n =>
    obtain ⟨x, hx, rfl⟩ := Option.map_eq_some_iff.mp h
    exact .hub (opens_move hx)
  | deleted n =>
    obtain ⟨x, hx, rfl⟩ := Option.map_eq_some_iff.mp h
    exact .hub (deletes_move hx)
  | read id q =>
    simp only [Served.step, Option.ite_none_right_eq_some, Option.some.injEq] at h
    obtain ⟨ha, rfl⟩ := h
    cases q with
    | request r => exact .read ha
    | malformed message | unknown method => exact .refused ha
  | readFailed =>
    simp only [Served.step, Option.ite_none_right_eq_some, Option.some.injEq] at h
    obtain ⟨ha, rfl⟩ := h
    exact .readFailed ha
  | write ok =>
    obtain ⟨x, hx, rfl⟩ := Option.map_eq_some_iff.mp h
    exact .write hx
  | act e =>
    obtain ⟨x, hx, rfl⟩ := Option.map_eq_some_iff.mp h
    exact .act (act_of_step hx)

/-! ## What every run keeps -/

/-- Sessions that have left the hub with their loop returned stay out, and those that come
    in are not marked. -/
theorem Orderly.hub (hi : Orderly s) (h : HubMove s s') : Orderly s' := by
  have change : ∀ hub : List Nat, (∀ n, s.Gone n → n ∉ hub) →
      (∀ n ∈ hub, n ∈ s.hub ∨ (s.sessions n).core.migrated = false) → Orderly { s with hub := hub } := by
    intro hub hg hm
    refine ⟨hi.kept, hi.plan.mono fun n h => ⟨hg n h, h.2⟩, hi.role, fun n hn h => ?_⟩
    rcases hm n hn with hn | hn
    · exact hi.owner n hn h
    · exact absurd (hn.symm.trans h) (by decide)
  cases h with
  | @opened n _ _ hl hm =>
    refine change _ (fun m hg hx => ?_) fun m hx => ?_
    · rcases List.mem_append.mp hx with hx | hx
      · exact hg.1 hx
      · obtain rfl := List.mem_singleton.mp hx
        have := hg.2
        rw [hl] at this
        cases this
    · rcases List.mem_append.mp hx with hx | hx
      · exact .inl hx
      · exact .inr (List.mem_singleton.mp hx ▸ hm)
  | deleted _ =>
    exact change _ (fun m hg hx => hg.1 (List.mem_filter.mp hx).1) fun m hx => .inl (List.mem_filter.mp hx).1

/-- Nothing but the hub changes. -/
theorem HubMove.same (h : HubMove s s') : s'.sessions = s.sessions ∧ s'.pending = s.pending ∧
    s'.batchFrozen = s.batchFrozen ∧ s'.admin = s.admin ∧ s.batchFrozen = false := by
  cases h with
  | opened hf _ _ _ | deleted hf => exact ⟨rfl, rfl, rfl, rfl, hf⟩

theorem Orderly.serve {e : ServeEv} (hi : Orderly s) (h : ServeMove s e s') : Orderly s' := by
  cases h with
  | loop hm => exact hi.loop hm
  | child hc => exact hi.child hc
  | hub hh => exact hi.hub hh
  | read ha => exact hi.handle ha _ _
  | refused ha => exact hi.takes rfl rfl trivial (by simp [ha, Admin.role]) (by simp [Source.refuse, Source.goto, Admin.role])
  | readFailed ha => exact hi.readFailed ha
  | write hw => exact hi.wrote hw
  | act ha => exact hi.act ha

/-- Only pending sessions have a handler, and only a frozen batch has pending sessions. -/
structure Tended (s : Source) : Prop where
  idle : ∀ n, n ∉ s.pending → (s.sessions n).handler = .idle
  frozen : s.pending = [] ∨ s.batchFrozen = true
  returned : s.admin = .returned → s.pending = [] ∧ s.batchFrozen = false

theorem Tended.keep (ht : Tended s) (hs : ∀ n, (s'.sessions n).handler = (s.sessions n).handler) (hp : s'.pending = s.pending)
    (hf : s'.batchFrozen = s.batchFrozen) (ha : s'.admin = .returned → s.admin = .returned) : Tended s' where
  idle n hn := (hs n).trans (ht.idle n (hp ▸ hn))
  frozen := by rw [hp, hf]; exact ht.frozen
  returned h := by rw [hp, hf]; exact ht.returned (ha h)

/-- The handler of a pending session moves on. -/
theorem Tended.set {x : Release.Sys} (ht : Tended s) (hn : (s.sessions n).handler ≠ .idle) : Tended (s.set n x) where
  idle m := by
    refine forall_set (P := fun m y => m ∉ s.pending → y.handler = .idle) (fun hm => ?_) (fun k _ => ht.idle k) m
    exact absurd (ht.idle n hm) hn
  frozen := ht.frozen
  returned := ht.returned

theorem Tended.forget (ht : Tended s) : Tended (s.forget n) where
  idle m := by
    refine forall_set (P := fun m y => m ∉ s.pending.filter (· ≠ n) → y.handler = .idle) (fun _ => rfl)
      (fun k hk hm => ht.idle k fun h => hm ?_) m
    exact List.mem_filter.mpr ⟨h, by simpa using hk⟩
  frozen := by
    refine ht.frozen.imp (fun h => ?_) id
    show s.pending.filter (· ≠ n) = []
    rw [h]; rfl
  returned h := by
    obtain ⟨h1, h2⟩ := ht.returned h
    refine ⟨?_, h2⟩
    show s.pending.filter (· ≠ n) = []
    rw [h1]; rfl

theorem Tended.goto {a : Admin} (ht : Tended s) (ha : a ≠ .returned) : Tended (s.goto a) :=
  ⟨ht.idle, ht.frozen, fun h => absurd h ha⟩

theorem Tended.endBatchIfIdle (ht : Tended s) : Tended s.endBatchIfIdle := by
  unfold Source.endBatchIfIdle
  split
  · rename_i h
    simp only [Bool.and_eq_true, List.isEmpty_iff] at h
    exact ⟨ht.idle, .inl h.2, fun ha => ⟨(ht.returned ha).1, rfl⟩⟩
  · exact ht

theorem Resolve.busy {commit : Bool} {b : Option Bool} (h : Resolve s n commit s' b) : (s.sessions n).handler ≠ .idle := by
  cases h with
  | start h => rcases h with h | h <;> simp [h]
  | act h _ | ended h => simp [h]

theorem Tended.resolve {commit : Bool} {b : Option Bool} (ht : Tended s) (h : Resolve s n commit s' b) : Tended s' := by
  have hn := h.busy
  cases h with
  | start _ | act _ _ => exact ht.set hn
  | ended _ => exact ht

theorem Tended.act {e : AdminEv} (ht : Tended s) (hi : Orderly s) (h : Act s e s') : Tended s' := by
  cases h with
  | listed _ => exact ⟨ht.idle, .inr rfl, by simp [Source.goto]⟩
  | unlisted _ | described _ _ | undo _ _ | preflight _ _ | unsettled _ | settled _ | resolved _ _ | forgotten _
  | pick _ _ => exact ht.goto (by simp)
  | resolvedAll _ => exact ht.goto (by split <;> simp)
  | signal _ hh | stable _ hh _ _ => exact ht.set (by simp [hh])
  | resolve _ hr => exact ht.resolve hr
  | undone _ _ | stale _ _ | rolled _ _ | left _ _ => exact ht.forget.goto (by simp)
  | rolledBack _ => exact ht.endBatchIfIdle.goto (by simp)
  | recover ha => have := hi.plan; rw [ha] at this; cases this
  | @forget id n names rest commit ha =>
    have hf : Tended (s.forget n) := ht.forget
    cases commit with
    | false => exact hf.goto (by simp)
    | true => exact Tended.goto (s := (s.forget n).remove n) ⟨hf.idle, hf.frozen, hf.returned⟩ (by simp)
  | done _ hp => exact ⟨ht.idle, .inl hp, fun _ => ⟨hp, rfl⟩⟩

theorem Tended.handle (ht : Tended s) (id : Nat) (r : Request) : Tended (s.handle id r) := by
  cases r with
  | adopt m =>
    simp only [Source.handle, Source.adopt]
    split
    · exact ht.goto (by simp)
    · rename_i hf
      simp only [Bool.not_eq_true', Bool.not_eq_false] at hf
      repeat' split
      iterate 3 exact ht.goto (by simp)
      refine ⟨fun k => ?_, .inr hf, by simp [Source.goto]⟩
      refine forall_set (P := fun k y => k ∉ s.pending ++ [m] → y.handler = .idle) (fun hk => ?_) (fun k _ hk => ?_) k
      · simp at hk
      · exact ht.idle k fun h => hk (List.mem_append_left _ h)
  | _ =>
    simp only [Source.handle]
    split <;> exact ht.goto (by simp)

theorem Tended.wrote {ok : Bool} (ht : Tended s) (h : s.wrote ok = some s') : Tended s' := by
  unfold Source.wrote at h
  split at h
  · split at h <;> cases h
    iterate 3 exact ht.goto (by simp)
    · exact ht.endBatchIfIdle.goto (by simp)
    · exact ht.goto (by simp)
  · cases h

theorem Tended.serve {e : ServeEv} (ht : Tended s) (hi : Orderly s) (h : ServeMove s e s') : Tended s' := by
  cases h with
  | @loop n _ c _ | @child n _ c _ =>
    refine ht.keep (fun m => ?_) rfl rfl id
    exact forall_set (x := { s.sessions n with core := c }) (P := fun m y => y.handler = (s.sessions m).handler) rfl
      (fun _ _ => rfl) m
  | hub hh =>
    obtain ⟨h1, h2, h3, h4, -⟩ := hh.same
    exact ht.keep (fun m => by rw [h1]) h2 h3 fun h => h4 ▸ h
  | read _ => exact ht.handle _ _
  | refused _ | readFailed _ => exact ht.goto (by simp)
  | write hw => exact ht.wrote hw
  | act ha => exact ht.act hi ha

theorem serve_reach {a : Served} {ok : Served → ServeEv → Bool} (h : serveMachine.Reach ok a) :
    Orderly a.source ∧ Tended a.source := by
  refine h.invariant (I := fun a => Orderly a.source ∧ Tended a.source) ?_ fun a e b hi _ hs =>
    ⟨hi.1.serve (serve_move hs), hi.2.serve hi.1 (serve_move hs)⟩
  rintro _ ⟨sessions, hub, hrest, rfl⟩
  have rest := fun n => (hrest n).kept
  refine ⟨⟨fun n => (rest n).1, trivial, fun n => .inl (rest n).2.1, fun n _ hm => ?_⟩, ⟨fun n _ => (rest n).2.1, .inl rfl, by simp⟩⟩
  exact absurd ((rest n).2.2.symm.trans hm) (by decide)

/-! ## What a step does to one session -/

inductive SessionMove (x : Release.Sys) : Release.Sys → Prop
  | same : SessionMove x x
  | loop {e : LoopEv} {c : Core} : LoopMove x.core e c → SessionMove x { x with core := c }
  | child {e : Core.ChildEv} {c : Core} : x.core.childStep e = some c → SessionMove x { x with core := c }
  | begin {c : Core} {h : Handler} : x.handler = .idle → x.core.beginMigration = some c →
      h = .wake x.core.issued ∨ h = .awaiting x.core.issued → SessionMove x ⟨c, h⟩
  | signal {t : Nat} : x.handler = .wake t → SessionMove x ⟨x.core.signalMigrationWake, .awaiting t⟩
  | stable {t : Nat} : x.handler = .awaiting t → SessionMove x { x with handler := .prepared t }
  | start {t : Nat} {commit : Bool} : x.handler = .awaiting t ∨ x.handler = .prepared t →
      SessionMove x { x with handler := .finish t (.start commit) }
  | finish {t : Nat} {f f' : Core.Fin} {c : Core} : x.handler = .finish t f → FinMove x.core t f c f' →
      SessionMove x ⟨c, .finish t f'⟩
  | drop : SessionMove x { x with handler := .idle }

theorem SessionMove.set {x : Release.Sys} (h : SessionMove (s.sessions n) x) (m : Nat) :
    SessionMove (s.sessions m) ((s.set n x).sessions m) :=
  forall_set (P := fun m y => SessionMove (s.sessions m) y) h (fun _ _ => .same) m

theorem SessionMove.forget (m : Nat) : SessionMove (s.sessions m) ((s.forget n).sessions m) :=
  SessionMove.drop.set m

theorem Act.session {e : AdminEv} (hi : Orderly s) (h : Act s e s') (m : Nat) :
    SessionMove (s.sessions m) (s'.sessions m) := by
  cases h with
  | listed _ | unlisted _ | described _ _ | undo _ _ | preflight _ _ | unsettled _ | settled _ | resolved _ _
  | resolvedAll _ | forgotten _ | pick _ _ | done _ _ => exact .same
  | signal _ hh => exact (SessionMove.signal hh).set m
  | stable _ hh _ _ => exact (SessionMove.stable hh).set m
  | resolve _ hr =>
    cases hr with
    | start hh => exact (SessionMove.start hh).set m
    | act hh hm => exact (SessionMove.finish hh hm).set m
  | undone _ _ | stale _ _ | rolled _ _ | left _ _ => exact .forget m
  | rolledBack _ => rw [show (s.endBatchIfIdle.refuse _ _).sessions = _ from (endBatchIfIdle_same (s := s)).1]; exact .same
  | recover ha => have := hi.plan; rw [ha] at this; cases this
  | @forget _ n _ _ commit _ => cases commit <;> exact .forget m

theorem handle_session (id : Nat) (r : Request) (m : Nat) : SessionMove (s.sessions m) ((s.handle id r).sessions m) := by
  cases r with
  | adopt n =>
    simp only [Source.handle, Source.adopt]
    repeat' split
    iterate 3 exact .same
    · exact .same
    · rename_i x hx
      obtain ⟨hh, c, hc, rfl⟩ := begin_some hx
      exact (SessionMove.begin hh hc (by split <;> simp)).set m
  | _ =>
    simp only [Source.handle]
    split <;> exact .same

theorem ServeMove.session {e : ServeEv} (hi : Orderly s) (h : ServeMove s e s') (m : Nat) :
    SessionMove (s.sessions m) (s'.sessions m) := by
  cases h with
  | loop hm => exact (SessionMove.loop hm).set m
  | child hc => exact (SessionMove.child hc).set m
  | refused _ | readFailed _ => exact .same
  | hub hh => rw [hh.same.1]; exact .same
  | read _ => exact handle_session _ _ m
  | write hw => rw [(wrote_some hw).2.1]; exact .same
  | act ha => exact ha.session hi m

/-- What every move of a session keeps, as long as the session is kept, holds of each
    session in every run. -/
theorem serve_sessions {a : Served} {ok : Served → ServeEv → Bool} {P : Release.Sys → Prop}
    (h0 : ∀ x, x.handler = .idle → P x) (hs : ∀ x y, Release.Kept x → P x → SessionMove x y → P y)
    (h : serveMachine.Reach ok a) (n : Nat) : P (a.source.sessions n) := by
  induction h generalizing n with
  | init hi =>
    obtain ⟨sessions, hub, hrest, rfl⟩ := hi
    exact h0 _ (hrest n).kept.2.1
  | step e hr _ he ih =>
    have ho := (serve_reach hr).1
    exact hs _ _ (ho.kept n) (ih n) ((serve_move he).session ho n)

/-! ## A connection -/

/-- A connection to a source with one session just started and one adopted before without a
    master. -/
def servedTwo : Served := ⟨twoSessions.source, []⟩

theorem servedTwo_init : serveMachine.init servedTwo := by
  obtain ⟨sessions, hub, hrest, he⟩ := twoSessions_init
  exact ⟨sessions, hub, hrest, by rw [servedTwo, he]; rfl⟩

/-- Both sessions are listed and adopted. -/
def adoptedRun : List ServeEv :=
  [.read 1 (.request .list), .act .listed, .write true,
    .read 2 (.request (.adopt 0)), .act .go, .loop 0 .go, .loop 0 .go, .loop 0 .unreadable, .loop 0 .go, .act .go,
    .act (.described true), .write true, .read 3 (.request (.adopt 1)), .act .go, .act (.described true), .write true]

end Ghostline.Handoff
