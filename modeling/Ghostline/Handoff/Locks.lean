/-
  Ghostline.Handoff.Locks — the handler gives back what it has locked.

  `Locks.call` is what one call does to the locks, and `none` when it may not be made: an
  unlock of a lock that is not held panics, and so does a second `finishMigration` of one
  ticket; a lock the handler holds itself is never free for it. `Source.locks` says which
  locks are held where the handler stands, and every step makes just the calls that lead
  from the locks before it to the locks after it (`step_calls`). So the calls of a run can
  all be made, and when the handler has returned nothing is held.
-/

import Ghostline.Handoff.Serve

namespace Ghostline.Handoff

open Lib Session

/-! ## Locks -/

/-- A session's `operationMu`, as this handler has it. -/
inductive Lock where
  | free
  | held (t : Nat)
  /-- In `finishMigration` of the ticket. -/
  | finishing (t : Nat)
  deriving DecidableEq, Repr

@[ext] structure Locks where
  operation : Nat → Lock
  lifecycle : Bool

namespace Locks

def free : Locks := ⟨fun _ => .free, false⟩

def moves (l : Locks) (n : Nat) (a b : Lock) : Option Locks :=
  if l.operation n = a then some { l with operation := Function.update l.operation n b } else none

def call (l : Locks) : Call → Option Locks
  | .began n t => l.moves n .free (.held t)
  | .finishMigration n t => l.moves n (.held t) (.finishing t)
  | .unlocked n t => l.moves n (.finishing t) .free
  | .batchBegan => if l.lifecycle then none else some { l with lifecycle := true }
  | .batchEnded => if l.lifecycle then some { l with lifecycle := false } else none

def replay (l : Locks) : List Call → Option Locks
  | [] => some l
  | c :: cs => (l.call c).bind fun l => replay l cs

theorem replay_append (l : Locks) (cs ds : List Call) : l.replay (cs ++ ds) = (l.replay cs).bind fun l => l.replay ds := by
  induction cs generalizing l with
  | nil => rfl
  | cons c cs ih =>
    simp only [List.cons_append, replay, Option.bind_assoc]
    congr
    funext l
    exact ih l

theorem moves_some {l l' : Locks} {n : Nat} {a b : Lock} (h : l.moves n a b = some l') :
    l.operation n = a ∧ l'.operation = Function.update l.operation n b ∧ l'.lifecycle = l.lifecycle := by
  simp only [moves, Option.ite_none_right_eq_some, Option.some.injEq] at h
  obtain ⟨hn, rfl⟩ := h
  exact ⟨hn, rfl, rfl⟩

/-! ### How often each call is made -/

/-- Whether the lock of session `n` stands at `a`, as a number. -/
def stands (l : Locks) (n : Nat) (a : Lock) : Nat := if l.operation n = a then 1 else 0

/-- Whether the hub is frozen, as a number. -/
def frozen (l : Locks) : Nat := if l.lifecycle then 1 else 0

/-- The calls of a ticket, and those of the batch, follow each other. -/
structure Tally (l l' : Locks) (cs : List Call) : Prop where
  begun : ∀ n t, cs.count (.began n t) + l.stands n (.held t) = cs.count (.finishMigration n t) + l'.stands n (.held t)
  finished : ∀ n t, cs.count (.finishMigration n t) + l.stands n (.finishing t) =
    cs.count (.unlocked n t) + l'.stands n (.finishing t)
  batch : cs.count .batchBegan + l.frozen = cs.count .batchEnded + l'.frozen

theorem Tally.nil (l : Locks) : Tally l l [] := ⟨fun _ _ => rfl, fun _ _ => rfl, rfl⟩

theorem stands_moves {l l' : Locks} {n m : Nat} {a b x : Lock} (h : l.moves n a b = some l') :
    l'.stands m x = if m = n then (if b = x then 1 else 0) else l.stands m x := by
  obtain ⟨-, ho, -⟩ := moves_some h
  simp only [stands, ho]
  by_cases hm : m = n
  · subst hm; simp
  · simp [hm]

theorem call_tally {l l' : Locks} {c : Call} (h : l.call c = some l') : Tally l l' [c] := by
  cases c with
  | began k u | finishMigration k u | unlocked k u =>
    have hk := (moves_some h).1
    have hl := (moves_some h).2.2
    refine ⟨fun n t => ?_, fun n t => ?_, by simp [frozen, hl]⟩
    all_goals
      rw [stands_moves h]
      by_cases hn : n = k
      · subst hn
        by_cases ht : u = t
        · subst ht; simp [stands, hk]
        · simp [stands, hk, ht]
      · have hn' : ¬ k = n := fun e => hn e.symm
        simp [hn, hn']
  | batchBegan =>
    simp only [call, Option.ite_none_left_eq_some, Option.some.injEq, Bool.not_eq_true] at h
    obtain ⟨hl, rfl⟩ := h
    exact ⟨fun n t => by simp [stands], fun n t => by simp [stands], by simp [frozen, hl]⟩
  | batchEnded =>
    simp only [call, Option.ite_none_right_eq_some, Option.some.injEq] at h
    obtain ⟨hl, rfl⟩ := h
    exact ⟨fun n t => by simp [stands], fun n t => by simp [stands], by simp [frozen, hl]⟩

theorem replay_tally {l l' : Locks} {cs : List Call} (h : l.replay cs = some l') : Tally l l' cs := by
  induction cs generalizing l with
  | nil => obtain rfl := Option.some.inj h; exact .nil _
  | cons c cs ih =>
    obtain ⟨k, hk, h⟩ := Option.bind_eq_some_iff.mp h
    obtain ⟨b1, f1, a1⟩ := call_tally hk
    obtain ⟨b2, f2, a2⟩ := ih h
    rw [← List.singleton_append]
    refine ⟨fun n t => ?_, fun n t => ?_, ?_⟩ <;> simp only [List.count_append]
    · have := b1 n t; have := b2 n t; omega
    · have := f1 n t; have := f2 n t; omega
    · omega

end Locks

/-! ## The locks of a handler -/

def lockOf : Handler → Lock
  | .idle | .finish _ (.finished _) => .free
  | .wake t | .awaiting t | .prepared t => .held t
  | .finish t _ => .finishing t

def Source.locks (s : Source) : Locks := ⟨fun n => lockOf (s.sessions n).handler, s.batchFrozen⟩

variable {s s' : Source} {n : Nat}

theorem locks_set (x : Release.Sys) :
    (s.set n x).locks = { s.locks with operation := Function.update s.locks.operation n (lockOf x.handler) } := by
  refine Locks.ext (funext fun m => ?_) rfl
  by_cases h : m = n
  · subst h; simp [Source.locks]
  · simp [Source.locks, set_ne h, h]

/-- The handler moves one session's lock on by one call. -/
theorem replay_set {x : Release.Sys} {c : Call} {a b : Lock} (hc : ∀ l : Locks, l.call c = l.moves n a b)
    (ha : lockOf (s.sessions n).handler = a) (hb : lockOf x.handler = b) :
    s.locks.replay [c] = some (s.set n x).locks := by
  have hn : s.locks.operation n = a := ha
  simp [Locks.replay, hc, Locks.moves, locks_set, hn, hb]

/-- A step that leaves the session's lock as it is. -/
theorem locks_set_same {x : Release.Sys} (hx : lockOf x.handler = lockOf (s.sessions n).handler) :
    (s.set n x).locks = s.locks := by
  rw [locks_set, hx]
  refine Locks.ext ?_ rfl
  exact Function.update_eq_self n _

theorem locks_forget (h : lockOf (s.sessions n).handler = .free) : (s.forget n).locks = s.locks :=
  locks_set_same (x := { s.sessions n with handler := .idle }) h.symm

theorem locks_hub (h : HubMove s s') : s'.locks = s.locks := by
  obtain ⟨h1, -, h3, -, -⟩ := h.same
  rw [Source.locks, h1, h3]
  rfl

theorem lockOf_finish {t : Nat} {f : Core.Fin} (hf : ∀ err, f ≠ .finished err) : lockOf (.finish t f) = .finishing t := by
  cases f with
  | finished err => exact absurd rfl (hf err)
  | _ => rfl

/-! ## The calls of a step -/

theorem resolve_calls {commit : Bool} {r : Source × Option Bool} (h : s.resolveAdoption n commit = some r) :
    s.locks.replay (s.resolveCalls n) = some r.1.locks ∧ (r.2.isSome = true → lockOf (r.1.sessions n).handler = .free) := by
  unfold Source.resolveAdoption at h
  split at h
  · rename_i t hh
    cases h
    simp only [Source.resolveCalls, hh]
    exact ⟨replay_set (fun _ => rfl) (by rw [hh]; rfl) rfl, by simp⟩
  · rename_i t hh
    cases h
    simp only [Source.resolveCalls, hh]
    exact ⟨replay_set (fun _ => rfl) (by rw [hh]; rfl) rfl, by simp⟩
  · rename_i t err hh
    cases h
    simp only [Source.resolveCalls, hh, Core.finStep]
    exact ⟨rfl, fun _ => rfl⟩
  · rename_i t f hf hh
    obtain ⟨⟨c, f'⟩, hp, rfl⟩ := Option.map_eq_some_iff.mp h
    have hlock : lockOf (s.sessions n).handler = .finishing t := by rw [hh]; exact lockOf_finish hf
    simp only [Source.resolveCalls, hh, hp]
    refine ⟨?_, by simp⟩
    split
    · rename_i heq
      cases heq
      exact replay_set (fun _ => rfl) hlock rfl
    · rename_i hne
      refine congrArg some (locks_set_same ?_).symm
      rw [hlock]
      exact lockOf_finish fun err he => hne c err (by rw [he])
  · cases h

theorem resolve_map {commit : Bool} {g : Source × Option Bool → Source} (h : (s.resolveAdoption n commit).map g = some s')
    (hg : ∀ r, (r.2.isSome = true → lockOf (r.1.sessions n).handler = .free) → (g r).locks = r.1.locks) :
    s.locks.replay (s.resolveCalls n) = some s'.locks := by
  obtain ⟨r, hr, rfl⟩ := Option.map_eq_some_iff.mp h
  obtain ⟨hl, hf⟩ := resolve_calls hr
  rw [hg r hf]
  exact hl

/-- The loop goes on when the session is over, and then forgets it. -/
theorem resolve_forget {commit : Bool} {a : Admin}
    (h : (s.resolveAdoption n commit).map (fun r => if r.2.isSome then (r.1.forget n).goto a else r.1) = some s') :
    s.locks.replay (s.resolveCalls n) = some s'.locks := by
  refine resolve_map h fun r hf => ?_
  split
  · rename_i hr; exact locks_forget (hf hr)
  · rfl

theorem endBatch_calls : s.locks.replay s.endBatchCalls = some s.endBatchIfIdle.locks := by
  unfold Source.endBatchCalls Source.endBatchIfIdle
  split
  · rename_i h
    simp only [Bool.and_eq_true] at h
    simp [Locks.replay, Locks.call, Source.locks, h.1]
  · rfl

/-- What the handler has given back where it stands. -/
def GivenBack (s : Source) : Admin → Prop
  | .listing _ => s.batchFrozen = false
  | .resolving _ _ names rest _ => ∀ n ∈ names, n ∉ rest → lockOf (s.sessions n).handler = .free
  | .forgetting _ _ _ rest => ∀ n ∈ rest, lockOf (s.sessions n).handler = .free
  | _ => True

/-- A prepared session's migration is its ticket's. -/
theorem prepared_current {t : Nat} (hi : Orderly s) (hh : (s.sessions n).handler = .prepared t) : s.current n = true := by
  have hp := (hi.kept n).prepared t (by rw [hh]; rfl)
  simp [Source.current, hh, Handler.ticket, hp.current]

theorem step_calls {e : AdminEv} (hi : Orderly s) (hb : GivenBack s s.admin) (h : s.step e = some s') :
    s.locks.replay (s.calls e) = some s'.locks := by
  have hplan := hi.plan
  revert h
  fun_cases Source.step s e
  all_goals intro h
  case case1 ha =>
    cases h
    rw [ha] at hb
    simp only [Source.calls, ha]
    simp [Locks.replay, Locks.call, Source.locks, Source.goto, show s.batchFrozen = false from hb]
  case case3 ha =>
    cases h
    rw [ha] at hb
    simp only [Source.calls, ha]
    simp [Locks.replay, Locks.call, Source.locks, Source.goto, Source.refuse, show s.batchFrozen = false from hb]
  case case4 ha _ hh =>
    cases h
    simp only [Source.calls, ha]
    exact congrArg some (locks_set_same (by rw [hh]; rfl)).symm
  case case5 ha _ hh _ =>
    cases h
    simp only [Source.calls, ha]
    split
    · rfl
    · exact congrArg some (locks_set_same (by rw [hh]; rfl)).symm
  case case12 ha => simp only [Source.calls, ha]; exact resolve_forget h
  case case15 ha => cases h; simp only [Source.calls, ha]; exact endBatch_calls
  case case16 ha _ hh hc =>
    simp only [Source.calls, ha, hh, hc, if_true]
    exact resolve_map h fun r _ => rfl
  case case17 hh hc => exact absurd (prepared_current hi hh) hc
  case case18 ha _ => simp only [Source.calls, ha]; exact resolve_forget h
  case case20 ha =>
    simp only [Source.calls, ha]
    refine resolve_map h fun r _ => ?_
    split <;> rfl
  case case21 ha | case22 ha _ _ _ _ | case23 ha _ _ _ _ _ | case24 ha _ => rw [ha] at hplan; cases hplan
  case case26 commit _ _ _ ha s₁ =>
    cases h
    rw [ha] at hb
    have hfree := locks_forget (hb _ (.head _))
    have hs₁ : s₁.locks = s.locks := by cases commit <;> exact hfree
    simp only [Source.calls, ha]
    exact congrArg some hs₁.symm
  case case29 ha _ =>
    cases h
    simp only [Source.calls, ha]
    split
    · rename_i hf; simp [Locks.replay, Locks.call, Source.locks, Source.goto, hf]
    · rename_i hf
      have hf : s.batchFrozen = false := by simpa using hf
      simp [Locks.replay, Source.locks, Source.goto, hf]
  case case31 ha => simp only [Source.calls, ha]; exact resolve_forget h
  all_goals first | (cases h; done) | (cases h; simp only [Source.calls, *]; rfl)

theorem receive_calls (id : Nat) (q : Incoming) : s.locks.replay (s.receiveCalls q) = some (s.receive id q).locks := by
  cases q with
  | malformed _ | unknown _ => rfl
  | request r =>
    cases r with
    | adopt n =>
      simp only [Source.receiveCalls, Source.receive, Source.handle, Source.adopt]
      by_cases hf : s.batchFrozen = true
      · by_cases hp : n ∈ s.pending
        · simp [hf, hp, Locks.replay]; rfl
        · by_cases hh : n ∈ s.hub
          · simp only [hf, hp, hh, decide_true, decide_false, Bool.not_false, Bool.not_true, Bool.and_self, if_true, if_false,
              Bool.false_eq_true, not_true]
            cases hb : Release.step (s.sessions n) .begin with
            | none => rfl
            | some x =>
              obtain ⟨hidle, c, -, rfl⟩ := begin_some hb
              refine replay_set (n := n) (a := .free) (b := .held (s.sessions n).core.issued) (fun _ => rfl) (by rw [hidle]; rfl) ?_
              dsimp only
              split <;> rfl
          · simp [hf, hp, hh, Locks.replay]; rfl
      · simp [hf, Locks.replay]; rfl
    | _ =>
      simp only [Source.receiveCalls, Source.receive, Source.handle]
      split <;> rfl

theorem write_calls {ok : Bool} (h : s.wrote ok = some s') : s.locks.replay (s.writeCalls ok) = some s'.locks := by
  unfold Source.wrote at h
  split at h
  · rename_i id r after ha
    simp only [Source.writeCalls, ha]
    split at h <;> cases h
    · rfl
    · rfl
    · rfl
    · exact endBatch_calls
    · split <;> rfl
  · cases h

/-! ## Along a run -/

/-- No session that was given back is taken again. -/
theorem GivenBack.mono {a : Admin} (h : GivenBack s a) (hf : s'.batchFrozen = s.batchFrozen)
    (hl : ∀ n, lockOf (s.sessions n).handler = .free → lockOf (s'.sessions n).handler = .free) : GivenBack s' a := by
  cases a with
  | listing _ => exact hf.trans h
  | resolving _ _ _ _ _ => exact fun n hn hr => hl n (h n hn hr)
  | forgetting _ _ _ _ => exact fun n hn => hl n (h n hn)
  | _ => trivial

theorem GivenBack.resolve {commit : Bool} (h : GivenBack s s.admin) (ha : s.admin.resolves = some (n, commit))
    (hr : Resolve s n commit s' none) : GivenBack s' s'.admin := by
  have other : ∀ m, m ≠ n → s'.sessions m = s.sessions m := by
    intro m hm
    cases hr <;> exact set_ne hm
  rw [hr.admin_eq]
  cases hadm : s.admin with
  | listing _ | forgetting _ _ _ _ => rw [hadm] at ha; cases ha
  | resolving id c names rest failed =>
    -- the session in work is the first of those left
    rw [hadm] at h ha
    intro m hm hout
    cases rest with
    | nil => cases ha
    | cons k rest =>
      cases ha
      rw [other m fun he => hout (he ▸ List.mem_cons_self)]
      exact h m hm hout
  | _ => trivial

theorem GivenBack.act {e : AdminEv} (hi : Orderly s) (h : GivenBack s s.admin) (ha : Act s e s') :
    GivenBack s' s'.admin := by
  have hplan := hi.plan
  cases ha with
  | @signal id n t ha _ | @stable id n t ha _ _ _ =>
    show GivenBack _ s.admin
    rw [ha]; trivial
  | resolve ha hr => exact h.resolve ha hr
  | settled _ => exact fun n hn hout => absurd hn hout
  | @resolved id n names rest commit failed err ha hr =>
    rw [ha] at h
    obtain ⟨t, e, hh, -, -⟩ := hr.finished
    intro m hm hout
    by_cases hmn : m = n
    · subst hmn
      show lockOf (s.sessions m).handler = .free
      rw [hh]; rfl
    · exact h m hm (by simp [hmn, hout])
  | @resolvedAll id names commit failed ha =>
    rw [ha] at h hplan
    obtain ⟨-, -, rfl⟩ := hplan
    exact fun m hm => h m hm (by simp)
  | recover ha => rw [ha] at hplan; cases hplan
  | @forget id n names rest commit ha =>
    rw [ha] at h
    have hold : GivenBack s (.forgetting id commit names rest) := fun m hm => h m (.tail _ hm)
    have hrest : GivenBack (s.forget n) (.forgetting id commit names rest) := by
      refine hold.mono rfl fun m => ?_
      exact forall_set (x := { s.sessions n with handler := .idle })
        (P := fun m y => lockOf (s.sessions m).handler = .free → lockOf y.handler = .free) (fun _ => rfl) (fun _ _ h => h) m
    cases commit <;> exact hrest
  | _ => trivial

theorem GivenBack.handle (id : Nat) (r : Request) : GivenBack (s.handle id r) (s.handle id r).admin := by
  cases r with
  | list =>
    simp only [Source.handle]
    split
    · trivial
    · rename_i hf; exact (by simpa using hf : s.batchFrozen = false)
  | adopt n =>
    simp only [Source.handle, Source.adopt]
    repeat' split
    all_goals trivial
  | abort names =>
    simp only [Source.handle]
    split
    · exact fun n hn hout => absurd hn hout
    · trivial
  | _ =>
    simp only [Source.handle]
    split <;> trivial

theorem GivenBack.serve {e : ServeEv} (hi : Orderly s) (h : GivenBack s s.admin) (hm : ServeMove s e s') :
    GivenBack s' s'.admin := by
  cases hm with
  | @loop n _ c _ | @child n _ c _ =>
    refine h.mono rfl fun m => ?_
    exact forall_set (x := { s.sessions n with core := c })
      (P := fun m y => lockOf (s.sessions m).handler = .free → lockOf y.handler = .free) id (fun _ _ => id) m
  | hub hh =>
    obtain ⟨h1, -, h3, h4, -⟩ := hh.same
    rw [h4]
    exact h.mono h3 fun n hn => by rw [h1]; exact hn
  | read _ => exact .handle _ _
  | refused _ | readFailed _ => trivial
  | write hw =>
    obtain ⟨-, -, -, -, ha | ha⟩ := wrote_some hw <;> rw [ha] <;> trivial
  | act ha => exact h.act hi ha

/-- The calls made so far lead to the locks held now, and every ticket was begun once. -/
structure Ledger (a : Served) : Prop where
  back : GivenBack a.source a.source.admin
  held : Locks.free.replay a.calls = some a.source.locks
  issued : ∀ n t, .began n t ∈ a.calls → t < (a.source.sessions n).core.issued
  once : ∀ n t, a.calls.count (.began n t) ≤ 1

/-- The handler begins no migration but on an `adopt`. -/
theorem calls_began (e : AdminEv) (m t : Nat) : .began m t ∉ s.calls e := by
  have resolve : ∀ k, .began m t ∉ s.resolveCalls k := by
    intro k
    unfold Source.resolveCalls
    repeat' split
    all_goals simp
  have batch : .began m t ∉ s.endBatchCalls := by
    unfold Source.endBatchCalls
    split <;> simp
  unfold Source.calls
  repeat' split
  all_goals first | exact resolve _ | exact batch | simp

theorem writeCalls_began (ok : Bool) (m t : Nat) : .began m t ∉ s.writeCalls ok := by
  unfold Source.writeCalls Source.endBatchCalls
  repeat' split
  all_goals simp

/-- An `adopt` begins the migration of one session, with its next ticket. -/
theorem receiveCalls_began (id : Nat) (q : Incoming) :
    s.receiveCalls q = [] ∨ ∃ n, s.receiveCalls q = [.began n (s.sessions n).core.issued] ∧
      (s.sessions n).core.issued < ((s.receive id q).sessions n).core.issued := by
  unfold Source.receiveCalls
  split
  · rename_i n
    split
    · rename_i hc
      simp only [Bool.and_eq_true, Bool.not_eq_true', decide_eq_true_eq, decide_eq_false_iff_not] at hc
      split
      · rename_i x hx
        obtain ⟨-, c, hb, rfl⟩ := begin_some hx
        obtain rfl := beginMigration_eq hb
        refine .inr ⟨n, rfl, ?_⟩
        simp only [Source.receive, Source.handle, Source.adopt, hc.1.1, hc.1.2, hc.2, hx, Bool.not_true, not_true,
          Bool.false_eq_true, if_false, Source.goto, set_self]
        exact Nat.lt_succ_self _
      · exact .inl rfl
    · exact .inl rfl
  · exact .inl rfl

theorem SessionMove.issued {x y : Release.Sys} (h : SessionMove x y) : x.core.issued ≤ y.core.issued := by
  cases h with
  | same | signal _ | stable _ | start _ | drop => exact Nat.le_refl _
  | loop hm | finish _ hm => exact hm.grows.issued
  | child hc => exact (Grows.child hc).issued
  | begin _ hb _ => exact (Grows.begin hb).issued

theorem Ledger.step {a b : Served} {e : ServeEv} (hi : Orderly a.source) (hl : Ledger a) (h : a.step e = some b) :
    Ledger b := by
  have hm := serve_move h
  have hback := hl.back.serve hi hm
  have hissued := fun n => (hm.session hi n).issued
  -- a step that begins nothing makes the calls `cs`
  have quiet : ∀ cs, b.calls = a.calls ++ cs → a.source.locks.replay cs = some b.source.locks →
      (∀ n t, .began n t ∉ cs) → Ledger b := by
    intro cs hc hr hn
    refine ⟨hback, by rw [hc, Locks.replay_append, hl.held]; exact hr, fun n t ht => ?_, fun n t => ?_⟩
    · rw [hc] at ht
      have := (List.mem_append.mp ht).resolve_right (hn n t)
      exact Nat.lt_of_lt_of_le (hl.issued n t this) (hissued n)
    · rw [hc, List.count_append, List.count_eq_zero.mpr (hn n t)]
      exact hl.once n t
  cases e with
  | loop n e | child n e =>
    obtain ⟨c, hc, rfl⟩ := Option.map_eq_some_iff.mp h
    have hsame := locks_set_same (s := a.source) (n := n) (x := { a.source.sessions n with core := c }) rfl
    exact quiet [] (by simp) (congrArg some hsame.symm) (by simp)
  | opened n =>
    obtain ⟨x, hx, rfl⟩ := Option.map_eq_some_iff.mp h
    exact quiet [] (by simp) (congrArg some (locks_hub (opens_move hx)).symm) (by simp)
  | deleted n =>
    obtain ⟨x, hx, rfl⟩ := Option.map_eq_some_iff.mp h
    exact quiet [] (by simp) (congrArg some (locks_hub (deletes_move hx)).symm) (by simp)
  | readFailed =>
    simp only [Served.step, Option.ite_none_right_eq_some, Option.some.injEq] at h
    obtain ⟨-, rfl⟩ := h
    exact quiet [] (by simp) rfl (by simp)
  | write ok =>
    obtain ⟨x, hx, rfl⟩ := Option.map_eq_some_iff.mp h
    exact quiet _ rfl (write_calls hx) (writeCalls_began ok)
  | act e =>
    obtain ⟨x, hx, rfl⟩ := Option.map_eq_some_iff.mp h
    exact quiet _ rfl (step_calls hi hl.back hx) (calls_began e)
  | read id q =>
    simp only [Served.step, Option.ite_none_right_eq_some, Option.some.injEq] at h
    obtain ⟨-, rfl⟩ := h
    rcases receiveCalls_began (s := a.source) id q with hc | ⟨n, hc, hlt⟩
    · exact quiet _ rfl (receive_calls id q) (by simp [hc])
    · -- the new ticket is none of those begun before
      refine ⟨hback, by rw [Locks.replay_append, hl.held]; exact receive_calls id q, fun m t ht => ?_, fun m t => ?_⟩
      all_goals rw [hc] at *
      · rcases List.mem_append.mp ht with ht | ht
        · exact Nat.lt_of_lt_of_le (hl.issued m t ht) (hissued m)
        · cases List.mem_singleton.mp ht
          exact hlt
      · rw [List.count_append]
        by_cases hk : Call.began n (a.source.sessions n).core.issued = .began m t
        · cases hk
          have : a.calls.count (.began n (a.source.sessions n).core.issued) = 0 :=
            List.count_eq_zero.mpr fun hx => Nat.lt_irrefl _ (hl.issued _ _ hx)
          rw [this, List.count_singleton_self]
        · rw [List.count_singleton, if_neg (by simpa using hk)]
          exact hl.once m t

theorem Ledger.reach {a : Served} (h : serveMachine.Reach Machine.always a) : Ledger a := by
  induction h with
  | init hi =>
    obtain ⟨sessions, hub, hrest, rfl⟩ := hi
    refine ⟨trivial, congrArg some (Locks.ext (funext fun n => ?_) rfl), by simp, by simp⟩
    show Lock.free = lockOf (sessions n).handler
    rw [(hrest n).kept.2.1]
    rfl
  | step e hr _ he ih => exact ih.step (serve_reach hr).1 he

/-- In every state of every connection the calls the handler has made could be made: no
    lock is unlocked that it does not hold, and none locked that it holds. When it has
    returned it holds none: every ticket it began was finished once, and every batch it
    began has ended. -/
theorem locks_are_given_back {a : Served} (h : serveMachine.Reach Machine.always a) :
    (Locks.free.replay a.calls).isSome = true ∧
    (a.source.admin = .returned → Locks.free.replay a.calls = some Locks.free ∧
      (∀ n t, .began n t ∈ a.calls → a.calls.count (.finishMigration n t) = 1 ∧ a.calls.count (.unlocked n t) = 1) ∧
      (∀ n t, .began n t ∉ a.calls → a.calls.count (.finishMigration n t) = 0 ∧ a.calls.count (.unlocked n t) = 0) ∧
      a.calls.count .batchEnded = a.calls.count .batchBegan) := by
  have hl := Ledger.reach h
  refine ⟨by rw [hl.held]; rfl, fun ha => ?_⟩
  have ht := (serve_reach h).2
  obtain ⟨hp, hf⟩ := ht.returned ha
  have hfree : a.source.locks = Locks.free := by
    refine Locks.ext (funext fun n => ?_) hf
    show lockOf (a.source.sessions n).handler = .free
    rw [ht.idle n (by simp [hp])]
    rfl
  have hrep := hfree ▸ hl.held
  obtain ⟨hb, hfin, hbatch⟩ := Locks.replay_tally hrep
  have tally : ∀ n t, a.calls.count (.finishMigration n t) = a.calls.count (.began n t) ∧
      a.calls.count (.unlocked n t) = a.calls.count (.began n t) := by
    intro n t
    have h1 := hb n t
    have h2 := hfin n t
    simp only [Locks.stands, Locks.free, reduceCtorEq, if_false] at h1 h2
    omega
  refine ⟨hrep, fun n t hm => ?_, fun n t hm => ?_, ?_⟩
  · have hone : a.calls.count (.began n t) = 1 := by
      have := List.count_pos_iff.mpr hm
      have := hl.once n t
      omega
    rw [(tally n t).1, (tally n t).2, hone]
    exact ⟨rfl, rfl⟩
  · rw [(tally n t).1, (tally n t).2, List.count_eq_zero.mpr hm]
    exact ⟨rfl, rfl⟩
  · simp only [Locks.frozen, Locks.free] at hbatch
    omega

/-- A request out of order, one that does not decode, both sessions adopted and one aborted;
    then the peer goes away. -/
def brokenOffRun : List ServeEv :=
  ([.read 1 (.request (.adopt 0)), .write true, .read 2 (.unknown "retire"), .write false] : List ServeEv) ++
    adoptedRun ++
    ([.read 4 (.malformed "unexpected end of JSON input"), .write true, .read 5 (.request (.abort [1]))] :
      List ServeEv) ++
    (List.replicate 9 (.act .go) : List ServeEv) ++
    ([.write true, .read 6 (.request .list), .write true, .readFailed, .act (.pick 0)] : List ServeEv) ++
    (List.replicate 3 (.act .go) : List ServeEv) ++ ([.loop 0 .go, .loop 0 .go] : List ServeEv) ++
    (List.replicate 4 (.act .go) : List ServeEv)

theorem locks_are_given_back_broken_off :
    ∃ a, serveMachine.Reach Machine.always a ∧ a.source.admin = .returned ∧ Locks.free.replay a.calls = some Locks.free ∧
      a.calls.count (.finishMigration 0 0) = 1 := by
  obtain ⟨a, hr, ha, hm⟩ := serveMachine.exists_reach Machine.always servedTwo_init brokenOffRun
    (P := fun a => a.source.admin = .returned ∧ .began 0 0 ∈ a.calls) (by decide)
  obtain ⟨hf, hc, -, -⟩ := (locks_are_given_back hr).2 ha
  exact ⟨a, hr, ha, hf, (hc 0 0 hm).1⟩

end Ghostline.Handoff
