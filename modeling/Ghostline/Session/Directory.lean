/-
  Ghostline.Session.Directory — the output directory of a committed session.

  Once a session is marked migrated, its directory belongs to the target. The copy loop
  is sealed, and a call that asks for the current session is turned away: the batch keeps
  every call out until the session is out of the map. `RotateOutput` and `PruneOutput` do
  not ask. They rely on the log being closed, which the copy loop does last, some time
  after the batch ends (`a_late_rotation_adds_a_segment`). When neither reaches the log
  of a committed session before it is closed, no step of the source changes the directory
  (`committed_directory_stays`).
-/

import Ghostline.Session.Commit
import Ghostline.Session.State

namespace Ghostline.Session

open Lib Output

/-- Acts that leave the segment files and the directory alone. -/
def Act.quiet : Act → Bool
  | .append _ _ | .rotate _ | .prune _ _ _ | .discard => false
  | _ => true

theorem act_quiet (s : Store) {a : Act} (h : a.quiet = true) :
    (s.act a).log.files = s.log.files ∧ (s.act a).log.linked = s.log.linked := by
  have hclose : (s.log.close none).files = s.log.files ∧ (s.log.close none).linked = s.log.linked := by
    unfold OutputLog.close
    split <;> exact ⟨rfl, rfl⟩
  cases a with
  | markSize size =>
    obtain ⟨sizes, changed, he⟩ := markSize_eq s.log size
    simp [Store.act, he]
  | closeLog | close => exact hclose
  | append _ _ | rotate _ | prune _ _ _ | discard => cases h
  | idle | feed _ | resizeVt _ | setSize _ => exact ⟨rfl, rfl⟩

/-- The call found its session the current one. -/
def Pc.checked : Pc → Bool
  | .gate op | .inside op | .body op => op != .rotate
  | .captured _ _ | .resizing _ _ _ | .removing | .termGate _ | .terminating _ | .discarding => true
  | _ => false

theorem Pc.inBatch_of_checked {pc : Pc} (h : pc.checked = true) : pc.inBatch = true := by
  cases pc <;> simp_all [Pc.checked, Pc.inBatch]

/-! ## What a call does -/

variable {s s' : Sys} {e : Ev} {pc : Pc} {x : OpEv} {o : Sys.Out}

theorem OpMove.inBatch (h : OpMove s pc x o) (hf : s.frozen = true) : pc.inBatch = true := by
  cases h with
  | enter h => rw [hf] at h; cases h
  | _ => rfl

theorem enter_unchecked (hm : s.inMap = false) (op : Op) : (s.enter op).checked = false := by
  cases op with
  | resize size => simp only [Sys.enter, hm]; split <;> rfl
  | _ => simp [Sys.enter, hm, Pc.checked]

/-- A call comes past the check only as the current session's. -/
theorem OpMove.checked (h : OpMove s pc x o) (ho : o.pc.checked = true) : pc.checked = true ∨ s.inMap = true := by
  rcases hm : s.inMap with _ | _
  · left
    cases h with
    | @check op => exact absurd ho (by rw [Sys.out, enter_unchecked hm op]; simp)
    | lock _ hr => exact ho
    | capture _ ha => subst ha; cases ‹Bool› <;> rfl
    | _ => first | rfl | exact ho | cases ho
  · exact .inr rfl

/-- Who changes the directory. -/
theorem OpMove.act (h : OpMove s pc x o) : o.act.quiet = true ∨ pc.checked = true ∨
    (pc = .body .rotate ∧ ∃ fail, o.act = .rotate fail) ∨
    ∃ before order rm, pc = .pruning before ∧ o.act = .prune before order rm := by
  cases h with
  | rotate => exact .inr (.inr (.inl ⟨rfl, _, rfl⟩))
  | prune _ => exact .inr (.inr (.inr ⟨_, _, _, rfl, rfl⟩))
  | resize _ | discard => exact .inr (.inl rfl)
  | _ => exact .inl rfl

/-! ## Along a run -/

/-- `RotateOutput` and `PruneOutput` do not reach the log of a committed session before it
    is closed. -/
def handsOff (s : Sys) : Ev → Bool
  | .op i _ =>
    match s.ops[i]? with
    | some (.body .rotate) | some (.pruning _) => !s.core.migrated || s.store.log.closed
    | _ => true
  | _ => true

structure BatchInv (s : Sys) : Prop where
  safe : Release.Safe s.mig
  apart : s.frozen = true → ∀ pc ∈ s.ops, pc.inBatch = false
  busy : s.mig.handler ≠ .idle → s.frozen = true
  out : s.core.migrated = true → s.mig.handler = .idle → s.inMap = false
  unchecked : s.core.migrated = true → ∀ pc ∈ s.ops, pc.checked = false

/-- During a batch nobody is past the check. -/
theorem BatchInv.unchecked_frozen (hi : BatchInv s) (hf : s.frozen = true) : ∀ pc ∈ s.ops, pc.checked = false := by
  intro pc hp
  by_contra hc
  exact absurd (Pc.inBatch_of_checked (by simpa using hc)) (by simp [hi.apart hf pc hp])

theorem migrated_of_idle {m m' : Release.Sys} {r : Release.Ev} (h : Release.step m r = some m') (hm : m'.handler = .idle) :
    m'.core.migrated = m.core.migrated := by
  cases Release.step_move h with
  | loop hl => exact hl.migrated
  | child hc => exact (SameTickets.child hc).migrated
  | begin _ _ hh => rcases hh with rfl | rfl <;> cases hm
  | turn _ => rfl
  | finish _ _ => cases hm

theorem BatchInv.step (h : s.step e = some s') (hi : BatchInv s) : BatchInv s' := by
  cases step_move h with
  | loop _ hm =>
    have hg := hm.migrated
    exact ⟨hi.safe.loop hm, hi.apart, hi.busy, fun h => hi.out (hg ▸ h), fun h => hi.unchecked (hg ▸ h)⟩
  | child hm =>
    have hs := SameTickets.child hm
    exact ⟨hi.safe.same hs, hi.apart, hi.busy, fun h => hi.out (hs.migrated ▸ h), fun h => hi.unchecked (hs.migrated ▸ h)⟩
  | freeze _ ho => exact ⟨hi.safe, fun _ => ho, fun _ => rfl, hi.out, hi.unchecked⟩
  | unfreeze hh => exact ⟨hi.safe, by simp, fun hn => absurd hh hn, hi.out, hi.unchecked⟩
  | remove _ _ => exact ⟨hi.safe, hi.apart, hi.busy, fun _ _ => rfl, hi.unchecked⟩
  | @begin m hf _ hm =>
    have hm' : m.handler ≠ .idle := by
      cases Release.step_move hm with
      | begin _ _ hh => rcases hh with rfl | rfl <;> simp
      | turn ht => cases ht; simp
    exact ⟨hi.safe.step hm, hi.apart, fun _ => hf, fun _ hh => absurd hh hm', fun _ => hi.unchecked_frozen hf⟩
  | handler _ hm hh ho =>
    have hf := hi.busy hh
    exact ⟨hi.safe.step hm, hi.apart, fun _ => hf, fun hg hn => ho hn (migrated_of_idle hm hn ▸ hg),
      fun _ => hi.unchecked_frozen hf⟩
  | call =>
    have start : ∀ {P : Pc → Prop} {op : Op}, (∀ pc ∈ s.ops, P pc) → P (.start op) → ∀ pc ∈ s.ops ++ [.start op], P pc := by
      intro P op h1 h2 pc hp
      rcases List.mem_append.mp hp with hp | hp
      · exact h1 pc hp
      · exact List.mem_singleton.mp hp ▸ h2
    exact ⟨hi.safe, fun hf => start (hi.apart hf) rfl, hi.busy, hi.out, fun hg => start (hi.unchecked hg) rfl⟩
  | @op i x pc o hp hm =>
    have hs := hm.same
    have hmem := List.mem_of_getElem? hp
    refine ⟨hi.safe.same hs, fun hf => ?_, hi.busy, fun hg hh => ?_, fun hg => ?_⟩
    · exact absurd (hm.inBatch hf) (by simp [hi.apart hf pc hmem])
    · simp [Sys.after, hi.out (hs.migrated ▸ hg) hh]
    · have hg' : s.core.migrated = true := hs.migrated ▸ hg
      intro q hq
      rcases List.mem_or_eq_of_mem_set hq with hq | rfl
      · exact hi.unchecked hg' q hq
      · by_contra hc
        have hin := (hm.checked (by simpa using hc)).resolve_left (by simp [hi.unchecked hg' pc hmem])
        by_cases hh : s.mig.handler = .idle
        · simp [hi.out hg' hh] at hin
        · exact absurd (hm.inBatch (hi.busy hh)) (by simp [hi.apart (hi.busy hh) pc hmem])

theorem BatchInv.init (h : machine.init s) : BatchInv s := by
  have fresh : ∀ owned, Release.Safe ⟨Core.fresh owned, .idle⟩ := fun owned =>
    .init (.fresh owned) (by simp [Core.Settling, Core.fresh]) rfl
  have gone : Release.Safe ⟨Core.dead, .idle⟩ := .init .dead (by simp [Core.Settling, Core.dead]) rfl
  rcases h with ⟨lib, log, size, -, -, rfl⟩ | ⟨lib, _, _, _, log, vt, alive, -, -, -, -, rfl⟩
  · exact ⟨fresh true, by simp [startState], by simp [startState], by simp [startState, Core.fresh, Sys.core],
      by simp [startState]⟩
  · cases alive
    · exact ⟨gone, by simp [adoptStateWithTerminal], by simp [adoptStateWithTerminal],
        by simp [adoptStateWithTerminal, Core.dead, Core.fresh, Sys.core], by simp [adoptStateWithTerminal]⟩
    · exact ⟨fresh false, by simp [adoptStateWithTerminal], by simp [adoptStateWithTerminal],
        by simp [adoptStateWithTerminal, Core.fresh, Sys.core], by simp [adoptStateWithTerminal]⟩

/-- A committed session's loop does nothing to the directory. -/
theorem BatchInv.loopAct_quiet {c : Core} {x : LoopEv} (hi : BatchInv s) (hg : s.core.migrated = true)
    (hm : LoopMove s.core x c) (w : OutputLog.Write) : (Sys.loopAct s.core.loop w).quiet = true := by
  rcases hi.safe.sealed hg with ⟨t, hh⟩ | hp | ⟨t, failed, hl⟩ | ⟨t, failed, hl, -⟩
  · exact absurd hm ((hi.safe.prepared t (by rw [hh]; rfl)).still hi.safe.tidy)
  · change s.core.loop.past = true at hp
    cases hl : s.core.loop <;> simp_all [Loop.past, Sys.loopAct, Act.quiet]
  · rw [show s.core.loop = _ from hl]; rfl
  · rw [show s.core.loop = _ from hl]; rfl

/-- No step of the source changes the directory of a committed session. -/
theorem directory_step (h : s.step e = some s') (hok : handsOff s e = true) (hi : BatchInv s)
    (hg : s.core.migrated = true) :
    s'.store.log.files = s.store.log.files ∧ s'.store.log.linked = s.store.log.linked := by
  cases step_move h with
  | loop _ hm => exact act_quiet s.store (hi.loopAct_quiet hg hm _)
  | @op i x pc o hp hm =>
    rcases hm.act with ha | ha | ⟨rfl, fail, ha⟩ | ⟨before, order, rm, rfl, ha⟩
    · exact act_quiet s.store ha
    · exact absurd ha (by simp [hi.unchecked hg pc (List.mem_of_getElem? hp)])
    · have hc : s.store.log.closed = true := by simpa [handsOff, hp, hg] using hok
      simp [Sys.after, ha, Store.act, rotate_closed hc]
    · have hc : s.store.log.closed = true := by simpa [handsOff, hp, hg] using hok
      simp [Sys.after, ha, Store.act, prune_closed hc]
  | _ => exact ⟨rfl, rfl⟩

theorem Release.migrated_step {m m' : Release.Sys} {r : Release.Ev} (h : Release.step m r = some m')
    (hg : m.core.migrated = true) : m'.core.migrated = true := by
  cases Release.step_move h with
  | loop hl => exact hl.migrated.trans hg
  | child hc => exact (SameTickets.child hc).migrated.trans hg
  | begin _ hm _ =>
    obtain rfl := beginMigration_eq hm
    exact hg
  | turn _ => exact hg
  | finish _ hm => cases hm <;> first | rfl | exact hg

theorem migrated_step (h : s.step e = some s') (hg : s.core.migrated = true) : s'.core.migrated = true := by
  cases step_move h with
  | loop _ hl => exact hl.migrated.trans hg
  | child hc => exact (SameTickets.child hc).migrated.trans hg
  | begin _ _ hm | handler _ hm _ _ => exact Release.migrated_step hm hg
  | op _ hm => exact hm.same.migrated.trans hg
  | _ => exact hg

/-- The index of a log that is opened on a directory is the directory's. -/
theorem adoptOutputLog_segments {files : Nat → List Byte} {linked : Nat → Bool} {generation : Nat} {l : OutputLog}
    (h : OutputLog.adoptOutputLog files linked generation = .ok l) :
    l.segments = OutputLog.scan files linked generation := by
  simp only [OutputLog.adoptOutputLog, OutputLog.openOutputLog] at h
  split at h
  · cases h
  · split at h
    · cases h
    · split at h
      · cases h
      · simp only [Bool.false_eq_true, if_false] at h
        split at h <;> cases h
        rfl

/-- When `RotateOutput` and `PruneOutput` stay off the log of a committed session until it
    is closed, no run of the source changes its segment files or its directory, and the
    index the target made of it stays right. -/
theorem committed_directory_stays (h : machine.Reach handsOff s) (hg : s.core.migrated = true) {es : List Ev} {t : Sys}
    (hr : machine.run handsOff s es = some t) :
    t.store.log.files = s.store.log.files ∧ t.store.log.linked = s.store.log.linked ∧
      ∀ generation l, OutputLog.adoptOutputLog s.store.log.files s.store.log.linked generation = .ok l →
        l.segments = OutputLog.scan t.store.log.files t.store.log.linked generation := by
  have hi : BatchInv s := h.invariant (fun _ => .init) fun _ _ _ hi _ h => hi.step h
  have key : BatchInv t ∧ t.core.migrated = true ∧ t.store.log.files = s.store.log.files ∧
      t.store.log.linked = s.store.log.linked := by
    refine machine.run_stable (P := fun u => BatchInv u ∧ u.core.migrated = true ∧
      u.store.log.files = s.store.log.files ∧ u.store.log.linked = s.store.log.linked) ?_ ⟨hi, hg, rfl, rfl⟩ hr
    rintro u e v ⟨hu, hug, hf, hl⟩ hok hstep
    obtain ⟨hf', hl'⟩ := directory_step hstep hok hu hug
    exact ⟨hu.step hstep, migrated_step hstep hug, hf'.trans hf, hl'.trans hl⟩
  obtain ⟨-, -, hf, hl⟩ := key
  exact ⟨hf, hl, fun generation l ho => by rw [hf, hl]; exact adoptOutputLog_segments ho⟩

/-- A rotation and a prune are called; the session is frozen, prepared and committed, its
    loop returns, and the batch ends. -/
def committedRun : List Ev :=
  [.call .rotate, .call (.prune ⟨2, 0⟩), .freeze, .handler .begin, .handler .signal, .loop .go .full, .loop .go .full,
    .loop .timeUp .full, .loop .go .full, .handler .stable, .handler .commit, .handler .finish, .handler .finish,
    .handler .finish, .loop .go .full, .loop .go .full, .handler .finish, .handler .finish, .handler .finish, .remove,
    .handler .finish, .unfreeze]

/-- The rotation and the prune run. -/
def lateCalls : List Ev :=
  [.op 0 .go, .op 0 .go, .op 0 .go, .op 0 .go, .op 0 (.rotate none),
    .op 1 .go, .op 1 .go, .op 1 (.prune [1, 2] fun _ => none)]

/-- The loop's deferred calls, up to the closing of the log. -/
def leavingRun : List Ev :=
  [.loop (.reap false) .full, .loop .go .full, .loop .go .full, .loop .go .full, .loop .go .full]

theorem committed_directory_stays_closed : ∃ s t : Sys, machine.Reach handsOff s ∧ s.core.migrated = true ∧
    machine.run handsOff s leavingRun = some t ∧ t.store.log.closed = true ∧
    t.store.log.files = s.store.log.files ∧ t.store.log.linked = s.store.log.linked := by
  obtain ⟨s, hs, hg, ht⟩ := machine.exists_reach handsOff (created_started .steady ⟨80, 24⟩ rfl) committedRun
    (P := fun s => s.core.migrated = true ∧
      (machine.run handsOff s leavingRun).any (fun t => t.store.log.closed) = true) (by decide)
  obtain ⟨t, hr, hc⟩ := (Option.any_eq_true _ _).mp ht
  obtain ⟨hf, hl, -⟩ := committed_directory_stays hs hg hr
  exact ⟨s, t, hs, hg, hr, hc, hf, hl⟩

/-- Calls that waited for the batch rotate the committed session's log before the loop
    closes it, and prune what the target has indexed. -/
theorem a_late_rotation_adds_a_segment : ∃ s t : Sys, machine.Reach Machine.always s ∧ s.core.migrated = true ∧
    machine.run Machine.always s lateCalls = some t ∧
    s.store.log.linked 1 = true ∧ s.store.log.linked 2 = false ∧
    t.store.log.linked 1 = false ∧ t.store.log.linked 2 = true := by
  obtain ⟨s, hs, hg, h1, h2, ht⟩ := machine.exists_reach Machine.always (created_started .steady ⟨80, 24⟩ rfl) committedRun
    (P := fun s => s.core.migrated = true ∧ s.store.log.linked 1 = true ∧ s.store.log.linked 2 = false ∧
      (machine.run Machine.always s lateCalls).any (fun t => !t.store.log.linked 1 && t.store.log.linked 2) = true)
    (by decide)
  obtain ⟨t, hr, hc⟩ := (Option.any_eq_true _ _).mp ht
  simp only [Bool.and_eq_true, Bool.not_eq_true'] at hc
  exact ⟨s, t, hs, hg, hr, h1, h2, hc.1, hc.2⟩

end Ghostline.Session
