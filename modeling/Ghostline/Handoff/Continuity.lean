/-
  Ghostline.Handoff.Continuity — the output of one session across a native handoff.

  The session is one of the source's, with everything that can happen to it there
  (`Session.machine`). An attempt to move it describes it (`adopt`), captures its emulator
  (`snapshot`), opens its output directory and waits for the commit; it may be given up at
  any point before, by either side, and begun again. Once the commit is carried out and
  the session is out of the source's map, the target starts its copy loop, and from then
  on it is a session of the target with all that can happen to it there.

  - The masters of the two sides are duplicates of one descriptor: the PTY is one, and
    what either side does to it the other sees (`Sys.onPty`).
  - The directory is one as well. The target opens it as it is at that moment, and takes
    the size of the active segment from the file. What the source's closed log or a late
    rotation or prune of the source does to it later is the subject of
    `Session.Directory`.
  - The attempt is native: the emulator is captured while it is not freed, and restored.
  - A poll of a master that is open does not fail, on either side (`pollsBoth`).

  While a prepared ticket can still be committed, nobody reads the PTY and nothing but
  the closing of the log happens to the store (`Live.store`). So the target begins where
  the source stopped: every byte is read by one side and appended by that side, in order,
  and the emulator it starts with has been fed exactly what the log holds at the position
  it starts to append at (`bytes_continue`).
-/

import Ghostline.Session.Rest

namespace Ghostline.Handoff

open Lib Session Output

/-! ## The machine -/

inductive Side where
  | source
  | target
  deriving DecidableEq, Repr

/-- What the answer to `adopt` says (`sessionMetaLocked`). -/
structure Described where
  generation : Nat
  size : Size
  alive : Bool
  deriving DecidableEq, Repr

/-- How far the target is, for ticket `t` of the source up to the commit. -/
inductive Attempt where
  | idle
  | described (t : Nat) (d : Described)
  | captured (t : Nat) (d : Described) (vt : Vt)
  | built (t : Nat) (target : Session.Sys)
  | committed (target : Session.Sys)
  /-- With the store its copy loop was started on. -/
  | running (opened : Store) (target : Session.Sys)

structure Flow where
  source : Session.Sys
  attempt : Attempt
  /-- The store of the source as its session began. -/
  begun : Store
  /-- What the child has written, and what was read of it, by whom. -/
  written : List Byte
  reads : List (Side × Byte)

inductive FlowEv where
  | child (x : Core.ChildEv)
  | source (e : Session.Ev)
  | describe
  | snapshot
  | build
  /-- Either side gives the attempt up. -/
  | drop
  | start
  | target (e : Session.Ev)

def Attempt.onPty (c : Core) : Attempt → Attempt
  | .built t s => .built t (s.onPty c)
  | .committed s => .committed (s.onPty c)
  | .running opened s => .running opened (s.onPty c)
  | a => a

/-- `hub.remove` is behind a commit without errors, and its reply is what the target waits for. -/
def Attempt.moved (s : Session.Sys) : Session.Ev → Attempt → Attempt
  | .remove, .built t target =>
    if s.mig.handler = .finish t (.finished false) then .committed target else .built t target
  | _, a => a

def childBytes : Core.ChildEv → List Byte
  | .write data => data
  | _ => []

namespace Flow

variable (f : Flow)

/-- A step of one side that is not the child's. -/
def sideStep (s : Session.Sys) : Session.Ev → Option Session.Sys
  | .child _ => none
  | e => s.step e

def readBy (side : Side) (s s' : Session.Sys) : List (Side × Byte) :=
  f.reads ++ (s.core.taken s'.core).map fun b => (side, b)

def step : FlowEv → Option Flow
  | .child x =>
    (f.source.step (.child x)).map fun s =>
      { f with source := s, attempt := f.attempt.onPty s.core, written := f.written ++ childBytes x }
  | .source e =>
    (sideStep f.source e).map fun s =>
      { f with
        source := s
        attempt := (f.attempt.moved f.source e).onPty s.core
        reads := f.readBy .source f.source s }
  | .describe =>
    match f.attempt, f.source.mig.handler with
    | .idle, .prepared t =>
      if f.source.outputFree && f.source.store.log.err.isNone then
        some { f with
          attempt := .described t ⟨f.source.store.log.generation, f.source.store.size, !f.source.core.done⟩ }
      else none
    | _, _ => none
  | .snapshot =>
    match f.attempt with
    | .described t d =>
      if f.source.mig.handler = .prepared t ∧ f.source.outputFree = true ∧ f.source.store.vt.closed = false then
        some { f with attempt := .captured t d f.source.store.vt }
      else none
    | _ => none
  | .build =>
    match f.attempt with
    | .captured t d vt =>
      match OutputLog.adoptOutputLog f.source.store.log.files f.source.store.log.linked d.generation with
      | .ok log =>
        some { f with attempt := .built t ((Session.adoptStateWithTerminal f.source.store.lib log vt d.size d.alive).onPty f.source.core) }
      | .error _ => none
    | _ => none
  | .drop =>
    match f.attempt with
    | .committed _ | .running _ _ => none
    | _ => some { f with attempt := .idle }
  | .start =>
    match f.attempt with
    | .committed target => some { f with attempt := .running target.store target }
    | _ => none
  | .target e =>
    match f.attempt with
    | .running opened target =>
      (sideStep target e).map fun s =>
        { f with
          source := f.source.onPty s.core
          attempt := .running opened s
          reads := f.readBy .target target s }
    | _ => none

end Flow

def flowMachine : Machine Flow FlowEv where
  init f := Session.machine.init f.source ∧ f.attempt = .idle ∧ f.begun = f.source.store ∧ f.written = [] ∧ f.reads = []
  step := Flow.step

/-- A poll reports an error only for a master that is not open, at the source and at the target. -/
def pollsBoth (f : Flow) : FlowEv → Bool
  | .source e => polls f.source e
  | .target e =>
    match f.attempt with
    | .running _ target => polls target e
    | _ => true
  | _ => true

/-! ## What holds along a run -/

/-- The target begins where the source, which has read `own`, has stopped: with the
    emulator behind these bytes, and at the end of a segment that is behind them too. -/
structure Opens (own : List Byte) (begun : Store) (source : Session.Sys) (opened : Store) : Prop where
  fed : opened.vt.fed = begun.vt.fed ++ own
  appended : source.store.appended = begun.appended ++ own
  position : ∃ n, opened.log.segments opened.log.generation = some n ∧
    Session.Exact source.store ⟨opened.log.generation, n⟩ source.store.appended

/-- A session of the target, which has read `theirs`, on the PTY of the source's. -/
structure Shares (source : Session.Sys) (opened : Store) (theirs : List Byte) (target : Session.Sys) : Prop where
  flows : Flows opened.appended opened.vt.fed theirs target
  queue : target.core.queue = source.core.queue
  hup : target.core.hup = source.core.hup

def Attempt.ticket : Attempt → Option Nat
  | .described t _ | .captured t _ _ | .built t _ => some t
  | _ => none

/-- What the attempt is worth, as long as its ticket can still be committed. -/
def Attempt.Fits (own : List Byte) (begun : Store) (source : Session.Sys) : Attempt → List Byte → Prop
  | .idle, theirs => theirs = []
  | .described t d, theirs => theirs = [] ∧ d.generation < 2 ^ 64 ∧
      (Session.Live source.mig t → source.store.log.err = none ∧ d.generation = source.store.log.generation)
  | .captured t d vt, theirs => theirs = [] ∧ d.generation < 2 ^ 64 ∧ vt.closed = false ∧
      (Session.Live source.mig t → source.store.Healthy ∧ d.generation = source.store.log.generation ∧
        vt.fed = begun.vt.fed ++ own)
  | .built t target, theirs => theirs = [] ∧ Shares source target.store [] target ∧
      (Session.Live source.mig t → Opens own begun source target.store)
  | .committed target, theirs => theirs = [] ∧ Shares source target.store [] target ∧ source.core.migrated = true ∧
      Opens own begun source target.store
  | .running opened target, theirs => Shares source opened theirs target ∧ source.core.migrated = true ∧
      Opens own begun source opened

structure Continues (own theirs : List Byte) (f : Flow) : Prop where
  source : Flows f.begun.appended f.begun.vt.fed own f.source
  late : f.source.core.migrated = true → f.source.mig.handler.late = true
  written : f.written = own ++ theirs ++ f.source.core.queue
  reads : f.reads = own.map (Side.source, ·) ++ theirs.map (Side.target, ·)
  seen : ∀ t, f.attempt.ticket = some t → Seen f.source.mig t
  fits : f.attempt.Fits own f.begun f.source theirs

variable {f f' : Flow} {own theirs : List Byte} {s s' : Session.Sys} {e : Session.Ev} {begun opened : Store}

theorem sideStep_some (h : Flow.sideStep s e = some s') : (∀ x, e ≠ .child x) ∧ s.step e = some s' := by
  unfold Flow.sideStep at h
  split at h
  · cases h
  · rename_i hc
    exact ⟨hc, h⟩

/-! ### A step of the source -/

theorem Opens.step (ho : Opens own begun s opened) (hi : Flows begun.appended begun.vt.fed own s) (hr : Rests s)
    (h : s.step e = some s') (hc : ∀ x, e ≠ .child x) : Opens own begun s' opened := by
  have ha := (hr.still hi h hc).2
  obtain ⟨act, hs⟩ := step_store h
  obtain ⟨n, hn, hx⟩ := ho.position
  refine ⟨ho.fed, ha.trans ho.appended, n, hn, ?_⟩
  rw [ha, hs]
  exact hx.act hi.sound.keeps act

/-- Up to the end of its commit, a ticket keeps what was found for it. -/
theorem live_kept {t : Nat} (hi : Flows begun.appended begun.vt.fed own s) (hv : Session.Live s.mig t)
    (h : s.step e = some s') :
    (s.store.log.err = none → s'.store.log.err = none) ∧ s'.store.log.generation = s.store.log.generation ∧
      s'.store.vt = s.store.vt := by
  rcases hv.store hi.batch hi.paused h with hs | hs <;> rw [hs]
  · exact ⟨id, rfl, rfl⟩
  · refine ⟨fun he => ?_, (act_other _ (by simp) (by simp)).1, rfl⟩
    simp only [Store.act, OutputLog.close]
    split
    · exact he
    · rfl

/-- The other side's view of the PTY after a step. -/
theorem Shares.onPty {source : Session.Sys} {target : Session.Sys} (hs : Shares source opened theirs target)
    (hq : source.core.queue = [] → source.core.hup = true → s'.core.queue = [] ∧ s'.core.hup = true)
    : Shares s' opened theirs (target.onPty s'.core) :=
  ⟨hs.flows.onPty fun h1 h2 => hq (hs.queue ▸ h1) (hs.hup ▸ h2), rfl, rfl⟩

theorem Flows.queue {base past got : List Byte} (hi : Flows base past got s) (h : s.step e = some s')
    (hc : ∀ x, e ≠ .child x) : s.core.queue = s.core.taken s'.core ++ s'.core.queue := by
  cases hi.passed h hc with
  | quiet _ hq _ | store _ hq _ => rw [Core.taken_same hq, hq, List.nil_append]
  | read _ _ _ hq _ => rw [Core.taken_read hq]; exact hq

/-- Nothing comes to an empty PTY whose slave side is closed. -/
theorem Flows.ended {base past got : List Byte} (hi : Flows base past got s) (h : s.step e = some s')
    (hc : ∀ x, e ≠ .child x) (hq : s.core.queue = []) (hu : s.core.hup = true) :
    s'.core.queue = [] ∧ s'.core.hup = true := by
  refine ⟨?_, (step_hup h hc).trans hu⟩
  have := Flows.queue hi h hc
  rw [hq] at this
  exact (List.append_eq_nil_iff.mp this.symm).2

section Source

variable (hi : Flows begun.appended begun.vt.fed own s) (h : s.step e = some s') (hc : ∀ x, e ≠ .child x)
include hi h hc

/-- While the attempt's ticket is live, the source has read nothing. -/
theorem own_of_live {t : Nat} (hl : s.core.migrated = true → s.mig.handler.late = true) (hs : Seen s.mig t)
    (hv : Session.Live s'.mig t) : Session.Live s.mig t ∧ own ++ s.core.taken s'.core = own := by
  have hv := (live_step h hl hv).resolve_right hs.awaiting
  exact ⟨hv, by rw [((hv.rests hi.batch hi.paused).still hi h hc).1, List.append_nil]⟩

theorem Attempt.Fits.described {t : Nat} {d : Described} (hf : (Attempt.described t d).Fits own begun s theirs)
    (hl : s.core.migrated = true → s.mig.handler.late = true) (hs : Seen s.mig t) :
    (Attempt.described t d).Fits (own ++ s.core.taken s'.core) begun s' theirs := by
  obtain ⟨ht, hb, hf⟩ := hf
  refine ⟨ht, hb, fun hv => ?_⟩
  obtain ⟨hv, -⟩ := own_of_live hi h hc hl hs hv
  obtain ⟨he, hg, -⟩ := live_kept hi hv h
  exact ⟨he (hf hv).1, (hf hv).2.trans hg.symm⟩

theorem Attempt.Fits.captured {t : Nat} {d : Described} {vt : Vt}
    (hf : (Attempt.captured t d vt).Fits own begun s theirs)
    (hl : s.core.migrated = true → s.mig.handler.late = true) (hs : Seen s.mig t) :
    (Attempt.captured t d vt).Fits (own ++ s.core.taken s'.core) begun s' theirs := by
  obtain ⟨ht, hb, hv, hf⟩ := hf
  refine ⟨ht, hb, hv, fun hv => ?_⟩
  obtain ⟨hv, ho⟩ := own_of_live hi h hc hl hs hv
  obtain ⟨he, hg, hvt⟩ := live_kept hi hv h
  obtain ⟨hh, hd, hfed⟩ := hf hv
  exact ⟨⟨he hh.1, hvt ▸ hh.2⟩, hd.trans hg.symm, by rw [ho]; exact hfed⟩

theorem Attempt.Fits.built {t : Nat} {target : Session.Sys} (hf : (Attempt.built t target).Fits own begun s theirs)
    (hl : s.core.migrated = true → s.mig.handler.late = true) (hs : Seen s.mig t) :
    (((Attempt.built t target).moved s e).onPty s'.core).Fits (own ++ s.core.taken s'.core) begun s' theirs := by
  obtain ⟨ht, hsh, ho⟩ := hf
  have shares : Shares s' target.store [] (target.onPty s'.core) := hsh.onPty (Flows.ended hi h hc)
  -- a live ticket's target opens what the source leaves
  have opens : Session.Live s.mig t → Opens own begun s' target.store := fun hv =>
    (ho hv).step hi (hv.rests hi.batch hi.paused) h hc
  have waits : (Attempt.built t (target.onPty s'.core)).Fits (own ++ s.core.taken s'.core) begun s' theirs := by
    refine ⟨ht, shares, fun hv => ?_⟩
    obtain ⟨hv, he⟩ := own_of_live hi h hc hl hs hv
    rw [he]
    exact opens hv
  cases e with
  | remove =>
    simp only [Attempt.moved]
    split
    · rename_i hh
      obtain ⟨-, hg, hst⟩ : s.mig.handler = .finish t (.finished false) ∧ s.core.migrated = true ∧
          s' = { s with inMap := false } := by
        cases Session.step_move h with
        | remove _ hg => exact ⟨hh, hg, rfl⟩
      have hv : Session.Live s.mig t := .done hh hg
      refine ⟨ht, shares, migrated_step h hg, ?_⟩
      rw [((hv.rests hi.batch hi.paused).still hi h hc).1, List.append_nil]
      exact opens hv
    · exact waits
  | _ => exact waits

/-- Once the commit is carried out, the source reads nothing. -/
theorem Opens.after (hg : s.core.migrated = true) (ho : Opens own begun s opened) :
    s.core.taken s'.core = [] ∧ s'.core.migrated = true ∧ Opens (own ++ s.core.taken s'.core) begun s' opened := by
  have hr := Rests.migrated hi.batch hg
  have ht := (hr.still hi h hc).1
  refine ⟨ht, migrated_step h hg, ?_⟩
  rw [ht, List.append_nil]
  exact ho.step hi hr h hc

theorem Attempt.Fits.source {a : Attempt} (hf : a.Fits own begun s theirs)
    (hl : s.core.migrated = true → s.mig.handler.late = true) (hs : ∀ t, a.ticket = some t → Seen s.mig t) :
    ((a.moved s e).onPty s'.core).Fits (own ++ s.core.taken s'.core) begun s' theirs ∧
      (theirs = [] ∨ s.core.taken s'.core = []) := by
  have same : (∀ t target, a ≠ .built t target) → a.moved s e = a := by
    intro hne
    cases e <;> cases a <;> first | rfl | exact absurd rfl (hne _ _)
  cases a with
  | idle => rw [same (by simp)]; exact ⟨hf, .inl hf⟩
  | described t d => rw [same (by simp)]; exact ⟨hf.described hi h hc hl (hs t rfl), .inl hf.1⟩
  | captured t d vt => rw [same (by simp)]; exact ⟨hf.captured hi h hc hl (hs t rfl), .inl hf.1⟩
  | built t target => exact ⟨hf.built hi h hc hl (hs t rfl), .inl hf.1⟩
  | committed target =>
    rw [same (by simp)]
    obtain ⟨ht, hsh, hg, ho⟩ := hf
    obtain ⟨-, hg', ho'⟩ := ho.after hi h hc hg
    exact ⟨⟨ht, hsh.onPty (Flows.ended hi h hc), hg', ho'⟩, .inl ht⟩
  | running opened target =>
    rw [same (by simp)]
    obtain ⟨hsh, hg, ho⟩ := hf
    obtain ⟨ht, hg', ho'⟩ := ho.after hi h hc hg
    exact ⟨⟨hsh.onPty (Flows.ended hi h hc), hg', ho'⟩, .inr ht⟩

end Source

theorem moved_ticket {a : Attempt} {t : Nat} (h : ((a.moved s e).onPty s'.core).ticket = some t) : a.ticket = some t := by
  cases a with
  | built u target =>
    cases e with
    | remove =>
      simp only [Attempt.moved] at h
      split at h
      · cases h
      · exact h
    | _ => exact h
  | _ => cases e <;> exact h

theorem Continues.source_step (hi : Continues own theirs f) (hp : polls f.source e = true)
    (h : Flow.sideStep f.source e = some s') : Continues (own ++ f.source.core.taken s'.core) theirs
      { f with
        source := s'
        attempt := (f.attempt.moved f.source e).onPty s'.core
        reads := f.readBy .source f.source s' } := by
  obtain ⟨hc, h⟩ := sideStep_some h
  obtain ⟨fits, hor⟩ := hi.fits.source hi.source h hc hi.late hi.seen
  have hq := Flows.queue hi.source h hc
  refine ⟨hi.source.step hp h hc, late_step hi.source.batch h hi.late, ?_, ?_,
    fun t ht => seen_step h (hi.seen t (moved_ticket ht)), fits⟩
  · rw [hi.written, hq]
    rcases hor with rfl | ht
    · simp
    · simp [ht]
  · rw [Flow.readBy, hi.reads]
    rcases hor with rfl | ht
    · simp
    · simp [ht]

/-! ### The child -/

theorem Attempt.Fits.onPty {a : Attempt} {c : Core} (hf : a.Fits own begun s theirs)
    (hq : s.core.queue = [] → s.core.hup = true → c.queue = [] ∧ c.hup = true) :
    (a.onPty c).Fits own begun (s.onPty c) theirs := by
  -- neither the store nor the handler is changed
  have live : ∀ {t : Nat}, Session.Live (s.onPty c).mig t → Session.Live s.mig t := by
    intro t hv
    cases hv with
    | prepared hh => exact .prepared hh
    | goes hh hg => exact .goes hh hg
    | done hh hg => exact .done hh hg
  have opens : ∀ {opened : Store}, Opens own begun s opened → Opens own begun (s.onPty c) opened := fun ho =>
    ⟨ho.fed, ho.appended, ho.position⟩
  have shares : ∀ {opened : Store} {xs : List Byte} {target : Session.Sys}, Shares s opened xs target →
      Shares (s.onPty c) opened xs (target.onPty c) := fun hs =>
    ⟨hs.flows.onPty fun h1 h2 => hq (hs.queue ▸ h1) (hs.hup ▸ h2), rfl, rfl⟩
  cases a with
  | idle => exact hf
  | described t d => exact ⟨hf.1, hf.2.1, fun hv => hf.2.2 (live hv)⟩
  | captured t d vt => exact ⟨hf.1, hf.2.1, hf.2.2.1, fun hv => hf.2.2.2 (live hv)⟩
  | built t target => exact ⟨hf.1, shares hf.2.1, fun hv => opens (hf.2.2 (live hv))⟩
  | committed target => exact ⟨hf.1, shares hf.2.1, hf.2.2.1, opens hf.2.2.2⟩
  | running opened target => exact ⟨shares hf.1, hf.2.1, opens hf.2.2⟩

theorem onPty_ticket {a : Attempt} {c : Core} : (a.onPty c).ticket = a.ticket := by
  cases a <;> rfl

theorem child_queue {x : Core.ChildEv} (h : s.step (.child x) = some s') :
    s'.core.queue = s.core.queue ++ childBytes x := by
  cases Session.step_move h with
  | child hm =>
    cases x with
    | write data =>
      obtain ⟨-, hm⟩ := Option.ite_none_left_eq_some.mp hm
      cases hm
      rfl
    | exit | hangup => cases hm; simp [childBytes, Sys.withCore, Sys.core]

theorem Continues.child {x : Core.ChildEv} (hi : Continues own theirs f) (h : f.source.step (.child x) = some s') :
    Continues own theirs
      { f with source := s', attempt := f.attempt.onPty s'.core, written := f.written ++ childBytes x } := by
  obtain ⟨he, hq⟩ := childStep_onPty h
  have hs := child_queue h
  refine ⟨hi.source.child h, late_step hi.source.batch h hi.late, ?_, hi.reads,
    fun t ht => seen_step h (hi.seen t (onPty_ticket ▸ ht)), ?_⟩
  · simp [hi.written, hs]
  · have := hi.fits.onPty (c := s'.core) hq
    rwa [← he] at this

/-! ### The target -/

theorem Continues.target {target : Session.Sys} (hi : Continues own theirs f) (ha : f.attempt = .running opened target)
    (hp : polls target e = true) (h : Flow.sideStep target e = some s') :
    Continues own (theirs ++ target.core.taken s'.core)
      { f with
        source := f.source.onPty s'.core
        attempt := .running opened s'
        reads := f.readBy .target target s' } := by
  obtain ⟨hc, h⟩ := sideStep_some h
  have hf := hi.fits
  rw [ha] at hf
  obtain ⟨hsh, hg, ho⟩ := hf
  have hq := Flows.queue hsh.flows h hc
  have ended : f.source.core.queue = [] → f.source.core.hup = true → s'.core.queue = [] ∧ s'.core.hup = true :=
    fun h1 h2 => Flows.ended hsh.flows h hc (hsh.queue.trans h1) (hsh.hup.trans h2)
  refine ⟨hi.source.onPty ended, hi.late, ?_, ?_, (fun t ht => by cases ht), ?_⟩
  · show f.written = own ++ (theirs ++ target.core.taken s'.core) ++ s'.core.queue
    rw [hi.written, ← hsh.queue, hq]
    simp
  · rw [Flow.readBy, hi.reads]
    simp
  · exact ⟨⟨hsh.flows.step hp h hc, rfl, rfl⟩, hg, ho.fed, ho.appended, ho.position⟩

/-! ### The attempt -/

/-- While a ticket is prepared and nobody holds `outputMu`, the emulator is behind
    everything the source has read. -/
theorem Flows.captured {base past got : List Byte} {t : Nat} (hi : Flows base past got s)
    (hh : s.mig.handler = .prepared t) (hf : s.outputFree = true) (he : s.store.log.err = none)
    (hv : s.store.vt.closed = false) : s.store.vt.fed = past ++ got ∧ s.store.appended = base ++ got := by
  have hr := Session.Live.rests hi.batch hi.paused (.prepared hh)
  have happ := hi.exact ⟨he, hv⟩
  rw [hr.hand, List.append_nil] at happ
  obtain ⟨more, ha, hfed⟩ := hi.fed.free (outputFree_iff.mp hf) hv
  obtain rfl : more = got := by
    rw [happ] at ha
    exact (List.append_cancel_left ha).symm
  exact ⟨by simpa using hfed.symm, happ⟩

/-- A mark or a close leaves the index. -/
theorem begun_index (lib : Session.Library) (log : OutputLog) (vt : Vt) (size : Size) (alive : Bool) :
    (Session.adoptStateWithTerminal lib log vt size alive).store.log.generation = log.generation ∧
      (Session.adoptStateWithTerminal lib log vt size alive).store.log.segments = log.segments := by
  cases alive with
  | true =>
    obtain ⟨sizes, changed, he⟩ := markSize_eq log size
    simp [Session.adoptStateWithTerminal, he]
  | false =>
    simp only [Session.adoptStateWithTerminal, Bool.false_eq_true, if_false, OutputLog.close]
    split <;> exact ⟨rfl, rfl⟩

/-- The log the target opens ends where the source's does. -/
theorem opens_of_adopt {log : OutputLog} {vt : Vt} {generation : Nat} (hi : Flows begun.appended begun.vt.fed own s)
    (hh : s.store.Healthy) (hr : Rests s) (hg : generation = s.store.log.generation)
    (hfed : vt.fed = begun.vt.fed ++ own)
    (h : OutputLog.adoptOutputLog s.store.log.files s.store.log.linked generation = .ok log) (size : Size)
    (alive : Bool) (lib : Session.Library) :
    Opens own begun s (Session.adoptStateWithTerminal lib log vt size alive).store := by
  have happ := hi.exact hh
  rw [hr.hand, List.append_nil] at happ
  obtain ⟨hgen, hseg⟩ := begun_index lib log vt size alive
  have hopen : log.generation = generation ∧ (log.segments generation).isSome = true := by
    unfold OutputLog.adoptOutputLog at h
    split at h
    · cases h
    · obtain ⟨h1, -, h2, -⟩ := openOutputLog_ok h
      exact ⟨h1, h2⟩
  obtain ⟨n, hn⟩ := Option.isSome_iff_exists.mp hopen.2
  refine ⟨hfed, happ, n, by rw [hgen, hseg, hopen.1]; exact hn, ?_⟩
  -- the size of the file is what the source's index says
  have hsize : n = (s.store.wrote s.store.log.generation).length := by
    rw [adoptOutputLog_segments h] at hn
    have hw := congrArg List.length (hi.sound.whole hh)
    rw [(scan_some hn).2.2.2, hg, hw, Session.bytes, List.length_map]
  refine cursor_exact hi.sound.keeps ?_
  rw [OutputLog.cursor, hh.1, hi.sound.keeps.size, hgen, hopen.1, hg, hsize]
  rfl

theorem Continues.describe {t : Nat} (hi : Continues own theirs f) (ha : f.attempt = .idle)
    (hh : f.source.mig.handler = .prepared t) (he : f.source.store.log.err = none) (size : Size) (alive : Bool) :
    Continues own theirs { f with attempt := .described t ⟨f.source.store.log.generation, size, alive⟩ } := by
  have hf := hi.fits
  rw [ha] at hf
  refine ⟨hi.source, hi.late, hi.written, hi.reads, fun u hu => ?_, hf, hi.source.sound.keeps.bound, fun _ => ⟨he, rfl⟩⟩
  cases hu
  exact ⟨(hi.source.batch.safe.prepared t (by rw [hh]; rfl)).issued, by simp [hh], by simp [hh]⟩

theorem Continues.snapshot {t : Nat} {d : Described} (hi : Continues own theirs f) (ha : f.attempt = .described t d)
    (hh : f.source.mig.handler = .prepared t) (hf : f.source.outputFree = true)
    (hv : f.source.store.vt.closed = false) :
    Continues own theirs { f with attempt := .captured t d f.source.store.vt } := by
  have hfit := hi.fits
  have hseen := hi.seen
  rw [ha] at hfit hseen
  obtain ⟨ht, hb, hd⟩ := hfit
  obtain ⟨he, hg⟩ := hd (.prepared hh)
  exact ⟨hi.source, hi.late, hi.written, hi.reads, hseen, ht, hb, hv,
    fun _ => ⟨⟨he, hv⟩, hg, (Flows.captured hi.source hh hf he hv).1⟩⟩

theorem Continues.build {t : Nat} {d : Described} {vt : Vt} {log : OutputLog} (hi : Continues own theirs f)
    (ha : f.attempt = .captured t d vt)
    (h : OutputLog.adoptOutputLog f.source.store.log.files f.source.store.log.linked d.generation = .ok log) :
    Continues own theirs
      { f with
        attempt := .built t ((Session.adoptStateWithTerminal f.source.store.lib log vt d.size d.alive).onPty f.source.core) } := by
  have hfit := hi.fits
  have hseen := hi.seen
  rw [ha] at hfit hseen
  obtain ⟨ht, hb, hv, hd⟩ := hfit
  have flows := Flows.adopted hb (.inl h) hv d.size d.alive f.source.store.lib
  refine ⟨hi.source, hi.late, hi.written, hi.reads, hseen, ht, ⟨flows.onPty ?_, rfl, rfl⟩, fun hl => ?_⟩
  · intro _ hu
    cases hd' : d.alive <;> rw [hd'] at hu <;> cases hu
  · obtain ⟨hh, hg, hfed⟩ := hd hl
    exact opens_of_adopt hi.source hh (hl.rests hi.source.batch hi.source.paused) hg hfed h d.size d.alive f.source.store.lib

theorem Continues.drop (hi : Continues own theirs f) (hc : ∀ target, f.attempt ≠ .committed target)
    (hr : ∀ opened target, f.attempt ≠ .running opened target) : Continues own theirs { f with attempt := .idle } := by
  refine ⟨hi.source, hi.late, hi.written, hi.reads, (fun t ht => by cases ht), ?_⟩
  have hf := hi.fits
  cases ha : f.attempt with
  | committed target => exact absurd ha (hc target)
  | running opened target => exact absurd ha (hr opened target)
  | idle => rw [ha] at hf; exact hf
  | described _ _ | captured _ _ _ | built _ _ => rw [ha] at hf; exact hf.1

theorem Continues.start {target : Session.Sys} (hi : Continues own theirs f) (ha : f.attempt = .committed target) :
    Continues own theirs { f with attempt := .running target.store target } := by
  have hf := hi.fits
  rw [ha] at hf
  obtain ⟨rfl, hsh, hg, ho⟩ := hf
  exact ⟨hi.source, hi.late, hi.written, hi.reads, (fun t ht => by cases ht), hsh, hg, ho⟩

theorem Continues.step {x : FlowEv} (hi : Continues own theirs f) (hok : pollsBoth f x = true) (h : f.step x = some f') :
    ∃ own theirs, Continues own theirs f' := by
  revert h
  -- the refused steps close by `cases`; what is left is one case for each step that is taken
  fun_cases Flow.step f x <;> intro h <;> try cases h
  case case1 x =>
    obtain ⟨s, hs, rfl⟩ := Option.map_eq_some_iff.mp h
    exact ⟨own, theirs, hi.child hs⟩
  case case2 e =>
    obtain ⟨s, hs, rfl⟩ := Option.map_eq_some_iff.mp h
    exact ⟨_, theirs, hi.source_step hok hs⟩
  case case3.refl t hh ha hg =>
    simp only [Bool.and_eq_true, Option.isNone_iff_eq_none] at hg
    exact ⟨own, theirs, hi.describe ha hh hg.2 _ _⟩
  case case6.refl t d ha hg =>
    obtain ⟨hh, hf, hv⟩ := hg
    exact ⟨own, theirs, hi.snapshot ha hh hf hv⟩
  case case9.refl t d vt ha log hlog => exact ⟨own, theirs, hi.build ha hlog⟩
  case case14.refl hc hr => exact ⟨own, theirs, hi.drop hc hr⟩
  case case15.refl target ha => exact ⟨own, theirs, hi.start ha⟩
  case case17 e opened target ha =>
    obtain ⟨s, hs, rfl⟩ := Option.map_eq_some_iff.mp h
    simp only [pollsBoth, ha] at hok
    exact ⟨own, _, hi.target ha hok hs⟩

theorem Continues.init (h : flowMachine.init f) : Continues [] [] f := by
  obtain ⟨hs, ha, hb, hw, hr⟩ := h
  have hi := Flows.init hs
  have fresh : f.source.core.queue = [] ∧ f.source.core.migrated = false := by
    rcases hs with ⟨lib, log, size, -, -, he⟩ | ⟨lib, _, _, _, log, vt, alive, -, -, -, -, he⟩ <;> rw [he]
    · exact ⟨rfl, rfl⟩
    · cases alive <;> exact ⟨rfl, rfl⟩
  refine ⟨hb ▸ hi, fun hg => ?_, by simp [hw, fresh.1], by simp [hr], fun t ht => ?_, ?_⟩
  · rw [fresh.2] at hg; cases hg
  · rw [ha] at ht; cases ht
  · rw [ha]; rfl

/-- Every byte the child has written was read by one side or is still in the PTY, the
    source's bytes before the target's, and each side has appended what it has read, once
    and in order; a log that fails a write, or a session that is terminated, stops there.
    The emulator the target started with has been fed, since the source's session began,
    exactly what that session's log holds in front of the position the target starts at:
    the generation it opened, and the size it found the segment to have. -/
theorem bytes_continue {target : Session.Sys} (h : flowMachine.Reach pollsBoth f)
    (ha : f.attempt = .running opened target) :
    ∃ fromSource fromTarget,
      f.written = fromSource ++ fromTarget ++ f.source.core.queue ∧
      f.reads = fromSource.map (Side.source, ·) ++ fromTarget.map (Side.target, ·) ∧
      f.source.store.appended = f.begun.appended ++ fromSource ∧
      target.store.appended <+: opened.appended ++ fromTarget ∧
      (target.store.Healthy → target.store.appended ++ target.hand = opened.appended ++ fromTarget) ∧
      opened.vt.fed = f.begun.vt.fed ++ fromSource ∧
      ∃ n, opened.log.segments opened.log.generation = some n ∧
        Session.Exact f.source.store ⟨opened.log.generation, n⟩ (f.begun.appended ++ fromSource) := by
  obtain ⟨own, theirs, hi⟩ : ∃ own theirs, Continues own theirs f :=
    h.invariant (I := fun f => ∃ own theirs, Continues own theirs f) (fun _ h => ⟨[], [], .init h⟩)
      fun _ _ _ ⟨_, _, hi⟩ hok h => hi.step hok h
  have hf := hi.fits
  rw [ha] at hf
  obtain ⟨hsh, -, ho⟩ := hf
  have hp := ho.position
  rw [ho.appended] at hp
  exact ⟨own, theirs, hi.written, hi.reads, ho.appended, hsh.flows.pre, hsh.flows.exact, ho.fed, hp⟩

def loops (es : List LoopEv) : List FlowEv := es.map fun e => .source (.loop e .full)

def finishes (k : Nat) : List FlowEv := List.replicate k (.source (.handler .finish))

/-- A prepared ticket, from the freeze on. -/
def prepareRun : List FlowEv :=
  [.source .freeze, .source (.handler .begin), .source (.handler .signal)] ++
    loops [.woken, .go, .go, .readable, .got 1, .go, .stored true, .go, .go, .timeUp, .go] ++
    [.source (.handler .stable), .describe, .snapshot, .build]

/-- Four bytes are written, and one is copied; an attempt drains one and is given up, a second
    one drains one and is committed; the target reads the last. -/
def continuedRun : List FlowEv :=
  .child (.write [104, 105, 33, 10]) :: loops [.go, .readable, .go, .readable, .got 1, .stored true, .go, .go, .go] ++
    prepareRun ++ .source (.handler .abort) :: .drop :: finishes 2 ++ loops [.go, .go] ++ finishes 3 ++
    .source .unfreeze :: loops [.go] ++ prepareRun ++ .source (.handler .commit) :: finishes 3 ++ loops [.go, .go] ++
    finishes 3 ++ .source .remove :: .start ::
    [LoopEv.go, .readable, .go, .readable, .got 1, .stored true, .go, .go].map fun e => .target (.loop e .full)

def Attempt.target? : Attempt → Option (Store × Session.Sys)
  | .running opened target => some (opened, target)
  | _ => none

theorem bytes_continue_retried : ∃ f opened target, flowMachine.Reach pollsBoth f ∧
    f.attempt = .running opened target ∧ f.written = [104, 105, 33, 10] ∧ f.source.store.appended = [104, 105, 33] ∧
    opened.vt.fed = [104, 105, 33] ∧ target.store.appended = [104, 105, 33, 10] ∧
    ∃ n, opened.log.segments opened.log.generation = some n ∧
      Session.Exact f.source.store ⟨opened.log.generation, n⟩ [104, 105, 33] := by
  obtain ⟨f, hr, hw, hs, hb, hf, ht⟩ := flowMachine.exists_reach pollsBoth
    (s := ⟨startState .steady created ⟨80, 24⟩, .idle, (startState .steady created ⟨80, 24⟩).store, [], []⟩)
    ⟨created_started .steady ⟨80, 24⟩ rfl, rfl, rfl, rfl, rfl⟩ continuedRun
    (P := fun f => f.written = [104, 105, 33, 10] ∧ f.source.store.appended = [104, 105, 33] ∧
      f.begun.appended = [] ∧ f.attempt.target?.map (fun p => p.1.vt.fed) = some [104, 105, 33] ∧
      f.attempt.target?.map (fun p => p.2.store.appended) = some [104, 105, 33, 10]) (by decide)
  cases ha : f.attempt with
  | running opened target =>
    rw [ha] at hf ht
    obtain ⟨own, theirs, -, -, happ, -, -, -, n, hn, hx⟩ := bytes_continue hr ha
    rw [← happ, hs] at hx
    exact ⟨f, opened, target, hr, ha, hw, hs, Option.some.inj hf, Option.some.inj ht, n, hn, hx⟩
  | _ => rw [ha] at hf; cases hf

end Ghostline.Handoff
