/-
  Ghostline.Output.Failure — an append that fails.

  `writeFull` may have written any part of the data when it fails; the index keeps the size
  from before, so the file is longer than what anyone may read. The log is closed with the
  error, and from then on it stays as it is: every operation answers with that error, and a
  reader that keeps calling delivers what was appended before and is then told the error.

  Two operations look at their arguments before they look at the log: an append of nothing
  succeeds, and a reader-open whose context is cancelled answers with the context's error.
-/

import Ghostline.Output.Expiry

namespace Ghostline.Output

open Lib.Segments
open OutputLog LocalOutputSource

variable {s s' t u : Sys} {r : LocalOutputSource} {e : Ev} {err : Err}

/-- `outputLog.reader` up to `pin`. -/
def OutputLog.reader (l : OutputLog) (canceled : Bool) («from» : Cursor) : Except Err (Cursor × Nat × Bool) :=
  if canceled then .error .canceled else l.lookUp «from»

/-! ## What is delivered -/

/-- The bytes a call returned are a stretch of what the log was given. -/
def Returned.Given (x : Returned) (s : Sys) : Prop :=
  x.result.bytes = ((s.bytes x.from.generation).drop x.from.offset).take x.result.bytes.length

/-- In every run: what was delivered was given, and `io.EOF` is the end of a log that was
    closed without an error. -/
structure Honest (s : Sys) : Prop where
  backed : Backed s
  given : ∀ x ∈ s.results, x.Given s ∧ x.from.offset + x.result.bytes.length ≤ (s.wrote x.from.generation).length
  eof : ∀ x ∈ s.results, x.result.err = some .eof → s.log.closed = true ∧ s.log.err = none

theorem Honest.init (h : s.Init) : Honest s := by
  refine ⟨.init h, ?_, ?_⟩
  all_goals
    obtain ⟨files, linked, generation, create, l, hb, hl, rfl⟩ := h
    intro x hx
    cases hx

/-- A call's answer, at the moment it is given. -/
theorem Yields.honest {x : Result} (h : Yields s r e x) (hb : Backed s) (hr : s.reader = .opened r) :
    (x.bytes = ((s.bytes r.cursor.generation).drop r.cursor.offset).take x.bytes.length ∧
      r.cursor.offset + x.bytes.length ≤ (s.wrote r.cursor.generation).length) ∧
    (x.err = some .eof → s.log.closed = true ∧ s.log.err = none) := by
  have hoff := (hb.placed.opened hr).1.off
  have nothing : ∀ y : Result, y.bytes = [] →
      y.bytes = ((s.bytes r.cursor.generation).drop r.cursor.offset).take y.bytes.length ∧
        r.cursor.offset + y.bytes.length ≤ (s.wrote r.cursor.generation).length := by
    intro y hy
    rw [hy]
    exact ⟨by simp, hoff⟩
  cases h with
  | empty | expired | reported | closed | canceled => exact ⟨nothing _ rfl, fun h => (by cases h)⟩
  | ended hp hc =>
    refine ⟨nothing _ rfl, fun h => ⟨hc, ?_⟩⟩
    cases herr : s.log.err with
    | none => rfl
    | some err =>
      obtain ⟨-, m, rfl⟩ := hb.failed err herr
      simp [errorResult, herr] at h
  | notOpened hp hn ho =>
    obtain ⟨m, rfl⟩ := openErr_text ho
    exact ⟨nothing _ rfl, fun h => (by cases h)⟩
  | @read len limit size fail hp =>
    generalize hq : r.readAt s.log len limit size fail = q
    obtain ⟨r', x⟩ := q
    obtain ⟨-, -, hbytes, hle, hmax, hne, -⟩ := chunk hb.placed hr hp fail hq
    exact ⟨⟨hbytes, show r.cursor.offset + x.bytes.length ≤ _ by omega⟩, fun h => absurd h hne⟩

/-- What was given stays in front of what follows. -/
theorem Returned.Given.later {x : Returned} (h : x.Given s)
    (hle : x.from.offset + x.result.bytes.length ≤ (s.wrote x.from.generation).length)
    (hg : ∀ g, s.wrote g <+: s'.wrote g) : x.Given s' := by
  obtain ⟨t, ht⟩ := hg x.from.generation
  have hlen : (s.bytes x.from.generation).length = (s.wrote x.from.generation).length := bytes_length s _
  have hb : s'.bytes x.from.generation = s.bytes x.from.generation ++ t.map Prod.fst := by
    simp only [Sys.bytes, ← ht, List.map_append]
  unfold Returned.Given at h ⊢
  rw [hb, List.drop_append_of_le_length (by omega),
    List.take_append_of_le_length (by simp only [List.length_drop]; omega)]
  exact h

/-- The record only grows, and a log that is closed has its error. -/
theorem step_grows (hk : Keeps s.log s.wrote) (he : s.step e = some s') :
    (∀ g, s.wrote g <+: s'.wrote g) ∧ (s.log.closed = true → s'.log = s.log ∧ s'.wrote = s.wrote) := by
  rcases step_cases he with hl | hm
  · have hlater := log_later hk hl
    exact ⟨hlater.grows, fun hc => ⟨(logStep_move hk.bound hl).of_closed hc, (hlater.closed hc).2.2⟩⟩
  · obtain ⟨h1, h2⟩ := hm.log_eq
    exact ⟨fun g => h2 ▸ List.prefix_refl _, fun _ => ⟨h1, h2⟩⟩

theorem Honest.step (h : Honest s) (he : s.step e = some s') : Honest s' := by
  have hk := h.backed.placed.keeps
  obtain ⟨hgrows, hclosed⟩ := step_grows hk he
  have hgiven : ∀ x ∈ s.results, x.Given s' ∧
      x.from.offset + x.result.bytes.length ≤ (s'.wrote x.from.generation).length := by
    intro x hx
    obtain ⟨h1, h2⟩ := h.given x hx
    exact ⟨h1.later h2 hgrows, Nat.le_trans h2 (hgrows _).length_le⟩
  have heof : ∀ x ∈ s.results, x.result.err = some .eof → s'.log.closed = true ∧ s'.log.err = none := by
    intro x hx hx'
    have hc := h.eof x hx hx'
    rw [(hclosed hc.1).1]
    exact hc
  cases step_returns hk he with
  | silent hres => exact ⟨h.backed.step he, hres ▸ hgiven, hres ▸ heof⟩
  | @answers r x c hr hy hres =>
    obtain ⟨⟨hbytes, hle⟩, heof'⟩ := hy.honest h.backed hr
    refine ⟨h.backed.step he, fun y hy' => ?_, fun y hy' hey => ?_⟩
    all_goals rw [hres, List.mem_append, List.mem_singleton] at hy'
    · rcases hy' with hy' | rfl
      · exact hgiven y hy'
      · exact ⟨Returned.Given.later hbytes hle hgrows, Nat.le_trans hle (hgrows _).length_le⟩
    · rcases hy' with hy' | rfl
      · exact heof y hy' hey
      · have hc := heof' hey
        rw [(hclosed hc.1).1]
        exact hc

theorem honest_reach {ok : Sys → Ev → Bool} (h : machine.Reach ok s) : Honest s :=
  h.invariant (fun _ => .init) fun _ _ _ hi _ he => hi.step he

/-! ## The log afterwards -/

/-- Every operation on the log answers with the stored error and leaves it as it is. -/
structure Final (l : OutputLog) (err : Err) : Prop where
  append : ∀ data w, data ≠ [] → l.append data w = (l, some err)
  rotate : ∀ fail, l.rotate fail = (l, .error err)
  prune : ∀ before order rm, l.prune before order rm = (l, some err)
  cursor : l.cursor = .error err
  reader : ∀ c, l.reader false c = .error err

theorem final_of_failed {l : OutputLog} (hc : l.closed = true) (he : l.err = some err) : Final l err := by
  have hclosed : l.closedErr = err := by simp [closedErr, he]
  refine ⟨fun data w hd => ?_, fun fail => ?_, fun before order rm => ?_, ?_, fun c => ?_⟩
  · simp [OutputLog.append, hd, hc, hclosed]
  · simp [OutputLog.rotate, hc, hclosed]
  · simp [OutputLog.prune, he]
  · simp [OutputLog.cursor, he]
  · simp [OutputLog.reader, lookUp, he]

/-- What the failing append leaves: the index and the record as they were, and the error. -/
structure Failed (s t : Sys) (err : Err) : Prop where
  closed : t.log.closed = true
  err : t.log.err = some err
  generation : t.log.generation = s.log.generation
  segments : t.log.segments = s.log.segments
  wrote : t.wrote = s.wrote

theorem failed_append {data : List Byte} {n : Nat} {m : String} (hb : Backed s) (hc : s.log.closed = false)
    (hd : data ≠ []) (he : s.step (.append data (.short n m)) = some s') :
    Failed s s' (.other ("append output: " ++ m)) := by
  have hnone : s.log.err = none := by
    cases herr : s.log.err with
    | none => rfl
    | some err =>
      have := (hb.failed err herr).1
      rw [hc] at this
      cases this
  simp only [Sys.step, Sys.logStep, OutputLog.append, hd, hc, if_false, Bool.false_eq_true, hnone, Option.getD_none] at he
  obtain rfl := Option.some.inj he
  exact ⟨rfl, by simp [failLocked, signalLocked], rfl, rfl, by simp⟩

theorem Failed.step {t' : Sys} (h : Failed s t err) (hk : Keeps t.log t.wrote) (he : t.step e = some t') :
    Failed s t' err := by
  obtain ⟨hlog, hw⟩ := (step_grows hk he).2 h.closed
  exact ⟨hlog ▸ h.closed, hlog ▸ h.err, hlog ▸ h.generation, hlog ▸ h.segments, hw.trans h.wrote⟩

/-! ## The reader afterwards -/

def OutputLog.indexedFrom (l : OutputLog) (g : Nat) : Bool :=
  (List.range (l.generation + 1)).all fun k => decide (k < g) || (l.segments k).isSome

/-- All the reader still has to read is retained. -/
def Sys.allAhead (s : Sys) : Bool := s.standing.all fun c => s.log.indexedFrom c.generation

/-- Nothing the reader still has to read is pruned. -/
def sparesAhead (s : Sys) (e : Ev) : Bool := (s.step e).all Sys.allAhead

theorem Sys.allAhead_iff : s.allAhead = true ↔ ∀ c, s.standing = some c →
    ∀ g, c.generation ≤ g → g ≤ s.log.generation → s.log.segments g ≠ none := by
  cases hs : s.standing with
  | none => simp [Sys.allAhead, hs]
  | some c =>
    simp only [Sys.allAhead, hs, Option.all_some, indexedFrom, List.all_eq_true, List.mem_range, Bool.or_eq_true,
      decide_eq_true_eq, Option.some.injEq, forall_eq']
    constructor
    · intro h g hg hle
      exact Option.isSome_iff_ne_none.mp ((h g (by omega)).resolve_left (by omega))
    · intro h g hle
      by_cases hg : g < c.generation
      · exact .inl hg
      · exact .inr (Option.isSome_iff_ne_none.mpr (h g (by omega) (by omega)))

/-- Then no prune takes the generation the reader pins. -/
theorem prunesCurrent_of_spares (hp : Placed s) (hok : sparesAhead s e = true) (he : s.step e = some s') :
    prunesCurrent s e = true := by
  cases e with
  | prune before order rm =>
    have hall : s'.allAhead = true := by simpa [sparesAhead, he] using hok
    rw [Sys.allAhead_iff] at hall
    simp only [Sys.step, Sys.logStep, Sys.readerStep] at he
    split at he
    · obtain rfl := Option.some.inj he
      cases hr : s.reader with
      | none | resolved c limit complete => simp [prunesCurrent, Sys.losesPinned, hr]
      | opened r =>
        have hgen : r.cursor.generation ≤ (s.log.prune before order rm).1.generation := by
          rw [(prune_spec s.log before order rm).generation]
          exact (hp.opened hr).1.gen
        have hkept := hall r.cursor (by simp [Sys.standing, hr]) _ (Nat.le_refl _) hgen
        have hsome : ((s.log.prune before order rm).1.segments r.cursor.generation).isNone = false := by
          simpa [Option.isNone_eq_false_iff, Option.isSome_iff_ne_none] using hkept
        simp [prunesCurrent, Sys.losesPinned, hr, hsome]
    · cases he
  | _ => rfl

structure Spared (s : Sys) : Prop where
  inv : Inv s
  backed : Backed s
  ahead : s.allAhead = true

theorem Spared.init (h : s.Init) : Spared s := by
  refine ⟨init_inv h, .init h, ?_⟩
  obtain ⟨files, linked, generation, create, l, hb, hl, rfl⟩ := h
  rfl

theorem Spared.step (h : Spared s) (hok : sparesAhead s e = true) (he : s.step e = some s') : Spared s' :=
  ⟨step_inv h.inv (prunesCurrent_of_spares h.backed.placed hok he) he, h.backed.step he,
    by simpa [sparesAhead, he] using hok⟩

theorem Spared.ready (h : Spared s) (hr : s.reader = .opened r) (hd : s.done = false) (hc : s.canceled = false) :
    Ready s r :=
  ⟨h.inv, h.backed, hr, Sys.allAhead_iff.mp h.ahead r.cursor (by simp [Sys.standing, hr]), hd, hc⟩

/-- The failing append itself prunes nothing. -/
theorem Spared.failed {data : List Byte} {n : Nat} {m : String} (h : Spared s) (hc : s.log.closed = false)
    (hd : data ≠ []) (he : s.step (.append data (.short n m)) = some s') : Spared s' := by
  refine h.step ?_ he
  have hf := failed_append h.backed hc hd he
  have hr : s'.reader = s.reader := by
    simp only [Sys.step, Sys.logStep] at he
    obtain rfl := Option.some.inj he
    rfl
  simp only [sparesAhead, he, Option.all_some]
  rw [Sys.allAhead_iff, show s'.standing = s.standing by simp [Sys.standing, hr], hf.generation, hf.segments]
  exact Sys.allAhead_iff.mp h.ahead

/-- Nobody closes the reader or cancels its context, and the operating system serves it. -/
def goesOn : Ev → Bool
  | .closeReader => false
  | .cancel => false
  | .openFile (some _) => false
  | .readAt (some _) => false
  | _ => true

/-- A log and a reader that is left alone. -/
def calling : Lib.Machine Sys Ev := ⟨machine.init, fun s e => if goesOn e then s.step e else none⟩

/-- The calls delivered everything from the reader's start to the end, and then the error. -/
def Told (s : Sys) (err : Err) (u : Sys) : Prop :=
  ∃ front x back, u.results = front ++ x :: back ∧ x.result = errorResult err ∧
    front.flatMap (fun x => x.result.bytes) =
      between s.bytes s.start.generation s.start.offset s.end.generation s.end.offset

theorem results_grow (hk : Keeps s.log s.wrote) (he : s.step e = some s') : s.results <+: s'.results := by
  cases step_returns hk he with
  | silent hres => rw [hres]
  | answers hr hy hres => rw [hres]; exact List.prefix_append _ _

/-- How far a state of the reader is from the end. -/
def Sys.distance (s : Sys) : Nat :=
  match s.reader with
  | .opened r => s.rank r
  | _ => 0

theorem logStep_live (h : s.logStep e = some s') : s'.done = s.done ∧ s'.canceled = s.canceled := by
  cases logStep_inv h <;> exact ⟨rfl, rfl⟩

theorem prunesCurrent_closed (hc : s.log.closed = true) : prunesCurrent s e = true := by
  cases e with
  | prune before order rm =>
    simp only [prunesCurrent, prune_closed hc]
    cases hr : s.reader with
    | none | resolved c limit complete => simp [Sys.losesPinned, hr]
    | opened r =>
      cases hs : s.log.segments r.cursor.generation <;> simp [Sys.losesPinned, hr, hs]
  | _ => rfl

/-- The other events of a run leave a reader on a closed log where it is. -/
theorem Ready.passes (h : Ready s r) (hc : s.log.closed = true) (hgo : goesOn e = true) (hw : e.reads = false)
    (he : s.step e = some s') : Unmoved s s' ∧ Ready s' r ∧ s'.rank r = s.rank r := by
  have hr := h.reader
  have hinv := step_inv h.inv (prunesCurrent_closed hc) he
  have hb := h.backed.step he
  obtain ⟨hlog, hwrote⟩ := (step_grows h.inv.placed.keeps he).2 hc
  have finish : s'.reader = .opened r → s'.start = s.start → s'.pc = s.pc →
      s'.done = s.done ∧ s'.canceled = s.canceled → Unmoved s s' ∧ Ready s' r ∧ s'.rank r = s.rank r := by
    intro hr' hs hp hlive
    have hm : Unmoved s s' := ⟨hlog, hwrote, hs⟩
    refine ⟨hm, ⟨hinv, hb, hr', by rw [hlog]; exact h.ahead, by rw [hlive.1, hlive.2]; exact h.live⟩, ?_⟩
    have hpend : s'.pending r = s.pending r := by simp only [Sys.pending, hlog]
    simp only [Sys.rank, Sys.left, hpend, hm.end, hm.bytes, hlog, hp]
  rcases step_split he with hl | he'
  · have hrest := (log_later h.inv.placed.keeps hl).rest
    exact finish (hrest.1.trans hr) hrest.2.1 hrest.2.2.1 (logStep_live hl)
  · cases readerStep_cases he' with
    | resolve hr₁ | notPinned hr₁ | pinned hr₁ => cases hr.symm.trans hr₁
    | empty hr₁ hidle =>
      obtain rfl := Handle.opened.inj (hr.symm.trans hr₁)
      exact finish rfl rfl hidle.symm ⟨rfl, rfl⟩
    | call _ _ hlen => exact absurd (by simpa [Ev.reads] using hw) hlen
    | turn | wake => cases hw
    | notOpened fail | opened fail =>
      cases fail with
      | none => cases hw
      | some m => cases hgo
    | read fail =>
      cases fail with
      | none => cases hw
      | some f => cases hgo
    | stopClosed _ hd => cases h.live.1.symm.trans hd
    | stopCanceled _ hc => cases h.live.2.symm.trans hc
    | closeIdle | closeBusy | cancel => cases hgo

theorem calling_step (h : calling.step s e = some s') : goesOn e = true ∧ s.step e = some s' := by
  simpa [calling, Option.ite_none_right_eq_some] using h

/-- One step on a log that failed: the reader is told the error, or it comes nearer. -/
theorem Ready.toward {t : Sys} (h : Ready s r) (hm : Unmoved t s) (hc : t.log.closed = true)
    (herr : t.log.err = some err) (he : calling.step s e = some s') :
    Told t err s' ∨ ∃ r', Ready s' r' ∧ Unmoved t s' ∧ (s'.rank r' + if e.reads then 1 else 0) ≤ s.rank r := by
  obtain ⟨hgo, he⟩ := calling_step he
  have hc' : s.log.closed = true := hm.log ▸ hc
  cases hw : e.reads with
  | false =>
    obtain ⟨hm', hr, hle⟩ := h.passes hc' hgo hw he
    exact .inr ⟨r, hr, hm.trans hm', Nat.le_of_eq hle⟩
  | true =>
    obtain ⟨hm', r', hr, hn⟩ := h.reads hw he
    cases hn with
    | nearer _ hlt => exact .inr ⟨r', hr, hm.trans hm', hlt⟩
    | waits ho => rw [hc'] at ho; cases ho
    | ended _ hend _ hres =>
      left
      have hall := hr.drained (hm.trans hm') (hend.trans hm.end)
      refine ⟨s.results, _, [], hres, ?_, ?_⟩
      · simp only [hm.log, herr, Option.getD_some]
      · rw [← hall.all]
        simp [Sys.delivered, hres, errorResult]

theorem Told.step {t : Sys} (hk : Keeps s.log s.wrote) (h : Told t err s) (he : s.step e = some s') : Told t err s' := by
  obtain ⟨front, x, back, hres, hx, hall⟩ := h
  obtain ⟨more, hmore⟩ := results_grow hk he
  exact ⟨front, x, back ++ more, by rw [← hmore, hres]; simp, hx, hall⟩

/-- On a log that failed, a reader that is left alone is told the error after at most as many
    steps of its calls as its rank says, and until then it has a step to take. -/
theorem Ready.told {t : Sys} (h : Ready t r) (hc : t.log.closed = true) (herr : t.log.err = some err) {es : List Ev}
    (hrun : calling.run Lib.Machine.always t es = some u) :
    (Told t err u ∨ es.countP Ev.reads ≤ t.rank r) ∧
    (Told t err u ∨ ∃ e u', e.reads = true ∧ calling.step u e = some u') := by
  have hP : ∀ s e s', Placed s ∧ Told t err s → calling.step s e = some s' → Placed s' ∧ Told t err s' := by
    rintro s e s' ⟨hp, htold⟩ he
    have he := (calling_step he).2
    exact ⟨step_placed hp he, htold.step hp.keeps he⟩
  have hI : ∀ s e s', (∃ r, Ready s r ∧ Unmoved t s) → calling.step s e = some s' →
      (Placed s' ∧ Told t err s') ∨
        (∃ r, Ready s' r ∧ Unmoved t s') ∧ (s'.distance + if e.reads then 1 else 0) ≤ s.distance := by
    rintro s e s' ⟨r, hr, hm⟩ he
    rcases hr.toward hm hc herr he with htold | ⟨r', hr', hm', hle⟩
    · exact .inl ⟨step_placed hr.inv.placed (calling_step he).2, htold⟩
    · exact .inr ⟨⟨r', hr', hm'⟩, by simpa [Sys.distance, hr.reader, hr'.reader] using hle⟩
  have h0 : ∃ r, Ready t r ∧ Unmoved t t := ⟨r, h, rfl, rfl, rfl⟩
  refine ⟨?_, ?_⟩
  · have := calling.run_rank Ev.reads Sys.distance _ _ hP (fun s e s' hi _ he => hI s e s' hi he) (.inr h0) hrun
    simpa [Sys.distance, h.reader] using this.imp_left And.right
  · have hway : (Placed u ∧ Told t err u) ∨ ∃ r, Ready u r ∧ Unmoved t u := by
      refine calling.run_stable
        (P := fun s => (Placed s ∧ Told t err s) ∨ ∃ r, Ready s r ∧ Unmoved t s) ?_ (.inr h0) hrun
      rintro s e s' (hp | hi) - he
      · exact .inl (hP s e s' hp he)
      · exact (hI s e s' hi he).imp_right And.left
    rcases hway with ⟨-, htold⟩ | ⟨r', hr', hm'⟩
    · exact .inl htold
    · right
      rcases hr'.enabled with ⟨-, ho⟩ | ⟨e, u', hw, he⟩
      · rw [hm'.log, hc] at ho
        cases ho
      · refine ⟨e, u', hw, ?_⟩
        have hgo : goesOn e = true := by
          cases e with
          | openFile fail | readAt fail => cases fail <;> first | rfl | cases hw
          | _ => first | rfl | cases hw
        simp [calling, hgo, he]

/-! ## The result -/

/-- An append fails after any part of its data was written. Whatever follows: no call returns
    a byte that is not of the appends before it, no call returns `io.EOF`, every later
    operation answers with the error, and the index stays. And where nothing an open reader
    still has to read is pruned, the reader's calls deliver all there was and then the error. -/
theorem failed_append_is_final {data : List Byte} {n : Nat} {m : String} {s₁ : Sys} {es : List Ev}
    (h : machine.Reach Lib.Machine.always s) (hopen : s.log.closed = false) (hd : data ≠ [])
    (hfail : s.step (.append data (.short n m)) = some s₁) (hrun : machine.run Lib.Machine.always s₁ es = some t) :
    (∀ x ∈ t.results, x.Given s ∧ x.result.err ≠ some .eof) ∧
    Final t.log (.other ("append output: " ++ m)) ∧
    t.log.generation = s.log.generation ∧ t.log.segments = s.log.segments ∧
    (machine.Reach sparesAhead s → machine.run sparesAhead s₁ es = some t →
      ∀ r, t.reader = .opened r → t.done = false → t.canceled = false →
        ∀ es u, calling.run Lib.Machine.always t es = some u →
          (Told t (.other ("append output: " ++ m)) u ∨ es.countP Ev.reads ≤ t.rank r) ∧
          (Told t (.other ("append output: " ++ m)) u ∨ ∃ e u', e.reads = true ∧ calling.step u e = some u')) := by
  have hs := honest_reach h
  have hs₁ := hs.step hfail
  have ht : Honest t ∧ Failed s t (.other ("append output: " ++ m)) := by
    refine machine.run_stable (P := fun t => Honest t ∧ Failed s t (.other ("append output: " ++ m))) ?_
      ⟨hs₁, failed_append hs.backed hopen hd hfail⟩ hrun
    rintro t e t' ⟨ht, hf⟩ - he
    exact ⟨ht.step he, hf.step ht.backed.placed.keeps he⟩
  obtain ⟨ht, hf⟩ := ht
  refine ⟨fun x hx => ⟨?_, fun heof => ?_⟩, final_of_failed hf.closed hf.err, hf.generation, hf.segments, ?_⟩
  · have := (ht.given x hx).1
    simp only [Returned.Given, Sys.bytes, hf.wrote] at this
    exact this
  · have := (ht.eof x hx heof).2
    rw [hf.err] at this
    cases this
  · intro hreach hrun' r hr hdone hcan es u hu
    have hspared : Spared t := by
      have h0 : Spared s := hreach.invariant (fun _ => .init) fun _ _ _ hi hok he => hi.step hok he
      have h1 : Spared s₁ := h0.failed hopen hd hfail
      exact machine.run_stable (fun _ _ _ hi hok he => hi.step hok he) h1 hrun'
    exact (hspared.ready hr hdone hcan).told hf.closed hf.err hu

/-- A reader is opened at the start of one byte of output. -/
def oneByte : List Ev := [.append [97] .full, .resolve ⟨1, 0⟩, .pin none]

/-- It reads that byte, and then asks for more. -/
def readTwice : List Ev :=
  [.call 8 false, .section, .openFile none, .readAt none, .call 8 false, .section]

theorem failed_append_is_final_told : ∃ s s₁ t : Sys, machine.Reach Lib.Machine.always s ∧
    s.step (.append [98, 99] (.short 1 "no space left on device")) = some s₁ ∧
    machine.run Lib.Machine.always s₁ readTwice = some t ∧ (t.log.files 1 = [97, 98] ∧ t.delivered = [97]) ∧
    Final t.log (.other ("append output: " ++ "no space left on device")) ∧ t.log.segments = s.log.segments := by
  have hrun : (machine.run Lib.Machine.always (Sys.fresh created) oneByte).any (fun s => !s.log.closed &&
      (s.step (.append [98, 99] (.short 1 "no space left on device"))).any fun s₁ =>
        (machine.run Lib.Machine.always s₁ readTwice).any fun t =>
          decide (t.log.files 1 = [97, 98] ∧ t.delivered = [97])) = true := by decide
  obtain ⟨s, hs, h⟩ := (Option.any_eq_true _ _).mp hrun
  simp only [Bool.and_eq_true, Bool.not_eq_true'] at h
  obtain ⟨s₁, hs₁, h₁⟩ := (Option.any_eq_true _ _).mp h.2
  obtain ⟨t, ht, hp⟩ := (Option.any_eq_true _ _).mp h₁
  have hreach := machine.run_reach (.init created_init) hs
  obtain ⟨-, hfinal, -, hseg, -⟩ := failed_append_is_final hreach h.1 (by decide) hs₁ ht
  exact ⟨s, s₁, t, hreach, hs₁, ht, of_decide_eq_true hp, hfinal, hseg⟩

/-- After a failed append, an append of nothing still returns no error, and a reader-open
    whose context is cancelled returns the context's. -/
theorem some_answers_ignore_the_failure : ∃ s s₁ : Sys, machine.Reach Lib.Machine.always s ∧
    s.step (.append [98, 99] (.short 1 "no space left on device")) = some s₁ ∧
    Failed s s₁ (.other ("append output: " ++ "no space left on device")) ∧
    (s₁.log.append [] .full).2 = none ∧ s₁.log.reader true 0 = .error .canceled := by
  have hreach : machine.Reach Lib.Machine.always (Sys.fresh created) := .init created_init
  obtain ⟨s₁, hs₁⟩ : ∃ s₁, (Sys.fresh created).step (.append [98, 99] (.short 1 "no space left on device")) = some s₁ :=
    ⟨_, rfl⟩
  exact ⟨_, s₁, hreach, hs₁, failed_append (.init created_init) rfl (by decide) hs₁, rfl, rfl⟩

end Ghostline.Output
