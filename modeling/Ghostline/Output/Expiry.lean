/-
  Ghostline.Output.Expiry — how retention is reported.

  `outputLog.reader` and `localOutputSource.read` look a generation up under the log's lock
  and open its file after they have let go of it. A prune that unlinks the file in between
  makes `os.Open` fail, and the caller gets "no such file" where it should learn that its
  cursor expired (`a_reader_finds_no_file`). In every run where no prune takes a generation
  that has been looked up and not opened yet, a position whose generation is gone is
  reported as expired, and a file that was looked up opens (`retention_is_reported`).
-/

import Ghostline.Output.Retained

namespace Ghostline.Output

open OutputLog LocalOutputSource

variable {s s' : Sys} {r : LocalOutputSource} {e : Ev} {c : Cursor}

/-- The part of `outputLog.reader` under the lock: the position, the size of its segment and
    whether that is complete. -/
def OutputLog.lookUp (l : OutputLog) («from» : Cursor) : Except Err (Cursor × Nat × Bool) :=
  match l.err with
  | some e => .error e
  | none =>
    match l.resolveCursorLocked «from» with
    | .error e => .error e
    | .ok c => .ok (c, (l.segments c.generation).getD 0, decide (c.generation < l.generation))

/-- The reader machine's `resolve` is this look. -/
theorem resolve_lookUp (hr : s.reader = .none) : s.step (.resolve c) =
    (s.log.lookUp c).toOption.map fun x => { s with reader := .resolved x.1 x.2.1 x.2.2 } := by
  simp only [Sys.step, Sys.logStep, Sys.readerStep, Option.orElse_none, hr, lookUp]
  cases s.log.err with
  | some err => rfl
  | none =>
    cases s.log.resolveCursorLocked c with
    | error err => rfl
    | ok c' => rfl

/-! ## Between the look and the open -/

/-- The generation whose file the reader is about to open by its path. -/
def Sys.lookedUp (s : Sys) : Option Nat :=
  match s.reader, s.pc with
  | .resolved c _ _, _ => some c.generation
  | .opened r, .opening _ _ _ => if r.pins then none else some r.cursor.generation
  | _, _ => none

/-- A prune does not take the generation that the reader has looked up. -/
def opensFirst (s : Sys) : Ev → Bool
  | .prune before order rm =>
    match s.lookedUp with
    | some g => ((s.log.prune before order rm).1.segments g).isSome
    | none => true
  | _ => true

theorem ReaderMove.lookedUp (h : ReaderMove s e s') (hp : Placed s)
    (hi : ∀ g, s.lookedUp = some g → s.log.segments g ≠ none) :
    ∀ g, s'.lookedUp = some g → s.log.segments g ≠ none := by
  intro g hg
  cases h with
  | resolved hr herr hc =>
    obtain rfl := Option.some.inj hg
    exact resolve_indexed hp.keeps hc
  | fetched hr _ hs =>
    simp only [Sys.lookedUp, refresh_pins, refresh_cursor] at hg
    split at hg
    · cases hg
    · rename_i hpin
      obtain rfl := Option.some.inj hg
      exact Option.isSome_iff_ne_none.mp (hs.resolve_right fun h => hpin h.1)
  | pinned hr =>
    have hidle := (hp.resolved hr).2.1
    simp [Sys.lookedUp, hidle] at hg
  | closedIdle hr hidle => simp [Sys.lookedUp, hidle] at hg
  | begun hr => simp [Sys.lookedUp, hr] at hg
  | woken hw =>
    -- only an open reader waits
    have hh := hp.handle
    cases hr : s.reader with
    | none | opened r => simp [Sys.lookedUp, hr] at hg
    | resolved c limit complete => rw [HandleAt, hr, hw] at hh; cases hh.2.1
  | notPinned | nothing | reported | advanced | ended | waits | fileOpened => cases hg
  | fileRead => cases hg
  | closedBusy | canceled => exact hi g hg

/-- What has been looked up is still in the index. -/
structure Timely (s : Sys) : Prop where
  fits : Fits s
  backed : Backed s
  indexed : ∀ g, s.lookedUp = some g → s.log.segments g ≠ none

theorem Timely.init (h : fileMachine.init s) : Timely s := by
  refine ⟨.init h, .init h.1, ?_⟩
  obtain ⟨⟨files, linked, generation, create, l, hb, hl, rfl⟩, -⟩ := h
  intro g hg
  cases hg

theorem Timely.step (h : Timely s) (hok : opensFirst s e = true) (he : fileMachine.step s e = some s') : Timely s' := by
  have hstep := (fileMachine_step he).1
  have hp := h.backed.placed
  refine ⟨h.fits.step he, h.backed.step hstep, fun g hg hn => ?_⟩
  rcases step_cases hstep with hl | hm
  · have hrest := (log_later hp.keeps hl).rest
    have hg' : s.lookedUp = some g := by simpa [Sys.lookedUp, hrest.1, hrest.2.2.1] using hg
    obtain ⟨before, order, rm, rfl, hlog⟩ := log_unindexed hp.keeps hl (h.indexed g hg') hn
    simp only [opensFirst, hg', ← hlog, hn] at hok
    cases hok
  · rw [hm.log_eq.1] at hn
    exact hm.lookedUp hp h.indexed g hg hn

/-! ## The result -/

/-- The position is in an indexed generation, or it is the zero cursor. -/
def Sys.Retained (s : Sys) (c : Cursor) : Prop :=
  c = 0 ∨ ∃ n, s.log.segments c.generation = some n ∧ c.offset ≤ n

/-- What the callers of `outputLog.reader` and of `read` are told. -/
structure Reports (s : Sys) : Prop where
  /-- Opening at a pruned position. -/
  pruned : s.log.err = none → ∀ c, s.Expired c → s.log.lookUp c = .error (.sentinel .cursorExpired)
  /-- Opening at a retained one: the look succeeds, and then the file opens. -/
  retained : s.log.err = none → ∀ c, s.Retained c → ∃ x, s.log.lookUp c = .ok x
  opens : ∀ c limit complete, s.reader = .resolved c limit complete → s.step (.pin none) =
    some { s with reader := .opened (.pinned c limit complete), start := c }
  /-- Reading at a position that is pruned and not pinned. -/
  expired : ∀ r len sized, s.reader = .opened r → s.pc = .top len sized →
    s.log.segments r.cursor.generation = none → r.pins = false →
    s.turn r len sized = s.ret r r.cursor (errorResult (.sentinel .cursorExpired))
  /-- Where a read goes on to its file, that opens. -/
  reads : ∀ r len limit size, s.reader = .opened r → s.pc = .opening len limit size → s.step (.openFile none) =
    some { s with
      reader := .opened { r with file := true, fileGen := r.cursor.generation }, pc := .reading len limit size }

theorem turn_expired {len : Nat} {sized : Bool} (hn : s.log.segments r.cursor.generation = none) (hp : r.pins = false) :
    s.turn r len sized = s.ret r r.cursor (errorResult (.sentinel .cursorExpired)) := by
  have hrefresh : r.refresh s.log = r := by simp [refresh, hn, hp]
  have hsec : r.lockSection s.log sized = (r, .expired) := by simp [lockSection, hrefresh, hn, hp]
  simp only [Sys.turn, hsec]

theorem lookUp_retained (hf : Fits s) (herr : s.log.err = none) (hc : s.Retained c) : ∃ x, s.log.lookUp c = .ok x := by
  have hres : ∃ c', s.log.resolveCursorLocked c = .ok c' := by
    rcases hc with rfl | ⟨n, hn, ho⟩
    · exact ⟨_, if_pos rfl⟩
    · have hk := hf.placed.keeps
      obtain ⟨hlen, hpos, -⟩ := hk.index _ n hn
      have hsize := hf.size c.generation
      have h0 : c ≠ 0 := by
        rintro rfl
        exact absurd hpos (by decide)
      have h1 : ¬ (c.generation = 0 ∨ maxInt64 < c.offset) := by omega
      have h2 : ¬ n < c.offset := by omega
      exact ⟨c, by simp only [resolveCursorLocked, h0, h1, hn, h2, if_false]⟩
  obtain ⟨c', hc'⟩ := hres
  simp only [lookUp, herr, hc']
  exact ⟨_, rfl⟩

theorem Timely.reports (h : Timely s) : Reports s := by
  have hlinked : ∀ g, s.lookedUp = some g → s.log.linked g = true := fun g hg => h.backed.linked g (h.indexed g hg)
  refine ⟨fun herr c hc => ?_, fun herr c hc => lookUp_retained h.fits herr hc, fun c limit complete hr => ?_,
    fun r len sized _ _ hn hp => turn_expired hn hp, fun r len limit size hr hp => ?_⟩
  · simp only [lookUp, herr, expired_iff.mpr hc]
  · have hl := hlinked c.generation (by simp [Sys.lookedUp, hr])
    simp [Sys.step, Sys.logStep, Sys.readerStep, hr, openErr, hl]
  · have hopen : (r.openFile s.log none).2 = none := by
      unfold openFile
      split
      · rfl
      · rename_i hpin
        have hl := hlinked r.cursor.generation (by simp [Sys.lookedUp, hr, hp, hpin])
        simp [openErr, hl]
    generalize hq : r.openFile s.log none = q at hopen
    obtain ⟨r', err⟩ := q
    obtain rfl : err = none := hopen
    obtain ⟨rfl, -⟩ := openFile_ok r s.log hq
    simp [Sys.step, Sys.logStep, Sys.readerStep, hr, hp, hq]

theorem retention_is_reported (h : fileMachine.Reach opensFirst s) : Reports s :=
  Timely.reports (h.invariant (fun _ => .init) fun _ _ _ hi hok he => hi.step hok he)

/-- A reader is opened and reads over a boundary; the first generation is pruned while the
    reader stands in the second and has it open. -/
def prunedBehind : List Ev :=
  [.append [97] .full, .rotate none, .append [98] .full, .rotate none, .resolve 0, .pin none, .call 8 false, .section,
    .openFile none, .readAt none, .call 8 false, .section, .prune ⟨2, 0⟩ [1, 2, 3] (fun _ => none), .section]

theorem retention_is_reported_behind : ∃ s, (fileMachine.Reach opensFirst s ∧ s.log.segments 1 = none ∧
    s.reader = .opened ⟨⟨2, 0⟩, 0, false, 1, 1, true⟩ ∧ s.pc = .opening 8 1 0) ∧ Reports s := by
  obtain ⟨s, hs, h⟩ := fileMachine.exists_reach opensFirst created_fits prunedBehind
    (P := fun s => s.log.segments 1 = none ∧
      s.reader = .opened ⟨⟨2, 0⟩, 0, false, 1, 1, true⟩ ∧ s.pc = .opening 8 1 0) (by decide)
  exact ⟨s, ⟨hs, h⟩, retention_is_reported hs⟩

/-! ## The window -/

/-- What `os.Open` answers for a file that is not there, as `pin` and `openFile` wrap it. -/
def notFound (generation : Nat) : Err :=
  .other ("open output generation " ++ toString generation ++ ": " ++ "no such file")

theorem openErr_notFound {l : OutputLog} {g : Nat} (h : l.linked g = false) : openErr l g none = some (notFound g) := by
  simp [openErr, h, notFound]

/-- The generation is pruned between the look of `outputLog.reader` and its `pin`. -/
theorem a_reader_finds_no_file : ∃ s, fileMachine.Reach Lib.Machine.always s ∧
    (s.reader = .resolved ⟨1, 0⟩ 1 true ∧ s.log.segments 1 = none ∧ openErr s.log 1 none = some (notFound 1)) ∧
    ¬ Reports s := by
  obtain ⟨s, hs, hr, hn, hl⟩ := fileMachine.exists_reach Lib.Machine.always created_fits
    [.append [97] .full, .rotate none, .resolve ⟨1, 0⟩, .prune ⟨2, 0⟩ [1, 2] (fun _ => none)]
    (P := fun s => s.reader = .resolved ⟨1, 0⟩ 1 true ∧ s.log.segments 1 = none ∧ s.log.linked 1 = false) (by decide)
  refine ⟨s, hs, ⟨hr, hn, openErr_notFound hl⟩, fun h => ?_⟩
  have hpin := h.opens _ _ _ hr
  simp [Sys.step, Sys.logStep, Sys.readerStep, hr, openErr, hl] at hpin

end Ghostline.Output
