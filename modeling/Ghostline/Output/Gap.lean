/-
  Ghostline.Output.Gap — no silent gap or duplicate in raw output.

  `NoGap`: what a reader has delivered is exactly what the log was given from where it
  was opened up to its `Cursor()`, generation after generation; every generation it
  left behind was delivered to its end; and `io.EOF` is only answered at the end of the
  last generation of a closed log.

  It does not hold of every run (`a_pruned_tail_is_skipped`): a reader takes the size of
  its generation over from the index (`fileLimit`) when it looks under the lock, and
  when appends, a rotation and a prune all land between two of its turns it goes on
  with the old limit, drains the file up to there and moves on, without an error. It
  holds of every run in which a prune takes the generation a reader pins out of the
  index only while that reader's limit is the generation's size (`no_gap`).
-/

import Ghostline.Lib.Segments
import Ghostline.Output.Position

namespace Ghostline.Output

open Lib.Segments
open LocalOutputSource

structure NoGap (s : Sys) : Prop where
  exact : ∀ r, s.reader = .opened r → s.delivered =
    between s.bytes s.start.generation s.start.offset r.cursor.generation r.cursor.offset
  whole : ∀ r, s.reader = .opened r → ∀ g, s.start.generation ≤ g → g < r.cursor.generation →
    between s.bytes s.start.generation s.start.offset (g + 1) 0 <+: s.delivered
  eof : ∀ x ∈ s.results, x.result.err = some .eof →
    s.log.closed = true ∧ x.cursor = ⟨s.log.generation, (s.wrote s.log.generation).length⟩

/-- The reader's limit is the size of the generation it pins. -/
def Sys.limitCurrent (s : Sys) : Bool :=
  match s.reader with
  | .opened r => s.log.segments r.cursor.generation == some r.fileLimit
  | _ => true

/-- The generation the reader pins is indexed, and no longer in `l`. -/
def Sys.losesPinned (s : Sys) (l : OutputLog) : Bool :=
  match s.reader with
  | .opened r =>
    r.pins && (s.log.segments r.cursor.generation).isSome && (l.segments r.cursor.generation).isNone
  | _ => false

/-- A prune takes the reader's generation only while the reader's limit is current. -/
def prunesCurrent (s : Sys) : Ev → Bool
  | .prune before order rm => !s.losesPinned (s.log.prune before order rm).1 || s.limitCurrent
  | _ => true

/-! ## The invariant -/

structure Sound (s : Sys) (r : LocalOutputSource) : Prop where
  /-- Once its generation is out of the index, nothing can correct the limit. -/
  limit : r.file = true → s.log.segments r.cursor.generation = none →
    r.fileLimit = (s.wrote r.cursor.generation).length
  ahead : LE s.start.generation s.start.offset r.cursor.generation r.cursor.offset
  started : s.start.offset ≤ (s.wrote s.start.generation).length
  got : s.delivered = between s.bytes s.start.generation s.start.offset r.cursor.generation r.cursor.offset

structure Inv (s : Sys) : Prop where
  placed : Placed s
  sound : ∀ r, s.reader = .opened r → Sound s r
  eof : ∀ x ∈ s.results, x.result.err = some .eof →
    s.log.closed = true ∧ x.cursor = ⟨s.log.generation, (s.wrote s.log.generation).length⟩

theorem init_inv {s : Sys} (h : s.Init) : Inv s := by
  refine ⟨init_placed h, ?_, ?_⟩
  all_goals obtain ⟨files, linked, generation, create, l, hb, hl, rfl⟩ := h
  · intro r hr; cases hr
  · intro x hx; cases hx

/-! ## The log moves on -/

theorem Later.before {s s' : Sys} (h : Later s s') {g i : Nat} (hg : g ≤ s.log.generation)
    (hi : i ≤ (s.wrote g).length) : Lib.Segments.before s'.bytes g i = Lib.Segments.before s.bytes g i := by
  apply before_grown
  · intro k hk
    simp only [Sys.bytes, h.past k (by omega)]
  · exact (h.grows g).map _
  · simpa [Sys.bytes] using hi

/-- What the reader holds survives whatever the log does. -/
theorem log_sound {s s' : Sys} {e : Ev} (h : Placed s) (hok : prunesCurrent s e = true)
    (he : s.logStep e = some s') {r : LocalOutputSource} (hr : s.reader = .opened r) (hs : Sound s r) : Sound s' r := by
  have hl := log_later h.keeps he
  obtain ⟨hat, -⟩ := h.opened hr
  obtain ⟨-, hstart, -, hres⟩ := hl.rest
  have hsg : s.start.generation ≤ s.log.generation := by
    have := hat.gen
    rcases hs.ahead with h' | ⟨h', -⟩ <;> omega
  refine ⟨fun hf hn => ?_, hstart ▸ hs.ahead, ?_, ?_⟩
  · rw [hl.gone _ hat.gen hn]
    by_cases hi : s.log.segments r.cursor.generation = none
    · exact hs.limit hf hi
    · -- a prune took the generation just now, and the limit was current
      obtain ⟨before, order, rm, rfl, hlog⟩ := log_unindexed h.keeps he hi hn
      rw [hlog] at hn
      have hpin : r.pins = true := by simp [pins, hf, hat.own hf]
      obtain ⟨n, hsome⟩ := Option.ne_none_iff_exists'.mp hi
      have hcur : n = r.fileLimit := by
        simpa [prunesCurrent, Sys.losesPinned, Sys.limitCurrent, hr, hpin, hsome, hn] using hok
      rw [← hcur]
      exact (h.keeps.index _ _ hsome).1
  · rw [hstart]; exact Nat.le_trans hs.started (hl.len _)
  · have hd : s'.delivered = s.delivered := by simp only [Sys.delivered, hres]
    rw [hd, hstart, hs.got]
    simp only [between, hl.before hsg hs.started, hl.before hat.gen hat.off]

theorem log_inv {s s' : Sys} {e : Ev} (h : Inv s) (hok : prunesCurrent s e = true) (he : s.logStep e = some s') :
    Inv s' := by
  have hl := log_later h.placed.keeps he
  obtain ⟨hr, -, -, hres⟩ := hl.rest
  refine ⟨later_placed h.placed hl, fun r hr' => ?_, fun x hx hx' => ?_⟩
  · rw [hr] at hr'
    exact log_sound h.placed hok he hr' (h.sound r hr')
  · obtain ⟨h1, h2⟩ := h.eof x (hres ▸ hx) hx'
    obtain ⟨h3, h4, h5⟩ := hl.closed h1
    exact ⟨h3, by rw [h4, h5]; exact h2⟩

/-! ## The reader moves on -/

/-- The limit after a look at the index: the size of what the log was given. -/
theorem refresh_limit {s : Sys} {r : LocalOutputSource} (hk : Keeps s.log s.wrote) (h : Sound s r)
    (hs : Served r s.log) : (r.refresh s.log).fileLimit = (s.wrote r.cursor.generation).length := by
  cases hn : s.log.segments r.cursor.generation with
  | some n => rw [refresh_limit_some r _ hn]; exact (hk.index _ _ hn).1
  | none =>
    rw [refresh_limit_none r _ hn]
    rcases hs with hs | ⟨hs, -⟩
    · rw [hn] at hs; cases hs
    · simp only [pins, Bool.and_eq_true] at hs
      exact h.limit hs.1 hn

/-- The reader did not move and delivered nothing. -/
theorem same_sound {s s' : Sys} {r r' : LocalOutputSource} (h : Sound s r) (hc : r'.cursor = r.cursor)
    (hlim : r'.file = true → s.log.segments r.cursor.generation = none → r.file = true ∧ r'.fileLimit = r.fileLimit)
    (hlog : s'.log = s.log) (hw : s'.wrote = s.wrote) (hstart : s'.start = s.start)
    (hd : s'.delivered = s.delivered) : Sound s' r' := by
  have hb : s'.bytes = s.bytes := by funext g; simp [Sys.bytes, hw]
  refine ⟨fun hf hn => ?_, ?_, ?_, ?_⟩
  · rw [hc, hlog] at hn
    obtain ⟨h1, h2⟩ := hlim hf hn
    rw [hc, hw, h2]
    exact h.limit h1 hn
  · rw [hc, hstart]; exact h.ahead
  · rw [hstart, hw]; exact h.started
  · rw [hd, hb, hstart, hc]; exact h.got

theorem ret_delivered (s : Sys) (r : LocalOutputSource) (c : Cursor) (x : Result) :
    (s.ret r c x).delivered = s.delivered ++ x.bytes := by
  simp [Sys.ret, Sys.delivered]

/-- A call returns: the results change by one, and `io.EOF` only at the end. -/
theorem ret_inv {s : Sys} {r' : LocalOutputSource} {c : Cursor} {x : Result} (h : Inv s) (hp : Placed (s.ret r' c x))
    (hs : Sound (s.ret r' c x) r')
    (he : x.err = some .eof → s.log.closed = true ∧ r'.cursor = ⟨s.log.generation, (s.wrote s.log.generation).length⟩) :
    Inv (s.ret r' c x) := by
  refine ⟨hp, fun r hr => ?_, fun y hy hy' => ?_⟩
  · obtain rfl : r' = r := by simpa [Sys.ret] using hr
    exact hs
  · rcases List.mem_append.mp hy with hy | hy
    · exact h.eof y hy hy'
    · obtain rfl := List.mem_singleton.mp hy
      exact he hy'

/-- A step that leaves the results: only the reader has to be looked at. -/
theorem quiet_inv {s s' : Sys} (h : Inv s) (hp : Placed s') (hlog : s'.log = s.log) (hw : s'.wrote = s.wrote)
    (hres : s'.results = s.results) (hs : ∀ r, s'.reader = .opened r → Sound s' r) : Inv s' := by
  refine ⟨hp, hs, fun x hx hx' => ?_⟩
  rw [hlog, hw]
  exact h.eof x (hres ▸ hx) hx'

theorem Sys.delivered_congr {s s' : Sys} (hres : s'.results = s.results) : s'.delivered = s.delivered := by
  simp only [Sys.delivered, hres]

/-- The reader itself is as it was. -/
theorem untouched_inv {s s' : Sys} (h : Inv s) (hp : Placed s') (hlog : s'.log = s.log) (hw : s'.wrote = s.wrote)
    (hres : s'.results = s.results) (hstart : s'.start = s.start) (hr : s'.reader = s.reader) : Inv s' :=
  quiet_inv h hp hlog hw hres fun r hr' =>
    same_sound (h.sound r (hr ▸ hr')) rfl (fun hf _ => ⟨hf, rfl⟩) hlog hw hstart (Sys.delivered_congr hres)

/-- The reader looked at the index, or closed its file. -/
theorem same_inv {s s' : Sys} {r r' : LocalOutputSource} (h : Inv s) (hp : Placed s') (hr : s.reader = .opened r)
    (hr' : s'.reader = .opened r') (hsame : Same s.log r r') (hlog : s'.log = s.log) (hw : s'.wrote = s.wrote)
    (hres : s'.results = s.results) (hstart : s'.start = s.start) : Inv s' := by
  refine quiet_inv h hp hlog hw hres fun r'' hr'' => ?_
  obtain rfl := Handle.opened.inj (hr'.symm.trans hr'')
  exact same_sound (h.sound r hr) hsame.cursor hsame.limit_gone hlog hw hstart (Sys.delivered_congr hres)

theorem reader_inv {s s' : Sys} {e : Ev} (h : Inv s) (he : ReaderMove s e s') : Inv s' := by
  have hp' := reader_placed h.placed he
  have hk := h.placed.keeps
  cases he with
  | resolved hr herr hc | notPinned hr => exact quiet_inv h hp' rfl rfl rfl fun r hr' => (by cases hr')
  | @pinned c limit complete fail hr hl =>
    obtain ⟨h1, -, h3, h4, h5, h6⟩ := h.placed.resolved hr
    refine quiet_inv h hp' rfl rfl rfl fun r hr' => ?_
    obtain rfl : LocalOutputSource.pinned c limit complete = r := by simpa using hr'
    refine ⟨fun _ hn => absurd hn (indexed_of_linked hk h3 h4 hl), .inr ⟨rfl, Nat.le_refl _⟩, Nat.le_trans h5 h6, ?_⟩
    have hd : s.delivered = [] := by simp [Sys.delivered, h1]
    exact hd.trans (between_self s.bytes _ _).symm
  | begun hr hp hlen | woken hp | closedBusy hr | canceled => exact untouched_inv h hp' rfl rfl rfl rfl rfl
  | nothing hr hsame hb hsz hne =>
    exact ret_inv h hp' (same_sound (h.sound _ hr) hsame.cursor (hsame.limit_gone) rfl rfl rfl
      (by rw [ret_delivered, hb, List.append_nil])) fun he => absurd he hne
  | @reported r len sized size hr hp hs he h0 =>
    have hlim := (same_refresh s.log r).limit_gone
    exact ret_inv h hp' (same_sound (h.sound _ hr) (by simp) hlim rfl rfl rfl
      (by rw [ret_delivered, List.append_nil])) fun he => (by cases he)
  | fetched hr hp hs hlim hle he hrep hb | waits hr hp =>
    exact same_inv h hp' hr rfl (same_refresh _ _) rfl rfl rfl rfl
  | @advanced r len sized hr hp hs hlt hle =>
    -- the generation is drained: its end is the start of the next one
    have hsd := h.sound r hr
    rw [refresh_limit hk hsd hs] at hle
    refine quiet_inv h hp' rfl rfl rfl fun r' hr' => ?_
    obtain rfl := Handle.opened.inj hr'
    refine ⟨fun hf => (by cases hf), .inl ?_, hsd.started, ?_⟩
    · show s.start.generation < r.cursor.generation + 1
      rcases hsd.ahead with h' | ⟨h', -⟩ <;> omega
    · show s.delivered = between s.bytes s.start.generation s.start.offset (r.cursor.generation + 1) 0
      have hend : (s.bytes r.cursor.generation).length ≤ r.cursor.offset := by simpa [Sys.bytes] using hle
      rw [between_next s.bytes hend]
      exact hsd.got
  | @ended r len sized hr hp hs hc hge hle =>
    have hsd := h.sound r hr
    have hat := (h.placed.opened hr).1
    rw [refresh_limit hk hsd hs] at hle
    refine ret_inv h hp' (same_sound hsd (by simp) (same_refresh _ _).limit_gone rfl rfl rfl
      (by rw [ret_delivered]; simp [errorResult])) fun _ => ⟨hc, ?_⟩
    have hg := hat.gen
    have ho := hat.off
    have heq : s.log.generation = r.cursor.generation := by omega
    have hoff : (s.wrote r.cursor.generation).length = r.cursor.offset := by omega
    rw [heq, hoff, refresh_cursor]
  | @fileOpened r len limit size fail hr hp ho =>
    have hat := (h.placed.opened hr).1
    refine quiet_inv h hp' rfl rfl rfl fun r' hr' => ?_
    obtain rfl := Handle.opened.inj hr'
    exact same_sound (h.sound _ hr) rfl (fun _ hn => ⟨hat.pinned_file hk ho hn, rfl⟩) rfl rfl rfl rfl
  | @fileRead r len limit size fail hr hp =>
    have hsd := h.sound r hr
    generalize hq : r.readAt s.log len limit size fail = q at hp' ⊢
    obtain ⟨r', x⟩ := q
    obtain ⟨rfl, -, hb, -, -, hne, -⟩ := chunk h.placed hr hp fail hq
    refine ret_inv h hp' ⟨hsd.limit, ?_, hsd.started, ?_⟩ fun h' => absurd h' hne
    · rcases hsd.ahead with h' | ⟨h1, h2⟩
      · exact .inl h'
      · exact .inr ⟨h1, Nat.le_trans h2 (Nat.le_add_right _ _)⟩
    · rw [ret_delivered]
      show _ = between s.bytes s.start.generation s.start.offset r.cursor.generation (r.cursor.offset + x.bytes.length)
      rw [between_add s.bytes _ hsd.ahead, ← hb, hsd.got]
  | closedIdle hr hp => exact same_inv h hp' hr rfl (same_closeFile _ _) rfl rfl rfl rfl

theorem step_inv {s s' : Sys} {e : Ev} (h : Inv s) (hok : prunesCurrent s e = true) (he : s.step e = some s') :
    Inv s' := by
  rcases step_cases he with he | he
  · exact log_inv h hok he
  · exact reader_inv h he

/-! ## The result -/

theorem Inv.noGap {s : Sys} (h : Inv s) : NoGap s := by
  refine ⟨fun r e => (h.sound r e).got, fun r e g hg hlt => ?_, h.eof⟩
  rw [(h.sound r e).got]
  -- the end of `g` is not past the cursor
  apply between_le
  by_cases e' : g + 1 = r.cursor.generation
  · exact .inr ⟨e', Nat.zero_le _⟩
  · exact .inl (by omega)

theorem no_gap {s : Sys} (h : machine.Reach prunesCurrent s) : NoGap s :=
  Inv.noGap (h.invariant (fun _ => init_inv) fun _ _ _ hi hok he => step_inv hi hok he)

/-- A reader is opened, output follows, and only after a read saw it the generation is
    completed and pruned: the reader drains it and goes on with the next one. -/
def drained : List Ev :=
  [.append [97] .full, .resolve ⟨1, 0⟩, .pin none, .append [98] .full, .rotate none, .append [99] .full,
    .call 1 false, .section, .openFile none, .readAt none, .prune ⟨2, 0⟩ [1, 2] (fun _ => none),
    .call 8 false, .section, .openFile none, .readAt none,
    .call 8 false, .section, .section, .openFile none, .readAt none]

theorem no_gap_drained : ∃ s, (machine.Reach prunesCurrent s ∧ s.log.segments 1 = none ∧ s.delivered = [97, 98, 99]) ∧
    NoGap s := by
  obtain ⟨s, hs, h⟩ := machine.exists_reach prunesCurrent created_init drained
    (P := fun s => s.log.segments 1 = none ∧ s.delivered = [97, 98, 99]) (by decide)
  exact ⟨s, ⟨hs, h⟩, no_gap hs⟩

/-- The same, but the reader does not look between its opening and the prune: its limit
    is still the size at its opening. -/
def skipped : List Ev :=
  [.append [97] .full, .resolve ⟨1, 0⟩, .pin none, .append [98] .full, .rotate none, .append [99] .full,
    .prune ⟨2, 0⟩ [1, 2] (fun _ => none),
    .call 8 false, .section, .openFile none, .readAt none,
    .call 8 false, .section, .section, .openFile none, .readAt none]

/-- Byte 98 was appended and never delivered, and no call returned an error. -/
theorem a_pruned_tail_is_skipped : ∃ s, machine.Reach Lib.Machine.always s ∧
    ((∀ x ∈ s.results, x.result.err = none) ∧ s.delivered = [97, 99] ∧
      (∃ r, s.reader = .opened r ∧ r.cursor = ⟨2, 1⟩) ∧ between s.bytes 1 0 2 1 = [97, 98, 99]) ∧ ¬ NoGap s := by
  obtain ⟨s, hs, herr, hd, hr, hst, hb⟩ := machine.exists_reach Lib.Machine.always created_init skipped
    (P := fun s => (∀ x ∈ s.results, x.result.err = none) ∧ s.delivered = [97, 99] ∧
      s.reader = .opened ⟨⟨2, 1⟩, 0, true, 2, 1, false⟩ ∧ s.start = ⟨1, 0⟩ ∧
      between s.bytes 1 0 2 1 = [97, 98, 99]) (by decide)
  refine ⟨s, hs, ⟨herr, hd, ⟨_, hr, rfl⟩, hb⟩, fun h => ?_⟩
  have := h.exact _ hr
  rw [hst, hd, hb] at this
  exact absurd this (by decide)

end Ghostline.Output
