/-
  Ghostline.Output.Drain — a closed log read to its end, with `Read` and with `ReadSized`.

  A closed log does not change any more, so a call is a function of the reader and its
  buffer (`OutputLog.still`). Each call that returns without an error has delivered bytes or
  reported a size it had not reported last, and either leaves the reader with less before it
  (`Sys.weight`); so a drain ends, and since reports move no cursor both ways of reading
  deliver the same (`sized_drain_is_plain_drain`).

  With a buffer of no bytes `read` returns before it looks at anything: such calls repeat
  themselves (`empty_buffers_never_end`).
-/

import Mathlib.Data.List.Chain
import Ghostline.Output.Call
import Ghostline.Output.Retained

namespace Ghostline.Output

open Lib.Segments
open LocalOutputSource

/-! ## Draining -/

/-- What a turn meets on a log that nobody changes, where the operating system does not fail. -/
def OutputLog.still (l : OutputLog) : Look := ⟨l, l, none, l, none⟩

/-- The reader that `outputLog.reader` opens at a cursor of the log. -/
def OutputLog.openAt (l : OutputLog) (c : Cursor) : LocalOutputSource :=
  .pinned c ((l.segments c.generation).getD 0) (decide (c.generation < l.generation))

/-- Up to `calls` calls with buffers of `lens 0`, `lens 1`, … bytes, until one returns an
    error: the results before it, the error, and `Cursor()`. A call takes no more turns than
    there are generations. -/
def drain (l : OutputLog) (sized : Bool) : (Nat → Nat) → Nat → LocalOutputSource → Option (List Result × Err × Cursor)
  | _, 0, _ => none
  | lens, calls + 1, r =>
    match r.read (lens 0) sized (List.replicate (l.generation + 1) l.still) with
    | none => none
    | some (r', x) =>
      match x.err with
      | some e => some ([], e, r'.cursor)
      | none => (drain l sized (fun k => lens (k + 1)) calls r').map fun d => (x :: d.1, d.2)

/-- Two results without bytes, one behind the other, differ in size. -/
def Changes (x y : Result) : Prop := x.bytes = [] → y.bytes = [] → x.size ≠ y.size

variable {s : Sys} {r r' : LocalOutputSource} {sized : Bool} {x : Result}

/-! ## What is before the reader -/

def Sys.rest (s : Sys) (c : Cursor) : List Byte :=
  between s.bytes c.generation c.offset s.end.generation s.end.offset

def Sys.weight (s : Sys) (r : LocalOutputSource) : Nat :=
  2 * ((s.rest r.cursor).length + (s.log.generation - r.cursor.generation)) + if s.pending r then 1 else 0

/-- A reader on a closed log that has everything from the reader's place on. -/
structure Stands (s : Sys) (r : LocalOutputSource) : Prop where
  keeps : Keeps s.log s.wrote
  closed : s.log.closed = true
  gen : r.cursor.generation ≤ s.log.generation
  off : r.cursor.offset ≤ (s.wrote r.cursor.generation).length
  indexed : ∀ g, r.cursor.generation ≤ g → g ≤ s.log.generation → s.log.segments g ≠ none
  linked : ∀ g, s.log.segments g ≠ none → s.log.linked g = true

theorem Stands.before_end (h : Stands s r) :
    LE r.cursor.generation r.cursor.offset s.end.generation s.end.offset := by
  rcases Nat.lt_or_eq_of_le h.gen with hlt | heq
  · exact .inl hlt
  · refine .inr ⟨heq, ?_⟩
    have hoff := h.off
    rw [heq] at hoff
    exact hoff

theorem Stands.served (h : Stands s r) : Served r s.log :=
  .inl (Option.isSome_iff_ne_none.mpr (h.indexed _ (Nat.le_refl _) h.gen))

theorem Stands.limit (h : Stands s r) : (r.refresh s.log).fileLimit = (s.wrote r.cursor.generation).length := by
  obtain ⟨n, hn⟩ := Option.ne_none_iff_exists'.mp (h.indexed _ (Nat.le_refl _) h.gen)
  rw [refresh_limit_some r _ hn, (h.keeps.index _ n hn).1]

theorem Stands.at_end (h : Stands s r) (hg : s.log.generation ≤ r.cursor.generation)
    (hle : (s.wrote r.cursor.generation).length ≤ r.cursor.offset) : r.cursor = s.end := by
  have hgen : r.cursor.generation = s.log.generation := Nat.le_antisymm h.gen hg
  have hoff : r.cursor.offset = (s.wrote r.cursor.generation).length := Nat.le_antisymm h.off hle
  show (⟨r.cursor.generation, r.cursor.offset⟩ : Cursor) = s.end
  rw [hoff, hgen, Sys.end]

/-- Only the cursor matters. -/
theorem Stands.move (h : Stands s r) (hg : r.cursor.generation ≤ r'.cursor.generation)
    (hgen : r'.cursor.generation ≤ s.log.generation) (hoff : r'.cursor.offset ≤ (s.wrote r'.cursor.generation).length) :
    Stands s r' :=
  ⟨h.keeps, h.closed, hgen, hoff, fun g h1 h2 => h.indexed g (Nat.le_trans hg h1) h2, h.linked⟩

/-- What one call can come to. -/
inductive CallOutcome (s : Sys) (r r' : LocalOutputSource) (x : Result) : Prop
  | report : x = ⟨[], r'.reported, none⟩ → r'.reported ≠ r.reported →
      s.rest r'.cursor = s.rest r.cursor → s.weight r' < s.weight r → CallOutcome s r r' x
  | chunk : x.err = none → x.bytes ≠ [] → s.rest r.cursor = x.bytes ++ s.rest r'.cursor → s.weight r' < s.weight r →
      CallOutcome s r r' x
  | ended : x = errorResult (s.log.err.getD .eof) → s.rest r.cursor = [] → r'.cursor = s.end → CallOutcome s r r' x

theorem weight_congr (hc : r'.cursor = r.cursor) (hr : r'.reported = r.reported) : s.weight r' = s.weight r := by
  unfold Sys.weight Sys.pending
  rw [hc, hr]

/-- Only what the reader has before it and what it reported last matter. -/
theorem CallOutcome.of_lighter {q : LocalOutputSource} (h : CallOutcome s q r' x) (hr : q.reported = r.reported)
    (hrest : s.rest q.cursor = s.rest r.cursor) (hw : s.weight q ≤ s.weight r) : CallOutcome s r r' x := by
  cases h with
  | report hx hne he hlt => exact .report hx (hr ▸ hne) (he.trans hrest) (Nat.lt_of_lt_of_le hlt hw)
  | chunk herr hb he hlt => exact .chunk herr hb (hrest ▸ he) (Nat.lt_of_lt_of_le hlt hw)
  | ended hx he hc => exact .ended hx (hrest ▸ he) hc

/-! ## One call -/

theorem Stands.openFile (h : Stands s r) :
    r.openFile s.log none = ({ r with file := true, fileGen := r.cursor.generation }, none) := by
  cases ho : r.openFile s.log none with
  | mk q err =>
    cases err with
    | none => rw [(openFile_ok r s.log ho).1]
    | some e =>
      have hl := h.linked _ (h.indexed _ (Nat.le_refl _) h.gen)
      have hfail := (openFile_failed ho).2
      simp [openErr, hl] at hfail

/-- The read behind a turn that found something. -/
theorem Stands.fetch (h : Stands s r) {len limit : Nat} (size : Size) (hlen : 0 < len) (hlim : 0 < limit)
    (hle : r.cursor.offset + limit ≤ (s.wrote r.cursor.generation).length) :
    ∃ r' x, r.fetch s.log.still len limit size = (r', x) ∧ Stands s r' ∧ CallOutcome s r r' x := by
  have hfile : r.cursor.offset + limit ≤ (s.log.files r.cursor.generation).length := by
    have hcontent := (h.keeps.content r.cursor.generation).length_le
    rw [List.length_map] at hcontent
    omega
  simp only [LocalOutputSource.fetch, OutputLog.still, h.openFile]
  generalize hq : LocalOutputSource.readAt { r with file := true, fileGen := r.cursor.generation } s.log len limit size
    none = q
  obtain ⟨r', x⟩ := q
  obtain ⟨rfl, -, hb, hbl, hne, hempty⟩ := readAt_spec _ s.log len limit size none hlen hlim hfile hq
  have herr : x.err = none := by
    have := readAt_err { r with file := true, fileGen := r.cursor.generation } s.log len limit size
    rw [hq] at this
    exact this.resolve_right hne
  have hbytes : x.bytes ≠ [] := fun he => hempty he herr
  have hpos : 0 < x.bytes.length := List.length_pos_iff.mpr hbytes
  have hstands : Stands s { r with
      cursor := ⟨r.cursor.generation, r.cursor.offset + x.bytes.length⟩, file := true, fileGen := r.cursor.generation } :=
    h.move (Nat.le_refl _) h.gen (by simp only; omega)
  have hrest : s.rest r.cursor = x.bytes ++ s.rest ⟨r.cursor.generation, r.cursor.offset + x.bytes.length⟩ := by
    have hmid : LE r.cursor.generation r.cursor.offset r.cursor.generation (r.cursor.offset + x.bytes.length) :=
      .inr ⟨rfl, by omega⟩
    have hself : LE r.cursor.generation r.cursor.offset r.cursor.generation r.cursor.offset := .inr ⟨rfl, Nat.le_refl _⟩
    have hstretch : x.bytes = ((s.bytes r.cursor.generation).drop r.cursor.offset).take x.bytes.length := by
      have hpre : s.bytes r.cursor.generation <+: s.log.files r.cursor.generation := h.keeps.content _
      have hin : r.cursor.offset + x.bytes.length ≤ (s.bytes r.cursor.generation).length := by
        rw [bytes_length]
        omega
      exact hb.trans (stretch_within hpre hin)
    rw [Sys.rest, between_trans _ hmid hstands.before_end, between_add _ _ hself, between_self, List.nil_append,
      ← hstretch]
    rfl
  refine ⟨_, x, rfl, hstands, .chunk herr hbytes hrest ?_⟩
  have hlen' := congrArg List.length hrest
  rw [List.length_append] at hlen'
  simp only [Sys.weight]
  split <;> split <;> omega

theorem weight_of_report (hc : r'.cursor = r.cursor) (hsize : r'.reported = (s.log.sizeSpanLocked r.cursor).1)
    (h0 : r'.reported ≠ 0) (hne : r'.reported ≠ r.reported) : s.weight r' < s.weight r := by
  have hp : s.pending r = true := by simp [Sys.pending, ← hsize, h0, hne]
  have hp' : s.pending r' = false := by simp [Sys.pending, hc, ← hsize]
  unfold Sys.weight
  rw [hp, hp', hc, if_pos rfl, if_neg (by decide)]
  omega

/-- Crossing into the next generation. -/
theorem Stands.advance (h : Stands s r) (r' : LocalOutputSource) (hlt : r.cursor.generation < s.log.generation)
    (hle : (s.wrote r.cursor.generation).length ≤ r.cursor.offset) (hc : r'.cursor = ⟨r.cursor.generation + 1, 0⟩) :
    Stands s r' ∧ s.rest r'.cursor = s.rest r.cursor ∧ s.weight r' < s.weight r := by
  have hstands : Stands s r' := by
    apply h.move <;> rw [hc]
    · exact Nat.le_succ _
    · exact hlt
    · exact Nat.zero_le _
  have hrest : s.rest r'.cursor = s.rest r.cursor := by
    have hnext := before_next s.bytes (show (s.bytes r.cursor.generation).length ≤ r.cursor.offset by
      rw [bytes_length]; exact hle)
    simp only [Sys.rest, between, hc, hnext]
  refine ⟨hstands, hrest, ?_⟩
  unfold Sys.weight
  rw [hrest, hc]
  simp only
  split <;> split <;> omega

/-- A call with a buffer returns, after at most as many turns as there are generations ahead. -/
theorem Stands.readLoop {len : Nat} (hlen : 0 < len) : ∀ (n : Nat) (r : LocalOutputSource), Stands s r →
    s.log.generation - r.cursor.generation < n →
    ∃ r' x, LocalOutputSource.readLoop len sized r (List.replicate n s.log.still) = some (r', x) ∧ Stands s r' ∧
      CallOutcome s r r' x := by
  intro n
  induction n with
  | zero => exact fun r _ hn => absurd hn (Nat.not_lt_zero _)
  | succ n ih =>
    intro r h hn
    rw [List.replicate_succ, LocalOutputSource.readLoop]
    have hcur : (r.refresh s.log).cursor = r.cursor := refresh_cursor r s.log
    have hsame : Stands s (r.refresh s.log) := h.move (by rw [hcur]) (by rw [hcur]; exact h.gen) (by rw [hcur]; exact h.off)
    generalize ht : r.lockSection s.log.still.log sized = q
    obtain ⟨q, t⟩ := q
    rcases lockSection_cases r s.log ht with ⟨-, -, hserved⟩ | ⟨size, rfl, rfl, -, hsize, h0, hne⟩ |
      ⟨limit, size, rfl, rfl, -, hlim, hle, -⟩ | ⟨rfl, rfl, -, hlt, hle⟩ | ⟨rfl, rfl, -, -, hg, hle⟩ | ⟨-, -, -, hopen, -⟩
    · exact absurd h.served hserved
    · have hsized : sized = true := by
        cases sized with
        | true => rfl
        | false => exact absurd hsize h0
      subst hsized
      have hspan : size = (s.log.sizeSpanLocked r.cursor).1 := hsize
      refine ⟨_, _, rfl, h.move (by simp) (by simpa using h.gen) (by simpa using h.off), ?_⟩
      exact .report rfl hne (by simp) (weight_of_report (by simp) hspan h0 hne)
    · obtain ⟨r', x, hq, hst, hout⟩ := hsame.fetch size hlen hlim
        (by rw [hcur, ← h.limit]; exact hle)
      refine ⟨r', x, by simp only [hq], hst, hout.of_lighter (by simp) (by simp) ?_⟩
      exact Nat.le_of_eq (weight_congr (by simp) (by simp))
    · rw [h.limit] at hle
      obtain ⟨hst, hrest, hw⟩ := h.advance { (r.refresh s.log).closeFile with cursor := ⟨r.cursor.generation + 1, 0⟩ }
        hlt hle rfl
      obtain ⟨r', x, hq, hst', hout⟩ := ih _ hst (by simp only; omega)
      exact ⟨r', x, hq, hst', hout.of_lighter (by simp [closeFile]) hrest (Nat.le_of_lt hw)⟩
    · rw [h.limit] at hle
      have hend := h.at_end hg hle
      refine ⟨_, _, rfl, hsame, .ended rfl ?_ (by rw [hcur]; exact hend)⟩
      rw [Sys.rest, hend]
      exact between_self _ _ _
    · rw [h.closed] at hopen
      cases hopen

theorem Stands.read (h : Stands s r) (sized : Bool) {len : Nat} (hlen : 0 < len) :
    ∃ r' x, r.read len sized (List.replicate (s.log.generation + 1) s.log.still) = some (r', x) ∧ Stands s r' ∧
      CallOutcome s r r' x := by
  rw [LocalOutputSource.read, if_neg (by omega)]
  exact Stands.readLoop hlen _ r h (by omega)

/-! ## All calls -/

/-- What a drain comes to, from a reader that has reported `reported`. -/
structure Drains (s : Sys) (r : LocalOutputSource) (d : List Result × Err × Cursor) : Prop where
  bytes : d.1.flatMap Result.bytes = s.rest r.cursor
  err : d.2.1 = s.log.err.getD .eof
  cursor : d.2.2 = s.end
  changes : d.1.IsChain Changes
  first : ∀ x ∈ d.1.head?, x.bytes = [] → x.size ≠ r.reported

theorem CallOutcome.drains {d : List Result × Err × Cursor} (h : CallOutcome s r r' x) (herr : x.err = none)
    (hd : Drains s r' d) : Drains s r (x :: d.1, d.2) := by
  have hbytes : (x :: d.1).flatMap Result.bytes = x.bytes ++ s.rest r'.cursor := by
    rw [List.flatMap_cons, hd.bytes]
  cases h with
  | report hx hne he hlt =>
    refine ⟨?_, hd.err, hd.cursor, List.isChain_cons.mpr ⟨fun y hy _ hyb => ?_, hd.changes⟩, ?_⟩
    · rw [hbytes, hx, he]
      rfl
    · rw [hx]
      exact (hd.first y hy hyb).symm
    · rintro y hy -
      obtain rfl := Option.some.inj hy
      rw [hx]
      exact hne
  | chunk _ hb he hlt =>
    refine ⟨hbytes.trans he.symm, hd.err, hd.cursor, List.isChain_cons.mpr ⟨fun y _ hx => absurd hx hb, hd.changes⟩, ?_⟩
    rintro y hy hyb
    obtain rfl := Option.some.inj hy
    exact absurd hyb hb
  | ended hx => rw [hx] at herr; cases herr

theorem Stands.drains (sized : Bool) : ∀ (n : Nat) (r : LocalOutputSource) (lens : Nat → Nat), Stands s r →
    (∀ k, 0 < lens k) → s.weight r < n → ∃ d, drain s.log sized lens n r = some d ∧ Drains s r d := by
  intro n
  induction n with
  | zero => exact fun r lens _ _ hn => absurd hn (Nat.not_lt_zero _)
  | succ n ih =>
    intro r lens h hlens hn
    obtain ⟨r', x, hq, hst, hout⟩ := h.read sized (hlens 0)
    simp only [drain, hq]
    have more : x.err = none → s.weight r' < s.weight r →
        ∃ d, (drain s.log sized (fun k => lens (k + 1)) n r').map (fun d => (x :: d.1, d.2)) = some d ∧
          Drains s r d := by
      intro herr hlt
      obtain ⟨d, hd, hdr⟩ := ih r' _ hst (fun k => hlens (k + 1)) (by omega)
      exact ⟨_, by rw [hd]; rfl, hout.drains herr hdr⟩
    cases hout with
    | report hx hne he hlt =>
      have herr : x.err = none := by rw [hx]
      simp only [herr]
      exact more herr hlt
    | chunk herr hb he hlt =>
      simp only [herr]
      exact more herr hlt
    | ended hx he hc =>
      subst hx
      exact ⟨_, rfl, he.symm, rfl, hc, .nil, by simp⟩

/-! ## The result -/

theorem stands_openAt (hb : Backed s) (hcontig : s.log.Contiguous) (hclosed : s.log.closed = true) {c c' : Cursor}
    (h : s.log.resolveCursorLocked c = .ok c') : Stands s (s.log.openAt c') := by
  have hk := hb.placed.keeps
  obtain ⟨-, hgen, hoff, hle⟩ := resolve_range hk h
  exact ⟨hk, hclosed, hgen, Nat.le_trans hoff hle, fun g h1 h2 => hcontig _ g (resolve_indexed hk h) h1 h2, hb.linked⟩

/-- More calls than it takes make no difference. -/
theorem drain_more {l : OutputLog} {d : List Result × Err × Cursor} : ∀ {n m : Nat} {lens : Nat → Nat}
    {r : LocalOutputSource}, drain l sized lens n r = some d → n ≤ m → drain l sized lens m r = some d := by
  intro n
  induction n generalizing d with
  | zero => exact fun h => by cases h
  | succ n ih =>
    intro m lens r h hm
    obtain ⟨m, rfl⟩ : ∃ k, m = k + 1 := ⟨m - 1, by omega⟩
    simp only [drain] at h ⊢
    split at h
    · cases h
    · split at h
      · exact h
      · obtain ⟨d', hd', rfl⟩ := Option.map_eq_some_iff.mp h
        rw [ih hd' (by omega)]
        rfl

/-- A closed log, whatever its history (without a prune, or with prunes that leave no hole),
    read to its end from any cursor by two readers, with any buffers that are not empty: both
    deliver the same and end with the same error, `io.EOF` unless the log was closed with
    another, and the same `Cursor()`; and no size is reported twice in a row. -/
theorem sized_drain_is_plain_drain (h : contiguousMachine.Reach removesOldest s) (hclosed : s.log.closed = true)
    {c c' : Cursor} (hc : s.log.resolveCursorLocked c = .ok c') (lens lens' : Nat → Nat) (hlens : ∀ k, 0 < lens k)
    (hlens' : ∀ k, 0 < lens' k) :
    ∃ calls sized plain cursor,
      (∀ n, calls ≤ n → drain s.log true lens n (s.log.openAt c') = some (sized, s.log.err.getD .eof, cursor)) ∧
      (∀ n, calls ≤ n → drain s.log false lens' n (s.log.openAt c') = some (plain, s.log.err.getD .eof, cursor)) ∧
      sized.flatMap Result.bytes = plain.flatMap Result.bytes ∧ sized.IsChain Changes := by
  obtain ⟨hb, hcontig⟩ := contiguous_reach h
  have hst := stands_openAt hb hcontig hclosed hc
  obtain ⟨⟨sized, err, cursor⟩, hd, hdr⟩ := Stands.drains true _ _ lens hst hlens (Nat.lt_succ_self _)
  obtain ⟨⟨plain, err', cursor'⟩, hd', hdr'⟩ := Stands.drains false _ _ lens' hst hlens' (Nat.lt_succ_self _)
  obtain rfl : err = s.log.err.getD .eof := hdr.err
  obtain rfl : err' = s.log.err.getD .eof := hdr'.err
  obtain rfl : cursor = cursor' := hdr.cursor.trans hdr'.cursor.symm
  exact ⟨_, sized, plain, cursor, fun n hn => drain_more hd hn, fun n hn => drain_more hd' hn,
    hdr.bytes.trans hdr'.bytes.symm, hdr.changes⟩

/-- A resize at the end of a generation, and another in the next one before its output. -/
def resizedTwice : List Ev :=
  [.markSize ⟨80, 24⟩, .append [97, 98] .full, .markSize ⟨100, 30⟩, .rotate none, .markSize ⟨120, 40⟩, .append [99] .full,
    .close none]

theorem sized_drain_is_plain_drain_resized : ∃ s, contiguousMachine.Reach removesOldest s ∧
    drain s.log true (fun _ => 1) 8 (s.log.openAt ⟨1, 0⟩) = some
      ([⟨[], ⟨80, 24⟩, none⟩, ⟨[97], ⟨80, 24⟩, none⟩, ⟨[98], ⟨80, 24⟩, none⟩, ⟨[], ⟨100, 30⟩, none⟩,
        ⟨[], ⟨120, 40⟩, none⟩, ⟨[99], ⟨120, 40⟩, none⟩], .eof, ⟨2, 1⟩) ∧
    ∃ n plain, drain s.log false (fun _ => 8) n (s.log.openAt ⟨1, 0⟩) = some (plain, .eof, ⟨2, 1⟩) ∧
      plain.flatMap Result.bytes = [97, 98, 99] := by
  obtain ⟨s, hs, hclosed, herr, hc, hd⟩ := contiguousMachine.exists_reach removesOldest created_contiguous resizedTwice
    (P := fun s => s.log.closed = true ∧ s.log.err = none ∧ s.log.resolveCursorLocked ⟨1, 0⟩ = .ok ⟨1, 0⟩ ∧
      drain s.log true (fun _ => 1) 8 (s.log.openAt ⟨1, 0⟩) = some
        ([⟨[], ⟨80, 24⟩, none⟩, ⟨[97], ⟨80, 24⟩, none⟩, ⟨[98], ⟨80, 24⟩, none⟩, ⟨[], ⟨100, 30⟩, none⟩,
          ⟨[], ⟨120, 40⟩, none⟩, ⟨[99], ⟨120, 40⟩, none⟩], .eof, ⟨2, 1⟩)) (by decide)
  obtain ⟨calls, sized, plain, cursor, h1, h2, hbytes, -⟩ := sized_drain_is_plain_drain hs hclosed hc
    (fun _ => 1) (fun _ => 8) (fun _ => by decide) (fun _ => by decide)
  have he := (drain_more hd (Nat.le_max_right calls 8)).symm.trans (h1 _ (Nat.le_max_left calls 8))
  simp only [herr, Option.getD_none, Option.some.injEq, Prod.mk.injEq, true_and] at he h2
  obtain ⟨rfl, rfl⟩ := he
  exact ⟨s, hs, hd, calls, plain, h2 calls (Nat.le_refl _), hbytes.symm⟩

theorem drain_empty (l : OutputLog) (sized : Bool) (r : LocalOutputSource) : ∀ n, drain l sized (fun _ => 0) n r = none := by
  intro n
  induction n with
  | zero => rfl
  | succ n ih => simp [drain, LocalOutputSource.read, ih]

/-- With empty buffers a call returns the same as the one before it, and the drain does not end. -/
theorem empty_buffers_never_end : ∃ s, contiguousMachine.Reach removesOldest s ∧ s.log.closed = true ∧
    s.log.resolveCursorLocked ⟨1, 0⟩ = .ok ⟨1, 0⟩ ∧
    (s.log.openAt ⟨1, 0⟩).read 0 true [] = some (s.log.openAt ⟨1, 0⟩, ⟨[], 0, none⟩) ∧
    ¬ Changes ⟨[], 0, none⟩ ⟨[], 0, none⟩ ∧
    ∀ n, drain s.log true (fun _ => 0) n (s.log.openAt ⟨1, 0⟩) = none := by
  obtain ⟨s, hs, hclosed, hc⟩ := contiguousMachine.exists_reach removesOldest created_contiguous [.close none]
    (P := fun s => s.log.closed = true ∧ s.log.resolveCursorLocked ⟨1, 0⟩ = .ok ⟨1, 0⟩) (by decide)
  exact ⟨s, hs, hclosed, hc, rfl, fun h => h rfl rfl rfl, drain_empty _ _ _⟩

end Ghostline.Output
