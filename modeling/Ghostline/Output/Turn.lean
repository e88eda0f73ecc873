/-
  Ghostline.Output.Turn — what one turn of `read`'s loop can do (`lockSection_cases`),
  what the file read after it returns (`readAt_spec`), and all a step can do, of the log
  (`LogMove`) and of the reader (`ReaderStep`, and what the invariants need of it, `ReaderMove`).
-/

import Ghostline.Output.Reader

namespace Ghostline.Output

namespace LocalOutputSource

variable (r : LocalOutputSource) (l : OutputLog)

/-! ## Refreshing from the index -/

@[simp] theorem refresh_cursor : (r.refresh l).cursor = r.cursor := by
  unfold refresh; repeat' split
  all_goals rfl

@[simp] theorem refresh_file : (r.refresh l).file = r.file := by
  unfold refresh; repeat' split
  all_goals rfl

@[simp] theorem refresh_fileGen : (r.refresh l).fileGen = r.fileGen := by
  unfold refresh; repeat' split
  all_goals rfl

@[simp] theorem refresh_reported : (r.refresh l).reported = r.reported := by
  unfold refresh; repeat' split
  all_goals rfl

@[simp] theorem refresh_pins : (r.refresh l).pins = r.pins := by simp [pins]

theorem refresh_limit_some {n : Nat} (h : l.segments r.cursor.generation = some n) :
    (r.refresh l).fileLimit = n := by simp [refresh, h]

theorem refresh_limit_none (h : l.segments r.cursor.generation = none) :
    (r.refresh l).fileLimit = r.fileLimit := by
  simp only [refresh, h]; split <;> rfl

/-- There is something to serve at the cursor: its generation is indexed, or the reader
    pins it and it is complete. -/
def Served : Prop :=
  (l.segments r.cursor.generation).isSome = true ∨ (r.pins = true ∧ r.cursor.generation < l.generation)

/-- Where there is something to serve, `complete` says whether the generation is over. -/
theorem refresh_complete (h : Served r l) :
    (r.refresh l).complete = decide (r.cursor.generation < l.generation) := by
  unfold refresh
  split
  · rfl
  · rename_i hn
    rcases h with h | ⟨h, -⟩
    · simp [hn] at h
    · simp [h]

theorem not_served_iff :
    (l.segments r.cursor.generation = none ∧ ¬ ((r.refresh l).pins = true ∧ (r.refresh l).complete = true)) ↔
      ¬ Served r l := by
  cases hs : l.segments r.cursor.generation with
  | some n => simp [Served, hs]
  | none =>
    by_cases hp : r.pins = true
    · have : (r.refresh l).complete = decide (r.cursor.generation < l.generation) := by simp [refresh, hs, hp]
      simp [Served, hs, hp, this]
    · simp [Served, hs, hp]

@[simp] theorem spanAt_refresh (sized : Bool) : (r.refresh l).spanAt l sized = r.spanAt l sized := by
  simp [spanAt]

/-! ## One turn -/

/-- A bounded span is not empty. -/
theorem sizeSpan_pos (c : Cursor) : ∀ (marks : List SizeMark) (size : Size),
    (OutputLog.sizeSpan c marks size).2.2 = true → 0 < (OutputLog.sizeSpan c marks size).2.1 := by
  intro marks
  induction marks with
  | nil => intro size h; cases h
  | cons m rest ih =>
    intro size h
    unfold OutputLog.sizeSpan at h ⊢
    split
    · rename_i hg
      rw [if_pos hg] at h
      split
      · rename_i hlt; rw [if_pos hlt] at h; cases h
      · rename_i hlt; rw [if_neg hlt] at h; exact ih size h
    · rename_i hg
      rw [if_neg hg] at h
      split
      · rename_i hle; rw [if_pos hle] at h; exact ih _ h
      · simp only; omega

theorem spanAt_pos {sized : Bool} (h : (r.spanAt l sized).2.2 = true) : 0 < (r.spanAt l sized).2.1 := by
  unfold spanAt at h ⊢
  split
  · rename_i hs; rw [if_pos hs] at h; exact sizeSpan_pos _ _ _ h
  · rename_i hs; rw [if_neg hs] at h; cases h

theorem stopAt_le (span : Size × Nat × Bool) : r.stopAt span ≤ r.fileLimit := by
  unfold stopAt; split <;> omega

theorem stopAt_span {span : Size × Nat × Bool} (h : span.2.2 = true) : r.stopAt span ≤ r.cursor.offset + span.2.1 := by
  unfold stopAt; simp only [h, true_and]; split <;> omega

/-- A chunk that would be empty stands at the limit: a bounded span is not empty. -/
theorem limit_le_of_stopAt (span : Size × Nat × Bool) (hpos : span.2.2 = true → 0 < span.2.1)
    (h : ¬ r.cursor.offset < r.stopAt span) : r.fileLimit ≤ r.cursor.offset := by
  unfold stopAt at h
  split at h
  · rename_i hb; have := hpos hb.1; omega
  · omega

/-- Everything a turn under the lock can do. -/
theorem lockSection_cases {sized : Bool} {r' : LocalOutputSource} {t : Turn} (h : r.lockSection l sized = (r', t)) :
    (t = .expired ∧ r' = r.refresh l ∧ ¬ Served r l) ∨
    (∃ size, t = .report size ∧ r' = { r.refresh l with reported := size } ∧ Served r l ∧
      size = (r.spanAt l sized).1 ∧ size ≠ 0 ∧ size ≠ r.reported) ∨
    (∃ limit size, t = .fetch limit size ∧ r' = r.refresh l ∧ Served r l ∧ 0 < limit ∧
      r.cursor.offset + limit ≤ (r.refresh l).fileLimit ∧ size = (r.spanAt l sized).1 ∧
      (size = 0 ∨ size = r.reported) ∧ ((r.spanAt l sized).2.2 = true → limit ≤ (r.spanAt l sized).2.1)) ∨
    (t = .advance ∧ r' = { (r.refresh l).closeFile with cursor := ⟨r.cursor.generation + 1, 0⟩ } ∧ Served r l ∧
      r.cursor.generation < l.generation ∧ (r.refresh l).fileLimit ≤ r.cursor.offset) ∨
    (t = .ended (l.err.getD .eof) ∧ r' = r.refresh l ∧ Served r l ∧ l.closed = true ∧
      l.generation ≤ r.cursor.generation ∧ (r.refresh l).fileLimit ≤ r.cursor.offset) ∨
    (t = .wait l.changed ∧ r' = r.refresh l ∧ Served r l ∧ l.closed = false ∧
      l.generation ≤ r.cursor.generation ∧ (r.refresh l).fileLimit ≤ r.cursor.offset) := by
  simp only [lockSection, refresh_cursor, spanAt_refresh, refresh_reported] at h
  by_cases hs : Served r l
  · rw [if_neg fun hx => (not_served_iff r l).mp hx hs] at h
    right
    by_cases hrep : (r.spanAt l sized).1 ≠ 0 ∧ (r.spanAt l sized).1 ≠ r.reported
    · rw [if_pos hrep] at h
      obtain ⟨rfl, rfl⟩ := Prod.mk.inj h
      exact .inl ⟨_, rfl, by simp, hs, rfl, hrep.1, hrep.2⟩
    rw [if_neg hrep] at h
    right
    have hstop := stopAt_le (r.refresh l) (r.spanAt l sized)
    by_cases hlt : r.cursor.offset < (r.refresh l).stopAt (r.spanAt l sized)
    · rw [if_pos hlt] at h
      obtain ⟨rfl, rfl⟩ := Prod.mk.inj h
      refine .inl ⟨_, _, rfl, rfl, hs, by omega, by omega, rfl, ?_, fun hb => ?_⟩
      · by_cases h0 : (r.spanAt l sized).1 = 0
        · exact .inl h0
        · exact .inr (by by_contra hne; exact hrep ⟨h0, hne⟩)
      · have := stopAt_span (r.refresh l) hb
        simp only [refresh_cursor] at this
        omega
    rw [if_neg hlt] at h
    right
    have hlim : (r.refresh l).fileLimit ≤ r.cursor.offset := by
      have := limit_le_of_stopAt (r.refresh l) (r.spanAt l sized) (spanAt_pos r l)
      simp only [refresh_cursor] at this
      exact this hlt
    rw [refresh_complete r l hs] at h
    by_cases hc : r.cursor.generation < l.generation
    · rw [if_pos ⟨by simpa using hc, hlim⟩] at h
      obtain ⟨rfl, rfl⟩ := Prod.mk.inj h
      exact .inl ⟨rfl, rfl, hs, hc, hlim⟩
    rw [if_neg (by simp [hc])] at h
    right
    by_cases hcl : l.closed = true
    · rw [if_pos hcl] at h
      obtain ⟨rfl, rfl⟩ := Prod.mk.inj h
      exact .inl ⟨rfl, rfl, hs, hcl, by omega, hlim⟩
    · rw [if_neg hcl] at h
      obtain ⟨rfl, rfl⟩ := Prod.mk.inj h
      exact .inr ⟨rfl, rfl, hs, by simpa using hcl, by omega, hlim⟩
  · rw [if_pos ((not_served_iff r l).mpr hs)] at h
    obtain ⟨rfl, rfl⟩ := Prod.mk.inj h
    exact .inl ⟨rfl, rfl, hs⟩

/-! ## The file -/

/-- A read delivers a stretch of the file at the cursor and moves the cursor past it;
    where the file reaches that far it never answers `io.EOF`. -/
theorem readAt_spec (len limit : Nat) (size : Size) (fail : Option (Nat × String)) (hlen : 0 < len) (hlim : 0 < limit)
    (hfile : r.cursor.offset + limit ≤ (l.files r.fileGen).length) {r' : LocalOutputSource} {x : Result}
    (h : r.readAt l len limit size fail = (r', x)) :
    r' = { r with cursor := ⟨r.cursor.generation, r.cursor.offset + x.bytes.length⟩ } ∧ x.size = size ∧
      x.bytes = ((l.files r.fileGen).drop r.cursor.offset).take x.bytes.length ∧ x.bytes.length ≤ limit ∧
      x.err ≠ some .eof ∧ (x.bytes = [] → x.err ≠ none) := by
  have hthere : (((l.files r.fileGen).drop r.cursor.offset).take (min len limit)).length = min len limit := by
    simp only [List.length_take, List.length_drop]; omega
  unfold readAt fileReadAt at h
  cases fail with
  | none =>
    simp only [hthere, Nat.lt_irrefl, if_false] at h
    have hne : ((l.files r.fileGen).drop r.cursor.offset).take (min len limit) ≠ [] := by
      intro e; rw [e] at hthere; simp at hthere; omega
    simp only [ne_eq, hne, not_false_eq_true, true_or, and_self, if_true] at h
    obtain ⟨rfl, rfl⟩ := Prod.mk.inj h
    simp only [hthere]
    exact ⟨trivial, trivial, trivial, by omega, by simp, fun e => absurd e hne⟩
  | some f =>
    obtain ⟨n, m⟩ := f
    simp only [reduceCtorEq, Option.some.injEq, or_self, and_false, if_false] at h
    obtain ⟨rfl, rfl⟩ := Prod.mk.inj h
    refine ⟨rfl, rfl, ?_, ?_, by simp, by simp⟩
    · simp only [List.take_take, List.length_take, List.length_drop]
      congr 1
      omega
    · simp only [List.length_take, List.length_drop]; omega

theorem openErr_none {g : Nat} {fail : Option String} (h : openErr l g fail = none) : l.linked g = true := by
  unfold openErr at h
  split at h
  · cases h
  · split at h
    · assumption
    · cases h

theorem openFile_ok {fail : Option String} {r' : LocalOutputSource} (h : r.openFile l fail = (r', none)) :
    r' = { r with file := true, fileGen := r.cursor.generation } ∧
      (r.pins = true ∨ l.linked r.cursor.generation = true) := by
  unfold openFile at h
  by_cases hp : r.pins = true
  · rw [if_pos hp] at h
    refine ⟨?_, .inl hp⟩
    simp only [pins, Bool.and_eq_true, beq_iff_eq] at hp
    obtain ⟨rfl, -⟩ := Prod.mk.inj h
    rw [← hp.1, ← hp.2]
  · rw [if_neg hp] at h
    split at h
    · cases h
    · rename_i ho
      exact ⟨(Prod.mk.inj h).1.symm, .inr (openErr_none l ho)⟩

theorem openFile_err {fail : Option String} {r' : LocalOutputSource} {e : Err} (h : r.openFile l fail = (r', some e)) :
    r' = r.closeFile ∧ e ≠ .eof := by
  unfold openFile at h
  split at h
  · cases h
  · split at h
    · rename_i e' he
      obtain ⟨rfl, hee⟩ := Prod.mk.inj h
      obtain rfl := Option.some.inj hee
      refine ⟨rfl, ?_⟩
      rintro rfl
      unfold openErr at he
      split at he
      · cases he
      · split at he <;> cases he
    · cases h

end LocalOutputSource

/-! ## A reader's step -/

open LocalOutputSource

/-- `r'` stands where `r` does; at most it dropped its file or looked at the index. -/
structure LocalOutputSource.Same (l : OutputLog) (r r' : LocalOutputSource) : Prop where
  cursor : r'.cursor = r.cursor
  reported : r'.reported = r.reported
  file : r'.file = true → r.file = true ∧ r'.fileGen = r.fileGen
  limit : r'.fileLimit = r.fileLimit ∨ r'.fileLimit = (r.refresh l).fileLimit

theorem same_refl (l : OutputLog) (r : LocalOutputSource) : Same l r r := ⟨rfl, rfl, fun h => ⟨h, rfl⟩, .inl rfl⟩

theorem same_closeFile (l : OutputLog) (r : LocalOutputSource) : Same l r r.closeFile :=
  ⟨rfl, rfl, fun h => (by cases h), .inl rfl⟩

theorem same_refresh (l : OutputLog) (r : LocalOutputSource) : Same l r (r.refresh l) :=
  ⟨by simp, by simp, fun h => ⟨by simpa using h, by simp⟩, .inr rfl⟩

/-- Without an index entry nothing changed the limit. -/
theorem LocalOutputSource.Same.limit_gone {l : OutputLog} {r r' : LocalOutputSource} (h : Same l r r') :
    r'.file = true → l.segments r.cursor.generation = none → r.file = true ∧ r'.fileLimit = r.fileLimit := by
  intro hf hn
  refine ⟨(h.file hf).1, ?_⟩
  rcases h.limit with e | e
  · exact e
  · rw [e, refresh_limit_none r l hn]

/-- The branches of `readerStep` that do something. -/
inductive ReaderStep (s : Sys) : Ev → Sys → Prop
  | resolve {c c' : Cursor} : s.reader = .none → s.log.err = none → s.log.resolveCursorLocked c = .ok c' →
      ReaderStep s (.resolve c) { s with
        reader := .resolved c' ((s.log.segments c'.generation).getD 0) (decide (c'.generation < s.log.generation)) }
  | notPinned {c : Cursor} {limit : Nat} {complete : Bool} {fail : Option String} :
      s.reader = .resolved c limit complete → ReaderStep s (.pin fail) { s with reader := .none }
  | pinned {c : Cursor} {limit : Nat} {complete : Bool} {fail : Option String} :
      s.reader = .resolved c limit complete → openErr s.log c.generation fail = none →
      ReaderStep s (.pin fail) { s with reader := .opened (.pinned c limit complete), start := c }
  | empty {r : LocalOutputSource} {sized : Bool} : s.reader = .opened r → s.pc = .idle →
      ReaderStep s (.call 0 sized) (s.ret r r.cursor ⟨[], 0, none⟩)
  | call {r : LocalOutputSource} {len : Nat} {sized : Bool} : s.reader = .opened r → s.pc = .idle → len ≠ 0 →
      ReaderStep s (.call len sized) { s with pc := .top len sized }
  | turn {r : LocalOutputSource} {len : Nat} {sized : Bool} : s.reader = .opened r → s.pc = .top len sized →
      ReaderStep s .section (s.turn r len sized)
  | notOpened {r r' : LocalOutputSource} {len limit : Nat} {size : Size} {err : Err} (fail : Option String) :
      s.reader = .opened r → s.pc = .opening len limit size → r.openFile s.log fail = (r', some err) →
      ReaderStep s (.openFile fail) (s.ret r' r.cursor (errorResult err))
  | opened {r r' : LocalOutputSource} {len limit : Nat} {size : Size} (fail : Option String) :
      s.reader = .opened r → s.pc = .opening len limit size → r.openFile s.log fail = (r', none) →
      ReaderStep s (.openFile fail) { s with reader := .opened r', pc := .reading len limit size }
  | read {r : LocalOutputSource} {len limit : Nat} {size : Size} (fail : Option (Nat × String)) :
      s.reader = .opened r → s.pc = .reading len limit size →
      ReaderStep s (.readAt fail)
        (s.ret (r.readAt s.log len limit size fail).1 r.cursor (r.readAt s.log len limit size fail).2)
  | wake {len c : Nat} {sized : Bool} : s.pc = .waiting len sized c → ReaderStep s .wake { s with pc := .top len sized }
  | stopClosed {r : LocalOutputSource} : s.reader = .opened r → s.done = true →
      ReaderStep s (.stop true) (s.ret r r.cursor (errorResult .closedPipe))
  | stopCanceled {r : LocalOutputSource} : s.reader = .opened r → s.canceled = true →
      ReaderStep s (.stop false) (s.ret r r.cursor (errorResult .canceled))
  | closeIdle {r : LocalOutputSource} : s.reader = .opened r → s.pc = .idle →
      ReaderStep s .closeReader { s with reader := .opened r.closeFile, done := true }
  | closeBusy {r : LocalOutputSource} : s.reader = .opened r → s.pc ≠ .idle →
      ReaderStep s .closeReader { s with done := true }
  | cancel : ReaderStep s .cancel { s with canceled := true }

theorem readerStep_cases {s s' : Sys} {e : Ev} (h : s.readerStep e = some s') : ReaderStep s e s' := by
  -- `stop`, at the top of a turn and while the call waits
  have stops : ∀ {r : LocalOutputSource} {closed : Bool}, s.reader = .opened r →
      (if closed && s.done then some (s.ret r r.cursor (errorResult .closedPipe))
        else if !closed && s.canceled then some (s.ret r r.cursor (errorResult .canceled)) else none) = some s' →
      ReaderStep s (.stop closed) s' := by
    intro r closed hr hs
    split at hs
    · rename_i hd
      obtain ⟨rfl, hd⟩ := (Bool.and_eq_true _ _).mp hd
      obtain rfl := Option.some.inj hs
      exact .stopClosed hr hd
    · obtain ⟨hc, hs⟩ := Option.ite_none_right_eq_some.mp hs
      obtain rfl := Option.some.inj hs
      rw [Bool.and_eq_true, Bool.not_eq_true'] at hc
      rw [hc.1]
      exact .stopCanceled hr hc.2
  revert h
  fun_cases Sys.readerStep s e <;> intro h <;> try cases h
  case case1 hc hn hr => exact .resolve hr hn hc
  case case3 hr _ _ => exact .notPinned hr
  case case4 hr hopen => exact .pinned hr hopen
  case case6 hp hr => exact .empty hr hp
  case case7 hp hr hlen => exact .call hr hp hlen
  case case10 hp hr _ => exact .turn hr hp
  case case12 hp hr _ _ ho => exact .notOpened _ hr hp ho
  case case13 hp hr _ ho => exact .opened _ hr hp ho
  case case15 fail r len limit size hp hr _ _ hx =>
    have hread : ReaderStep s (.readAt fail) _ := .read fail hr hp
    rwa [hx] at hread
  case case17 hp _ => exact .wake hp
  case case20 hr | case21 hr => exact stops hr h
  case case23 hp hr => exact .closeIdle hr hp
  case case24 hr hp => exact .closeBusy hr hp
  case case26 => exact .cancel

/-- What one event of the reader does. -/
inductive ReaderMove (s : Sys) : Ev → Sys → Prop
  | resolved {c c' : Cursor} : s.reader = .none → s.log.err = none → s.log.resolveCursorLocked c = .ok c' →
      ReaderMove s (.resolve c) { s with
        reader := .resolved c' ((s.log.segments c'.generation).getD 0) (decide (c'.generation < s.log.generation)) }
  | notPinned {c : Cursor} {limit : Nat} {complete : Bool} {fail : Option String} :
      s.reader = .resolved c limit complete → ReaderMove s (.pin fail) { s with reader := .none }
  | pinned {c : Cursor} {limit : Nat} {complete : Bool} {fail : Option String} :
      s.reader = .resolved c limit complete → s.log.linked c.generation = true →
      ReaderMove s (.pin fail) { s with reader := .opened (.pinned c limit complete), start := c }
  | begun {r : LocalOutputSource} {len : Nat} {sized : Bool} : s.reader = .opened r → s.pc = .idle → 0 < len →
      ReaderMove s (.call len sized) { s with pc := .top len sized }
  /-- A call returns without bytes and without a size: an empty buffer, an expired
      cursor, a file that does not open, a closed reader or a cancelled context. -/
  | nothing {r r' : LocalOutputSource} {x : Result} {e : Ev} : s.reader = .opened r → Same s.log r r' →
      x.bytes = [] → x.size = 0 → x.err ≠ some .eof → ReaderMove s e (s.ret r' r.cursor x)
  | reported {r : LocalOutputSource} {len : Nat} {sized : Bool} {size : Size} :
      s.reader = .opened r → s.pc = .top len sized → Served r s.log →
      size = (r.spanAt s.log sized).1 → size ≠ 0 →
      ReaderMove s .section (s.ret { r.refresh s.log with reported := size } r.cursor ⟨[], size, none⟩)
  | fetched {r : LocalOutputSource} {len : Nat} {sized : Bool} {limit : Nat} {size : Size} :
      s.reader = .opened r → s.pc = .top len sized → Served r s.log → 0 < limit →
      r.cursor.offset + limit ≤ (r.refresh s.log).fileLimit →
      size = (r.spanAt s.log sized).1 → size = 0 ∨ size = r.reported →
      ((r.spanAt s.log sized).2.2 = true → limit ≤ (r.spanAt s.log sized).2.1) →
      ReaderMove s .section { s with reader := .opened (r.refresh s.log), pc := .opening len limit size }
  | advanced {r : LocalOutputSource} {len : Nat} {sized : Bool} :
      s.reader = .opened r → s.pc = .top len sized → Served r s.log → r.cursor.generation < s.log.generation →
      (r.refresh s.log).fileLimit ≤ r.cursor.offset →
      ReaderMove s .section { s with
        reader := .opened { (r.refresh s.log).closeFile with cursor := ⟨r.cursor.generation + 1, 0⟩ }
        pc := .top len sized }
  | ended {r : LocalOutputSource} {len : Nat} {sized : Bool} :
      s.reader = .opened r → s.pc = .top len sized → Served r s.log → s.log.closed = true →
      s.log.generation ≤ r.cursor.generation → (r.refresh s.log).fileLimit ≤ r.cursor.offset →
      ReaderMove s .section (s.ret (r.refresh s.log) r.cursor (errorResult (s.log.err.getD .eof)))
  | waits {r : LocalOutputSource} {len : Nat} {sized : Bool} : s.reader = .opened r → s.pc = .top len sized →
      ReaderMove s .section { s with
        reader := .opened (r.refresh s.log), pc := .waiting len sized s.log.changed }
  | fileOpened {r : LocalOutputSource} {len limit : Nat} {size : Size} {fail : Option String} :
      s.reader = .opened r → s.pc = .opening len limit size →
      r.pins = true ∨ s.log.linked r.cursor.generation = true →
      ReaderMove s (.openFile fail) { s with
        reader := .opened { r with file := true, fileGen := r.cursor.generation }, pc := .reading len limit size }
  | fileRead {r : LocalOutputSource} {len limit : Nat} {size : Size} (fail : Option (Nat × String)) :
      s.reader = .opened r → s.pc = .reading len limit size →
      ReaderMove s (.readAt fail)
        (s.ret (r.readAt s.log len limit size fail).1 r.cursor (r.readAt s.log len limit size fail).2)
  | woken {len c : Nat} {sized : Bool} : s.pc = .waiting len sized c →
      ReaderMove s .wake { s with pc := .top len sized }
  | closedIdle {r : LocalOutputSource} : s.reader = .opened r → s.pc = .idle →
      ReaderMove s .closeReader { s with reader := .opened r.closeFile, done := true }
  | closedBusy {r : LocalOutputSource} : s.reader = .opened r → ReaderMove s .closeReader { s with done := true }
  | canceled : ReaderMove s .cancel { s with canceled := true }

theorem turn_move {s : Sys} {r : LocalOutputSource} {len : Nat} {sized : Bool} (hr : s.reader = .opened r)
    (hp : s.pc = .top len sized) : ReaderMove s .section (s.turn r len sized) := by
  unfold Sys.turn
  generalize ht : r.lockSection s.log sized = q
  obtain ⟨r', t⟩ := q
  rcases lockSection_cases r s.log ht with ⟨rfl, rfl, -⟩ | ⟨size, rfl, rfl, hs, he, h0, -⟩ |
    ⟨limit, size, rfl, rfl, hs, hlim, hle, he, hrep, hb⟩ | ⟨rfl, rfl, hs, hlt, hle⟩ |
    ⟨rfl, rfl, hs, hc, hge, hle⟩ | ⟨rfl, rfl, -⟩
  · exact .nothing hr (same_refresh _ r) rfl rfl (by simp [errorResult])
  · exact .reported hr hp hs he h0
  · exact .fetched hr hp hs hlim hle he hrep hb
  · exact .advanced hr hp hs hlt hle
  · exact .ended hr hp hs hc hge hle
  · exact .waits hr hp

theorem readerStep_move {s s' : Sys} {e : Ev} (h : s.readerStep e = some s') : ReaderMove s e s' := by
  cases readerStep_cases h with
  | resolve hr hn hc => exact .resolved hr hn hc
  | notPinned hr => exact .notPinned hr
  | pinned hr hopen => exact .pinned hr (openErr_none _ hopen)
  | empty hr _ => exact .nothing hr (same_refl _ _) rfl rfl (by simp)
  | call hr hp hlen => exact .begun hr hp (by omega)
  | turn hr hp => exact turn_move hr hp
  | notOpened _ hr _ ho =>
    obtain ⟨rfl, hne⟩ := openFile_err _ s.log ho
    exact .nothing hr (same_closeFile _ _) rfl rfl (by simpa [errorResult] using hne)
  | opened _ hr hp ho =>
    obtain ⟨rfl, hlinked⟩ := openFile_ok _ s.log ho
    exact .fileOpened hr hp hlinked
  | read fail hr hp => exact .fileRead fail hr hp
  | wake hp => exact .woken hp
  | stopClosed hr _ | stopCanceled hr _ => exact .nothing hr (same_refl _ _) rfl rfl (by simp [errorResult])
  | closeIdle hr hp => exact .closedIdle hr hp
  | closeBusy hr _ => exact .closedBusy hr
  | cancel => exact .canceled

/-! ## The log -/

section

open OutputLog

variable {s s' : Sys} {e : Ev}

/-- The log's own operations, and the state each leaves. -/
inductive LogStep (s : Sys) : Ev → Sys → Prop
  | append (data : List Byte) (w : Write) :
      LogStep s (.append data w) { s with
        log := (s.log.append data w).1
        wrote := if (s.log.append data w).2 = none then extend s.wrote s.log.generation data (s.force.getD 0) else s.wrote }
  | rotate (fail : Option String) : LogStep s (.rotate fail) { s with log := (s.log.rotate fail).1 }
  | prune (before : Cursor) {order : List Nat} (rm : Nat → Option String) : order.Perm s.log.keys →
      LogStep s (.prune before order rm) { s with log := (s.log.prune before order rm).1 }
  | markSize (size : Size) : LogStep s (.markSize size) { s with
      log := s.log.markSize size, force := if s.log.closed then s.force else some size }
  | close (err : Option String) : LogStep s (.close err) { s with log := s.log.close (err.map Err.other) }

theorem logStep_inv (h : s.logStep e = some s') : LogStep s e s' := by
  cases e with
  | append data w => exact Option.some.inj h ▸ .append data w
  | rotate fail => exact Option.some.inj h ▸ .rotate fail
  | prune before order rm =>
    simp only [Sys.logStep, Option.ite_none_right_eq_some, Option.some.injEq] at h
    obtain ⟨hperm, rfl⟩ := h
    exact .prune before rm hperm
  | markSize size => exact Option.some.inj h ▸ .markSize size
  | close err => exact Option.some.inj h ▸ .close err
  | _ => simp [Sys.logStep] at h

/-- What one event does to the log. -/
inductive LogMove (l : OutputLog) : Ev → OutputLog → Prop
  /-- The log is closed, or the operation refuses. -/
  | refused {e : Ev} : LogMove l e l
  | failed {data : List Byte} {n : Nat} {m : String} : l.closed = false → data ≠ [] →
      LogMove l (.append data (.short n m))
        (failLocked { l with files := Function.update l.files l.generation (l.files l.generation ++ data.take n) }
          (.other ("append output: " ++ m)))
  | appended {data : List Byte} {w : Write} : l.closed = false → data ≠ [] →
      LogMove l (.append data w) (signalLocked { l with
        files := Function.update l.files l.generation (l.files l.generation ++ data)
        segments := Function.update l.segments l.generation (some ((l.segments l.generation).getD 0 + data.length)) })
  | rotated {fail : Option String} : l.closed = false →
      LogMove l (.rotate fail) (signalLocked { l with
        generation := l.generation + 1
        segments := Function.update l.segments (l.generation + 1) (some 0)
        sizes := carrySize l.sizes (l.generation + 1)
        files := Function.update l.files (l.generation + 1) []
        linked := Function.update l.linked (l.generation + 1) true })
  | pruned {before : Cursor} {order : List Nat} {rm : Nat → Option String} : l.closed = false →
      order.Perm l.keys → l.changed ≤ (l.prune before order rm).1.changed →
      LogMove l (.prune before order rm) (l.prune before order rm).1
  | marked {size : Size} {sizes : List SizeMark} {changed : Nat} : l.closed = false → l.changed ≤ changed →
      LogMove l (.markSize size) { l with sizes := sizes, changed := changed }
  | shut {err : Option String} : l.closed = false →
      LogMove l (.close err) (signalLocked { l with closed := true, err := err.map Err.other })

theorem pruneLoop_changed (before : Nat) (rm : Nat → Option String) : ∀ (order : List Nat) (l : OutputLog),
    (pruneLoop before rm l order).1.changed = l.changed := by
  intro order
  induction order with
  | nil => intro l; rfl
  | cons g rest ih =>
    intro l
    simp only [pruneLoop]
    split
    · exact ih l
    · split
      · rfl
      · exact ih _

theorem prune_changed (l : OutputLog) (before : Cursor) (order : List Nat) (rm : Nat → Option String) :
    l.changed ≤ (l.prune before order rm).1.changed := by
  have hloop := pruneLoop_changed before.generation rm order l
  unfold prune
  split
  · exact Nat.le_refl _
  split
  · exact Nat.le_refl _
  split
  · exact Nat.le_refl _
  split
  · rename_i l' e hp
    rw [hp] at hloop
    exact Nat.le_of_eq hloop.symm
  · rename_i l' hp
    rw [hp] at hloop
    simp only [signalLocked]
    have : l'.changed = l.changed := hloop
    omega

theorem markSize_changed (l : OutputLog) (size : Size) : l.changed ≤ (l.markSize size).changed := by
  unfold markSize
  split
  · exact Nat.le_refl _
  simp only
  split
  · exact Nat.le_succ _
  split
  · exact Nat.le_refl _
  split
  · exact Nat.le_succ _
  · exact Nat.le_succ _

theorem logStep_move (hb : s.log.generation < 2 ^ 64) (h : s.logStep e = some s') : LogMove s.log e s'.log := by
  cases logStep_inv h with
  | append data w =>
    rcases append_cases s.log data w with ⟨he, -⟩ | ⟨hc, hd, n, m, rfl, -, he⟩ | ⟨hc, hd, -, he⟩
    · simp only [he]; exact .refused
    · simp only [he]; exact .failed hc hd
    · simp only [he]; exact .appended hc hd
  | rotate fail =>
    rcases rotate_cases hb fail with he | ⟨hc, -, -, he⟩
    · simp only [he]; exact .refused
    · simp only [he]; exact .rotated hc
  | @prune before order rm hperm =>
    cases hc : s.log.closed with
    | true => simp only [prune_closed hc]; exact .refused
    | false => exact .pruned hc hperm (prune_changed _ _ _ _)
  | markSize size =>
    have hle := markSize_changed s.log size
    obtain ⟨sizes, changed, he⟩ := markSize_eq s.log size
    cases hc : s.log.closed with
    | true => simp only [markSize_closed hc]; exact .refused
    | false =>
      rw [he] at hle
      simp only [he]
      exact .marked hc hle
  | close err =>
    cases hc : s.log.closed with
    | true => simp only [close_closed hc]; exact .refused
    | false =>
      simp only [OutputLog.close, hc]
      exact .shut hc

/-- A closed log stays as it is. -/
theorem LogMove.of_closed {l l' : OutputLog} (h : LogMove l e l') (hc : l.closed = true) : l' = l := by
  cases h with
  | refused => rfl
  | failed ho | appended ho | rotated ho | pruned ho | marked ho | shut ho => rw [hc] at ho; cases ho

theorem LogMove.generation_le {l l' : OutputLog} (h : LogMove l e l') : l.generation ≤ l'.generation := by
  cases h with
  | refused | failed _ _ | appended _ _ | marked _ _ | shut _ => exact Nat.le_refl _
  | rotated _ => exact Nat.le_succ _
  | pruned _ _ _ => exact Nat.le_of_eq (prune_spec _ _ _ _).generation.symm

/-- Only a prune takes a generation out of the index. -/
theorem LogMove.unindexed {l l' : OutputLog} {g : Nat} (h : LogMove l e l') (hs : l.segments g ≠ none)
    (hn : l'.segments g = none) : ∃ before order rm, e = .prune before order rm ∧ l' = (l.prune before order rm).1 := by
  cases h with
  | refused | failed _ _ | marked _ _ | shut _ => exact absurd hn hs
  | appended _ _ =>
    simp only [signalLocked] at hn
    by_cases hg : g = l.generation
    · subst hg; simp at hn
    · rw [Function.update_of_ne hg] at hn; exact absurd hn hs
  | rotated _ =>
    simp only [signalLocked] at hn
    by_cases hg : g = l.generation + 1
    · subst hg; simp at hn
    · rw [Function.update_of_ne hg] at hn; exact absurd hn hs
  | pruned _ _ _ => exact ⟨_, _, _, rfl, rfl⟩

/-- A completed generation that has left the index does not come back. -/
theorem LogMove.gone {l l' : OutputLog} {g : Nat} (h : LogMove l e l') (hg : g < l.generation)
    (hs : l.segments g = none) : l'.segments g = none := by
  cases h with
  | refused | failed _ _ | marked _ _ | shut _ => exact hs
  | appended _ _ | rotated _ =>
    simp only [signalLocked]
    rw [Function.update_of_ne (by omega)]
    exact hs
  | pruned _ _ _ =>
    rcases (prune_spec l _ _ _).entry g with ⟨h1, -⟩ | ⟨-, h1, -⟩
    · exact h1.trans hs
    · exact h1

end

theorem step_split {s s' : Sys} {e : Ev} (h : s.step e = some s') :
    s.logStep e = some s' ∨ s.readerStep e = some s' := by
  unfold Sys.step at h
  cases hl : s.logStep e with
  | some t =>
    rw [hl] at h
    exact .inl h
  | none =>
    rw [hl] at h
    exact .inr h

theorem step_cases {s s' : Sys} {e : Ev} (h : s.step e = some s') : s.logStep e = some s' ∨ ReaderMove s e s' :=
  (step_split h).imp_right readerStep_move

end Ghostline.Output
