/-
  Ghostline.Output.Sized — `ReadSized` attributes every chunk to the size its bytes were
  appended under.

  `Attributed`: a non-empty chunk is a stretch of the record all of whose bytes were
  appended under the size it is returned with, and the last size reported before it is
  that size (zero: nothing was reported yet).

  A prune drops the marks of the generations it removes, also of one a reader still pins
  and has not drained; the reader then finds no size for the rest of its file, delivers
  it as of unknown size and across a resize (`a_pruned_mark_is_missed`). In every run in
  which a prune keeps the marks a pinning reader has still to pass, the attribution holds
  (`sized_attribution`). A reader here only uses `ReadSized`, and `markSize` is only given
  resolved sizes, which are never zero.
-/

import Ghostline.Output.Marks
import Ghostline.Output.Position

namespace Ghostline.Output

open Lib.Segments (LE)
open LocalOutputSource

/-- A call that returned a size and nothing else. -/
def Returned.isReport (x : Returned) : Bool :=
  x.result.bytes == [] && x.result.err == none && x.result.size != 0

/-- The size reported last, zero if none was. -/
def lastReport (results : List Returned) : Size :=
  ((results.filter Returned.isReport).getLast?.map fun x => x.result.size).getD 0

def Attributed (s : Sys) : Prop :=
  ∀ k x, s.results[k]? = some x → x.result.bytes ≠ [] →
    ((s.wrote x.from.generation).drop x.from.offset).take x.result.bytes.length =
        x.result.bytes.map (fun b => (b, x.result.size)) ∧
      lastReport (s.results.take k) = x.result.size

/-! ## The condition -/

/-- Every call is `ReadSized`, and every mark is a size. -/
def onlySized (_ : Sys) : Ev → Bool
  | .call _ sized => sized
  | .markSize size => size != 0
  | _ => true

/-- `l` still has every mark in front of the limit of a reader that has not drained the
    file it pins. -/
def Sys.keepsMarks (s : Sys) (l : OutputLog) : Bool :=
  match s.reader with
  | .opened r => !(r.pins && decide (r.cursor.offset < r.fileLimit)) ||
      s.log.sizes.all fun m =>
        !(m.cursor.generation == r.cursor.generation && decide (m.cursor.offset < r.fileLimit)) || l.sizes.contains m
  | _ => true

def prunesPassed (s : Sys) : Ev → Bool
  | .prune before order rm => s.keepsMarks (s.log.prune before order rm).1
  | e => onlySized s e

/-! ## The invariant -/

/-- What a call in progress was promised. -/
def Promised (s : Sys) (r : LocalOutputSource) (limit : Nat) (size : Size) : Prop :=
  size = r.reported ∧ ∀ i sz, r.cursor.offset ≤ i → i < r.cursor.offset + limit →
    Stamped s.wrote r.cursor.generation i sz → sz = size

def CallSized (s : Sys) (r : LocalOutputSource) : Prop :=
  match s.pc with
  | .idle => True
  | .top _ sized => sized = true
  | .waiting _ sized _ => sized = true
  | .opening _ limit size => Promised s r limit size
  | .reading _ limit size => Promised s r limit size

structure ReaderSized (s : Sys) (r : LocalOutputSource) : Prop where
  seen : r.reported = lastReport s.results
  /-- The marks of a pinned generation are right as far as the reader will read it. -/
  pinned : r.file = true → s.log.segments r.cursor.generation = none →
    ∀ i sz, r.cursor.offset ≤ i → i < r.fileLimit → Stamped s.wrote r.cursor.generation i sz →
      sizeAt s.log.sizes r.cursor.generation i = sz
  /-- Once a size was reported, nothing of unknown size is ahead. -/
  ahead : r.reported ≠ 0 → s.force ≠ none ∧
    ∀ g i sz, LE r.cursor.generation r.cursor.offset g i → Stamped s.wrote g i sz → sz ≠ 0
  call : CallSized s r

structure SizedInv (s : Sys) : Prop where
  placed : Placed s
  marked : Marked s.log s.wrote s.force
  reader : ∀ r, s.reader = .opened r → ReaderSized s r
  attributed : Attributed s

theorem init_sized {s : Sys} (h : s.Init) : SizedInv s := by
  refine ⟨init_placed h, ?_, ?_, ?_⟩
  all_goals obtain ⟨files, linked, generation, create, l, hb, hl, rfl⟩ := h
  · exact marked_open hl
  · intro r hr; cases hr
  · intro k x hx; cases hx

/-! ## The log moves on -/

theorem log_marked {s s' : Sys} {e : Ev} (hk : Keeps s.log s.wrote) (h : Marked s.log s.wrote s.force)
    (hok : onlySized s e = true) (he : s.logStep e = some s') : Marked s'.log s'.wrote s'.force := by
  cases logStep_inv he with
  | append data w =>
    exact h.append hk data w
  | rotate fail =>
    exact h.rotate hk fail
  | @prune before order rm _ =>
    exact h.pruned hk (prune_spec s.log before order rm)
  | markSize size =>
    exact h.markSize hk (by simpa [onlySized] using hok)
  | close err =>
    exact h.close _

theorem onlySized_of_prunesPassed {s : Sys} {e : Ev} (h : prunesPassed s e = true) : onlySized s e = true := by
  cases e <;> first | exact h | rfl

/-- A byte the log holds after a step it held before, or it was appended under the
    newest size. -/
theorem log_stamped {s s' : Sys} {e : Ev} (he : s.logStep e = some s') {g i : Nat} {sz : Size}
    (h : Stamped s'.wrote g i sz) : Stamped s.wrote g i sz ∨ sz = s.force.getD 0 := by
  cases logStep_inv he with
  | append data w =>
    simp only at h
    split at h
    · rcases stamped_extend h with h | ⟨-, -, h⟩
      · exact .inl h
      · exact .inr h
    · exact .inl h
  | @prune before order rm _ =>
    exact .inl h
  | rotate fail | markSize size | close err => exact .inl h

theorem log_force {s s' : Sys} {e : Ev} (he : s.logStep e = some s') (h : s.force ≠ none) : s'.force ≠ none := by
  cases logStep_inv he with
  | markSize size =>
    simp only
    split
    · exact h
    · simp
  | append | rotate | prune | close => exact h

/-- A prune that meets the condition leaves the sizes in effect in front of the limit of a
    reader that pins its file. -/
theorem prune_sizeAt {s : Sys} (h : Marked s.log s.wrote s.force) {r : LocalOutputSource} (hr : s.reader = .opened r)
    (hpin : r.pins = true) {before : Cursor} {order : List Nat} {rm : Nat → Option String}
    (hok : s.keepsMarks (s.log.prune before order rm).1 = true) {i : Nat} (h1 : r.cursor.offset ≤ i)
    (h2 : i < r.fileLimit) : sizeAt (s.log.prune before order rm).1.sizes r.cursor.generation i =
      sizeAt s.log.sizes r.cursor.generation i := by
  have hkeep : ∀ m ∈ s.log.sizes, m.cursor.generation = r.cursor.generation → m.cursor.offset < r.fileLimit →
      m ∈ (s.log.prune before order rm).1.sizes := by
    intro m hm hg ho
    have hlt : r.cursor.offset < r.fileLimit := by omega
    simp only [Sys.keepsMarks, hr, hpin, hlt, decide_true, Bool.and_self, Bool.not_true, Bool.false_or,
      List.all_eq_true] at hok
    simpa [hg, ho] using hok m hm
  rcases (prune_spec s.log before order rm).sizes with hs | hs
  · rw [hs]
  · rw [hs]
    apply sizeAt_filter h.ordered
    intro m hm hc
    obtain ⟨hg, ho⟩ := SizeMark.covers_iff.mp hc
    have := hkeep m hm hg (by omega)
    rw [hs] at this
    exact (List.mem_filter.mp this).2

/-- The log's other operations touch no mark of a generation that is not the active one. -/
theorem log_sizeAt {s s' : Sys} {e : Ev} (hk : Keeps s.log s.wrote) (h : Marked s.log s.wrote s.force)
    (h' : Marked s'.log s'.wrote s'.force) (he : s.logStep e = some s') {g : Nat} (hg : g < s.log.generation)
    (hne : ∀ before order rm, e ≠ .prune before order rm) (i : Nat) :
    sizeAt s'.log.sizes g i = sizeAt s.log.sizes g i := by
  -- a mark at the end of the log, or in the next generation, does not cover the position
  have hout : ∀ (m : SizeMark), s.log.generation ≤ m.cursor.generation → m.covers g i = false := by
    intro m hm
    rw [Bool.eq_false_iff]
    intro hc
    have := (SizeMark.covers_iff.mp hc).1
    omega
  cases logStep_inv he with
  | append data w =>
    simp only [append_sizes]
  | rotate fail =>
    rcases rotate_cases hk.bound fail with he | ⟨-, -, -, he⟩
    · rw [he]
    · refine sizeAt_congr h.ordered h'.ordered ?_
      simp only [he, OutputLog.signalLocked, OutputLog.carrySize]
      split
      · exact filter_concat (hout _ (by simp))
      · rfl
  | @prune before order rm _ => exact absurd rfl (hne before order rm)
  | markSize size =>
    by_cases hc : s.log.closed = true
    · simp only [markSize_closed hc]
    refine sizeAt_congr h.ordered h'.ordered ?_
    obtain ⟨front, hfront, hnew⟩ := markSize_marks (by simpa using hc) hk h.active size
    have h1 : s.log.sizes.filter (SizeMark.covers g i) = front.filter (SizeMark.covers g i) := by
      rcases hfront with hf | ⟨last, hf, hlast⟩
      · rw [hf]
      · rw [hf]; exact filter_concat (hout _ (by rw [hlast]))
    rw [h1]
    rcases hnew with ⟨hn, -⟩ | ⟨hn, -⟩
    · simp only [hn]; exact filter_concat (hout _ (Nat.le_refl _))
    · simp only [hn]
  | close err =>
    simp only [close_sizes]

/-- A call in progress was promised a stretch of what the log holds. -/
theorem promise_range {s : Sys} (h : Placed s) {r : LocalOutputSource} (hr : s.reader = .opened r) :
    match s.pc with
    | .opening _ limit _ => r.cursor.offset + limit ≤ (s.wrote r.cursor.generation).length
    | .reading _ limit _ => r.cursor.offset + limit ≤ (s.wrote r.cursor.generation).length
    | _ => True := by
  obtain ⟨hat, hcall⟩ := h.opened hr
  unfold CallAt at hcall
  cases hp : s.pc with
  | opening len limit size => rw [hp] at hcall; exact Nat.le_trans hcall.2.2.1 hcall.2.2.2
  | reading len limit size => rw [hp] at hcall; exact Nat.le_trans hcall.2.2.1 (hat.limit hcall.2.2.2)
  | _ => trivial

theorem promised_later {s s' : Sys} (hl : Later s s') {r : LocalOutputSource} {limit : Nat} {size : Size}
    (hle : r.cursor.offset + limit ≤ (s.wrote r.cursor.generation).length) (h : Promised s r limit size) :
    Promised s' r limit size := by
  refine ⟨h.1, fun i sz h1 h2 hst => h.2 i sz h1 h2 ?_⟩
  exact (stamped_grown (hl.grows _) (by omega)).mp hst

theorem log_readerSized {s s' : Sys} {e : Ev} (h : SizedInv s) (hok : prunesPassed s e = true)
    (he : s.logStep e = some s') {r : LocalOutputSource} (hr : s.reader = .opened r) : ReaderSized s' r := by
  have hk := h.placed.keeps
  have hl := log_later hk he
  obtain ⟨hat, -⟩ := h.placed.opened hr
  obtain ⟨-, -, hpc, hres⟩ := hl.rest
  have hrs := h.reader r hr
  have hm' := log_marked hk h.marked (onlySized_of_prunesPassed hok) he
  refine ⟨hres ▸ hrs.seen, fun hf hn i sz h1 h2 hst => ?_, fun h0 => ?_, ?_⟩
  · have hpin : r.pins = true := by simp [pins, hf, hat.own hf]
    have hst' : Stamped s.wrote r.cursor.generation i sz := by
      unfold Stamped at hst ⊢
      rwa [hl.gone _ hat.gen hn] at hst
    have hsz : sizeAt s.log.sizes r.cursor.generation i = sz := by
      by_cases hi : s.log.segments r.cursor.generation = none
      · exact hrs.pinned hf hi i sz h1 h2 hst'
      · exact h.marked.right _ hi i sz hst'
    rw [← hsz]
    by_cases hpr : ∃ before order rm, e = .prune before order rm
    · obtain ⟨before, order, rm, rfl⟩ := hpr
      simp only [Sys.logStep, Option.ite_none_right_eq_some, Option.some.injEq] at he
      obtain ⟨-, rfl⟩ := he
      exact prune_sizeAt h.marked hr hpin hok h1 h2
    · push Not at hpr
      refine log_sizeAt hk h.marked hm' he ?_ hpr i
      -- nothing but a prune empties an index entry, so the generation is an older one
      rcases Nat.lt_or_eq_of_le hat.gen with hlt | heq
      · exact hlt
      · exfalso
        have hi : s.log.segments r.cursor.generation ≠ none := by rw [heq, hk.size]; simp
        obtain ⟨before, order, rm, hep, -⟩ := log_unindexed hk he hi hn
        exact hpr before order rm hep
  · obtain ⟨hfo, hah⟩ := hrs.ahead h0
    refine ⟨log_force he hfo, fun g i sz hle hst => ?_⟩
    rcases log_stamped he hst with hst | rfl
    · exact hah g i sz hle hst
    · obtain ⟨f, hf⟩ := Option.ne_none_iff_exists'.mp hfo
      rw [hf]
      rintro rfl
      exact h.marked.known hf
  · have hcall := hrs.call
    have hrange := promise_range h.placed hr
    unfold CallSized at hcall ⊢
    rw [hpc]
    cases hp : s.pc with
    | opening len limit size | reading len limit size => rw [hp] at hcall hrange; exact promised_later hl hrange hcall
    | _ => rw [hp] at hcall; exact hcall

theorem later_attributed {s s' : Sys} (h : Attributed s) (hl : Later s s') : Attributed s' := by
  intro k x hx hb
  rw [hl.rest.2.2.2] at hx ⊢
  obtain ⟨hst, hrep⟩ := h k x hx hb
  refine ⟨?_, hrep⟩
  have hlen := congrArg List.length hst
  simp only [List.length_take, List.length_drop, List.length_map] at hlen
  have hpos : 0 < x.result.bytes.length := List.length_pos_of_ne_nil hb
  obtain ⟨t, ht⟩ := hl.grows x.from.generation
  rw [← ht, List.drop_append_of_le_length (by omega), List.take_append_of_le_length (by rw [List.length_drop]; omega)]
  exact hst

theorem log_sized {s s' : Sys} {e : Ev} (h : SizedInv s) (hok : prunesPassed s e = true) (he : s.logStep e = some s') :
    SizedInv s' := by
  have hl := log_later h.placed.keeps he
  refine ⟨later_placed h.placed hl, log_marked h.placed.keeps h.marked (onlySized_of_prunesPassed hok) he,
    fun r hr => ?_, later_attributed h.attributed hl⟩
  rw [hl.rest.1] at hr
  exact log_readerSized h hok he hr

/-! ## The reader moves on -/

theorem lastReport_concat (results : List Returned) (y : Returned) :
    lastReport (results ++ [y]) = if y.isReport then y.result.size else lastReport results := by
  unfold lastReport
  by_cases hy : y.isReport = true
  · rw [if_pos hy, List.filter_append, List.filter_cons_of_pos hy, List.filter_nil, List.getLast?_concat]
    rfl
  · rw [if_neg hy, List.filter_append, List.filter_cons_of_neg hy, List.filter_nil, List.append_nil]

theorem ret_lastReport {s : Sys} {r : LocalOutputSource} {c : Cursor} {x : Result}
    (h : x.bytes ≠ [] ∨ x.err ≠ none ∨ x.size = 0) : lastReport (s.ret r c x).results = lastReport s.results := by
  show lastReport (s.results ++ [⟨x, c, r.cursor⟩]) = _
  rw [lastReport_concat, if_neg]
  simp only [Returned.isReport, Bool.and_eq_true, beq_iff_eq, bne_iff_ne, not_and]
  intro h1
  rcases h with h | h | h
  · exact absurd h1.1 h
  · exact absurd h1.2 h
  · exact not_not.mpr h

theorem ret_attributed {s : Sys} (h : Attributed s) {r : LocalOutputSource} {c : Cursor} {x : Result}
    (hx : x.bytes ≠ [] → ((s.wrote c.generation).drop c.offset).take x.bytes.length = x.bytes.map (fun b => (b, x.size)) ∧
      lastReport s.results = x.size) : Attributed (s.ret r c x) := by
  intro k y hy hb
  simp only [Sys.ret] at hy ⊢
  by_cases hk : k < s.results.length
  · rw [List.getElem?_append_left hk] at hy
    rw [List.take_append_of_le_length (by omega)]
    exact h k y hy hb
  · rw [List.getElem?_append_right (by omega)] at hy
    have hk0 : k - s.results.length = 0 := by
      have := (List.getElem?_eq_some_iff.mp hy).1
      simp only [List.length_singleton] at this
      omega
    rw [hk0] at hy
    obtain rfl := Option.some.inj hy
    have hkl : k = s.results.length := by omega
    rw [hkl, List.take_append_of_le_length (Nat.le_refl _), List.take_length]
    exact hx hb

/-- The reader did not move, and reported nothing new. -/
theorem same_readerSized {s s' : Sys} {r r' : LocalOutputSource} (h : ReaderSized s r) (hc : r'.cursor = r.cursor)
    (hrep : r'.reported = r.reported)
    (hlim : r'.file = true → s.log.segments r.cursor.generation = none → r.file = true ∧ r'.fileLimit = r.fileLimit)
    (hlog : s'.log = s.log) (hw : s'.wrote = s.wrote) (hf : s'.force = s.force)
    (hres : lastReport s'.results = lastReport s.results) (hcall : CallSized s' r') : ReaderSized s' r' := by
  refine ⟨by rw [hrep, hres]; exact h.seen, fun hf hn i sz h1 h2 hst => ?_, fun h0 => ?_, hcall⟩
  · rw [hlog, hc] at hn
    obtain ⟨h3, h4⟩ := hlim hf hn
    rw [hc] at h1 hst ⊢
    rw [h4] at h2
    rw [hw] at hst
    rw [hlog]
    exact h.pinned h3 hn i sz h1 h2 hst
  · rw [hrep] at h0
    rw [hf, hw, hc]
    exact h.ahead h0

theorem quiet_sized {s s' : Sys} (h : SizedInv s) (hp : Placed s') (hlog : s'.log = s.log) (hw : s'.wrote = s.wrote)
    (hf : s'.force = s.force) (hres : s'.results = s.results) (hr : ∀ r, s'.reader = .opened r → ReaderSized s' r) :
    SizedInv s' := by
  refine ⟨hp, by rw [hlog, hw, hf]; exact h.marked, hr, fun k x hx hb => ?_⟩
  rw [hres] at hx ⊢
  rw [hw]
  exact h.attributed k x hx hb

theorem ret_sized {s : Sys} (h : SizedInv s) {r' : LocalOutputSource} {c : Cursor} {x : Result}
    (hp : Placed (s.ret r' c x)) (hr : ReaderSized (s.ret r' c x) r')
    (hx : x.bytes ≠ [] → ((s.wrote c.generation).drop c.offset).take x.bytes.length = x.bytes.map (fun b => (b, x.size)) ∧
      lastReport s.results = x.size) : SizedInv (s.ret r' c x) := by
  refine ⟨hp, h.marked, fun r hr' => ?_, ret_attributed h.attributed hx⟩
  obtain rfl := Handle.opened.inj hr'
  exact hr

/-- What the marks say about a stretch a reader may be given. -/
theorem served_sizeAt {s : Sys} (h : SizedInv s) {r : LocalOutputSource} (hr : s.reader = .opened r)
    (hs : Served r s.log) {i : Nat} {sz : Size} (h1 : r.cursor.offset ≤ i) (h2 : i < (r.refresh s.log).fileLimit)
    (hst : Stamped s.wrote r.cursor.generation i sz) : sizeAt s.log.sizes r.cursor.generation i = sz := by
  by_cases hn : s.log.segments r.cursor.generation = none
  · rcases hs with hs | ⟨hs, -⟩
    · rw [hn] at hs; cases hs
    · simp only [pins, Bool.and_eq_true] at hs
      rw [refresh_limit_none r _ hn] at h2
      exact (h.reader r hr).pinned hs.1 hn i sz h1 h2 hst
  · exact h.marked.right _ hn i sz hst

/-- What a turn fetches is all of one size, and that size is the one reported last. -/
theorem fetched_promised {s : Sys} (h : SizedInv s) {r : LocalOutputSource} (hr : s.reader = .opened r)
    (hs : Served r s.log) {limit : Nat} {size : Size} (hlim : 0 < limit)
    (hle : r.cursor.offset + limit ≤ (r.refresh s.log).fileLimit) (he : size = (r.spanAt s.log true).1)
    (hrep : size = 0 ∨ size = r.reported)
    (hb : (r.spanAt s.log true).2.2 = true → limit ≤ (r.spanAt s.log true).2.1) : Promised s r limit size := by
  simp only [spanAt, if_true, OutputLog.sizeSpanLocked] at he hb
  have hone : ∀ i sz, r.cursor.offset ≤ i → i < r.cursor.offset + limit → Stamped s.wrote r.cursor.generation i sz →
      sz = size := by
    intro i sz h1 h2 hst
    obtain ⟨j, rfl⟩ := Nat.exists_eq_add_of_le h1
    rw [← served_sizeAt h hr hs h1 (by omega) hst, he]
    refine sizeSpan_const s.log.sizes 0 fun hbd => ?_
    have hspan : limit ≤ (OutputLog.sizeSpan ⟨r.cursor.generation, r.cursor.offset⟩ s.log.sizes 0).2.1 := hb hbd
    omega
  refine ⟨?_, hone⟩
  rcases hrep with h0 | h0
  · -- no size is known here, so none was reported: behind a report every byte has a size
    subst h0
    by_contra hne
    have hmax := refresh_le h.placed.keeps (h.placed.opened hr).1 hs
    have hlt : r.cursor.offset < (s.wrote r.cursor.generation).length := by omega
    obtain ⟨sz, hst⟩ := stamped_of_lt hlt
    obtain ⟨-, hah⟩ := (h.reader r hr).ahead fun h' => hne h'.symm
    refine hah r.cursor.generation r.cursor.offset sz (.inr ⟨rfl, Nat.le_refl _⟩) hst ?_
    exact hone _ sz (Nat.le_refl _) (by omega) hst
  · exact h0

/-- What a file read returns was promised to be of one size. -/
theorem chunk_stamped {s : Sys} {r : LocalOutputSource} {limit : Nat} {size : Size} (hpr : Promised s r limit size)
    {bytes : List Byte} (hb : bytes = ((s.bytes r.cursor.generation).drop r.cursor.offset).take bytes.length)
    (hle : bytes.length ≤ limit) :
    ((s.wrote r.cursor.generation).drop r.cursor.offset).take bytes.length = bytes.map (fun b => (b, size)) := by
  generalize hL : ((s.wrote r.cursor.generation).drop r.cursor.offset).take bytes.length = L
  have hmap : bytes = L.map Prod.fst := by
    rw [← hL, List.map_take, List.map_drop]
    exact hb
  have hall : ∀ p ∈ L, p = (p.1, size) := by
    intro p hp
    obtain ⟨k, hk⟩ := List.getElem?_of_mem hp
    rw [← hL, List.getElem?_take] at hk
    split at hk
    · rw [List.getElem?_drop] at hk
      exact Prod.ext rfl (hpr.2 _ p.2 (Nat.le_add_right _ k) (by omega) ⟨p.1, hk⟩)
    · cases hk
  rw [hmap, List.map_map]
  conv_lhs => rw [← List.map_id L]
  exact List.map_congr_left hall

theorem ReaderSized.top_sized {s : Sys} {r : LocalOutputSource} {len : Nat} {sized : Bool} (h : ReaderSized s r)
    (hp : s.pc = .top len sized) : sized = true := by
  have hcall := h.call
  rwa [CallSized, hp] at hcall

/-- The size reported stands in a mark, and behind it every byte has a size. -/
theorem reported_sized {s : Sys} {r : LocalOutputSource} {len : Nat} {sized : Bool} {size : Size} (h : SizedInv s)
    (hr : s.reader = .opened r) (hp : s.pc = .top len sized) (hs : Served r s.log)
    (he : size = (r.spanAt s.log sized).1) (h0 : size ≠ 0) :
    SizedInv (s.ret { r.refresh s.log with reported := size } r.cursor ⟨[], size, none⟩) := by
  have hp' := reader_placed h.placed (.reported hr hp hs he h0)
  have hrs := h.reader r hr
  obtain rfl := hrs.top_sized hp
  simp only [spanAt, if_true, OutputLog.sizeSpanLocked] at he
  refine ret_sized h hp' ⟨?_, fun hf hn => ?_, fun _ => ?_, trivial⟩ fun hx => absurd rfl hx
  · show size = lastReport (s.results ++ [_])
    rw [lastReport_concat, if_pos (by simp [Returned.isReport, h0])]
  · have hn' : s.log.segments r.cursor.generation = none := by simpa [Sys.ret] using hn
    obtain ⟨h1, h2⟩ := (same_refresh s.log r).limit_gone hf hn'
    simp only [refresh_cursor, h2]
    exact hrs.pinned h1 hn'
  · have hat : sizeAt s.log.sizes r.cursor.generation r.cursor.offset ≠ 0 := by rw [he] at h0; exact h0
    obtain ⟨m, hm, hcov⟩ := exists_covers h.marked.ordered hat
    obtain ⟨hmg, hmo⟩ := SizeMark.covers_iff.mp hcov
    refine ⟨fun hn => h.marked.known_of_mem hm (by rw [show s.force = none from hn]; rfl), fun g i sz hle hst => ?_⟩
    refine h.marked.behind m hm g i sz ?_ hst
    simp only [refresh_cursor] at hle
    rcases hle with h' | ⟨h', h''⟩
    · exact .inl (by omega)
    · exact .inr ⟨by omega, by omega⟩

/-- What is read has the size promised when the call set its limit. -/
theorem fileRead_sized {s : Sys} {r : LocalOutputSource} {len limit : Nat} {size : Size} (h : SizedInv s)
    (fail : Option (Nat × String)) (hr : s.reader = .opened r) (hp : s.pc = .reading len limit size) :
    SizedInv (s.ret (r.readAt s.log len limit size fail).1 r.cursor (r.readAt s.log len limit size fail).2) := by
  have hp' := reader_placed h.placed (.fileRead fail hr hp)
  have hrs := h.reader r hr
  have hpr : Promised s r limit size := by have := hrs.call; rwa [CallSized, hp] at this
  generalize hq : r.readAt s.log len limit size fail = q at hp' ⊢
  obtain ⟨r', x⟩ := q
  obtain ⟨rfl, hsz, hb, hbl, -, -, hne⟩ := chunk h.placed hr hp fail hq
  refine ret_sized h hp' ⟨?_, fun hf hn i sz h1 h2 hst => ?_, fun h0 => ?_, trivial⟩ fun _ => ⟨?_, ?_⟩
  · rw [ret_lastReport]
    · exact hrs.seen
    · by_cases e : x.bytes = []
      · exact .inr (.inl (hne e))
      · exact .inl e
  · exact hrs.pinned hf hn i sz (Nat.le_trans (Nat.le_add_right _ _) h1) h2 hst
  · obtain ⟨h1, h2⟩ := hrs.ahead h0
    refine ⟨h1, fun g i sz hle hst => h2 g i sz ?_ hst⟩
    rcases hle with h' | ⟨h', h''⟩
    · exact .inl h'
    · exact .inr ⟨h', Nat.le_trans (Nat.le_add_right _ _) h''⟩
  · simp only [hsz]; exact chunk_stamped hpr hb hbl
  · simp only [hsz, hpr.1]; exact hrs.seen.symm

theorem reader_sized {s s' : Sys} {e : Ev} (h : SizedInv s) (hok : onlySized s e = true) (he : ReaderMove s e s') :
    SizedInv s' := by
  have hp' := reader_placed h.placed he
  have hk := h.placed.keeps
  cases he with
  | resolved hr herr hc | notPinned hr => exact quiet_sized h hp' rfl rfl rfl rfl fun r hr' => (by cases hr')
  | @pinned c limit complete fail hr hl =>
    obtain ⟨h1, h2, h3, h4, -, -⟩ := h.placed.resolved hr
    refine quiet_sized h hp' rfl rfl rfl rfl fun r hr' => ?_
    obtain rfl := Handle.opened.inj hr'
    refine ⟨?_, fun _ hn => absurd hn (indexed_of_linked hk h3 h4 hl), fun h0 => absurd rfl h0, ?_⟩
    · simp only [h1]; rfl
    · simp only [CallSized, h2]
  | @begun r len sized hr hp hlen =>
    exact quiet_sized h hp' rfl rfl rfl rfl fun r' hr' =>
      same_readerSized (h.reader r' hr') rfl rfl (fun hf _ => ⟨hf, rfl⟩) rfl rfl rfl rfl hok
  | nothing hr hsame hb hsz hne =>
    exact ret_sized h hp' (same_readerSized (h.reader _ hr) hsame.cursor hsame.reported hsame.limit_gone rfl rfl rfl
      (ret_lastReport (.inr (.inr hsz))) trivial) fun hx => absurd hb hx
  | reported hr hp hs he h0 => exact reported_sized h hr hp hs he h0
  | @fetched r len sized limit size hr hp hs hlim hle he hrep hb =>
    have hrs := h.reader r hr
    obtain rfl := hrs.top_sized hp
    obtain ⟨hpr1, hpr2⟩ := fetched_promised h hr hs hlim hle he hrep hb
    refine quiet_sized h hp' rfl rfl rfl rfl fun r' hr' => ?_
    obtain rfl := Handle.opened.inj hr'
    refine same_readerSized hrs (by simp) (by simp) (same_refresh _ _).limit_gone rfl rfl rfl rfl ⟨?_, ?_⟩
    · simpa using hpr1
    · simpa using hpr2
  | @advanced r len sized hr hp hs hlt hle =>
    have hrs := h.reader r hr
    refine quiet_sized h hp' rfl rfl rfl rfl fun r' hr' => ?_
    obtain rfl := Handle.opened.inj hr'
    refine ⟨?_, fun hf => (by cases hf), fun h0 => ?_, ?_⟩
    · show (r.refresh s.log).reported = lastReport s.results
      rw [refresh_reported]; exact hrs.seen
    · obtain ⟨h1, h2⟩ := hrs.ahead (by simpa [closeFile] using h0)
      refine ⟨h1, fun g i sz hle hst => h2 g i sz (.inl ?_) hst⟩
      simp only at hle
      rcases hle with h' | ⟨h', -⟩ <;> omega
    · have := hrs.call
      rwa [CallSized, hp] at this
  | @ended r len sized hr hp hs hc hge hle =>
    exact ret_sized h hp' (same_readerSized (h.reader r hr) (by simp) (by simp) (same_refresh _ _).limit_gone rfl rfl rfl
      (ret_lastReport (.inr (.inr rfl))) trivial) fun hx => absurd rfl hx
  | @waits r len sized hr hp =>
    have hrs := h.reader r hr
    refine quiet_sized h hp' rfl rfl rfl rfl fun r' hr' => ?_
    obtain rfl := Handle.opened.inj hr'
    refine same_readerSized hrs (by simp) (by simp) (same_refresh _ _).limit_gone rfl rfl rfl rfl ?_
    have := hrs.call
    rwa [CallSized, hp] at this
  | @fileOpened r len limit size fail hr hp ho =>
    have hat := (h.placed.opened hr).1
    have hrs := h.reader r hr
    refine quiet_sized h hp' rfl rfl rfl rfl fun r' hr' => ?_
    obtain rfl := Handle.opened.inj hr'
    refine same_readerSized hrs rfl rfl (fun _ hn => ⟨hat.pinned_file hk ho hn, rfl⟩) rfl rfl rfl rfl ?_
    have := hrs.call
    rw [CallSized, hp] at this
    exact this
  | fileRead fail hr hp => exact fileRead_sized h fail hr hp
  | @woken len c sized hp =>
    refine quiet_sized h hp' rfl rfl rfl rfl fun r' hr' => ?_
    have hrs := h.reader r' hr'
    refine same_readerSized hrs rfl rfl (fun hf _ => ⟨hf, rfl⟩) rfl rfl rfl rfl ?_
    have := hrs.call
    rw [CallSized, hp] at this
    exact this
  | closedIdle hr hp =>
    refine quiet_sized h hp' rfl rfl rfl rfl fun r' hr' => ?_
    obtain rfl := Handle.opened.inj hr'
    refine same_readerSized (h.reader _ hr) rfl rfl (fun hf => (by cases hf)) rfl rfl rfl rfl ?_
    simp only [CallSized, hp]
  | closedBusy hr | canceled =>
    exact quiet_sized h hp' rfl rfl rfl rfl fun r' hr' =>
      same_readerSized (h.reader r' hr') rfl rfl (fun hf _ => ⟨hf, rfl⟩) rfl rfl rfl rfl (h.reader r' hr').call

/-! ## The result -/

theorem sized_attribution {s : Sys} (h : machine.Reach prunesPassed s) : Attributed s := by
  refine SizedInv.attributed (h.invariant (I := SizedInv) (fun _ => init_sized) fun s e s' hi hok he => ?_)
  rcases step_cases he with he | he
  · exact log_sized hi hok he
  · exact reader_sized hi (onlySized_of_prunesPassed hok) he

/-- Output of two sizes, read back by a pinning reader before the prune. -/
def resized : List Ev :=
  [.markSize ⟨80, 24⟩, .append [97] .full, .markSize ⟨100, 30⟩, .append [98] .full, .resolve ⟨1, 0⟩, .pin none,
    .rotate none, .call 8 true, .section, .call 8 true, .section, .openFile none, .readAt none,
    .call 8 true, .section, .call 8 true, .section, .openFile none, .readAt none,
    .prune ⟨2, 0⟩ [1, 2] (fun _ => none)]

theorem sized_attribution_resized : ∃ s, (machine.Reach prunesPassed s ∧ s.log.sizes = [⟨⟨2, 0⟩, ⟨100, 30⟩⟩] ∧
    s.results.map (fun x => (x.result.bytes, x.result.size)) =
      [([], ⟨80, 24⟩), ([97], ⟨80, 24⟩), ([], ⟨100, 30⟩), ([98], ⟨100, 30⟩)]) ∧ Attributed s := by
  obtain ⟨s, hs, h⟩ := machine.exists_reach prunesPassed created_init resized
    (P := fun s => s.log.sizes = [⟨⟨2, 0⟩, ⟨100, 30⟩⟩] ∧
      s.results.map (fun x => (x.result.bytes, x.result.size)) =
        [([], ⟨80, 24⟩), ([97], ⟨80, 24⟩), ([], ⟨100, 30⟩), ([98], ⟨100, 30⟩)]) (by decide)
  exact ⟨s, ⟨hs, h⟩, sized_attribution hs⟩

/-- The same output, but the prune comes before the reader's first call. -/
def unsized : List Ev :=
  [.markSize ⟨80, 24⟩, .append [97] .full, .markSize ⟨100, 30⟩, .append [98] .full, .resolve ⟨1, 0⟩, .pin none,
    .rotate none, .prune ⟨2, 0⟩ [1, 2] (fun _ => none), .call 8 true, .section, .openFile none, .readAt none]

/-- One chunk holds bytes of two sizes, as if of unknown size. -/
theorem a_pruned_mark_is_missed : ∃ s, machine.Reach onlySized s ∧
    (s.results = [⟨⟨[97, 98], 0, none⟩, ⟨1, 0⟩, ⟨1, 2⟩⟩] ∧ s.wrote 1 = [(97, ⟨80, 24⟩), (98, ⟨100, 30⟩)]) ∧
    ¬ Attributed s := by
  obtain ⟨s, hs, hres, hw⟩ := machine.exists_reach onlySized created_init unsized
    (P := fun s => s.results = [⟨⟨[97, 98], 0, none⟩, ⟨1, 0⟩, ⟨1, 2⟩⟩] ∧
      s.wrote 1 = [(97, ⟨80, 24⟩), (98, ⟨100, 30⟩)]) (by decide)
  refine ⟨s, hs, ⟨hres, hw⟩, fun h => ?_⟩
  have := (h 0 _ (by rw [hres]; rfl) (by decide)).1
  simp only [hw] at this
  exact absurd this (by decide)

end Ghostline.Output
