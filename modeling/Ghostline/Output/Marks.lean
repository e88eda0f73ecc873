/-
  Ghostline.Output.Marks — the size marks of an `outputLog` against the sizes its bytes
  were appended under.

  `sizeAt marks g i` is the size `sizeSpanLocked` finds in effect at a position. Over
  marks in order it is the size of the last mark of the generation at or in front of the
  position (`sizeAt_eq`), so it depends on the marks of that generation only.
  `Marked` says that for every indexed generation it is the size each byte was appended
  under; merging, replacing, carrying and dropping marks all keep it.
-/

import Ghostline.Lib.Segments
import Ghostline.Output.History

namespace Ghostline.Output

open OutputLog
open Lib.Segments (LE)

def sizeAt (marks : List SizeMark) (g i : Nat) : Size := (sizeSpan ⟨g, i⟩ marks 0).1

/-- The mark is of generation `g`, at or in front of offset `i`. -/
def SizeMark.covers (g i : Nat) (m : SizeMark) : Bool :=
  m.cursor.generation == g && decide (m.cursor.offset ≤ i)

theorem SizeMark.covers_iff {g i : Nat} {m : SizeMark} :
    m.covers g i = true ↔ m.cursor.generation = g ∧ m.cursor.offset ≤ i := by
  simp [covers]

def Ordered (marks : List SizeMark) : Prop :=
  marks.Pairwise fun a b => LE a.cursor.generation a.cursor.offset b.cursor.generation b.cursor.offset

/-! ## The size in effect -/

/-- Behind a mark past the position there is none that covers it. -/
theorem filter_covers_nil {g i : Nat} {m : SizeMark} {rest : List SizeMark}
    (h : ∀ b ∈ rest, LE m.cursor.generation m.cursor.offset b.cursor.generation b.cursor.offset)
    (hm : g < m.cursor.generation ∨ m.cursor.generation = g ∧ i < m.cursor.offset) :
    rest.filter (SizeMark.covers g i) = [] := by
  apply List.filter_eq_nil_iff.mpr
  intro b hb hc
  obtain ⟨h1, h2⟩ := SizeMark.covers_iff.mp hc
  rcases h b hb with h' | ⟨h', h''⟩ <;> omega

theorem sizeSpan_size {g i : Nat} : ∀ (marks : List SizeMark) (size : Size), Ordered marks →
    (sizeSpan ⟨g, i⟩ marks size).1 = ((marks.filter (SizeMark.covers g i)).getLast?.map SizeMark.size).getD size := by
  intro marks
  induction marks with
  | nil => intro size _; rfl
  | cons m rest ih =>
    intro size ho
    obtain ⟨hm, hrest⟩ := List.pairwise_cons.mp ho
    simp only [sizeSpan]
    by_cases hg : m.cursor.generation = g
    · rw [if_neg (not_not.mpr hg)]
      by_cases hi : m.cursor.offset ≤ i
      · rw [if_pos hi, ih _ hrest, List.filter_cons_of_pos (SizeMark.covers_iff.mpr ⟨hg, hi⟩), List.getLast?_cons]
        cases (rest.filter (SizeMark.covers g i)).getLast? <;> rfl
      · rw [if_neg hi, List.filter_cons_of_neg (by simp [SizeMark.covers_iff, hi]),
          filter_covers_nil hm (.inr ⟨hg, by omega⟩)]
        rfl
    · rw [if_pos hg, List.filter_cons_of_neg (by simp [SizeMark.covers_iff, hg])]
      by_cases hlt : g < m.cursor.generation
      · rw [if_pos hlt, filter_covers_nil hm (.inl hlt)]
        rfl
      · rw [if_neg hlt]
        exact ih _ hrest

theorem sizeAt_eq {marks : List SizeMark} (h : Ordered marks) (g i : Nat) :
    sizeAt marks g i = ((marks.filter (SizeMark.covers g i)).getLast?.map SizeMark.size).getD 0 :=
  sizeSpan_size marks 0 h

/-- Two lists with the same marks in front of a position agree there. -/
theorem sizeAt_congr {marks marks' : List SizeMark} (h : Ordered marks) (h' : Ordered marks') {g i : Nat}
    (hf : marks'.filter (SizeMark.covers g i) = marks.filter (SizeMark.covers g i)) :
    sizeAt marks' g i = sizeAt marks g i := by
  rw [sizeAt_eq h, sizeAt_eq h', hf]

theorem sizeAt_last {marks : List SizeMark} (h : Ordered marks) {m : SizeMark} (hm : marks.getLast? = some m)
    {g i : Nat} (hc : m.covers g i = true) : sizeAt marks g i = m.size := by
  obtain ⟨front, rfl⟩ := List.getLast?_eq_some_iff.mp hm
  rw [sizeAt_eq h, List.filter_append, List.filter_cons_of_pos hc, List.filter_nil, List.getLast?_concat]
  rfl

/-- A size in effect comes from a mark in front of the position. -/
theorem exists_covers {marks : List SizeMark} (h : Ordered marks) {g i : Nat} (h0 : sizeAt marks g i ≠ 0) :
    ∃ m ∈ marks, m.covers g i = true := by
  by_contra hn
  push Not at hn
  apply h0
  rw [sizeAt_eq h, List.filter_eq_nil_iff.mpr fun m hm => hn m hm]
  rfl

/-- One size is in effect from the position up to the end of its span. -/
theorem sizeSpan_const {g i j : Nat} : ∀ (marks : List SizeMark) (size : Size),
    ((sizeSpan ⟨g, i⟩ marks size).2.2 = true → j < (sizeSpan ⟨g, i⟩ marks size).2.1) →
    (sizeSpan ⟨g, i + j⟩ marks size).1 = (sizeSpan ⟨g, i⟩ marks size).1 := by
  intro marks
  induction marks with
  | nil => intro size _; rfl
  | cons m rest ih =>
    intro size h
    simp only [sizeSpan] at h ⊢
    by_cases hg : m.cursor.generation = g
    · simp only [if_neg (not_not.mpr hg)] at h ⊢
      by_cases hi : m.cursor.offset ≤ i
      · simp only [if_pos hi] at h
        rw [if_pos hi, if_pos (by omega)]
        exact ih _ h
      · simp only [if_neg hi] at h
        have := h trivial
        rw [if_neg hi, if_neg (by omega)]
    · simp only [if_pos hg] at h ⊢
      by_cases hlt : g < m.cursor.generation
      · simp only [if_pos hlt]
      · simp only [if_neg hlt] at h ⊢
        exact ih _ h

/-! ## Marks and record -/

/-- Byte `i` of generation `g` was appended under `size`. -/
def Stamped (wrote : Wrote) (g i : Nat) (size : Size) : Prop := ∃ b, (wrote g)[i]? = some (b, size)

theorem Stamped.lt {wrote : Wrote} {g i : Nat} {size : Size} (h : Stamped wrote g i size) : i < (wrote g).length := by
  obtain ⟨b, hb⟩ := h
  exact (List.getElem?_eq_some_iff.mp hb).1

theorem stamped_of_lt {wrote : Wrote} {g i : Nat} (h : i < (wrote g).length) : ∃ size, Stamped wrote g i size :=
  ⟨_, _, List.getElem?_eq_getElem h⟩

/-- What was there keeps its size when the record grows. -/
theorem stamped_grown {wrote wrote' : Wrote} {g i : Nat} {size : Size} (hp : wrote g <+: wrote' g)
    (hi : i < (wrote g).length) : Stamped wrote' g i size ↔ Stamped wrote g i size := by
  obtain ⟨t, ht⟩ := hp
  simp only [Stamped, ← ht, List.getElem?_append_left hi]

structure Recorded (l : OutputLog) (wrote : Wrote) (force : Option Size) : Prop where
  ordered : Ordered l.sizes
  within : ∀ m ∈ l.sizes, LE m.cursor.generation m.cursor.offset l.generation (wrote l.generation).length
  newest : l.sizes.getLast?.map SizeMark.size = force
  active : ∀ m, l.sizes.getLast? = some m → m.cursor.generation = l.generation
  right : ∀ g, l.segments g ≠ none → ∀ i size, Stamped wrote g i size → sizeAt l.sizes g i = size

/-- `markSize` was only given sizes. -/
structure Marked (l : OutputLog) (wrote : Wrote) (force : Option Size) : Prop extends Recorded l wrote force where
  known : force ≠ some 0
  /-- Behind a mark no byte is of unknown size. -/
  behind : ∀ m ∈ l.sizes, ∀ g i size, LE m.cursor.generation m.cursor.offset g i → Stamped wrote g i size → size ≠ 0

variable {l : OutputLog} {wrote : Wrote} {force : Option Size}

theorem marked_open {files : Nat → List Byte} {linked : Nat → Bool} {generation : Nat} {create : Bool}
    (h : openOutputLog files linked generation create = .ok l) : Marked l (adopted l) none := by
  obtain ⟨-, -, -, -, -, hs⟩ := openOutputLog_ok h
  refine ⟨⟨?_, ?_, ?_, ?_, fun g hg i size hst => ?_⟩, by simp, ?_⟩
  · rw [hs]; exact List.Pairwise.nil
  · rw [hs]; intro m hm; cases hm
  · rw [hs]; rfl
  · rw [hs]; intro m hm; cases hm
  · obtain ⟨b, hb⟩ := hst
    simp only [adopted, Option.isSome_iff_ne_none.mpr hg, if_true, List.getElem?_map, Option.map_eq_some_iff] at hb
    obtain ⟨b', -, he⟩ := hb
    rw [hs, ← (Prod.mk.inj he).2]
    rfl
  · rw [hs]; intro m hm; cases hm

/-- The size in effect at the end of the log, and past it, is the newest one. -/
theorem Recorded.atEnd (h : Recorded l wrote force) {i : Nat} (hi : (wrote l.generation).length ≤ i) :
    sizeAt l.sizes l.generation i = force.getD 0 := by
  cases hl : l.sizes.getLast? with
  | none =>
    have hn := h.newest
    rw [hl] at hn
    rw [List.getLast?_eq_none_iff.mp hl, ← hn]
    rfl
  | some m =>
    have hn := h.newest
    rw [hl] at hn
    have hact := h.active m hl
    have hin := h.within m (List.mem_of_getLast? hl)
    rw [sizeAt_last h.ordered hl (SizeMark.covers_iff.mpr ⟨hact, ?_⟩), ← hn]
    · rfl
    · rcases hin with h' | ⟨-, h'⟩ <;> omega

theorem Marked.known_of_mem (h : Marked l wrote force) {m : SizeMark} (hm : m ∈ l.sizes) : force.getD 0 ≠ 0 := by
  have hn := h.newest
  cases hl : l.sizes.getLast? with
  | none => rw [List.getLast?_eq_none_iff.mp hl] at hm; cases hm
  | some m' =>
    rw [hl] at hn
    intro h0
    rw [← hn] at h0
    exact h.known (by rw [← hn]; exact congrArg some h0)

theorem stamped_extend {g i : Nat} {data : List Byte} {size size' : Size}
    (h : Stamped (extend wrote l.generation data size) g i size') :
    Stamped wrote g i size' ∨ (g = l.generation ∧ (wrote l.generation).length ≤ i ∧ size' = size) := by
  by_cases e : g = l.generation
  · subst e
    obtain ⟨b, hb⟩ := h
    rw [extend_self] at hb
    by_cases hi : i < (wrote l.generation).length
    · rw [List.getElem?_append_left hi] at hb
      exact .inl ⟨b, hb⟩
    · rw [List.getElem?_append_right (by omega), List.getElem?_map, Option.map_eq_some_iff] at hb
      obtain ⟨b', -, he⟩ := hb
      exact .inr ⟨rfl, by omega, (Prod.mk.inj he).2.symm⟩
  · obtain ⟨b, hb⟩ := h
    rw [extend_ne _ _ e] at hb
    exact .inl ⟨b, hb⟩

theorem Recorded.append (h : Recorded l wrote force) (hk : Keeps l wrote) (data : List Byte) (w : Write) :
    Recorded (l.append data w).1
      (if (l.append data w).2 = none then extend wrote l.generation data (force.getD 0) else wrote) force := by
  rcases append_cases l data w with ⟨he, hd | ⟨hc, hn⟩⟩ | ⟨hc, hd, n, m, hw, hn, he⟩ | ⟨hc, hd, hn, he⟩
  · subst hd; rw [he]; simpa using h
  · rw [he, if_neg hn]; exact h
  · rw [he, if_neg hn]; exact ⟨h.ordered, h.within, h.newest, h.active, h.right⟩
  · rw [he, if_pos hn]
    refine ⟨h.ordered, fun m hm => ?_, h.newest, h.active, fun g hg i size hst => ?_⟩
    · rcases h.within m hm with h' | ⟨h1, h2⟩
      · exact .inl h'
      · refine .inr ⟨h1, ?_⟩
        show m.cursor.offset ≤ (extend wrote l.generation data (force.getD 0) l.generation).length
        rw [extend_self, List.length_append]
        omega
    · rcases stamped_extend hst with hst | ⟨rfl, hi, rfl⟩
      · refine h.right g (fun hn' => hg ?_) i size hst
        have hne : g ≠ l.generation := by rintro rfl; rw [hk.size] at hn'; cases hn'
        simp only [signalLocked, Function.update_of_ne hne]
        exact hn'
      · exact h.atEnd hi

theorem append_sizes (l : OutputLog) (data : List Byte) (w : Write) : (l.append data w).1.sizes = l.sizes := by
  rcases append_cases l data w with ⟨he, -⟩ | ⟨-, -, n, m, -, -, he⟩ | ⟨-, -, -, he⟩ <;> rw [he] <;> rfl

theorem Marked.append (h : Marked l wrote force) (hk : Keeps l wrote) (data : List Byte) (w : Write) :
    Marked (l.append data w).1
      (if (l.append data w).2 = none then extend wrote l.generation data (force.getD 0) else wrote) force := by
  refine ⟨h.toRecorded.append hk data w, h.known, fun m hm g i size hle hst => ?_⟩
  rw [append_sizes] at hm
  split at hst
  · rcases stamped_extend hst with hst | ⟨rfl, hi, rfl⟩
    · exact h.behind m hm g i size hle hst
    · exact h.known_of_mem hm
  · exact h.behind m hm g i size hle hst

theorem Recorded.close (h : Recorded l wrote force) (err : Option Err) : Recorded (l.close err) wrote force := by
  unfold OutputLog.close
  split
  · exact h
  · exact ⟨h.ordered, h.within, h.newest, h.active, h.right⟩

theorem close_sizes (l : OutputLog) (err : Option Err) : (l.close err).sizes = l.sizes := by
  unfold OutputLog.close
  split <;> rfl

theorem Marked.close (h : Marked l wrote force) (err : Option Err) : Marked (l.close err) wrote force :=
  ⟨h.toRecorded.close err, h.known, fun m hm => h.behind m (close_sizes l err ▸ hm)⟩

/-! ## A new mark at the end -/

/-- Marks with one added at the end of the log. -/
theorem ordered_concat {front : List SizeMark} {m : SizeMark} (h : Ordered front)
    (hm : ∀ a ∈ front, LE a.cursor.generation a.cursor.offset m.cursor.generation m.cursor.offset) :
    Ordered (front ++ [m]) := by
  refine List.pairwise_append.mpr ⟨h, List.pairwise_singleton _ _, fun a ha b hb => ?_⟩
  obtain rfl := List.mem_singleton.mp hb
  exact hm a ha

theorem filter_concat {front : List SizeMark} {m : SizeMark} {g i : Nat} (h : m.covers g i = false) :
    (front ++ [m]).filter (SizeMark.covers g i) = front.filter (SizeMark.covers g i) := by
  rw [List.filter_append, List.filter_cons_of_neg (by simp [h]), List.filter_nil, List.append_nil]

theorem stamped_old (hk : Keeps l wrote) {g i : Nat} {size : Size} (h : Stamped wrote g i size) : g ≤ l.generation := by
  by_contra hgt
  have hlt := h.lt
  rw [hk.future g (by omega)] at hlt
  cases hlt

theorem Recorded.rotate (h : Recorded l wrote force) (hk : Keeps l wrote) (fail : Option String) :
    Recorded (l.rotate fail).1 wrote force := by
  rcases rotate_cases hk.bound fail with he | ⟨-, -, -, he⟩
  · rw [he]; exact h
  rw [he]
  -- an indexed generation that holds a byte is an old one
  have hold : ∀ g i size, Stamped wrote g i size → Function.update l.segments (l.generation + 1) (some 0) g ≠ none →
      g ≤ l.generation ∧ l.segments g ≠ none := by
    intro g i size hst hs
    have hle := stamped_old hk hst
    exact ⟨hle, by rwa [Function.update_of_ne (by omega)] at hs⟩
  simp only [signalLocked, carrySize]
  cases hl : l.sizes.getLast? with
  | none =>
    have hnil := List.getLast?_eq_none_iff.mp hl
    refine ⟨h.ordered, ?_, h.newest, ?_, fun g hs i size hst => h.right g (hold g i size hst hs).2 i size hst⟩
    · intro m hm; simp only [hnil] at hm; cases hm
    · intro m hm; simp only [hl] at hm; cases hm
  | some last =>
    have hle : ∀ a ∈ l.sizes, LE a.cursor.generation a.cursor.offset (l.generation + 1) 0 := by
      intro a ha
      left
      rcases h.within a ha with h' | ⟨h', -⟩ <;> omega
    have ho : Ordered (l.sizes ++ [⟨⟨l.generation + 1, 0⟩, last.size⟩]) := ordered_concat h.ordered hle
    refine ⟨ho, fun m hm => ?_, ?_, fun m hm => ?_, fun g hs i size hst => ?_⟩
    · rcases List.mem_append.mp hm with hm | hm
      · left
        show m.cursor.generation < l.generation + 1
        rcases h.within m hm with h' | ⟨h', -⟩ <;> omega
      · obtain rfl := List.mem_singleton.mp hm
        exact .inr ⟨rfl, Nat.zero_le _⟩
    · have hn := h.newest
      rw [hl] at hn
      simpa using hn
    · simp only [List.getLast?_concat, Option.some.injEq] at hm
      rw [← hm]
    · obtain ⟨hg, hs'⟩ := hold g i size hst hs
      rw [sizeAt_congr h.ordered ho (filter_concat _)]
      · exact h.right g hs' i size hst
      · simp [SizeMark.covers]; omega

/-- A rotation leaves the marks, and may add one that no byte is behind. -/
theorem rotate_marks (hk : Keeps l wrote) {fail : Option String} {m : SizeMark} (hm : m ∈ (l.rotate fail).1.sizes) :
    m ∈ l.sizes ∨ m.cursor = ⟨l.generation + 1, 0⟩ := by
  rcases rotate_cases hk.bound fail with he | ⟨-, -, -, he⟩
  · rw [he] at hm
    exact .inl hm
  · rw [he] at hm
    simp only [signalLocked, carrySize] at hm
    split at hm
    · rcases List.mem_append.mp hm with hm | hm
      · exact .inl hm
      · exact .inr (by rw [List.mem_singleton.mp hm])
    · exact .inl hm

theorem Marked.rotate (h : Marked l wrote force) (hk : Keeps l wrote) (fail : Option String) :
    Marked (l.rotate fail).1 wrote force := by
  refine ⟨h.toRecorded.rotate hk fail, h.known, fun m hm g i size hle hst => ?_⟩
  rcases rotate_marks hk hm with hm | hm
  · exact h.behind m hm g i size hle hst
  · have := stamped_old hk hst
    rw [hm] at hle
    simp only at hle
    rcases hle with h' | ⟨h', -⟩ <;> omega

/-- What `markSize` does to the marks: a mark at the end of the log that no byte follows
    goes, and the new size gets its mark there unless it is in effect already. -/
theorem markSize_marks (hc : l.closed = false) (hk : Keeps l wrote) (hact : ∀ m, l.sizes.getLast? = some m →
    m.cursor.generation = l.generation) (size : Size) :
    ∃ front, (l.sizes = front ∨ ∃ last, l.sizes = front ++ [last] ∧
        last.cursor = ⟨l.generation, (wrote l.generation).length⟩) ∧
      ((l.markSize size).sizes = front ++ [⟨⟨l.generation, (wrote l.generation).length⟩, size⟩] ∧
          (∀ b, front.getLast? = some b → b.cursor.generation = l.generation → b.size ≠ size) ∧
          (l.sizes = front → ∀ b, front.getLast? = some b → b.cursor ≠ ⟨l.generation, (wrote l.generation).length⟩) ∨
        (l.markSize size).sizes = front ∧ ∃ b, front.getLast? = some b ∧ b.size = size ∧
          b.cursor.generation = l.generation) := by
  have hend : (l.segments l.generation).getD 0 = (wrote l.generation).length := by rw [hk.size]; rfl
  simp only [markSize, hc, Bool.false_eq_true, if_false, hend]
  cases hl : l.sizes.getLast? with
  | none =>
    refine ⟨l.sizes, .inl rfl, .inl ⟨rfl, fun b hb => ?_, fun _ b hb => ?_⟩⟩
    · cases hl.symm.trans hb
    · cases hl.symm.trans hb
  | some last =>
    simp only
    by_cases hsz : last.size = size
    · rw [if_pos hsz]
      exact ⟨l.sizes, .inl rfl, .inr ⟨rfl, last, hl, hsz, hact last hl⟩⟩
    rw [if_neg hsz]
    by_cases hcur : last.cursor = ⟨l.generation, (wrote l.generation).length⟩
    · rw [if_pos hcur]
      obtain ⟨front, he⟩ := List.getLast?_eq_some_iff.mp hl
      refine ⟨front, .inr ⟨last, he, hcur⟩, ?_⟩
      have hne : l.sizes ≠ front := by simp [he]
      rw [he, List.dropLast_concat, hcur]
      simp only [signalLocked, collapseSizesLocked, List.reverse_append, List.reverse_cons, List.reverse_nil,
        List.nil_append, List.singleton_append]
      cases hf : front.reverse with
      | nil =>
        have hnil : front = [] := List.reverse_eq_nil_iff.mp hf
        exact .inl ⟨rfl, fun b hb => (by simp [hnil] at hb), fun h => absurd h (he ▸ hne)⟩
      | cons b rest =>
        simp only
        have hfront : front = rest.reverse ++ [b] := by rw [← List.reverse_reverse front, hf, List.reverse_cons]
        have hlast : front.getLast? = some b := by rw [hfront, List.getLast?_concat]
        split
        · rename_i hcol
          exact .inr ⟨hfront.symm, b, hlast, hcol.1.symm, hcol.2.symm⟩
        · rename_i hcol
          refine .inl ⟨rfl, fun b' hb' hg hs => hcol ?_, fun h => absurd h (he ▸ hne)⟩
          obtain rfl := Option.some.inj (hlast.symm.trans hb')
          exact ⟨hs.symm, hg.symm⟩
    · rw [if_neg hcur]
      refine ⟨l.sizes, .inl rfl, .inl ⟨rfl, fun b hb _ => ?_, fun _ b hb => ?_⟩⟩
      · rw [← Option.some.inj (hl.symm.trans hb)]
        exact hsz
      · rw [← Option.some.inj (hl.symm.trans hb)]
        exact hcur

/-- What stays of the marks is a front of them. -/
theorem front_le {front : List SizeMark} {P : SizeMark → Prop} (h : l.sizes = front ∨ ∃ last, l.sizes = front ++ [last] ∧ P last) :
    front <+: l.sizes := by
  rcases h with hf | ⟨last, hf, -⟩
  · rw [hf]
  · rw [hf]
    exact List.prefix_append _ _

/-- A mark at the end of the log covers no byte there is. -/
theorem covers_end {m : SizeMark} (hm : m.cursor = ⟨l.generation, (wrote l.generation).length⟩) {g i : Nat} {size : Size}
    (hst : Stamped wrote g i size) : m.covers g i = false := by
  rw [Bool.eq_false_iff]
  intro hcov
  obtain ⟨h1, h2⟩ := SizeMark.covers_iff.mp hcov
  rw [hm] at h1 h2
  simp only at h1 h2
  have := hst.lt
  rw [← h1] at this
  omega

theorem Recorded.markSize (h : Recorded l wrote force) (hk : Keeps l wrote) (size : Size) :
    Recorded (l.markSize size) wrote (if l.closed then force else some size) := by
  by_cases hc : l.closed = true
  · rw [markSize_closed hc, if_pos hc]; exact h
  have hc' : l.closed = false := by simpa using hc
  rw [if_neg hc]
  obtain ⟨front, hfront, hnew⟩ := markSize_marks hc' hk h.active size
  obtain ⟨sizes, changed, he⟩ := markSize_eq l size
  rw [he] at hnew ⊢
  have ho : Ordered front := h.ordered.sublist (front_le hfront).sublist
  have hle : ∀ m ∈ front, LE m.cursor.generation m.cursor.offset l.generation (wrote l.generation).length :=
    fun m hm => h.within m ((front_le hfront).subset hm)
  have hright : ∀ g, l.segments g ≠ none → ∀ i sz, Stamped wrote g i sz → sizeAt front g i = sz := by
    intro g hg i sz hst
    rw [← h.right g hg i sz hst]
    rcases hfront with hf | ⟨last, hf, hlast⟩
    · rw [hf]
    · rw [hf]
      exact (sizeAt_congr ho (hf ▸ h.ordered) (filter_concat (covers_end hlast hst))).symm
  rcases hnew with ⟨hnew, -⟩ | ⟨hnew, b, hb, hbs, hbg⟩
  · simp only at hnew
    subst hnew
    have ho' : Ordered (front ++ [⟨⟨l.generation, (wrote l.generation).length⟩, size⟩]) := ordered_concat ho hle
    refine ⟨ho', fun m hm => ?_, by simp, fun m hm => ?_, fun g hg i sz hst => ?_⟩
    · rcases List.mem_append.mp hm with hm | hm
      · exact hle m hm
      · obtain rfl := List.mem_singleton.mp hm
        exact .inr ⟨rfl, Nat.le_refl _⟩
    · simp only [List.getLast?_concat, Option.some.injEq] at hm
      rw [← hm]
    · rw [sizeAt_congr ho ho' (filter_concat (covers_end rfl hst))]
      exact hright g hg i sz hst
  · simp only at hnew
    subst hnew
    refine ⟨ho, hle, ?_, fun m hm => ?_, hright⟩
    · simp only [hb, Option.map_some, hbs]
    · simp only [hb, Option.some.injEq] at hm
      rw [← hm]; exact hbg

/-- A new mark leaves the others, and no byte is behind it. -/
theorem markSize_mem (hk : Keeps l wrote) (hact : ∀ m, l.sizes.getLast? = some m → m.cursor.generation = l.generation)
    {size : Size} {m : SizeMark} (hm : m ∈ (l.markSize size).sizes) :
    m ∈ l.sizes ∨ m.cursor = ⟨l.generation, (wrote l.generation).length⟩ := by
  by_cases hc : l.closed = true
  · rw [markSize_closed hc] at hm
    exact .inl hm
  obtain ⟨front, hfront, hnew⟩ := markSize_marks (by simpa using hc) hk hact size
  have hsub := (front_le hfront).subset
  rcases hnew with ⟨hnew, -⟩ | ⟨hnew, -⟩
  · rw [hnew] at hm
    rcases List.mem_append.mp hm with hm | hm
    · exact .inl (hsub hm)
    · exact .inr (by rw [List.mem_singleton.mp hm])
  · exact .inl (hsub (hnew ▸ hm))

theorem Marked.markSize (h : Marked l wrote force) (hk : Keeps l wrote) {size : Size} (h0 : size ≠ 0) :
    Marked (l.markSize size) wrote (if l.closed then force else some size) := by
  refine ⟨h.toRecorded.markSize hk size, ?_, fun m hm g i sz hle hst => ?_⟩
  · split
    · exact h.known
    · simpa using h0
  · rcases markSize_mem hk h.active hm with hm | hm
    · exact h.behind m hm g i sz hle hst
    · have hlt := hst.lt
      rw [hm] at hle
      simp only at hle
      rcases hle with h' | ⟨rfl, h'⟩
      · rw [hk.future g h'] at hlt; cases hlt
      · omega

/-! ## Dropping marks -/

/-- Dropping marks keeps the size in effect where none of those in front is dropped. -/
theorem sizeAt_filter {marks : List SizeMark} (h : Ordered marks) (p : SizeMark → Bool) {g i : Nat}
    (hp : ∀ m ∈ marks, m.covers g i = true → p m = true) : sizeAt (marks.filter p) g i = sizeAt marks g i := by
  apply sizeAt_congr h (h.filter p)
  rw [List.filter_filter]
  apply List.filter_congr
  intro m hm
  cases hc : m.covers g i with
  | false => rfl
  | true => simp [hp m hm hc]

theorem Recorded.pruned {l' : OutputLog} (h : Recorded l wrote force) (hk : Keeps l wrote) (hp : Pruned l l') :
    Recorded l' wrote force := by
  have hseg : ∀ g, l'.segments g ≠ none → l.segments g ≠ none := by
    intro g hg
    rcases hp.entry g with ⟨h1, -⟩ | ⟨-, h1, -⟩
    · rwa [h1] at hg
    · exact absurd h1 hg
  rcases hp.sizes with hs | hs
  · refine ⟨hs ▸ h.ordered, ?_, hs ▸ h.newest, ?_, fun g hg i size hst => ?_⟩
    · rw [hs, hp.generation]; exact h.within
    · rw [hs, hp.generation]; exact h.active
    · rw [hs]; exact h.right g (hseg g hg) i size hst
  · have hact : (l'.segments l.generation).isSome = true := by
      have := (hk.pruned hp).active
      rwa [hp.generation] at this
    -- the newest mark is of the active generation, which stays
    have hlast : l'.sizes.getLast? = l.sizes.getLast? := by
      cases hl : l.sizes.getLast? with
      | none => rw [hs, List.getLast?_eq_none_iff.mp hl]; rfl
      | some m =>
        have hm : (l'.segments m.cursor.generation).isSome = true := by rw [h.active m hl]; exact hact
        obtain ⟨front, he⟩ := List.getLast?_eq_some_iff.mp hl
        rw [hs, he]
        simp [List.filter_append, hm]
    refine ⟨hs ▸ h.ordered.filter _, fun m hm => ?_, hlast ▸ h.newest, fun m hm => ?_, fun g hg i size hst => ?_⟩
    · rw [hs] at hm
      rw [hp.generation]; exact h.within m (List.mem_filter.mp hm).1
    · rw [hp.generation]; exact h.active m (hlast ▸ hm)
    · rw [hs, sizeAt_filter h.ordered]
      · exact h.right g (hseg g hg) i size hst
      · intro m _ hc
        rw [(SizeMark.covers_iff.mp hc).1]
        exact Option.isSome_iff_ne_none.mpr hg

theorem Marked.pruned {l' : OutputLog} (h : Marked l wrote force) (hk : Keeps l wrote) (hp : Pruned l l') :
    Marked l' wrote force := by
  refine ⟨h.toRecorded.pruned hk hp, h.known, fun m hm => h.behind m ?_⟩
  rcases hp.sizes with hs | hs
  · exact hs ▸ hm
  · rw [hs] at hm
    exact (List.mem_filter.mp hm).1

end Ghostline.Output
