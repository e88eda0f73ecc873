/-
  Ghostline.Output.MarkIndex — the size marks as an index (output.go: `markSize`, `rotate`,
  `prune`, `sizeSpanLocked`).

  In every state the marks are in order and no two are in one place, neighbours in a
  generation differ, every generation that was started behind the first `markSize` starts
  with one, and the last is in the active generation. At the place of a byte `sizeSpanLocked`
  finds the argument of the last `markSize` before that byte was appended, and how far it is
  to the next mark (`size_mark_index`).
-/

import Mathlib.Data.List.Chain
import Ghostline.Output.Marks
import Ghostline.Output.Issued
import Ghostline.Output.Moves

namespace Ghostline.Output

open OutputLog
open Lib.Segments (LE)

/-- `a` is in front of `b`. -/
def SizeMark.Before (a b : SizeMark) : Prop :=
  a.cursor.generation < b.cursor.generation ∨
    a.cursor.generation = b.cursor.generation ∧ a.cursor.offset < b.cursor.offset

/-- Marks of one generation that differ. -/
def SizeMark.Differs (a b : SizeMark) : Prop := a.cursor.generation = b.cursor.generation → a.size ≠ b.size

/-- What follows the position in its generation: a mark `span` bytes on and none before it,
    or none at all. -/
def NextMark (marks : List SizeMark) (g i : Nat) : Nat × Bool → Prop
  | (span, true) => 0 < span ∧ (∃ m ∈ marks, m.cursor = ⟨g, i + span⟩) ∧
      ∀ m ∈ marks, m.cursor.generation = g → i < m.cursor.offset → i + span ≤ m.cursor.offset
  | (_, false) => ∀ m ∈ marks, m.cursor.generation = g → m.cursor.offset ≤ i

variable {l l' : OutputLog} {wrote : Wrote} {force : Option Size} {marks : List SizeMark}

/-! ## The next mark -/

theorem NextMark.cons {g i : Nat} {m : SizeMark} {next : Nat × Bool} (h : NextMark marks g i next)
    (hm : m.cursor.generation = g → m.cursor.offset ≤ i) : NextMark (m :: marks) g i next := by
  match next, h with
  | (span, true), ⟨hpos, ⟨n, hn, hc⟩, hmin⟩ =>
    refine ⟨hpos, ⟨n, List.mem_cons_of_mem _ hn, hc⟩, List.forall_mem_cons.mpr ⟨fun hg hlt => ?_, hmin⟩⟩
    have := hm hg
    omega
  | (_, false), h => exact List.forall_mem_cons.mpr ⟨hm, h⟩

theorem sizeSpan_next {g i : Nat} : ∀ (marks : List SizeMark) (size : Size), Ordered marks →
    NextMark marks g i (sizeSpan ⟨g, i⟩ marks size).2 := by
  intro marks
  induction marks with
  | nil => exact fun _ _ m hm => by cases hm
  | cons m rest ih =>
    intro size ho
    obtain ⟨hm, hrest⟩ := List.pairwise_cons.mp ho
    simp only [sizeSpan]
    split
    · rename_i hg
      split
      · -- a later generation begins, and none of this one follows
        rename_i hlt
        refine List.forall_mem_cons.mpr ⟨fun h => absurd h hg, fun n hn hng => ?_⟩
        rcases hm n hn with h | ⟨h, -⟩ <;> omega
      · exact (ih size hrest).cons fun h => absurd h hg
    · rename_i hg
      have hg := not_not.mp hg
      split
      · rename_i hle
        exact (ih _ hrest).cons fun _ => hle
      · rename_i hle
        refine ⟨by omega, ⟨m, List.mem_cons_self, ?_⟩, List.forall_mem_cons.mpr ⟨fun _ _ => by omega, fun n hn hng _ => ?_⟩⟩
        · show (⟨m.cursor.generation, m.cursor.offset⟩ : Cursor) = _
          rw [hg, show i + (m.cursor.offset - i) = m.cursor.offset by omega]
        · rcases hm n hn with h | ⟨-, h⟩ <;> omega

/-! ## Order and neighbours -/

structure Tidy (l : OutputLog) : Prop where
  strict : l.sizes.Pairwise SizeMark.Before
  differ : l.sizes.IsChain SizeMark.Differs

theorem Tidy.of_sizes (h : Tidy l) (hs : l'.sizes = l.sizes) : Tidy l' := ⟨hs ▸ h.strict, hs ▸ h.differ⟩

/-- With a mark behind the last one. -/
theorem Tidy.concat {m : SizeMark} (h : Tidy l) {front : List SizeMark} (hfront : front <+: l.sizes)
    (hm : ∀ a ∈ front, a.Before m) (hlast : ∀ b, front.getLast? = some b → b.Differs m) (hs : l'.sizes = front ++ [m]) :
    Tidy l' := by
  refine ⟨?_, ?_⟩
  · rw [hs]
    refine List.pairwise_append.mpr ⟨h.strict.sublist hfront.sublist, List.pairwise_singleton _ _, fun a ha b hb => ?_⟩
    rw [List.mem_singleton.mp hb]
    exact hm a ha
  · rw [hs]
    have hchain := List.IsChain.prefix h.differ hfront
    refine List.isChain_append.mpr ⟨hchain, .singleton _, fun a ha b hb => ?_⟩
    obtain rfl := Option.some.inj hb
    exact hlast a ha

theorem Tidy.rotate (h : Tidy l) (hr : Recorded l wrote force) (hk : Keeps l wrote) (fail : Option String) :
    Tidy (l.rotate fail).1 := by
  rcases rotate_cases hk.bound fail with he | ⟨-, -, -, he⟩
  · rw [he]; exact h
  rw [he]
  cases hl : l.sizes.getLast? with
  | none => exact h.of_sizes (by simp only [signalLocked, carrySize, hl])
  | some last =>
    have hgen : ∀ a ∈ l.sizes, a.cursor.generation ≤ l.generation := fun a ha => by
      rcases hr.within a ha with h' | ⟨h', -⟩ <;> omega
    refine h.concat (List.prefix_refl _) (m := ⟨⟨l.generation + 1, 0⟩, last.size⟩) (fun a ha => .inl ?_)
      (fun b hb hg => ?_) (by simp only [signalLocked, carrySize, hl])
    · exact Nat.lt_succ_of_le (hgen a ha)
    · have := hgen b (List.mem_of_getLast? hb)
      simp only at hg
      omega

/-- Marks in order up to a place that the last of them is not at are in front of it. -/
theorem before_end {m : SizeMark} (hs : marks.Pairwise SizeMark.Before)
    (hle : ∀ a ∈ marks, LE a.cursor.generation a.cursor.offset m.cursor.generation m.cursor.offset)
    (hlast : ∀ b, marks.getLast? = some b → b.cursor ≠ m.cursor) : ∀ a ∈ marks, a.Before m := by
  intro a ha
  cases hl : marks.getLast? with
  | none => rw [List.getLast?_eq_none_iff.mp hl] at ha; cases ha
  | some b =>
    have hb : b.Before m := by
      rcases hle b (List.mem_of_getLast? hl) with h | ⟨h1, h2⟩
      · exact .inl h
      · refine .inr ⟨h1, Nat.lt_of_le_of_ne h2 fun h3 => hlast b hl ?_⟩
        show (⟨b.cursor.generation, b.cursor.offset⟩ : Cursor) = _
        rw [h1, h3]
    obtain ⟨front, rfl⟩ := List.getLast?_eq_some_iff.mp hl
    rcases List.mem_append.mp ha with ha | ha
    · have hab := (List.pairwise_append.mp hs).2.2 a ha b (List.mem_singleton_self b)
      unfold SizeMark.Before at hab hb ⊢
      omega
    · rwa [List.mem_singleton.mp ha]

theorem Tidy.markSize (h : Tidy l) (hr : Recorded l wrote force) (hk : Keeps l wrote) (size : Size) :
    Tidy (l.markSize size) := by
  by_cases hc : l.closed = true
  · rw [markSize_closed hc]; exact h
  obtain ⟨front, hfront, hnew⟩ := markSize_marks (by simpa using hc) hk hr.active size
  rcases hnew with ⟨hnew, hdiffer, hfree⟩ | ⟨hnew, -⟩
  · refine h.concat (front_le hfront) ?_ (fun b hb hg => hdiffer b hb hg) hnew
    rcases hfront with hf | ⟨last, hf, hcur⟩
    · exact before_end (hf ▸ h.strict) (fun a ha => hr.within a (hf ▸ ha)) (hfree hf)
    · intro a ha
      have hs := h.strict
      rw [hf] at hs
      have hal := (List.pairwise_append.mp hs).2.2 a ha last (List.mem_singleton_self last)
      rwa [SizeMark.Before, hcur] at hal
  · refine ⟨?_, ?_⟩
    · rw [hnew]
      exact h.strict.sublist (front_le hfront).sublist
    · rw [hnew]
      have hchain := List.IsChain.prefix h.differ (front_le hfront)
      exact hchain

/-- Dropping the marks of some generations makes no new neighbours in one generation. -/
theorem isChain_filter (p : Nat → Bool) : ∀ {marks : List SizeMark}, marks.Pairwise SizeMark.Before →
    marks.IsChain SizeMark.Differs → (marks.filter fun m => p m.cursor.generation).IsChain SizeMark.Differs := by
  intro marks
  induction marks with
  | nil => exact fun _ _ => .nil
  | cons a rest ih =>
    intro hs hd
    obtain ⟨ha, hrest⟩ := List.pairwise_cons.mp hs
    obtain ⟨hhead, htail⟩ := List.isChain_cons.mp hd
    by_cases hp : p a.cursor.generation = true
    · simp only [List.filter_cons, hp, if_true]
      refine List.isChain_cons.mpr ⟨fun y hy hg => ?_, ih hrest htail⟩
      cases rest with
      | nil => cases hy
      | cons z rest =>
        by_cases hz : p z.cursor.generation = true
        · simp only [List.filter_cons, hz, if_true] at hy
          obtain rfl := Option.some.inj hy
          exact hhead z rfl hg
        · -- the neighbour is of a later generation, and so is what follows it
          simp only [List.filter_cons, hz] at hy
          have hmem : y ∈ rest := (List.mem_filter.mp (List.mem_of_mem_head? hy)).1
          have hzy := (List.pairwise_cons.mp hrest).1 y hmem
          have haz := ha z List.mem_cons_self
          have hne : a.cursor.generation ≠ z.cursor.generation := fun he => hz (he ▸ hp)
          rcases haz with h1 | ⟨h1, -⟩
          · rcases hzy with h2 | ⟨h2, -⟩ <;> omega
          · exact absurd h1 hne
    · simp only [List.filter_cons, hp]
      exact ih hrest htail

theorem Tidy.pruned (h : Tidy l) (hp : Pruned l l') : Tidy l' := by
  rcases hp.sizes with hs | hs
  · exact h.of_sizes hs
  · refine ⟨hs ▸ h.strict.filter _, ?_⟩
    rw [hs]
    exact isChain_filter (fun g => (l'.segments g).isSome) h.strict h.differ

/-! ## The start of a generation -/

/-- There are marks, and every indexed generation past `base` starts with one. -/
structure Started (base : Nat) (l : OutputLog) : Prop where
  some : l.sizes ≠ []
  since : base ≤ l.generation
  starts : ∀ g, base < g → l.segments g ≠ none → ∃ m ∈ l.sizes, m.cursor = ⟨g, 0⟩

variable {base : Nat}

theorem Started.of_sizes (h : Started base l) (hs : l'.sizes = l.sizes) (hg : l'.generation = l.generation)
    (hseg : ∀ g, l'.segments g ≠ none → l.segments g ≠ none) : Started base l' :=
  ⟨hs ▸ h.some, hg ▸ h.since, fun g hb hn => hs ▸ h.starts g hb (hseg g hn)⟩

theorem Started.append (h : Started base l) (hk : Keeps l wrote) (data : List Byte) (w : Write) :
    Started base (l.append data w).1 := by
  rcases append_cases l data w with ⟨he, -⟩ | ⟨-, -, n, m, -, -, he⟩ | ⟨-, -, -, he⟩
  · rw [he]; exact h
  · rw [he]; exact h.of_sizes rfl rfl fun g hg => hg
  · rw [he]
    refine h.of_sizes rfl rfl fun g hg => ?_
    by_cases hgen : g = l.generation
    · rw [hgen]
      exact Option.isSome_iff_ne_none.mp hk.active
    · simpa [signalLocked, Function.update_of_ne hgen] using hg

theorem Started.close (h : Started base l) (err : Option Err) : Started base (l.close err) := by
  unfold OutputLog.close
  split
  · exact h
  · exact h.of_sizes rfl rfl fun g hg => hg

theorem Started.rotate (h : Started base l) (hk : Keeps l wrote) (fail : Option String) :
    Started base (l.rotate fail).1 := by
  rcases rotate_cases hk.bound fail with he | ⟨-, -, -, he⟩
  · rw [he]; exact h
  rw [he]
  obtain ⟨last, hlast⟩ := Option.ne_none_iff_exists'.mp (mt List.getLast?_eq_none_iff.mp h.some)
  refine ⟨?_, Nat.le_succ_of_le h.since, fun g hb hg => ?_⟩
  · simp [signalLocked, carrySize, hlast]
  · simp only [signalLocked, carrySize, hlast]
    by_cases hgen : g = l.generation + 1
    · exact ⟨_, List.mem_append_right _ (List.mem_singleton_self _), by rw [hgen]⟩
    · obtain ⟨m, hm, hc⟩ := h.starts g hb (by simpa [signalLocked, Function.update_of_ne hgen] using hg)
      exact ⟨m, List.mem_append_left _ hm, hc⟩

theorem Started.pruned (h : Started base l) (hr : Recorded l wrote force) (hr' : Recorded l' wrote force)
    (hp : Pruned l l') : Started base l' := by
  have hsome : l'.sizes ≠ [] := by
    intro hn
    have h1 := hr'.newest
    rw [hn, ← hr.newest] at h1
    exact h.some (by simpa using h1.symm)
  refine ⟨hsome, hp.generation ▸ h.since, fun g hb hg => ?_⟩
  have hseg : l.segments g ≠ none := by
    rcases hp.entry g with ⟨h1, -⟩ | ⟨-, h1, -⟩
    · rwa [h1] at hg
    · exact absurd h1 hg
  obtain ⟨m, hm, hc⟩ := h.starts g hb hseg
  refine ⟨m, ?_, hc⟩
  rcases hp.sizes with hs | hs
  · exact hs ▸ hm
  · rw [hs]
    exact List.mem_filter.mpr ⟨hm, by rw [hc]; exact Option.isSome_iff_ne_none.mpr hg⟩

theorem Started.markSize (h : Started base l) (ht : Tidy l) (hr : Recorded l wrote force) (hk : Keeps l wrote)
    (size : Size) : Started base (l.markSize size) := by
  by_cases hc : l.closed = true
  · rw [markSize_closed hc]; exact h
  obtain ⟨front, hfront, hnew⟩ := markSize_marks (by simpa using hc) hk hr.active size
  obtain ⟨sizes, changed, he⟩ := markSize_eq l size
  rw [he] at hnew ⊢
  simp only at hnew
  -- only a mark at the end of the log goes, and one takes its place or stands in front of it
  have hkeep : ∀ m ∈ l.sizes, m ∈ front ∨ m.cursor = ⟨l.generation, (wrote l.generation).length⟩ ∧ l.sizes = front ++ [m] := by
    intro m hm
    rcases hfront with hf | ⟨last, hf, hcur⟩
    · exact .inl (hf ▸ hm)
    · rw [hf] at hm
      rcases List.mem_append.mp hm with hm | hm
      · exact .inl hm
      · rw [List.mem_singleton.mp hm]
        exact .inr ⟨hcur, hf⟩
  rcases hnew with ⟨hnew, -⟩ | ⟨hnew, b, hb, -, hbg⟩
  · refine ⟨by simp [hnew], h.since, fun g hbase hg => ?_⟩
    obtain ⟨m, hm, hcm⟩ := h.starts g hbase hg
    simp only [hnew]
    rcases hkeep m hm with hm | ⟨hend, -⟩
    · exact ⟨m, List.mem_append_left _ hm, hcm⟩
    · exact ⟨_, List.mem_append_right _ (List.mem_singleton_self _), hend.symm.trans hcm⟩
  · refine ⟨fun hn => ?_, h.since, fun g hbase hg => ?_⟩
    · simp only at hn
      rw [← hnew, hn] at hb
      cases hb
    · obtain ⟨m, hm, hcm⟩ := h.starts g hbase hg
      simp only [hnew]
      rcases hkeep m hm with hm | ⟨hend, hl⟩
      · exact ⟨m, hm, hcm⟩
      · -- `b` would stand in front of the first place of its generation
        exfalso
        have hs := ht.strict
        rw [hl] at hs
        have hbm := (List.pairwise_append.mp hs).2.2 b (List.mem_of_getLast? hb) m (List.mem_singleton_self m)
        rw [hcm] at hend
        have h0 : m.cursor.offset = 0 := by rw [hcm]
        have hgm : m.cursor.generation = l.generation := by rw [hcm, hend]
        rcases hbm with h' | ⟨-, h'⟩ <;> omega

/-! ## Every run -/

variable {s s' : Sys} {e : Ev}

structure MarkInv (s : Sys) : Prop where
  backed : Backed s
  recorded : Recorded s.log s.wrote s.force
  tidy : Tidy s.log

theorem log_recorded (hk : Keeps s.log s.wrote) (h : Recorded s.log s.wrote s.force) (he : s.logStep e = some s') :
    Recorded s'.log s'.wrote s'.force := by
  cases logStep_inv he with
  | append data w => exact h.append hk data w
  | rotate fail => exact h.rotate hk fail
  | @prune before order rm _ => exact h.pruned hk (prune_spec s.log before order rm)
  | markSize size => exact h.markSize hk size
  | close err => exact h.close _

theorem log_tidy (hk : Keeps s.log s.wrote) (hr : Recorded s.log s.wrote s.force) (h : Tidy s.log)
    (he : s.logStep e = some s') : Tidy s'.log := by
  cases logStep_inv he with
  | append data w => exact h.of_sizes (append_sizes _ _ _)
  | rotate fail => exact h.rotate hr hk fail
  | @prune before order rm _ => exact h.pruned (prune_spec s.log before order rm)
  | markSize size => exact h.markSize hr hk size
  | close err => exact h.of_sizes (close_sizes _ _)

theorem log_started (hi : MarkInv s) {base : Nat} (h : Started base s.log) (he : s.logStep e = some s') :
    Started base s'.log := by
  have hk := hi.backed.placed.keeps
  have hr' := log_recorded hk hi.recorded he
  cases logStep_inv he with
  | append data w => exact h.append hk data w
  | rotate fail => exact h.rotate hk fail
  | @prune before order rm _ => exact h.pruned hi.recorded hr' (prune_spec s.log before order rm)
  | markSize size => exact h.markSize hi.tidy hi.recorded hk size
  | close err => exact h.close _

theorem ReaderMove.force_eq (h : ReaderMove s e s') : s'.force = s.force := by cases h <;> rfl

theorem MarkInv.init (h : s.Init) : MarkInv s := by
  refine ⟨.init h, ?_, ?_⟩
  all_goals obtain ⟨files, linked, generation, create, l, hb, hl, rfl⟩ := h
  · exact (marked_open hl).toRecorded
  · have hs : l.sizes = [] := (openOutputLog_ok hl).2.2.2.2.2
    exact ⟨hs ▸ .nil, hs ▸ .nil⟩

theorem MarkInv.step (h : MarkInv s) (he : s.step e = some s') : MarkInv s' := by
  refine ⟨h.backed.step he, ?_, ?_⟩
  all_goals rcases step_cases he with he | he
  · exact log_recorded h.backed.placed.keeps h.recorded he
  · rw [he.log_eq.1, he.log_eq.2, he.force_eq]
    exact h.recorded
  · exact log_tidy h.backed.placed.keeps h.recorded h.tidy he
  · rw [he.log_eq.1]
    exact h.tidy

theorem step_started (hi : MarkInv s) {base : Nat} (h : Started base s.log) (he : s.step e = some s') :
    Started base s'.log := by
  rcases step_cases he with he | he
  · exact log_started hi h he
  · rw [he.log_eq.1]
    exact h

/-- In every state: the marks are strictly increasing, neighbours of one generation differ,
    and the last is in the active generation; at every byte of an indexed generation
    `sizeSpanLocked` finds the argument of the last `markSize` before it was appended and the
    distance to the next mark; and behind the first `markSize` every generation that is
    started begins with a mark. -/
theorem size_mark_index (h : machine.Reach Lib.Machine.always s) :
    s.log.sizes.Pairwise SizeMark.Before ∧ s.log.sizes.IsChain SizeMark.Differs ∧
    (∀ m, s.log.sizes.getLast? = some m → m.cursor.generation = s.log.generation) ∧
    (∀ g i size, s.log.segments g ≠ none → Stamped s.wrote g i size →
      (s.log.sizeSpanLocked ⟨g, i⟩).1 = size ∧ NextMark s.log.sizes g i (s.log.sizeSpanLocked ⟨g, i⟩).2) ∧
    ∀ es t, machine.run Lib.Machine.always s es = some t → s.force ≠ none →
      ∀ g, s.log.generation < g → t.log.segments g ≠ none → ∃ m ∈ t.log.sizes, m.cursor = ⟨g, 0⟩ := by
  have hi : MarkInv s := h.invariant (fun _ => MarkInv.init) fun _ _ _ hi _ he => hi.step he
  have hr := hi.recorded
  refine ⟨hi.tidy.strict, hi.tidy.differ, hr.active, fun g i size hg hst => ⟨hr.right g hg i size hst, ?_⟩, ?_⟩
  · exact sizeSpan_next s.log.sizes 0 hr.ordered
  · intro es t hrun hforce
    have hstart : Started s.log.generation s.log := by
      refine ⟨fun hn => hforce ?_, Nat.le_refl _, fun g hlt hg => ?_⟩
      · rw [← hr.newest, hn]
        rfl
      · obtain ⟨n, hn⟩ := Option.ne_none_iff_exists'.mp hg
        have := (hi.backed.placed.keeps.index g n hn).2.2
        omega
    have ht : MarkInv t ∧ Started s.log.generation t.log :=
      machine.run_stable (P := fun u => MarkInv u ∧ Started s.log.generation u.log)
        (fun _ _ _ hp _ he => ⟨hp.1.step he, step_started hp.1 hp.2 he⟩) ⟨hi, hstart⟩ hrun
    exact ht.2.starts

/-- Two resizes with no output between them, around a rotation, and a prune. -/
def resizedAround : List Ev :=
  [.append [97] .full, .markSize ⟨80, 24⟩, .append [98] .full, .markSize ⟨100, 30⟩, .rotate none, .markSize ⟨80, 24⟩,
    .append [99] .full, .markSize ⟨120, 40⟩, .append [100] .full, .rotate none, .prune ⟨2, 0⟩ [1, 2, 3] (fun _ => none)]

theorem size_mark_index_resized : ∃ s, machine.Reach Lib.Machine.always s ∧
    (s.log.sizes = [⟨⟨2, 0⟩, ⟨80, 24⟩⟩, ⟨⟨2, 1⟩, ⟨120, 40⟩⟩, ⟨⟨3, 0⟩, ⟨120, 40⟩⟩] ∧
      s.wrote 2 = [(99, ⟨80, 24⟩), (100, ⟨120, 40⟩)]) ∧
    NextMark s.log.sizes 2 0 (s.log.sizeSpanLocked ⟨2, 0⟩).2 := by
  obtain ⟨s, hs, h, hseg⟩ := machine.exists_reach Lib.Machine.always created_init resizedAround
    (P := fun s => (s.log.sizes = [⟨⟨2, 0⟩, ⟨80, 24⟩⟩, ⟨⟨2, 1⟩, ⟨120, 40⟩⟩, ⟨⟨3, 0⟩, ⟨120, 40⟩⟩] ∧
      s.wrote 2 = [(99, ⟨80, 24⟩), (100, ⟨120, 40⟩)]) ∧ s.log.segments 2 ≠ none) (by decide)
  exact ⟨s, hs, h, ((size_mark_index hs).2.2.2.1 2 0 ⟨80, 24⟩ hseg ⟨99, by rw [h.2]; rfl⟩).2⟩

end Ghostline.Output
