/-
  Ghostline.Output.Progress — how far a reader gets that keeps calling.

  A reader is `Ready` while every generation from its cursor on is indexed and nobody has
  closed it. Then each step of its calls, with the operating system willing, brings it
  nearer to the end of the log (`Ready.reads`): `Sys.rank` counts the bytes and the
  generations still ahead, with room for the turns each of them takes. A reader that does
  not come nearer stands at the end and waits there, or is told how the log ended.
-/

import Ghostline.Output.Gap
import Ghostline.Output.Moves

namespace Ghostline.Output

open Lib.Segments
open LocalOutputSource

variable {s s' : Sys} {r r' : LocalOutputSource} {e : Ev}

/-! ## What is ahead -/

/-- The end of what the log was given. -/
def Sys.end (s : Sys) : Cursor := ⟨s.log.generation, (s.wrote s.log.generation).length⟩

/-- The bytes from `c` to the end. -/
def Sys.left (s : Sys) (c : Cursor) : Nat :=
  (before s.bytes s.end.generation s.end.offset).length - (before s.bytes c.generation c.offset).length

/-- A sized read would first report the size at the cursor. -/
def Sys.pending (s : Sys) (r : LocalOutputSource) : Bool :=
  (s.log.sizeSpanLocked r.cursor).1 != 0 && (s.log.sizeSpanLocked r.cursor).1 != r.reported

def Pc.rank : Pc → Nat
  | .idle => 4
  | .waiting .. => 4
  | .top .. => 3
  | .opening .. => 2
  | .reading .. => 1

def Sys.rank (s : Sys) (r : LocalOutputSource) : Nat :=
  8 * (s.left r.cursor + (s.log.generation - r.cursor.generation)) + (if s.pending r then 3 else 0) + s.pc.rank

theorem bytes_length (s : Sys) (g : Nat) : (s.bytes g).length = (s.wrote g).length := by simp [Sys.bytes]

theorem before_le_end {c : Cursor} (hg : c.generation ≤ s.log.generation)
    (ho : c.offset ≤ (s.wrote c.generation).length) :
    (before s.bytes c.generation c.offset).length ≤ (before s.bytes s.end.generation s.end.offset).length := by
  apply List.IsPrefix.length_le
  apply before_le
  rcases Nat.lt_or_eq_of_le hg with hlt | heq
  · exact .inl hlt
  · exact .inr ⟨heq, by rw [heq] at ho; exact ho⟩

/-- Reading `n` bytes leaves `n` less. -/
theorem left_add {c : Cursor} {n : Nat} (hg : c.generation ≤ s.log.generation)
    (ho : c.offset + n ≤ (s.wrote c.generation).length) : s.left ⟨c.generation, c.offset + n⟩ + n = s.left c := by
  have hle := before_le_end (s := s) (c := ⟨c.generation, c.offset + n⟩) hg ho
  have hadd : (before s.bytes c.generation (c.offset + n)).length =
      (before s.bytes c.generation c.offset).length + n := by
    rw [before_add, List.length_append, List.length_take, List.length_drop, bytes_length]
    omega
  simp only [Sys.left]
  rw [hadd] at hle ⊢
  omega

/-- Crossing into the next generation leaves as much. -/
theorem left_next {c : Cursor} (h : (s.wrote c.generation).length ≤ c.offset) :
    s.left ⟨c.generation + 1, 0⟩ = s.left c := by
  simp only [Sys.left, before_next s.bytes (show (s.bytes c.generation).length ≤ c.offset by rw [bytes_length]; exact h)]

/-! ## A reader that keeps calling -/

structure Ready (s : Sys) (r : LocalOutputSource) : Prop where
  inv : Inv s
  backed : Backed s
  reader : s.reader = .opened r
  ahead : ∀ g, r.cursor.generation ≤ g → g ≤ s.log.generation → s.log.segments g ≠ none
  live : s.done = false ∧ s.canceled = false

/-- The steps of a call with a buffer, where the operating system does not fail. -/
def Ev.reads : Ev → Bool
  | .call len _ => decide (0 < len)
  | .section => true
  | .openFile none => true
  | .readAt none => true
  | .wake => true
  | _ => false

theorem Ready.at (h : Ready s r) : At s r := (h.inv.placed.opened h.reader).1

theorem Ready.served (h : Ready s r) : Served r s.log :=
  .inl (Option.isSome_iff_ne_none.mpr (h.ahead _ (Nat.le_refl _) h.at.gen))

theorem Ready.limit (h : Ready s r) : (r.refresh s.log).fileLimit = (s.wrote r.cursor.generation).length :=
  refresh_limit h.inv.placed.keeps (h.inv.sound r h.reader) h.served

/-- A reader past everything stands at the end. -/
theorem Ready.atEnd (h : Ready s r) (hg : s.log.generation ≤ r.cursor.generation)
    (ho : (r.refresh s.log).fileLimit ≤ r.cursor.offset) : r.cursor = s.end := by
  have hgen : r.cursor.generation = s.log.generation := Nat.le_antisymm h.at.gen hg
  have hoff := h.at.off
  rw [h.limit, hgen] at ho
  rw [hgen] at hoff
  show (⟨r.cursor.generation, r.cursor.offset⟩ : Cursor) = s.end
  rw [hgen, Nat.le_antisymm hoff ho, Sys.end]

theorem Ready.next (h : Ready s r) (hw : e.reads = true) (he : s.step e = some s') (hr : s'.reader = .opened r')
    (hlog : s'.log = s.log) (hg : r.cursor.generation ≤ r'.cursor.generation)
    (hlive : s'.done = s.done ∧ s'.canceled = s.canceled) : Ready s' r' := by
  have hcur : prunesCurrent s e = true := by cases e <;> first | rfl | cases hw
  refine ⟨step_inv h.inv hcur he, h.backed.step he, hr, fun g hge hle => ?_, ?_⟩
  · rw [hlog] at hle ⊢
    exact h.ahead g (Nat.le_trans hg hge) hle
  · rw [hlive.1, hlive.2]
    exact h.live

def Pc.waits : Pc → Bool
  | .waiting .. => true
  | _ => false

/-- What a step of a call leaves alone. -/
structure Unmoved (s s' : Sys) : Prop where
  log : s'.log = s.log
  wrote : s'.wrote = s.wrote
  start : s'.start = s.start

/-- Where one step of a call leaves the reader. -/
inductive Nearer (s : Sys) (r : LocalOutputSource) (s' : Sys) (r' : LocalOutputSource) : Prop
  | nearer : s'.pc.waits = false → s'.rank r' < s.rank r → Nearer s r s' r'
  | ended : s.log.closed = true → r'.cursor = s.end → s'.pc = .idle →
      s'.results = s.results ++ [⟨errorResult (s.log.err.getD .eof), r.cursor, r'.cursor⟩] → Nearer s r s' r'
  | waits : s.log.closed = false → r'.cursor = s.end → Nearer s r s' r'

theorem rank_lt_of_pc (hlog : s'.log = s.log) (hw : s'.wrote = s.wrote) (hc : r'.cursor = r.cursor)
    (hrep : r'.reported = r.reported) (hpc : s'.pc.rank < s.pc.rank) : s'.rank r' < s.rank r := by
  have hb : s'.bytes = s.bytes := by funext g; simp [Sys.bytes, hw]
  simp only [Sys.rank, Sys.left, Sys.pending, Sys.end, hlog, hw, hc, hrep, hb]
  exact Nat.add_lt_add_left hpc _

theorem rank_lt_of_reported (hlog : s'.log = s.log) (hw : s'.wrote = s.wrote) (hc : r'.cursor = r.cursor)
    (hp : s.pending r = true) (hp' : s'.pending r' = false) (hpc : s'.pc.rank < 3 + s.pc.rank) :
    s'.rank r' < s.rank r := by
  have hb : s'.bytes = s.bytes := by funext g; simp [Sys.bytes, hw]
  simp only [Sys.rank, Sys.left, Sys.end, hlog, hw, hc, hb, hp, hp', if_true, Bool.false_eq_true, if_false]
  omega

/-- One turn under the lock. -/
theorem Ready.turn {len : Nat} {sized : Bool} (h : Ready s r) (hp : s.pc = .top len sized)
    (he : s.step .section = some (s.turn r len sized)) :
    Unmoved s (s.turn r len sized) ∧ ∃ r', Ready (s.turn r len sized) r' ∧ Nearer s r (s.turn r len sized) r' := by
  have next : ∀ {s' r'}, s.step .section = some s' → s'.reader = .opened r' → s'.log = s.log →
      r.cursor.generation ≤ r'.cursor.generation → s'.done = s.done ∧ s'.canceled = s.canceled → Ready s' r' :=
    fun hs hr hl hg hv => h.next rfl hs hr hl hg hv
  revert he
  unfold Sys.turn
  generalize ht : r.lockSection s.log sized = q
  obtain ⟨q, t⟩ := q
  rcases lockSection_cases r s.log ht with ⟨-, -, hn⟩ | ⟨size, rfl, rfl, -, hsize, h0, hne⟩ |
    ⟨limit, size, rfl, rfl, -⟩ | ⟨rfl, rfl, -, hlt, hle⟩ | ⟨rfl, rfl, -, hc, hg, hle⟩ | ⟨rfl, rfl, -, hc, -⟩
  · exact absurd h.served hn
  · -- the report is made once: the size at the cursor is the one reported then
    intro he
    refine ⟨⟨rfl, rfl, rfl⟩, _, next he rfl rfl (by simp) ⟨rfl, rfl⟩, .nearer rfl ?_⟩
    have hspan : r.spanAt s.log sized = s.log.sizeSpanLocked r.cursor := by
      cases sized with
      | true => rfl
      | false => exact absurd hsize h0
    rw [hspan] at hsize
    have hpend : s.pending r = true := by simp [Sys.pending, ← hsize, h0, hne]
    exact rank_lt_of_reported rfl rfl (by simp) hpend (by simp [Sys.pending, Sys.ret, ← hsize])
      (by rw [hp]; exact (by decide : 4 < 3 + 3))
  · intro he
    exact ⟨⟨rfl, rfl, rfl⟩, _, next he rfl rfl (by simp) ⟨rfl, rfl⟩,
      .nearer rfl (rank_lt_of_pc rfl rfl (by simp) (by simp) (by rw [hp]; exact Nat.lt_succ_self 2))⟩
  · intro he
    refine ⟨⟨rfl, rfl, rfl⟩, _, next he rfl rfl (Nat.le_succ _) ⟨rfl, rfl⟩, .nearer rfl ?_⟩
    rw [h.limit] at hle
    have hleft := left_next hle
    simp only [Sys.rank, Pc.rank, hp]
    show 8 * (s.left ⟨r.cursor.generation + 1, 0⟩ + (s.log.generation - (r.cursor.generation + 1))) + _ + _ < _
    rw [hleft]
    split <;> split <;> omega
  · intro he
    exact ⟨⟨rfl, rfl, rfl⟩, _, next he rfl rfl (by simp) ⟨rfl, rfl⟩,
      .ended hc (by rw [refresh_cursor]; exact h.atEnd hg hle) rfl rfl⟩
  · intro he
    obtain ⟨-, -, hg, hle⟩ := lockSection_wait ht
    exact ⟨⟨rfl, rfl, rfl⟩, _, next he rfl rfl (by simp) ⟨rfl, rfl⟩, .waits hc (by rw [refresh_cursor]; exact h.atEnd hg hle)⟩

/-- A read where the operating system does not fail brings at least one byte. -/
theorem Ready.readAt (h : Ready s r) {len limit : Nat} {size : Size} (hp : s.pc = .reading len limit size)
    {x : Result} (hq : r.readAt s.log len limit size none = (r', x)) :
    ∃ n, 0 < n ∧ r.cursor.offset + n ≤ (s.wrote r.cursor.generation).length ∧
      r' = { r with cursor := ⟨r.cursor.generation, r.cursor.offset + n⟩ } := by
  obtain ⟨hr', -, -, hle, hmax, hne, hempty⟩ := chunk h.inv.placed h.reader hp none hq
  refine ⟨x.bytes.length, ?_, by omega, hr'⟩
  by_contra h0
  have hnil : x.bytes = [] := List.eq_nil_of_length_eq_zero (by omega)
  have herr := readAt_err r s.log len limit size
  rw [hq] at herr
  rcases herr with herr | herr
  · exact hempty hnil herr
  · exact hne herr

theorem logStep_reads (hw : e.reads = true) : s.logStep e = none := by
  cases e <;> first | rfl | cases hw

theorem Ready.reads (h : Ready s r) (hw : e.reads = true) (he : s.step e = some s') :
    Unmoved s s' ∧ ∃ r', Ready s' r' ∧ Nearer s r s' r' := by
  have hr := h.reader
  have hstep := he
  have htop : ∀ {len sized s'}, s.step e = some s' → s' = { s with pc := .top len sized } → s.pc.rank = 4 →
      Unmoved s s' ∧ ∃ r', Ready s' r' ∧ Nearer s r s' r' := by
    rintro len sized s' hs rfl hp
    exact ⟨⟨rfl, rfl, rfl⟩, r, h.next hw hs hr rfl (Nat.le_refl _) ⟨rfl, rfl⟩,
      .nearer rfl (rank_lt_of_pc rfl rfl rfl rfl (by rw [hp]; exact Nat.lt_succ_self 3))⟩
  have he' : s.readerStep e = some s' := (step_split he).resolve_left (by simp [logStep_reads hw])
  cases readerStep_cases he' with
  | resolve | notPinned | pinned | stopClosed | stopCanceled | closeIdle | closeBusy | cancel => cases hw
  | empty => cases hw
  | call _ hidle _ => exact htop hstep rfl (by rw [hidle]; rfl)
  | turn hopen hp =>
    obtain rfl := Handle.opened.inj (hr.symm.trans hopen)
    exact h.turn hp hstep
  | wake hwait => exact htop hstep rfl (by rw [hwait]; rfl)
  | notOpened fail hopen hp ho =>
    -- the file is in the directory
    obtain rfl : fail = none := by cases fail <;> first | rfl | cases hw
    obtain rfl := Handle.opened.inj (hr.symm.trans hopen)
    obtain ⟨-, ho⟩ := openFile_failed ho
    have hl := h.backed.linked _ (h.ahead _ (Nat.le_refl _) h.at.gen)
    simp [openErr, hl] at ho
  | opened fail hopen hp ho =>
    obtain rfl := Handle.opened.inj (hr.symm.trans hopen)
    obtain ⟨rfl, -⟩ := openFile_ok r s.log ho
    exact ⟨⟨rfl, rfl, rfl⟩, _, h.next hw hstep rfl rfl (Nat.le_refl _) ⟨rfl, rfl⟩,
      .nearer rfl (rank_lt_of_pc rfl rfl rfl rfl (by rw [hp]; exact Nat.lt_succ_self 1))⟩
  | read fail hopen hp =>
    obtain rfl : fail = none := by cases fail <;> first | rfl | cases hw
    obtain rfl := Handle.opened.inj (hr.symm.trans hopen)
    rename_i len limit size
    generalize hq : r.readAt s.log len limit size none = q at hstep
    obtain ⟨r', x⟩ := q
    obtain ⟨n, hpos, hle, rfl⟩ := h.readAt hp hq
    refine ⟨⟨rfl, rfl, rfl⟩, _, h.next hw hstep rfl rfl (Nat.le_refl _) ⟨rfl, rfl⟩, .nearer rfl ?_⟩
    have hleft := left_add h.at.gen hle
    simp only [Sys.rank, Pc.rank, hp]
    show 8 * (s.left ⟨r.cursor.generation, r.cursor.offset + n⟩ + (s.log.generation - r.cursor.generation)) + _ + 4 < _
    rw [← hleft]
    split <;> split <;> omega

/-- A call goes on unless it waits for an open log. -/
theorem Ready.enabled (h : Ready s r) :
    s.pc.waits = true ∧ s.log.closed = false ∨ ∃ e s', e.reads = true ∧ s.step e = some s' := by
  have hr := h.reader
  have hlive : (s.done || s.canceled) = false := by simp [h.live]
  cases hp : s.pc with
  | idle =>
    exact .inr ⟨.call 1 false, { s with pc := .top 1 false }, rfl, by simp [Sys.step, Sys.logStep, Sys.readerStep, hr, hp]⟩
  | top len sized =>
    exact .inr ⟨.section, s.turn r len sized, rfl, by simp [Sys.step, Sys.logStep, Sys.readerStep, hr, hp, h.live]⟩
  | opening len limit size =>
    refine .inr ⟨.openFile none, ?_⟩
    cases ho : r.openFile s.log none with
    | mk r' err => cases err <;> exact ⟨_, rfl, by simp [Sys.step, Sys.logStep, Sys.readerStep, hr, hp, ho]; rfl⟩
  | reading len limit size =>
    exact .inr ⟨.readAt none, _, rfl, by simp [Sys.step, Sys.logStep, Sys.readerStep, hr, hp]; rfl⟩
  | waiting len sized c =>
    cases hc : s.log.closed with
    | false => exact .inl ⟨rfl, rfl⟩
    | true =>
      have hne := Nat.ne_of_gt ((h.backed.waits len sized c hp).2 hc)
      exact .inr ⟨.wake, { s with pc := .top len sized }, rfl, by simp [Sys.step, Sys.logStep, Sys.readerStep, hp, hne]⟩

/-- The reader stands at the end of the log and has delivered everything up to there. -/
structure Drained (s u : Sys) : Prop where
  unmoved : Unmoved s u
  all : u.delivered = between s.bytes s.start.generation s.start.offset s.end.generation s.end.offset

theorem Unmoved.trans {t u : Sys} (h : Unmoved s t) (h' : Unmoved t u) : Unmoved s u :=
  ⟨h'.log.trans h.log, h'.wrote.trans h.wrote, h'.start.trans h.start⟩

theorem Unmoved.bytes (h : Unmoved s s') : s'.bytes = s.bytes := by
  funext g
  simp only [Sys.bytes, h.wrote]

theorem Unmoved.end (h : Unmoved s s') : s'.end = s.end := by simp only [Sys.end, h.log, h.wrote]

theorem Ready.drained {u : Sys} (h : Ready u r) (hm : Unmoved s u) (hc : r.cursor = s.end) : Drained s u := by
  refine ⟨hm, ?_⟩
  rw [(h.inv.sound r h.reader).got, hm.bytes, hm.start, hc]

/-- From between two calls a reader gets to the end of the log by calling. -/
theorem Ready.drains (h : Ready s r) (hidle : s.pc = .idle) :
    ∃ es u, machine.run (fun _ e => e.reads) s es = some u ∧ Drained s u := by
  refine machine.exists_run (fun n u => ∃ r, Ready u r ∧ u.rank r = n ∧ Unmoved s u ∧ u.pc.waits = false) _ ?_
    ⟨r, h, rfl, ⟨rfl, rfl, rfl⟩, by rw [hidle]; rfl⟩
  rintro n u ⟨r, hu, rfl, hm, hp⟩
  right
  rcases hu.enabled with ⟨hw, -⟩ | ⟨e, u', hw, he⟩
  · rw [hp] at hw
    cases hw
  obtain ⟨hm', r', hu', hn⟩ := hu.reads hw he
  refine ⟨e, u', hw, he, ?_⟩
  cases hn with
  | nearer hp' hlt => exact .inr ⟨_, hlt, r', hu', rfl, hm.trans hm', hp'⟩
  | ended hc hend | waits hc hend => exact .inl (hu'.drained (hm.trans hm') (hend.trans hm.end))

end Ghostline.Output
