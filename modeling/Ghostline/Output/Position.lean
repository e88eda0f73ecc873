/-
  Ghostline.Output.Position — where a reader stands in the record of its log.

  `Placed`: the reader's cursor, its limit and the stretch a call in progress was
  promised all lie inside what the log was given. It holds in every run. `Later` is
  what the log's own operations can do to a state as far as a reader can tell, and
  `chunk` says what a file read returns: a stretch of the record at the cursor.
-/

import Ghostline.Lib.Segments
import Ghostline.Output.Turn

namespace Ghostline.Output

open LocalOutputSource

structure At (s : Sys) (r : LocalOutputSource) : Prop where
  own : r.file = true → r.fileGen = r.cursor.generation
  pos : 0 < r.cursor.generation
  gen : r.cursor.generation ≤ s.log.generation
  off : r.cursor.offset ≤ (s.wrote r.cursor.generation).length
  limit : r.file = true → r.fileLimit ≤ (s.wrote r.cursor.generation).length

/-- What a call in progress may rely on. -/
def CallAt (s : Sys) (r : LocalOutputSource) : Prop :=
  match s.pc with
  | .idle => True
  | .top len _ => 0 < len
  | .waiting len _ _ => 0 < len
  | .opening len limit _ => 0 < len ∧ 0 < limit ∧ r.cursor.offset + limit ≤ r.fileLimit ∧
      r.fileLimit ≤ (s.wrote r.cursor.generation).length
  | .reading len limit _ => 0 < len ∧ 0 < limit ∧ r.cursor.offset + limit ≤ r.fileLimit ∧ r.file = true

def HandleAt (s : Sys) : Prop :=
  match s.reader with
  | .none => s.results = [] ∧ s.pc = .idle
  | .resolved c limit _ => s.results = [] ∧ s.pc = .idle ∧ 0 < c.generation ∧ c.generation ≤ s.log.generation ∧
      c.offset ≤ limit ∧ limit ≤ (s.wrote c.generation).length
  | .opened r => At s r ∧ CallAt s r

structure Placed (s : Sys) : Prop where
  keeps : Keeps s.log s.wrote
  handle : HandleAt s

theorem init_placed {s : Sys} (h : s.Init) : Placed s := by
  obtain ⟨files, linked, generation, create, l, hb, hl, rfl⟩ := h
  exact ⟨keeps_open hb hl, rfl, rfl⟩

variable {s s' : Sys} {r r' : LocalOutputSource}

theorem Placed.opened (h : Placed s) (hr : s.reader = .opened r) : At s r ∧ CallAt s r := by
  have := h.handle
  rw [HandleAt, hr] at this
  exact this

theorem Placed.resolved (h : Placed s) {c : Cursor} {limit : Nat} {complete : Bool}
    (hr : s.reader = .resolved c limit complete) :
    s.results = [] ∧ s.pc = .idle ∧ 0 < c.generation ∧ c.generation ≤ s.log.generation ∧
      c.offset ≤ limit ∧ limit ≤ (s.wrote c.generation).length := by
  have := h.handle
  rw [HandleAt, hr] at this
  exact this

/-- A generation whose file opens by its path is still indexed. -/
theorem indexed_of_linked (hk : Keeps s.log s.wrote) {g : Nat} (h0 : 0 < g) (hg : g ≤ s.log.generation)
    (hl : s.log.linked g = true) : s.log.segments g ≠ none := by
  intro hn
  have := hk.entries g h0 hg hl
  rw [hn] at this
  cases this

/-! ## The log moves on -/

/-- What the log's operations leave of a state as far as a reader can tell. -/
structure Later (s s' : Sys) : Prop where
  keeps : Keeps s'.log s'.wrote
  gen : s.log.generation ≤ s'.log.generation
  past : ∀ g, g < s.log.generation → s'.wrote g = s.wrote g
  grows : ∀ g, s.wrote g <+: s'.wrote g
  gone : ∀ g, g ≤ s.log.generation → s'.log.segments g = none → s'.wrote g = s.wrote g
  closed : s.log.closed = true → s'.log.closed = true ∧ s'.log.generation = s.log.generation ∧ s'.wrote = s.wrote
  rest : s'.reader = s.reader ∧ s'.start = s.start ∧ s'.pc = s.pc ∧ s'.results = s.results

theorem Later.len (h : Later s s') (g : Nat) : (s.wrote g).length ≤ (s'.wrote g).length := (h.grows g).length_le

/-- A step that gives the log nothing: the record stays. -/
theorem later_of_kept (hk : Keeps s'.log s'.wrote) (hw : s'.wrote = s.wrote)
    (hg : s.log.generation ≤ s'.log.generation)
    (hc : s.log.closed = true → s'.log.closed = true ∧ s'.log.generation = s.log.generation)
    (hr : s'.reader = s.reader ∧ s'.start = s.start ∧ s'.pc = s.pc ∧ s'.results = s.results) : Later s s' := by
  refine ⟨hk, hg, fun g _ => by rw [hw], fun g => ?_, fun g _ _ => by rw [hw], fun h => ⟨(hc h).1, (hc h).2, hw⟩, hr⟩
  exact hw ▸ List.prefix_refl _

theorem append_later (hk : Keeps s.log s.wrote) (data : List Byte) (w : OutputLog.Write) :
    Later s { s with
      log := (s.log.append data w).1
      wrote := if (s.log.append data w).2 = none then extend s.wrote s.log.generation data (s.force.getD 0)
        else s.wrote } := by
  have hk' := hk.append data w (s.force.getD 0)
  rcases append_cases s.log data w with ⟨he, hd | ⟨hc, hn⟩⟩ | ⟨hc, hd, n, m, hw, hn, he⟩ | ⟨hc, hd, hn, he⟩
  · subst hd
    exact later_of_kept hk' (by simp) (by simp only [he]; exact Nat.le_refl _) (fun h => by simp only [he]; exact ⟨h, trivial⟩)
      ⟨rfl, rfl, rfl, rfl⟩
  · exact later_of_kept hk' (by simp [hn]) (by simp only [he]; exact Nat.le_refl _)
      (fun h => by simp only [he]; exact ⟨h, trivial⟩) ⟨rfl, rfl, rfl, rfl⟩
  · exact later_of_kept hk' (by simp [hn]) (by simp only [he]; exact Nat.le_refl _)
      (fun h => by rw [hc] at h; cases h) ⟨rfl, rfl, rfl, rfl⟩
  · -- the one case in which the record grows, at its end
    have hgen : (s.log.append data w).1.generation = s.log.generation := by rw [he]; rfl
    rw [if_pos hn] at hk' ⊢
    refine ⟨hk', by simp only; omega, fun g hg => extend_ne _ _ (by omega), fun g => ?_, fun g _ hg => ?_,
      (fun h => by rw [hc] at h; cases h), rfl, rfl, rfl, rfl⟩
    · by_cases e : g = s.log.generation
      · subst e; simp only [extend_self]; exact List.prefix_append _ _
      · simp only [extend_ne _ _ e]; exact List.prefix_refl _
    · apply extend_ne
      rintro rfl
      have := hk'.active
      rw [hgen] at this
      rw [show (s.log.append data w).1.segments s.log.generation = none from hg] at this
      cases this

theorem log_later {e : Ev} (hk : Keeps s.log s.wrote) (h : s.logStep e = some s') : Later s s' := by
  have hm := logStep_move hk.bound h
  have hgen := hm.generation_le
  have hclosed : s.log.closed = true → s'.log.closed = true ∧ s'.log.generation = s.log.generation := by
    intro hc
    rw [hm.of_closed hc]
    exact ⟨hc, rfl⟩
  cases logStep_inv h with
  | append data w =>
    exact append_later hk data w
  | rotate fail =>
    exact later_of_kept (hk.rotate fail) rfl hgen hclosed ⟨rfl, rfl, rfl, rfl⟩
  | @prune before order rm _ =>
    exact later_of_kept (hk.pruned (prune_spec s.log before order rm)) rfl hgen hclosed ⟨rfl, rfl, rfl, rfl⟩
  | markSize size =>
    exact later_of_kept (hk.markSize size) rfl hgen hclosed ⟨rfl, rfl, rfl, rfl⟩
  | close err =>
    exact later_of_kept (hk.close (by cases err <;> simp)) rfl hgen hclosed ⟨rfl, rfl, rfl, rfl⟩

theorem log_unindexed {e : Ev} (hk : Keeps s.log s.wrote) (h : s.logStep e = some s') {g : Nat}
    (hs : s.log.segments g ≠ none) (hn : s'.log.segments g = none) :
    ∃ before order rm, e = .prune before order rm ∧ s'.log = (s.log.prune before order rm).1 :=
  (logStep_move hk.bound h).unindexed hs hn

theorem later_at (hl : Later s s') (h : At s r) : At s' r :=
  ⟨h.own, h.pos, Nat.le_trans h.gen hl.gen, Nat.le_trans h.off (hl.len _), fun hf => Nat.le_trans (h.limit hf) (hl.len _)⟩

theorem later_placed (h : Placed s) (hl : Later s s') : Placed s' := by
  obtain ⟨hr, -, hpc, hres⟩ := hl.rest
  refine ⟨hl.keeps, ?_⟩
  unfold HandleAt
  rw [hr, hres, hpc]
  cases hrd : s.reader with
  | none =>
    have := h.handle
    rw [HandleAt, hrd] at this
    exact this
  | resolved c limit complete =>
    obtain ⟨h1, h2, h3, h4, h5, h6⟩ := h.resolved hrd
    exact ⟨h1, h2, h3, Nat.le_trans h4 hl.gen, h5, Nat.le_trans h6 (hl.len _)⟩
  | opened r =>
    obtain ⟨h1, h2⟩ := h.opened hrd
    refine ⟨later_at hl h1, ?_⟩
    unfold CallAt at h2 ⊢
    rw [hpc]
    cases hp : s.pc with
    | opening len limit size =>
      rw [hp] at h2
      exact ⟨h2.1, h2.2.1, h2.2.2.1, Nat.le_trans h2.2.2.2 (hl.len _)⟩
    | _ => rw [hp] at h2; exact h2

/-! ## The reader moves on -/

theorem refresh_le (hk : Keeps s.log s.wrote) (h : At s r) (hs : Served r s.log) :
    (r.refresh s.log).fileLimit ≤ (s.wrote r.cursor.generation).length := by
  cases hn : s.log.segments r.cursor.generation with
  | some n => rw [refresh_limit_some r _ hn]; exact Nat.le_of_eq (hk.index _ _ hn).1
  | none =>
    rw [refresh_limit_none r _ hn]
    rcases hs with hs | ⟨hs, -⟩
    · rw [hn] at hs; cases hs
    · simp only [pins, Bool.and_eq_true] at hs
      exact h.limit hs.1

theorem same_at (hk : Keeps s.log s.wrote) (h : At s r) (hs : Same s.log r r') (hlog : s'.log = s.log)
    (hw : s'.wrote = s.wrote) : At s' r' := by
  refine ⟨fun hf => ?_, ?_, ?_, ?_, fun hf => ?_⟩
  · rw [(hs.file hf).2, hs.cursor]; exact h.own (hs.file hf).1
  · rw [hs.cursor]; exact h.pos
  · rw [hs.cursor, hlog]; exact h.gen
  · rw [hs.cursor, hw]; exact h.off
  · rw [hs.cursor, hw]
    have hle := h.limit (hs.file hf).1
    rcases hs.limit with e | e
    · rw [e]; exact hle
    · rw [e]
      cases hn : s.log.segments r.cursor.generation with
      | some n => rw [refresh_limit_some r _ hn]; exact Nat.le_of_eq (hk.index _ _ hn).1
      | none => rw [refresh_limit_none r _ hn]; exact hle

/-- What a file read returns: a stretch of what the generation was given, at the cursor. -/
theorem chunk (h : Placed s) (hr : s.reader = .opened r) {len limit : Nat} {size : Size}
    (hp : s.pc = .reading len limit size) (fail : Option (Nat × String)) {x : Result}
    (hq : r.readAt s.log len limit size fail = (r', x)) :
    r' = { r with cursor := ⟨r.cursor.generation, r.cursor.offset + x.bytes.length⟩ } ∧ x.size = size ∧
      x.bytes = ((s.bytes r.cursor.generation).drop r.cursor.offset).take x.bytes.length ∧
      x.bytes.length ≤ limit ∧ r.cursor.offset + limit ≤ (s.wrote r.cursor.generation).length ∧
      x.err ≠ some .eof ∧ (x.bytes = [] → x.err ≠ none) := by
  obtain ⟨hat, hcall⟩ := h.opened hr
  simp only [CallAt, hp] at hcall
  obtain ⟨hlen, hlim, hle, hf⟩ := hcall
  have hmax := hat.limit hf
  have hpre : s.bytes r.cursor.generation <+: s.log.files r.fileGen := hat.own hf ▸ h.keeps.content _
  have hlen' : (s.bytes r.cursor.generation).length = (s.wrote r.cursor.generation).length := by simp [Sys.bytes]
  obtain ⟨h1, h2, hb, hbl, h3⟩ := readAt_spec r s.log len limit size fail hlen hlim
    (by have := hpre.length_le; omega) hq
  refine ⟨h1, h2, ?_, hbl, by omega, h3⟩
  exact hb.trans (Lib.Segments.stretch_within hpre (by omega))

/-- A cursor that resolves lies in an indexed generation. -/
theorem resolve_range {l : OutputLog} {wrote : Wrote} (hk : Keeps l wrote) {c c' : Cursor}
    (h : l.resolveCursorLocked c = .ok c') :
    0 < c'.generation ∧ c'.generation ≤ l.generation ∧ c'.offset ≤ (l.segments c'.generation).getD 0 ∧
      (l.segments c'.generation).getD 0 ≤ (wrote c'.generation).length := by
  -- each branch that succeeds has an index entry at hand
  have hin : ∀ g n, l.segments g = some n → 0 < g ∧ g ≤ l.generation ∧ (l.segments g).getD 0 = n ∧
      n ≤ (wrote g).length := by
    intro g n hn
    obtain ⟨h1, h2, h3⟩ := hk.index g n hn
    exact ⟨h2, h3, by rw [hn]; rfl, by omega⟩
  unfold OutputLog.resolveCursorLocked at h
  split at h
  · obtain rfl := Except.ok.inj h
    have hsome : ∃ n, l.segments l.earliest = some n := by
      unfold OutputLog.earliest
      cases hf : (List.range l.generation).find? fun g => (l.segments g).isSome with
      | none => exact ⟨_, hk.size⟩
      | some g => exact Option.isSome_iff_exists.mp (by simpa using List.find?_some hf)
    obtain ⟨n, hn⟩ := hsome
    obtain ⟨h1, h2, h3, h4⟩ := hin _ n hn
    exact ⟨h1, h2, Nat.zero_le _, h3 ▸ h4⟩
  · split at h
    · cases h
    · split at h
      · split at h <;> cases h
      · rename_i size hn
        split at h
        · cases h
        · obtain rfl := Except.ok.inj h
          obtain ⟨h1, h2, h3, h4⟩ := hin _ size hn
          exact ⟨h1, h2, by omega, h3 ▸ h4⟩

theorem kept_at (h : At s r) (hlog : s'.log = s.log) (hw : s'.wrote = s.wrote) : At s' r :=
  ⟨h.own, h.pos, by rw [hlog]; exact h.gen, by rw [hw]; exact h.off, by rw [hw]; exact h.limit⟩

/-- Without an index entry a file is opened only where one is pinned. -/
theorem At.pinned_file (hat : At s r) (hk : Keeps s.log s.wrote)
    (ho : r.pins = true ∨ s.log.linked r.cursor.generation = true)
    (hn : s.log.segments r.cursor.generation = none) : r.file = true := by
  rcases ho with hpins | hlinked
  · simp only [pins, Bool.and_eq_true] at hpins
    exact hpins.1
  · exact absurd hn (indexed_of_linked hk hat.pos hat.gen hlinked)

theorem reader_placed {e : Ev} (h : Placed s) (he : ReaderMove s e s') : Placed s' := by
  have hk := h.keeps
  cases he with
  | resolved hr herr hc =>
    have hh := h.handle
    rw [HandleAt, hr] at hh
    exact ⟨hk, hh.1, hh.2, resolve_range hk hc⟩
  | notPinned hr =>
    obtain ⟨h1, h2, -⟩ := h.resolved hr
    exact ⟨hk, h1, h2⟩
  | pinned hr hl =>
    obtain ⟨-, h2, h3, h4, h5, h6⟩ := h.resolved hr
    refine ⟨hk, ⟨fun _ => rfl, h3, h4, Nat.le_trans h5 h6, fun _ => h6⟩, ?_⟩
    simp only [CallAt, h2]
  | begun hr hp hlen =>
    refine ⟨hk, ?_⟩
    simp only [HandleAt, hr]
    exact ⟨kept_at (h.opened hr).1 rfl rfl, hlen⟩
  | nothing hr hsame hb hsz hne => exact ⟨hk, same_at hk (h.opened hr).1 hsame rfl rfl, trivial⟩
  | @reported r len sized size hr hp hs he h0 =>
    refine ⟨hk, ?_, trivial⟩
    have hat : At s (r.refresh s.log) := same_at hk (h.opened hr).1 (same_refresh _ _) rfl rfl
    exact ⟨hat.own, hat.pos, hat.gen, hat.off, hat.limit⟩
  | fetched hr hp hs hlim hle he hrep hb =>
    obtain ⟨hat, hcall⟩ := h.opened hr
    simp only [CallAt, hp] at hcall
    refine ⟨hk, same_at hk hat (same_refresh _ _) rfl rfl, hcall, hlim, by simpa using hle, ?_⟩
    simpa using refresh_le hk hat hs
  | advanced hr hp hs hlt hle =>
    obtain ⟨hat, hcall⟩ := h.opened hr
    simp only [CallAt, hp] at hcall
    exact ⟨hk, ⟨fun hf => (by cases hf), Nat.succ_pos _, hlt, Nat.zero_le _, fun hf => (by cases hf)⟩, hcall⟩
  | ended hr hp hs hc hge hle => exact ⟨hk, same_at hk (h.opened hr).1 (same_refresh _ _) rfl rfl, trivial⟩
  | waits hr hp =>
    obtain ⟨hat, hcall⟩ := h.opened hr
    simp only [CallAt, hp] at hcall
    exact ⟨hk, same_at hk hat (same_refresh _ _) rfl rfl, hcall⟩
  | fileOpened hr hp ho =>
    obtain ⟨hat, hcall⟩ := h.opened hr
    simp only [CallAt, hp] at hcall
    obtain ⟨h1, h2, h3, h4⟩ := hcall
    exact ⟨hk, ⟨fun _ => rfl, hat.pos, hat.gen, hat.off, fun _ => h4⟩, h1, h2, h3, rfl⟩
  | @fileRead r len limit size fail hr hp =>
    obtain ⟨hat, -⟩ := h.opened hr
    generalize hq : r.readAt s.log len limit size fail = q
    obtain ⟨r', x⟩ := q
    obtain ⟨rfl, -, -, hbl, hmax, -⟩ := chunk h hr hp fail hq
    refine ⟨hk, ⟨hat.own, hat.pos, hat.gen, ?_, hat.limit⟩, trivial⟩
    show r.cursor.offset + x.bytes.length ≤ (s.wrote r.cursor.generation).length
    omega
  | woken hp =>
    refine ⟨hk, ?_⟩
    have hh := h.handle
    unfold HandleAt at hh ⊢
    simp only
    cases hr : s.reader with
    | none => rw [hr, hp] at hh; cases hh.2
    | resolved c limit complete => rw [hr, hp] at hh; cases hh.2.1
    | opened r =>
      obtain ⟨hat, hcall⟩ := h.opened hr
      simp only [CallAt, hp] at hcall
      exact ⟨kept_at hat rfl rfl, hcall⟩
  | closedIdle hr hp =>
    refine ⟨hk, same_at hk (h.opened hr).1 (same_closeFile _ _) rfl rfl, ?_⟩
    simp only [CallAt, hp]
  | closedBusy hr =>
    refine ⟨hk, ?_⟩
    obtain ⟨hat, hcall⟩ := h.opened hr
    simp only [HandleAt, hr]
    exact ⟨kept_at hat rfl rfl, hcall⟩
  | canceled =>
    refine ⟨hk, ?_⟩
    have hh := h.handle
    unfold HandleAt at hh ⊢
    simp only
    cases hr : s.reader with
    | none | resolved c limit complete => rw [hr] at hh; exact hh
    | opened r =>
      obtain ⟨hat, hcall⟩ := h.opened hr
      exact ⟨kept_at hat rfl rfl, hcall⟩

theorem step_placed {e : Ev} (h : Placed s) (he : s.step e = some s') : Placed s' := by
  rcases step_cases he with he | he
  · exact later_placed h (log_later h.keeps he)
  · exact reader_placed h he

end Ghostline.Output
