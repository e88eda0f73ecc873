/-
  Ghostline.Output.Retained — which generations a log still has.

  `prune` ranges over the index in the order Go's map gives and returns at the first file it
  cannot remove. The generations it removed by then are gone, whichever they are, so what is
  left may have a hole (`a_failed_prune_leaves_a_hole`), and a reader that comes to the hole
  is told that its cursor expired. Where every prune that fails has removed only generations
  older than those it leaves, the retained generations are an interval, and a reader opened
  at the zero cursor reads all of it (`retained_generations_are_contiguous`).
-/

import Ghostline.Output.Progress

namespace Ghostline.Output

open Lib.Segments
open OutputLog LocalOutputSource

variable {s s' t : Sys} {e : Ev} {l : OutputLog} {wrote : Wrote}

/-! ## Intervals -/

/-- From the first indexed generation on, all of them are indexed. -/
def OutputLog.Contiguous (l : OutputLog) : Prop :=
  ∀ g k, l.segments g ≠ none → g ≤ k → k ≤ l.generation → l.segments k ≠ none

theorem earliest_indexed (hk : Keeps l wrote) : l.segments l.earliest ≠ none := by
  unfold earliest
  cases hf : (List.range l.generation).find? fun g => (l.segments g).isSome with
  | none => exact Option.isSome_iff_ne_none.mp hk.active
  | some g => exact Option.isSome_iff_ne_none.mp (by simpa using List.find?_some hf)

theorem earliest_le {g : Nat} (hk : Keeps l wrote) (hg : l.segments g ≠ none) : l.earliest ≤ g := by
  have hle : g ≤ l.generation := by
    obtain ⟨n, hn⟩ := Option.ne_none_iff_exists'.mp hg
    exact (hk.index g n hn).2.2
  unfold earliest
  cases hf : (List.range l.generation).find? fun g => (l.segments g).isSome with
  | none =>
    rw [List.find?_eq_none] at hf
    have : ¬ g < l.generation := fun hlt =>
      hf g (List.mem_range.mpr hlt) (by simpa using Option.isSome_iff_ne_none.mpr hg)
    simp only [Option.getD_none]
    omega
  | some k =>
    obtain ⟨-, -, hmin⟩ := List.find?_range_eq_some.mp hf
    by_contra hlt
    simp only [Option.getD_some, Nat.not_le] at hlt
    exact absurd (hmin g hlt) (by simp [Option.isSome_iff_ne_none.mpr hg])

/-- The index as an interval. -/
theorem OutputLog.Contiguous.interval (h : l.Contiguous) (hk : Keeps l wrote) (g : Nat) :
    (l.segments g).isSome = true ↔ l.earliest ≤ g ∧ g ≤ l.generation := by
  rw [Option.isSome_iff_ne_none]
  constructor
  · intro hg
    obtain ⟨n, hn⟩ := Option.ne_none_iff_exists'.mp hg
    exact ⟨earliest_le hk hg, (hk.index g n hn).2.2⟩
  · rintro ⟨h1, h2⟩
    exact h _ g (earliest_indexed hk) h1 h2

/-! ## Pruning -/

/-- The generations a prune has to remove, in the order it comes to them. -/
def OutputLog.doomed (l : OutputLog) (before : Cursor) (order : List Nat) : List Nat :=
  order.filter fun g => decide (g < before.generation) && g != l.generation

/-- Those in front of the first whose file cannot be removed, and the rest. -/
def removed (rm : Nat → Option String) (doomed : List Nat) : List Nat := doomed.takeWhile fun g => (rm g).isNone
def remaining (rm : Nat → Option String) (doomed : List Nat) : List Nat := doomed.dropWhile fun g => (rm g).isNone

/-- The loop takes out of the index what it comes to in front of the first failure. -/
theorem pruneLoop_segments (before : Cursor) (rm : Nat → Option String) : ∀ (order : List Nat) (l : OutputLog) (g : Nat),
    (pruneLoop before.generation rm l order).1.segments g =
      if g ∈ removed rm (l.doomed before order) then none else l.segments g := by
  intro order
  induction order with
  | nil => intro l g; rfl
  | cons k rest ih =>
    intro l g
    simp only [pruneLoop]
    by_cases hk : before.generation ≤ k ∨ k = l.generation
    · have hskip : l.doomed before (k :: rest) = l.doomed before rest := by
        have : (decide (k < before.generation) && k != l.generation) = false := by
          rcases hk with hk | hk
          · simp [Nat.not_lt.mpr hk]
          · simp [hk]
        simp only [doomed, List.filter_cons, this, Bool.false_eq_true, if_false]
      rw [if_pos hk, hskip]
      exact ih l g
    · have htake : l.doomed before (k :: rest) = k :: l.doomed before rest := by
        have : (decide (k < before.generation) && k != l.generation) = true := by
          simp only [Bool.and_eq_true, decide_eq_true_eq, bne_iff_ne]
          omega
        simp only [doomed, List.filter_cons, this, if_true]
      rw [if_neg hk, htake]
      cases hrm : rm k with
      | some m => simp [removed, hrm]
      | none =>
        simp only [removed, List.takeWhile_cons, hrm, Option.isNone_none, if_true, List.mem_cons]
        rw [ih]
        show (if g ∈ removed rm (l.doomed before rest) then none else Function.update l.segments k none g) = _
        by_cases hgk : g = k
        · simp [hgk]
        · simp only [removed, Function.update_of_ne hgk, hgk, false_or]

/-- A prune refuses, or takes what its loop takes. -/
theorem prune_segments (l : OutputLog) (before : Cursor) (order : List Nat) (rm : Nat → Option String) :
    (l.prune before order rm).1.segments = l.segments ∨
    ∀ g, (l.prune before order rm).1.segments g =
      if g ∈ removed rm (l.doomed before order) then none else l.segments g := by
  have hloop := pruneLoop_segments before rm order l
  unfold prune
  split
  · exact .inl rfl
  split
  · exact .inl rfl
  split
  · exact .inl rfl
  right
  split
  · rename_i hp
    rw [hp] at hloop
    exact hloop
  · rename_i hp
    rw [hp] at hloop
    exact hloop

/-- Whenever the removal of a file fails, every generation removed before it is older than
    every one that the prune leaves undone. -/
def removesOldest (s : Sys) : Ev → Bool
  | .prune before order rm =>
    (removed rm (s.log.doomed before order)).all fun g => (remaining rm (s.log.doomed before order)).all fun k => g < k
  | _ => true

theorem mem_keys (hk : Keeps l wrote) {g : Nat} (hg : l.segments g ≠ none) : g ∈ l.keys := by
  obtain ⟨n, hn⟩ := Option.ne_none_iff_exists'.mp hg
  have := (hk.index g n hn).2.2
  simp only [keys, List.mem_filter, List.mem_range]
  exact ⟨by omega, by simp [hn]⟩

theorem prune_contiguous {before : Cursor} {order : List Nat} {rm : Nat → Option String} (hk : Keeps s.log s.wrote)
    (h : s.log.Contiguous) (hperm : order.Perm s.log.keys) (hok : removesOldest s (.prune before order rm) = true) :
    (s.log.prune before order rm).1.Contiguous := by
  have hgen := (prune_spec s.log before order rm).generation
  rcases prune_segments s.log before order rm with hs | hs
  · intro g k
    rw [hs, hgen]
    exact h g k
  · intro g k hg hgk hkl
    rw [hgen] at hkl
    rw [hs] at hg ⊢
    split at hg
    · exact absurd rfl hg
    rename_i hstays
    rw [if_neg]
    · exact h g k hg hgk hkl
    · -- were `k` removed, `g` would be among what is left undone, and older
      intro hrem
      simp only [removesOldest, List.all_eq_true, decide_eq_true_eq] at hok
      have hkd : k ∈ s.log.doomed before order := (List.takeWhile_prefix _).subset hrem
      simp only [doomed, List.mem_filter, Bool.and_eq_true, decide_eq_true_eq, bne_iff_ne] at hkd
      have hgd : g ∈ s.log.doomed before order := by
        simp only [doomed, List.mem_filter, Bool.and_eq_true, decide_eq_true_eq, bne_iff_ne]
        exact ⟨hperm.symm.subset (mem_keys hk hg), by omega, by omega⟩
      rw [← List.takeWhile_append_dropWhile (p := fun g => (rm g).isNone) (l := s.log.doomed before order),
        List.mem_append] at hgd
      have := hok k hrem g (hgd.resolve_left hstays)
      omega

/-! ## Every run -/

theorem LogMove.contiguous {l' : OutputLog} (h : LogMove l e l') (hi : l.Contiguous)
    (hprune : ∀ before order rm, e ≠ .prune before order rm) : l'.Contiguous := by
  cases h with
  | refused | failed | marked | shut => exact hi
  | pruned => exact absurd rfl (hprune _ _ _)
  | appended =>
    intro g k hg hgk hkl
    simp only [signalLocked] at hg hkl ⊢
    by_cases hk : k = l.generation
    · simp [hk]
    · rw [Function.update_of_ne hk]
      rw [Function.update_of_ne (by omega)] at hg
      exact hi g k hg hgk hkl
  | rotated =>
    intro g k hg hgk hkl
    simp only [signalLocked] at hg hkl ⊢
    by_cases hk : k = l.generation + 1
    · simp [hk]
    · rw [Function.update_of_ne hk]
      rw [Function.update_of_ne (by omega)] at hg
      exact hi g k hg hgk (by omega)

theorem step_contiguous (hk : Keeps s.log s.wrote) (h : s.log.Contiguous) (hok : removesOldest s e = true)
    (he : s.step e = some s') : s'.log.Contiguous := by
  rcases step_cases he with he | he
  · by_cases hprune : ∃ before order rm, e = .prune before order rm
    · obtain ⟨before, order, rm, rfl⟩ := hprune
      simp only [Sys.logStep, Option.ite_none_right_eq_some, Option.some.injEq] at he
      obtain ⟨hperm, rfl⟩ := he
      exact prune_contiguous hk h hperm hok
    · exact (logStep_move hk.bound he).contiguous h fun before order rm hp => hprune ⟨before, order, rm, hp⟩
  · rw [he.log_eq.1]
    exact h

/-- A log just created, or opened on a directory whose segment files are an interval. -/
def contiguousMachine : Lib.Machine Sys Ev where
  init s := machine.init s ∧ s.log.Contiguous
  step := Sys.step

theorem contiguous_reach (h : contiguousMachine.Reach removesOldest s) : Backed s ∧ s.log.Contiguous := by
  refine h.invariant (I := fun s => Backed s ∧ s.log.Contiguous) ?_ ?_
  · rintro s ⟨hi, hc⟩
    exact ⟨.init hi, hc⟩
  · rintro s e s' ⟨hb, hc⟩ hok he
    exact ⟨hb.step he, step_contiguous hb.placed.keeps hc hok he⟩

/-! ## Reading it all -/

theorem resolve_indexed (hk : Keeps l wrote) {c c' : Cursor} (h : l.resolveCursorLocked c = .ok c') :
    l.segments c'.generation ≠ none := by
  unfold resolveCursorLocked at h
  split at h
  · obtain rfl := Except.ok.inj h
    exact earliest_indexed hk
  · split at h
    · cases h
    · split at h
      · split at h <;> cases h
      · rename_i hn
        split at h
        · cases h
        · obtain rfl := Except.ok.inj h
          rw [hn]
          exact Option.some_ne_none _

/-- Where the reader stands once it has looked into the index. -/
def Sys.standing (s : Sys) : Option Cursor :=
  match s.reader with
  | .none => none
  | .resolved c _ _ => some c
  | .opened r => some r.cursor

/-- No prune runs, and the reader is not opened anew. -/
def undisturbed (_ : Sys) : Ev → Bool
  | .prune .. => false
  | .resolve _ => false
  | _ => true

/-- A reader opened at `c` on an interval of generations that nobody prunes. -/
structure Unpruned (c : Cursor) (s : Sys) : Prop where
  inv : Inv s
  backed : Backed s
  contiguous : s.log.Contiguous
  indexed : ∀ at', s.standing = some at' → s.log.segments at'.generation ≠ none
  opens : ∀ at' limit complete, s.reader = .resolved at' limit complete → at' = c
  start : ∀ r, s.reader = .opened r → s.start = c
  results : ∀ x ∈ s.results, x.result.err ≠ some (.sentinel .cursorExpired)

theorem readAt_generation (r : LocalOutputSource) (l : OutputLog) (len limit : Nat) (size : Size)
    (fail : Option (Nat × String)) : (r.readAt l len limit size fail).1.cursor.generation = r.cursor.generation := by
  unfold LocalOutputSource.readAt
  simp only
  split <;> rfl

/-- The reader comes to stand in a generation that is indexed: it moves on from one to the
    next only, and there is no hole between them. -/
theorem ReaderMove.indexed (h : ReaderMove s e s') (hk : Keeps s.log s.wrote) (hc : s.log.Contiguous)
    (hi : ∀ at', s.standing = some at' → s.log.segments at'.generation ≠ none) :
    ∀ at', s'.standing = some at' → s.log.segments at'.generation ≠ none := by
  have stays : ∀ {r : LocalOutputSource} {at' : Cursor}, s.reader = .opened r → at'.generation = r.cursor.generation →
      s.log.segments at'.generation ≠ none := by
    intro r at' hr hg
    rw [hg]
    exact hi r.cursor (by simp [Sys.standing, hr])
  intro at' hat
  cases h with
  | resolved hr herr hc' =>
    obtain rfl := Option.some.inj hat
    exact resolve_indexed hk hc'
  | notPinned => cases hat
  | pinned hr => exact hi at' (by simpa [Sys.standing, hr, LocalOutputSource.pinned] using hat)
  | nothing hr hsame =>
    obtain rfl := Option.some.inj hat
    exact stays hr (by rw [hsame.cursor])
  | reported hr | fetched hr | ended hr | waits hr =>
    obtain rfl := Option.some.inj hat
    exact stays hr (by simp)
  | advanced hr hp hs hlt =>
    obtain rfl := Option.some.inj hat
    exact hc _ _ (stays hr rfl) (Nat.le_succ _) hlt
  | fileOpened hr | closedIdle hr =>
    obtain rfl := Option.some.inj hat
    exact stays hr rfl
  | fileRead fail hr =>
    obtain rfl := Option.some.inj hat
    exact stays hr (readAt_generation _ _ _ _ _ _)
  | begun | woken | closedBusy | canceled => exact hi at' hat

/-- Only a reader that is pinned gets a place to start at. -/
theorem ReaderMove.begins (h : ReaderMove s e s') :
    (∀ r', s'.reader = .opened r' → (∃ r, s.reader = .opened r ∧ s'.start = s.start) ∨
      ∃ c limit complete, s.reader = .resolved c limit complete ∧ s'.start = c) ∧
    (∀ c limit complete, s'.reader = .resolved c limit complete →
      s.reader = .resolved c limit complete ∨ ∃ c', e = .resolve c') := by
  cases h with
  | resolved => exact ⟨fun _ hr => (by cases hr), fun _ _ _ _ => .inr ⟨_, rfl⟩⟩
  | notPinned => exact ⟨fun _ hr => (by cases hr), fun _ _ _ hr => (by cases hr)⟩
  | pinned hr => exact ⟨fun _ _ => .inr ⟨_, _, _, hr, rfl⟩, fun _ _ _ hr => (by cases hr)⟩
  | begun hr | closedBusy hr =>
    exact ⟨fun _ _ => .inl ⟨_, hr, rfl⟩, fun _ _ _ h => .inl h⟩
  | nothing hr | reported hr | fetched hr | advanced hr | ended hr | waits hr | fileOpened hr | closedIdle hr =>
    exact ⟨fun _ _ => .inl ⟨_, hr, rfl⟩, fun _ _ _ h => (by cases h)⟩
  | fileRead fail hr => exact ⟨fun _ _ => .inl ⟨_, hr, rfl⟩, fun _ _ _ h => (by cases h)⟩
  | woken | canceled => exact ⟨fun r' hr => .inl ⟨r', hr, rfl⟩, fun _ _ _ h => .inl h⟩

theorem Unpruned.step {c : Cursor} (h : Unpruned c s) (hok : undisturbed s e = true) (he : s.step e = some s') :
    Unpruned c s' := by
  have hk := h.inv.placed.keeps
  have hcur : prunesCurrent s e = true := by cases e <;> first | rfl | cases hok
  have hold : removesOldest s e = true := by cases e <;> first | rfl | cases hok
  have hresults : ∀ x ∈ s'.results, x.result.err ≠ some (.sentinel .cursorExpired) := by
    cases step_returns hk he with
    | silent hres => rw [hres]; exact h.results
    | @answers r x c' hr hy hres =>
      intro y hy'
      rw [hres, List.mem_append, List.mem_singleton] at hy'
      rcases hy' with hy' | rfl
      · exact h.results y hy'
      · have hindexed := h.indexed r.cursor (by simp [Sys.standing, hr])
        exact hy.not_expired h.backed (.inl (Option.isSome_iff_ne_none.mpr hindexed))
  have hinv := step_inv h.inv hcur he
  have hb := h.backed.step he
  have hc := step_contiguous hk h.contiguous hold he
  rcases step_cases he with hl | hm
  · obtain ⟨hr, hs, -⟩ := (log_later hk hl).rest
    refine ⟨hinv, hb, hc, fun at' hat => ?_, ?_, ?_, hresults⟩
    · have hat' : s.standing = some at' := by simpa [Sys.standing, hr] using hat
      intro hn
      obtain ⟨before, order, rm, rfl, -⟩ := log_unindexed hk hl (h.indexed at' hat') hn
      cases hok
    · rw [hr]; exact h.opens
    · rw [hr, hs]; exact h.start
  · obtain ⟨hbegin, hresolve⟩ := hm.begins
    refine ⟨hinv, hb, hc, ?_, fun at' limit complete hr => ?_, fun r' hr => ?_, hresults⟩
    · rw [hm.log_eq.1]
      exact hm.indexed hk h.contiguous h.indexed
    · rcases hresolve _ _ _ hr with hr | ⟨c', rfl⟩
      · exact h.opens _ _ _ hr
      · cases hok
    · rcases hbegin r' hr with ⟨r, hr, hs⟩ | ⟨c', limit, complete, hr, hs⟩
      · rw [hs]; exact h.start r hr
      · rw [hs]; exact h.opens _ _ _ hr

/-- A reader just opened at the zero cursor. -/
theorem Unpruned.opened (hb : Backed s) (hc : s.log.Contiguous) (he : s.step (.resolve 0) = some s') :
    Unpruned ⟨s.log.earliest, 0⟩ s' := by
  have hk := hb.placed.keeps
  have hr : s.reader = .none ∧
      s' = { s with
        reader := .resolved ⟨s.log.earliest, 0⟩ ((s.log.segments s.log.earliest).getD 0)
          (decide (s.log.earliest < s.log.generation)) } := by
    simp only [Sys.step, Sys.logStep, Sys.readerStep, Option.orElse_none] at he
    split at he
    · rename_i c hr herr hres
      obtain rfl : ⟨s.log.earliest, 0⟩ = c := by simpa [resolveCursorLocked] using hres
      exact ⟨hr, (Option.some.inj he).symm⟩
    · cases he
  obtain ⟨hr, rfl⟩ := hr
  have hempty : s.results = [] := by
    have := hb.placed.handle
    rw [HandleAt, hr] at this
    exact this.1
  have hnone : ∀ x ∈ s.results, False := by rw [hempty]; simp
  refine ⟨⟨step_placed hb.placed he, fun r hr => (by cases hr), fun x hx => (hnone x hx).elim⟩, hb.step he, hc,
    fun at' hat => ?_, fun at' limit complete hat => ?_, fun r hr => (by cases hr), fun x hx => (hnone x hx).elim⟩
  · obtain rfl := Option.some.inj hat
    exact earliest_indexed hk
  · exact (Handle.resolved.inj hat).1.symm

/-- The keys of the index are the interval from the earliest retained generation to the
    active one; and a reader opened at the zero cursor is, while no further prune runs, never
    told that its cursor expired, and reads by calling on to the end of the log. -/
theorem retained_generations_are_contiguous (h : contiguousMachine.Reach removesOldest s) :
    (∀ g, (s.log.segments g).isSome = true ↔ s.log.earliest ≤ g ∧ g ≤ s.log.generation) ∧
    ∀ s₁ es t, s.step (.resolve 0) = some s₁ → machine.run undisturbed s₁ es = some t →
      (∀ x ∈ t.results, x.result.err ≠ some (.sentinel .cursorExpired)) ∧
      ∀ r, t.reader = .opened r → t.pc = .idle → t.done = false → t.canceled = false →
        ∃ es u, machine.run (fun _ e => e.reads) t es = some u ∧ u.log = t.log ∧
          u.delivered = between t.bytes s.log.earliest 0 t.log.generation (t.wrote t.log.generation).length := by
  obtain ⟨hb, hc⟩ := contiguous_reach h
  refine ⟨hc.interval hb.placed.keeps, fun s₁ es t hopen hrun => ?_⟩
  have ht : Unpruned ⟨s.log.earliest, 0⟩ t :=
    machine.run_stable (fun _ _ _ hi hok he => hi.step hok he) (.opened hb hc hopen) hrun
  refine ⟨ht.results, fun r hr hp hd hcan => ?_⟩
  have hready : Ready t r := by
    refine ⟨ht.inv, ht.backed, hr, fun g hg hle => ?_, hd, hcan⟩
    exact ht.contiguous _ g (ht.indexed r.cursor (by simp [Sys.standing, hr])) hg hle
  obtain ⟨es', u, hrun', hdr⟩ := hready.drains hp
  refine ⟨es', u, hrun', hdr.unmoved.log, ?_⟩
  rw [hdr.all, ht.start r hr, Sys.end]

theorem created_contiguous : contiguousMachine.init (Sys.fresh created) := by
  refine ⟨created_init, fun g k hg hgk hkl => ?_⟩
  have h1 : g = 1 := by
    by_contra hne
    apply hg
    simp only [Sys.fresh, created, scan]
    rw [if_neg]
    omega
  have hk : k = 1 := Nat.le_antisymm hkl (h1 ▸ hgk)
  rw [hk]
  decide

/-- Three generations; the removal of the first fails after the second has gone. -/
def failedPrune : List Ev :=
  [.append [97] .full, .rotate none, .append [98] .full, .rotate none, .append [99] .full,
    .prune ⟨3, 0⟩ [2, 1, 3] (fun g => if g = 1 then some "operation not permitted" else none)]

/-- A reader is pinned, reads the first generation and goes on. -/
def readOn : List Ev :=
  [.pin none, .call 8 false, .section, .openFile none, .readAt none, .call 8 false, .section, .section]

/-- Generations 1 and 3 are left, and a reader opened at the zero cursor, with no prune after
    it, is told behind the first that its cursor expired. -/
theorem a_failed_prune_leaves_a_hole : ∃ s s₁ t : Sys, machine.Reach Lib.Machine.always s ∧
    (s.log.earliest = 1 ∧ s.log.generation = 3 ∧ s.log.segments 2 = none) ∧
    s.step (.resolve 0) = some s₁ ∧ machine.run undisturbed s₁ readOn = some t ∧
    t.results.map (fun x => x.result.err) = [none, some (.sentinel .cursorExpired)] := by
  have hrun : (machine.run Lib.Machine.always (Sys.fresh created) failedPrune).any (fun s =>
      decide (s.log.earliest = 1 ∧ s.log.generation = 3 ∧ s.log.segments 2 = none) &&
      (s.step (.resolve 0)).any fun s₁ => (machine.run undisturbed s₁ readOn).any fun t =>
        decide (t.results.map (fun x => x.result.err) = [none, some (.sentinel .cursorExpired)])) = true := by
    decide
  obtain ⟨s, hs, h⟩ := (Option.any_eq_true _ _).mp hrun
  simp only [Bool.and_eq_true, decide_eq_true_eq] at h
  obtain ⟨s₁, hs₁, h₁⟩ := (Option.any_eq_true _ _).mp h.2
  obtain ⟨t, ht, hres⟩ := (Option.any_eq_true _ _).mp h₁
  exact ⟨s, s₁, t, machine.run_reach (.init created_init) hs, h.1, hs₁, ht, of_decide_eq_true hres⟩

/-- A prune that fails too, but behind the oldest generation: the first has gone and the
    others stay. -/
def oldestFirst : List Ev :=
  [.append [97] .full, .rotate none, .append [98] .full, .rotate none, .append [99] .full,
    .prune ⟨3, 0⟩ [1, 2, 3] (fun g => if g = 2 then some "operation not permitted" else none)]

theorem retained_generations_are_contiguous_failed : ∃ s, contiguousMachine.Reach removesOldest s ∧
    (s.log.segments 1 = none ∧ s.log.earliest = 2) ∧
    (∀ g, (s.log.segments g).isSome = true ↔ s.log.earliest ≤ g ∧ g ≤ s.log.generation) := by
  obtain ⟨s, hs, h⟩ := contiguousMachine.exists_reach removesOldest created_contiguous oldestFirst
    (P := fun s => s.log.segments 1 = none ∧ s.log.earliest = 2) (by decide)
  exact ⟨s, hs, h, (retained_generations_are_contiguous hs).1⟩

end Ghostline.Output
