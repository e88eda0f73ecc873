/-
  Ghostline.Output.Issued — what becomes of a cursor that was handed out.

  A cursor comes from `outputLog.cursor`, from `rotate` or from a reader's `Cursor()`. Each of
  them lies in what the log was given (`Within`), and what a log was given only grows; so the
  cursor stays valid for as long as its generation is indexed, and expires with it. A
  generation that has left the index never comes back.

  A file ends at `maxInt64`: the offsets of the operating system are signed 64 bit numbers.
  `fileMachine` is the machine of a log and a reader where no file gets longer.
-/

import Ghostline.Output.Position

namespace Ghostline.Output

open OutputLog

variable {s s' t : Sys} {c : Cursor}

/-! ## The machine -/

def Sys.fits (s : Sys) : Bool := decide ((s.log.files s.log.generation).length ≤ maxInt64)

def fileMachine : Lib.Machine Sys Ev where
  init s := machine.init s ∧ ∀ g, (s.log.files g).length ≤ maxInt64
  step s e := (s.step e).filter Sys.fits

theorem fileMachine_step {e : Ev} (h : fileMachine.step s e = some s') :
    s.step e = some s' ∧ (s'.log.files s'.log.generation).length ≤ maxInt64 := by
  obtain ⟨h1, h2⟩ := Option.filter_eq_some_iff.mp h
  exact ⟨h1, by simpa [Sys.fits] using h2⟩

/-! ## Cursors handed out -/

/-- A call that returns now returns this cursor. -/
inductive Sys.Issues (s : Sys) (c : Cursor) : Prop
  | current : s.log.cursor = .ok c → Issues s c
  | rotated {l : OutputLog} {fail : Option String} : s.log = (l.rotate fail).1 → (l.rotate fail).2 = .ok c → Issues s c
  | reader {r : LocalOutputSource} : s.reader = .opened r → r.cursor = c → Issues s c

/-- The cursor lies in what the log was given. -/
structure Within (s : Sys) (c : Cursor) : Prop where
  pos : 0 < c.generation
  gen : c.generation ≤ s.log.generation
  off : c.offset ≤ (s.wrote c.generation).length

theorem rotate_ok {l : OutputLog} {fail : Option String} (h : (l.rotate fail).2 = .ok c) :
    (l.rotate fail).1.generation = c.generation ∧ 0 < c.generation ∧ c.offset = 0 := by
  unfold rotate at h ⊢
  split at h
  · cases h
  · simp only at h ⊢
    split at h
    · cases h
    · split at h
      · cases h
      · rename_i hc h0 hl
        cases fail with
        | some m => cases h
        | none =>
          cases h
          simp only [hc, h0, hl, if_false, Bool.false_eq_true]
          exact ⟨rfl, Nat.pos_of_ne_zero h0, trivial⟩

theorem Placed.issues (h : Placed s) (hc : s.Issues c) : Within s c := by
  have hpos : 0 < s.log.generation := (h.keeps.index _ _ h.keeps.size).2.1
  cases hc with
  | current hc =>
    unfold cursor at hc
    split at hc
    · cases hc
    · cases hc
      rw [h.keeps.size]
      exact ⟨hpos, Nat.le_refl _, Nat.le_refl _⟩
  | rotated hl hr =>
    obtain ⟨hg, hp, ho⟩ := rotate_ok hr
    exact ⟨hp, Nat.le_of_eq (by rw [hl, hg]), by rw [ho]; exact Nat.zero_le _⟩
  | reader hr hc =>
    have hat := (h.opened hr).1
    rw [← hc]
    exact ⟨hat.pos, hat.gen, hat.off⟩

/-! ## Later on -/

/-- What a step leaves of the log. -/
structure Passes (s s' : Sys) : Prop where
  gen : s.log.generation ≤ s'.log.generation
  grows : ∀ g, (s.wrote g).length ≤ (s'.wrote g).length
  /-- The other generations are given nothing. -/
  kept : ∀ g, g ≠ s'.log.generation → s'.wrote g = s.wrote g
  gone : ∀ g, g < s.log.generation → s.log.segments g = none → s'.log.segments g = none

/-- Only an append adds to the record, and it stays in its generation. -/
theorem log_wrote {e : Ev} (h : s.logStep e = some s') :
    s'.wrote = s.wrote ∨ s'.log.generation = s.log.generation := by
  cases logStep_inv h with
  | append data w =>
    right
    rcases append_cases s.log data w with ⟨he, -⟩ | ⟨-, -, n, m, -, -, he⟩ | ⟨-, -, -, he⟩ <;> rw [he] <;> rfl
  | rotate | prune | markSize | close => exact .inl rfl

theorem log_passes {e : Ev} (hk : Keeps s.log s.wrote) (h : s.logStep e = some s') : Passes s s' := by
  have hl := log_later hk h
  refine ⟨hl.gen, hl.len, fun g hg => ?_, fun g hg hs => (logStep_move hk.bound h).gone hg hs⟩
  rcases log_wrote h with hw | he
  · rw [hw]
  · rcases Nat.lt_or_gt_of_ne (he ▸ hg) with hlt | hgt
    · exact hl.past g hlt
    · rw [hk.future g hgt, hl.keeps.future g (he ▸ hgt)]

/-- A reader changes nothing in the log. -/
theorem ReaderMove.log_eq {e : Ev} (h : ReaderMove s e s') : s'.log = s.log ∧ s'.wrote = s.wrote := by
  cases h <;> exact ⟨rfl, rfl⟩

theorem step_passes {e : Ev} (hk : Keeps s.log s.wrote) (h : s.step e = some s') : Passes s s' := by
  rcases step_cases h with h | h
  · exact log_passes hk h
  · obtain ⟨h1, h2⟩ := h.log_eq
    refine ⟨?_, fun g => ?_, fun g _ => ?_, fun g _ hs => ?_⟩
    · exact Nat.le_of_eq (by rw [h1])
    · exact Nat.le_of_eq (by rw [h2])
    · rw [h2]
    · rw [h1]; exact hs

/-- The record fits the files. -/
structure Fits (s : Sys) : Prop where
  placed : Placed s
  size : ∀ g, (s.wrote g).length ≤ maxInt64

theorem Keeps.file_le {l : OutputLog} {wrote : Wrote} (hk : Keeps l wrote) (g : Nat) :
    (wrote g).length ≤ (l.files g).length := by
  have := (hk.content g).length_le
  simpa using this

theorem Fits.init (h : fileMachine.init s) : Fits s := by
  have hp := init_placed h.1
  exact ⟨hp, fun g => Nat.le_trans (hp.keeps.file_le g) (h.2 g)⟩

theorem Fits.step {e : Ev} (h : fileMachine.step s e = some s') (hi : Fits s) : Fits s' := by
  obtain ⟨h, hfits⟩ := fileMachine_step h
  have hp := step_placed hi.placed h
  refine ⟨hp, fun g => ?_⟩
  by_cases hg : g = s'.log.generation
  · rw [hg]
    exact Nat.le_trans (hp.keeps.file_le _) hfits
  · rw [(step_passes hi.placed.keeps h).kept g hg]
    exact hi.size g

theorem Fits.reach {ok : Sys → Ev → Bool} (h : fileMachine.Reach ok s) : Fits s :=
  h.invariant (fun _ => .init) fun _ _ _ hi _ h => hi.step h

/-! ## Resolving a cursor -/

/-- The generation is behind the active one and not indexed. -/
def Sys.Expired (s : Sys) (c : Cursor) : Prop :=
  0 < c.generation ∧ c.offset ≤ maxInt64 ∧ c.generation < s.log.generation ∧ s.log.segments c.generation = none

theorem expired_iff : s.log.resolveCursorLocked c = .error (.sentinel .cursorExpired) ↔ s.Expired c := by
  constructor
  · intro h
    unfold resolveCursorLocked at h
    split at h
    · cases h
    · split at h
      · cases h
      · rename_i h0 h1
        split at h
        · rename_i hn
          split at h
          · rename_i hlt
            exact ⟨by omega, by omega, hlt, hn⟩
          · cases h
        · split at h <;> cases h
  · rintro ⟨hp, ho, hg, hn⟩
    have h0 : c ≠ 0 := by
      rintro rfl
      exact absurd hp (by decide)
    have h1 : ¬ (c.generation = 0 ∨ maxInt64 < c.offset) := by omega
    simp only [resolveCursorLocked, h0, h1, hn, hg, if_false, if_true]

theorem Fits.resolve (hi : Fits s) (hc : Within s c) :
    s.log.resolveCursorLocked c = .ok c ∨ s.log.resolveCursorLocked c = .error (.sentinel .cursorExpired) := by
  have hk := hi.placed.keeps
  have hoff : c.offset ≤ maxInt64 := Nat.le_trans hc.off (hi.size _)
  cases hs : s.log.segments c.generation with
  | none =>
    refine .inr (expired_iff.mpr ⟨hc.pos, hoff, Nat.lt_of_le_of_ne hc.gen fun he => ?_, hs⟩)
    rw [he, hk.size] at hs
    cases hs
  | some n =>
    left
    have hn := (hk.index _ _ hs).1
    have hoff' := hc.off
    have h0 : c ≠ 0 := by
      rintro rfl
      exact absurd hc.pos (by decide)
    have h1 : ¬ (c.generation = 0 ∨ maxInt64 < c.offset) := by have := hc.pos; omega
    have h2 : ¬ n < c.offset := by omega
    simp only [resolveCursorLocked, h0, h1, hs, h2, if_false]

/-- A cursor that was handed out resolves, at any later time, to itself or to
    `ErrCursorExpired`; and a cursor that has expired stays expired. -/
theorem issued_cursors_stay_valid {es : List Ev} (h : fileMachine.Reach Lib.Machine.always s)
    (hr : fileMachine.run Lib.Machine.always s es = some t) :
    (s.Issues c → t.log.resolveCursorLocked c = .ok c ∨
      t.log.resolveCursorLocked c = .error (.sentinel .cursorExpired)) ∧
    (s.log.resolveCursorLocked c = .error (.sentinel .cursorExpired) →
      t.log.resolveCursorLocked c = .error (.sentinel .cursorExpired)) := by
  have hf := Fits.reach h
  refine ⟨fun hc => ?_, fun hc => ?_⟩
  · have hstays : Fits t ∧ Within t c := by
      refine fileMachine.run_stable (P := fun s => Fits s ∧ Within s c) ?_ ⟨hf, hf.placed.issues hc⟩ hr
      rintro s e s' ⟨hi, hw⟩ - hs
      have hp := step_passes hi.placed.keeps (fileMachine_step hs).1
      exact ⟨hi.step hs, hw.pos, Nat.le_trans hw.gen hp.gen, Nat.le_trans hw.off (hp.grows _)⟩
    exact hstays.1.resolve hstays.2
  · have hstays : Fits t ∧ t.Expired c := by
      refine fileMachine.run_stable (P := fun s => Fits s ∧ s.Expired c) ?_ ⟨hf, expired_iff.mp hc⟩ hr
      rintro s e s' ⟨hi, h1, h2, h3, h4⟩ - hs
      have hp := step_passes hi.placed.keeps (fileMachine_step hs).1
      exact ⟨hi.step hs, h1, h2, Nat.lt_of_lt_of_le h3 hp.gen, hp.gone _ h3 h4⟩
    exact expired_iff.mpr hstays.2

theorem created_fits : fileMachine.init (Sys.fresh created) := by
  refine ⟨created_init, fun g => ?_⟩
  have : (Sys.fresh created).log.files g = [] := by
    by_cases h : g = 1 <;> simp [Sys.fresh, created, h]
  rw [this]
  exact Nat.zero_le _

/-- A reader is opened and reads to the end of the first generation. -/
def readFirst : List Ev :=
  [.append [97, 98] .full, .resolve ⟨1, 0⟩, .pin none, .call 8 false, .section, .openFile none, .readAt none]

/-- The generation is completed and pruned. -/
def pruneFirst : List Ev := [.rotate none, .append [99] .full, .prune ⟨2, 0⟩ [1, 2] (fun _ => none)]

theorem issued_cursors_stay_valid_pruned : ∃ s t : Sys, fileMachine.Reach Lib.Machine.always s ∧ s.Issues ⟨1, 2⟩ ∧
    fileMachine.run Lib.Machine.always s pruneFirst = some t ∧
    t.log.resolveCursorLocked ⟨1, 2⟩ = .error (.sentinel .cursorExpired) := by
  have hrun : (fileMachine.run Lib.Machine.always (Sys.fresh created) readFirst).any (fun s =>
      decide (s.reader = .opened ⟨⟨1, 2⟩, 0, true, 1, 2, false⟩) &&
      (fileMachine.run Lib.Machine.always s pruneFirst).any fun t => decide (t.log.segments 1 = none)) = true := by
    decide
  obtain ⟨s, hs, h⟩ := (Option.any_eq_true _ _).mp hrun
  simp only [Bool.and_eq_true, decide_eq_true_eq] at h
  obtain ⟨t, ht, hgone⟩ := (Option.any_eq_true _ _).mp h.2
  have hreach := fileMachine.run_reach (.init created_fits) hs
  have hissued : s.Issues ⟨1, 2⟩ := .reader h.1 rfl
  refine ⟨s, t, hreach, hissued, ht, ?_⟩
  refine ((issued_cursors_stay_valid hreach ht).1 hissued).resolve_left fun hok => ?_
  -- a cursor that resolves has an index entry
  have hrange := (resolve_range (Fits.reach (fileMachine.run_reach hreach ht)).placed.keeps hok).2.2.1
  rw [of_decide_eq_true hgone] at hrange
  exact absurd hrange (by decide)

end Ghostline.Output
