/-
  Ghostline.Output.Moves — everything a call of a reader can return (`Yields`).

  `Backed` is what the log and its reader may rely on in every run: an indexed generation has its file
  in the directory, a stored error is the text of a failure and stands in a closed log, and
  a reader that waits holds a channel that was current when it looked, so that closing the
  log has woken it.
-/

import Ghostline.Output.Issued

namespace Ghostline.Output

open OutputLog LocalOutputSource

variable {s s' : Sys} {r : LocalOutputSource} {e : Ev}

/-! ## The log -/

theorem LogMove.linked {l l' : OutputLog} (h : LogMove l e l') (ha : (l.segments l.generation).isSome = true)
    (hi : ∀ g, l.segments g ≠ none → l.linked g = true) : ∀ g, l'.segments g ≠ none → l'.linked g = true := by
  intro g hg
  cases h with
  | refused | failed | marked | shut => exact hi g hg
  | appended hc hd =>
    by_cases hne : g = l.generation
    · subst hne
      exact hi _ (Option.isSome_iff_ne_none.mp ha)
    · simp only [signalLocked, Function.update_of_ne hne] at hg
      exact hi g hg
  | rotated =>
    simp only [signalLocked] at hg ⊢
    by_cases hne : g = l.generation + 1
    · rw [hne, Function.update_self]
    · rw [Function.update_of_ne hne] at hg ⊢
      exact hi g hg
  | @pruned before order rm =>
    rcases (prune_spec l before order rm).entry g with ⟨h1, h2⟩ | ⟨-, h1, -⟩
    · rw [h2]; exact hi g (h1 ▸ hg)
    · exact absurd h1 hg

/-! ## The reader -/

/-- What a call can return, by the event that ends it. -/
inductive Yields (s : Sys) (r : LocalOutputSource) : Ev → Result → Prop
  | empty {sized : Bool} : s.pc = .idle → Yields s r (.call 0 sized) ⟨[], 0, none⟩
  | expired {len : Nat} {sized : Bool} : s.pc = .top len sized → ¬ Served r s.log →
      Yields s r .section (errorResult (.sentinel .cursorExpired))
  | reported {len : Nat} {sized : Bool} {size : Size} : s.pc = .top len sized → Yields s r .section ⟨[], size, none⟩
  | ended {len : Nat} {sized : Bool} : s.pc = .top len sized → s.log.closed = true →
      s.log.generation ≤ r.cursor.generation → (r.refresh s.log).fileLimit ≤ r.cursor.offset →
      Yields s r .section (errorResult (s.log.err.getD .eof))
  | notOpened {len limit : Nat} {size : Size} {fail : Option String} {err : Err} : s.pc = .opening len limit size →
      r.pins = false → openErr s.log r.cursor.generation fail = some err → Yields s r (.openFile fail) (errorResult err)
  | read {len limit : Nat} {size : Size} (fail : Option (Nat × String)) : s.pc = .reading len limit size →
      Yields s r (.readAt fail) (r.readAt s.log len limit size fail).2
  | closed : s.done = true → Yields s r (.stop true) (errorResult .closedPipe)
  | canceled : s.canceled = true → Yields s r (.stop false) (errorResult .canceled)

/-- A step returns nothing, or one answer. -/
inductive Returns (s : Sys) (e : Ev) (s' : Sys) : Prop
  | silent : s'.results = s.results → Returns s e s'
  | answers {r : LocalOutputSource} {x : Result} {c : Cursor} : s.reader = .opened r → Yields s r e x →
      s'.results = s.results ++ [⟨x, r.cursor, c⟩] → Returns s e s'

theorem turn_returns {len : Nat} {sized : Bool} (hr : s.reader = .opened r) (hp : s.pc = .top len sized) :
    Returns s .section (s.turn r len sized) := by
  unfold Sys.turn
  generalize ht : r.lockSection s.log sized = q
  obtain ⟨r', t⟩ := q
  rcases lockSection_cases r s.log ht with ⟨rfl, rfl, hn⟩ | ⟨size, rfl, rfl, -⟩ | ⟨limit, size, rfl, rfl, -⟩ |
    ⟨rfl, rfl, -⟩ | ⟨rfl, rfl, -, hc, hg, hl⟩ | ⟨rfl, rfl, -⟩
  · exact .answers hr (.expired hp hn) rfl
  · exact .answers hr (.reported hp) rfl
  · exact .silent rfl
  · exact .silent rfl
  · exact .answers hr (.ended hp hc hg hl) rfl
  · exact .silent rfl

theorem openFile_failed {l : OutputLog} {fail : Option String} {r' : LocalOutputSource} {err : Err}
    (h : r.openFile l fail = (r', some err)) : r.pins = false ∧ openErr l r.cursor.generation fail = some err := by
  unfold openFile at h
  split at h
  · cases h
  · rename_i hp
    refine ⟨by simpa using hp, ?_⟩
    split at h
    · rename_i he
      rw [he, (Prod.mk.inj h).2]
    · cases h

theorem readerStep_returns (h : s.readerStep e = some s') : Returns s e s' := by
  cases readerStep_cases h with
  | empty hr hp => exact .answers hr (.empty hp) rfl
  | turn hr hp => exact turn_returns hr hp
  | notOpened _ hr hp ho =>
    obtain ⟨hn, herr⟩ := openFile_failed ho
    exact .answers hr (.notOpened hp hn herr) rfl
  | read fail hr hp => exact .answers hr (.read fail hp) rfl
  | stopClosed hr hd => exact .answers hr (.closed hd) rfl
  | stopCanceled hr hc => exact .answers hr (.canceled hc) rfl
  | resolve | notPinned | pinned | call | opened | wake | closeIdle | closeBusy | cancel => exact .silent rfl

theorem step_returns (hk : Keeps s.log s.wrote) (h : s.step e = some s') : Returns s e s' := by
  rcases step_split h with hl | hr
  · exact .silent (log_later hk hl).rest.2.2.2
  · exact readerStep_returns hr

/-! ## Every run -/

structure Backed (s : Sys) : Prop where
  placed : Placed s
  linked : ∀ g, s.log.segments g ≠ none → s.log.linked g = true
  failed : ∀ err, s.log.err = some err → s.log.closed = true ∧ ∃ m, err = .other m
  waits : ∀ len sized c, s.pc = .waiting len sized c →
    c ≤ s.log.changed ∧ (s.log.closed = true → c < s.log.changed)

theorem Backed.init (h : s.Init) : Backed s := by
  refine ⟨init_placed h, ?_, ?_, ?_⟩
  all_goals obtain ⟨files, linked, generation, create, l, hb, hl, rfl⟩ := h
  · intro g hg
    obtain ⟨n, hn⟩ := Option.ne_none_iff_exists'.mp hg
    have hs := (openOutputLog_ok hl).2.1
    have hn' : l.segments g = some n := hn
    rw [hs] at hn'
    exact (scan_some hn').2.2.1
  · intro err he
    have hnone : l.err = none := (openOutputLog_ok hl).2.2.2.2.1
    have he' : l.err = some err := he
    rw [hnone] at he'
    cases he'
  · intro len sized c hp
    cases hp

theorem LogMove.failed_text {l l' : OutputLog} (h : LogMove l e l')
    (hi : ∀ err, l.err = some err → l.closed = true ∧ ∃ m, err = .other m) :
    ∀ err, l'.err = some err → l'.closed = true ∧ ∃ m, err = .other m := by
  intro err he
  cases h with
  | refused | appended | rotated | marked => exact hi err he
  | @pruned before order rm hc =>
    have hp := prune_spec l before order rm
    rw [hp.err] at he
    exact hp.closed ▸ hi err he
  | failed hc =>
    refine ⟨rfl, ?_⟩
    -- an open log has no error yet
    cases hl : l.err with
    | none =>
      simp only [failLocked, signalLocked, hl, Option.getD_none, Option.some.injEq] at he
      exact ⟨_, he.symm⟩
    | some err' =>
      have := (hi err' hl).1
      rw [hc] at this
      cases this
  | @shut err' hc =>
    refine ⟨rfl, ?_⟩
    obtain ⟨m, -, rfl⟩ := Option.map_eq_some_iff.mp he
    exact ⟨m, rfl⟩

theorem LogMove.changed {l l' : OutputLog} (h : LogMove l e l') :
    l.changed ≤ l'.changed ∧ (l'.closed = true → l.closed = true ∨ l.changed < l'.changed) := by
  cases h with
  | refused => exact ⟨Nat.le_refl _, .inl⟩
  | failed | shut => exact ⟨Nat.le_succ _, fun _ => .inr (Nat.lt_succ_self _)⟩
  | appended | rotated => exact ⟨Nat.le_succ _, .inl⟩
  | pruned hc hp hle => exact ⟨hle, fun h => .inl ((prune_spec l _ _ _).closed ▸ h)⟩
  | marked hc hle => exact ⟨hle, .inl⟩

theorem Backed.log (h : Backed s) (he : s.logStep e = some s') : Backed s' := by
  have hk := h.placed.keeps
  have hm := logStep_move hk.bound he
  have hl := log_later hk he
  refine ⟨later_placed h.placed hl, hm.linked hk.active h.linked, hm.failed_text h.failed, fun len sized c hp => ?_⟩
  rw [hl.rest.2.2.1] at hp
  obtain ⟨h1, h2⟩ := h.waits len sized c hp
  obtain ⟨h3, h4⟩ := hm.changed
  refine ⟨Nat.le_trans h1 h3, fun hc => ?_⟩
  rcases h4 hc with hc | hlt
  · exact Nat.lt_of_lt_of_le (h2 hc) h3
  · exact Nat.lt_of_le_of_lt h1 hlt

/-- A turn waits at the end of an open log, on the channel of that moment. -/
theorem lockSection_wait {l : OutputLog} {sized : Bool} {r' : LocalOutputSource} {c : Nat}
    (h : r.lockSection l sized = (r', .wait c)) :
    c = l.changed ∧ l.closed = false ∧ l.generation ≤ r.cursor.generation ∧ (r.refresh l).fileLimit ≤ r.cursor.offset := by
  rcases lockSection_cases r l h with ⟨h1, -⟩ | ⟨_, h1, -⟩ | ⟨_, _, h1, -⟩ | ⟨h1, -⟩ | ⟨h1, -⟩ | ⟨h1, -, -, hw⟩
  case inr.inr.inr.inr.inr => exact ⟨Turn.wait.inj h1, hw⟩
  all_goals cases h1

/-- A reader comes to wait at the log's own channel, and only while the log is open. -/
theorem turn_waits {len len' c : Nat} {sized sized' : Bool}
    (hp : (s.turn r len' sized').pc = .waiting len sized c) : c = s.log.changed ∧ s.log.closed = false := by
  unfold Sys.turn at hp
  split at hp
  case h_6 r' c' ht =>
    obtain ⟨hc', hc, -⟩ := lockSection_wait ht
    cases hp
    exact ⟨hc', hc⟩
  all_goals cases hp

theorem readerStep_waits (h : s.readerStep e = some s') {len c : Nat} {sized : Bool}
    (hp : s'.pc = .waiting len sized c) : s.pc = .waiting len sized c ∨ c = s.log.changed ∧ s.log.closed = false := by
  cases readerStep_cases h with
  | turn _ _ => exact .inr (turn_waits hp)
  | resolve | notPinned | pinned | closeIdle | closeBusy | cancel => exact .inl hp
  | empty | call | notOpened | opened | read | wake | stopClosed | stopCanceled => cases hp

theorem Backed.step (h : Backed s) (he : s.step e = some s') : Backed s' := by
  rcases step_split he with hl | hr
  · exact h.log hl
  · have hlog := (readerStep_move hr).log_eq.1
    refine ⟨reader_placed h.placed (readerStep_move hr), hlog ▸ h.linked, hlog ▸ h.failed, fun len sized c hp => ?_⟩
    rw [hlog]
    rcases readerStep_waits hr hp with hp | ⟨rfl, hc⟩
    · exact h.waits len sized c hp
    · exact ⟨Nat.le_refl _, fun h => by rw [hc] at h; cases h⟩

theorem openErr_text {l : OutputLog} {g : Nat} {fail : Option String} {err : Err} (h : openErr l g fail = some err) :
    ∃ m, err = .other m := by
  unfold openErr at h
  split at h
  · exact ⟨_, (Option.some.inj h).symm⟩
  · split at h
    · cases h
    · exact ⟨_, (Option.some.inj h).symm⟩

/-- Without a failure of the operating system a read ends in `io.EOF` at worst. -/
theorem readAt_err (r : LocalOutputSource) (l : OutputLog) (len limit : Nat) (size : Size) :
    (r.readAt l len limit size none).2.err = none ∨ (r.readAt l len limit size none).2.err = some .eof := by
  unfold LocalOutputSource.readAt fileReadAt
  simp only
  by_cases hlt : ((l.files r.fileGen).drop r.cursor.offset |>.take (min len limit)).length < min len limit
  · simp only [hlt, if_true]
    split <;> simp
  · simp only [hlt, if_false]
    split <;> simp

theorem readAt_text (r : LocalOutputSource) (l : OutputLog) (len limit : Nat) (size : Size)
    (fail : Option (Nat × String)) {err : Err} (h : (r.readAt l len limit size fail).2.err = some err) :
    err = .eof ∨ ∃ m, err = .other m := by
  cases fail with
  | some f =>
    simp only [LocalOutputSource.readAt, fileReadAt, reduceCtorEq, Option.some.injEq, or_self, and_false, if_false] at h
    exact .inr ⟨_, h.symm⟩
  | none =>
    rcases readAt_err r l len limit size with he | he
    · rw [he] at h; cases h
    · rw [he] at h; exact .inl (Option.some.inj h).symm

/-- Where there is something to serve, no call says that the cursor expired. -/
theorem Yields.not_expired {x : Result} (h : Yields s r e x) (hb : Backed s) (hs : Served r s.log) :
    x.err ≠ some (.sentinel .cursorExpired) := by
  intro hx
  cases h with
  | empty | reported | closed | canceled => cases hx
  | expired _ hn => exact hn hs
  | ended =>
    cases herr : s.log.err with
    | none => simp [errorResult, herr] at hx
    | some err =>
      obtain ⟨-, m, rfl⟩ := hb.failed err herr
      simp [errorResult, herr] at hx
  | notOpened _ _ ho =>
    obtain ⟨m, rfl⟩ := openErr_text ho
    cases hx
  | read fail =>
    rcases readAt_text _ _ _ _ _ _ hx with hx | ⟨m, hx⟩ <;> cases hx

end Ghostline.Output
