/-
  Ghostline.Terminal.Status — what `ShellMetadata` says of the last command (terminal.go:
  `applyOSC133Locked`, `ShellMetadata`).

  A `Mark` is a marker as it was applied: a C with the command line that was on the screen
  then, a D with its status and its time. `report` is what the marks say of the most recent
  D: its status, its time, and the command of the last C since the D before.

  The command and the time are replaced at every D. The status is replaced only by a D that
  has one, so behind a D without a status that of an earlier command is reported
  (`a_status_goes_stale`). It is the right one exactly when the last D has a status, or none
  has (`status_is_fresh_iff`).
-/

import Ghostline.Terminal.Vt

namespace Ghostline.Terminal

open Query

/-! ## Marks -/

inductive Mark where
  /-- A or B. -/
  | prompt
  | command (text : List Char)
  | done (exit : Option Nat) (at_ : Int)
  deriving DecidableEq, Repr

def Mark.exit : Mark → Option Nat
  | .done exit _ => exit
  | _ => none

/-- The command of the last C since the last D. Marks are listed from the newest on. -/
def captured : List Mark → List Char
  | [] => []
  | .done _ _ :: _ => []
  | .command text :: _ => text
  | .prompt :: marks => captured marks

structure Report where
  exit : Option Nat
  at_ : Int
  command : List Char
  deriving DecidableEq, Repr

/-- The most recent D. -/
def report : List Mark → Option Report
  | [] => none
  | .done exit at_ :: marks => some ⟨exit, at_, captured marks⟩
  | _ :: marks => report marks

/-- `LastCommand`, `LastExitCode` and `LastExitAt` are those of the report. -/
def ShellMetadata.Describes (m : ShellMetadata) : Option Report → Prop
  | none => m.lastCommand = [] ∧ m.lastExitCode = none ∧ m.lastExitAt = none
  | some r => m.lastCommand = r.command ∧ m.lastExitCode = r.exit.map Int.ofNat ∧ m.lastExitAt = some r.at_

variable {ε : Type} (E : Emulator ε)

namespace VtTerminal

/-- The marker as it is applied to `v`. Other kinds than A to D are no marks. -/
def mark (v : VtTerminal ε) (now : Int) (span : Osc133Span) : Option Mark :=
  if span.kind = byte 'A' ∨ span.kind = byte 'B' then some .prompt
  else if span.kind = byte 'C' then some (.command (v.terminal.elim [] (captureInputLocked E)))
  else if span.kind = byte 'D' then some (.done span.exit now)
  else none

/-- The marks of `feedSpans`, in front of earlier ones. -/
def spanMarks (clock : Nat → Int) (data : List Byte) : Nat → List Osc133Span → VtTerminal ε → List Mark → List Mark
  | _, [], _, marks => marks
  | fed, span :: spans, v, marks =>
    let v := v.writeLocked E ((data.take span.end).drop fed)
    let marks := (v.mark E (clock span.end) span).toList ++ marks
    let v := v.applyOSC133Locked E (clock span.end) span
    spanMarks clock data span.end spans (v.refreshAtPromptLocked E) marks

def feedMarks (v : VtTerminal ε) (m : Moment) (data : List Byte) (marks : List Mark) : List Mark :=
  if v.terminal.isNone ∨ data = [] then marks else v.spanMarks E m.clock data 0 (findOSC133 data) marks

/-- The marks of successive calls. -/
def feedsMarks (folding : Folding) : VtTerminal ε → List (Moment × List Byte) → List Mark → List Mark
  | _, [], marks => marks
  | v, (m, data) :: rest, marks => feedsMarks folding (v.feed E folding m data) rest (v.feedMarks E m data marks)

end VtTerminal

/-! ## What the terminal keeps of them -/

/-- The newest status there is. -/
def newestStatus : List Mark → Option Nat
  | [] => none
  | mark :: marks => mark.exit.or (newestStatus marks)

/-- What the terminal says of the commands is what the marks say, but for the status. -/
structure Tracks (v : VtTerminal ε) (marks : List Mark) : Prop where
  seen : marks ≠ [] → v.semanticSeen = true
  running : v.runningCommand = captured marks
  command : v.lastCommand = ((report marks).map Report.command).getD []
  at_ : v.lastExitAt = (report marks).map Report.at_
  status : (if v.lastExitKnown then some v.lastExitCode else none) = (newestStatus marks).map Int.ofNat

variable {E} {folding : Folding} {v v' : VtTerminal ε} {marks : List Mark}

/-- Only the shell's state counts. -/
theorem Tracks.same (h : Tracks v marks) (hs : v.semanticSeen = true → v'.semanticSeen = true)
    (hr : v'.runningCommand = v.runningCommand) (hc : v'.lastCommand = v.lastCommand)
    (ha : v'.lastExitAt = v.lastExitAt) (hk : v'.lastExitKnown = v.lastExitKnown)
    (he : v'.lastExitCode = v.lastExitCode) : Tracks v' marks where
  seen hm := hs (h.seen hm)
  running := hr.trans h.running
  command := hc.trans h.command
  at_ := ha.trans h.at_
  status := by rw [hk, he]; exact h.status

theorem Tracks.write (h : Tracks v marks) (data : List Byte) : Tracks (v.writeLocked E data) marks := by
  unfold VtTerminal.writeLocked
  split
  · exact h
  · exact h.same id rfl rfl rfl rfl rfl

theorem Tracks.refreshAtPrompt (h : Tracks v marks) : Tracks (v.refreshAtPromptLocked E) marks := by
  unfold VtTerminal.refreshAtPromptLocked
  split
  · exact h
  · refine h.same (fun hs => ?_) rfl rfl rfl rfl rfl
    simp [hs]

theorem Tracks.refreshPwd (h : Tracks v marks) (hostname : List Byte) :
    Tracks (v.refreshReportedPwdLocked E folding hostname) marks :=
  h.same id rfl rfl rfl rfl rfl

/-- A D takes the command over; its status counts if it has one. -/
theorem Tracks.done (h : Tracks v marks) (exit : Option Nat) (now : Int) :
    Tracks { v with
      semanticSeen := true
      lastCommand := v.runningCommand
      runningCommand := []
      lastExitCode := exit.elim v.lastExitCode Int.ofNat
      lastExitKnown := exit.isSome || v.lastExitKnown
      lastExitAt := some now } (.done exit now :: marks) where
  seen _ := rfl
  running := rfl
  command := h.running
  at_ := rfl
  status := by
    cases exit with
    | none => exact h.status
    | some code => rfl

theorem Tracks.apply (h : Tracks v marks) (now : Int) (span : Osc133Span) :
    Tracks (v.applyOSC133Locked E now span) ((v.mark E now span).toList ++ marks) := by
  unfold VtTerminal.applyOSC133Locked VtTerminal.mark
  split
  · exact ⟨fun _ => rfl, h.running, h.command, h.at_, h.status⟩
  · split
    · exact ⟨fun _ => rfl, rfl, h.command, h.at_, h.status⟩
    · split
      · exact h.done span.exit now
      · exact h

theorem Tracks.spans (clock : Nat → Int) (data : List Byte) (spans : List Osc133Span) :
    ∀ (fed : Nat) (v : VtTerminal ε) (marks : List Mark), Tracks v marks →
      Tracks (VtTerminal.feedSpans E clock data fed spans v) (v.spanMarks E clock data fed spans marks) := by
  induction spans with
  | nil => exact fun fed v marks h => h.write _
  | cons span spans ih =>
    intro fed v marks h
    exact ih span.end _ _ ((h.write _).apply (clock span.end) span).refreshAtPrompt

theorem Tracks.feed (h : Tracks v marks) (m : Moment) (data : List Byte) :
    Tracks (v.feed E folding m data) (v.feedMarks E m data marks) := by
  unfold VtTerminal.feed VtTerminal.feedMarks
  split
  · exact h
  · exact ((Tracks.spans m.clock data (findOSC133 data) 0 v marks h).refreshPwd m.hostname).refreshAtPrompt

theorem Tracks.feeds (chunks : List (Moment × List Byte)) : ∀ (v : VtTerminal ε) (marks : List Mark), Tracks v marks →
    Tracks (v.feeds E folding chunks) (v.feedsMarks E folding chunks marks) := by
  induction chunks with
  | nil => exact fun v marks h => h
  | cons chunk chunks ih =>
    intro v marks h
    obtain ⟨m, data⟩ := chunk
    exact ih _ _ (h.feed m data)

theorem tracks_new {size : Size} (h : newVTTerminal E size = some v) : Tracks v [] := by
  unfold newVTTerminal at h
  split at h
  · cases h
  · obtain ⟨e, -, rfl⟩ := Option.map_eq_some_iff.mp h
    exact ⟨fun hn => absurd rfl hn, rfl, rfl, rfl, rfl⟩

/-! ## The status -/

theorem newestStatus_none : newestStatus marks = none ↔ ∀ mark ∈ marks, mark.exit = none := by
  induction marks with
  | nil => simp [newestStatus]
  | cons mark marks ih => simp [newestStatus, Option.or_eq_none_iff, ih]

theorem report_none (h : report marks = none) : ∀ mark ∈ marks, mark.exit = none := by
  induction marks with
  | nil => simp
  | cons mark marks ih =>
    cases mark with
    | done exit at_ => cases h
    | prompt | command text =>
      intro mark hm
      rcases List.mem_cons.mp hm with rfl | hm
      · rfl
      · exact ih h mark hm

/-- The status of the last D is the newest one, unless it is none. -/
theorem newestStatus_report {r : Report} (h : report marks = some r) (he : r.exit ≠ none) : newestStatus marks = r.exit := by
  induction marks with
  | nil => cases h
  | cons mark marks ih =>
    cases mark with
    | done exit at_ =>
      obtain rfl := Option.some.inj h
      cases exit with
      | none => exact absurd rfl he
      | some code => rfl
    | prompt | command text => exact ih h

/-- The last D has a status, or no D has one. -/
def Fresh (marks : List Mark) : Prop :=
  ∀ r, report marks = some r → r.exit = none → ∀ mark ∈ marks, mark.exit = none

theorem fresh_iff : Fresh marks ↔ newestStatus marks = (report marks).bind Report.exit := by
  unfold Fresh
  cases hr : report marks with
  | none => simp [newestStatus_none.mpr (report_none hr)]
  | some r =>
    cases he : r.exit with
    | none => simp [he, newestStatus_none]
    | some code => simp [he, newestStatus_report hr (by simp [he])]

theorem map_ofNat_injective : Function.Injective (Option.map Int.ofNat) :=
  Option.map_injective fun _ _ h => Int.ofNat.inj h

theorem Tracks.describes_iff (h : Tracks v marks) {m : ShellMetadata} (hm : v.shellMetadata = some m) :
    m.Describes (report marks) ↔ Fresh marks := by
  unfold VtTerminal.shellMetadata at hm
  split at hm
  · obtain rfl := Option.some.inj hm
    rw [fresh_iff, ← map_ofNat_injective.eq_iff, ← h.status]
    cases hr : report marks with
    | none | some r => simp [ShellMetadata.Describes, h.command, h.at_, hr]
  · cases hm

/-- After every run of chunks fed to a new terminal, with whatever markers: what the terminal
    reports of the last command is what the markers say exactly when the last D has a
    status or none has. -/
theorem status_is_fresh_iff {size : Size} (hv : newVTTerminal E size = some v) (chunks : List (Moment × List Byte)) :
    (v.feedsMarks E folding chunks [] ≠ [] → (v.feeds E folding chunks).shellMetadata ≠ none) ∧
    ((∀ m, (v.feeds E folding chunks).shellMetadata = some m → m.Describes (report (v.feedsMarks E folding chunks []))) ↔
      Fresh (v.feedsMarks E folding chunks [])) := by
  have ht : Tracks (v.feeds E folding chunks) (v.feedsMarks E folding chunks []) :=
    Tracks.feeds chunks v [] (tracks_new hv)
  have hsome : v.feedsMarks E folding chunks [] ≠ [] → (v.feeds E folding chunks).shellMetadata ≠ none := by
    intro hne
    simp [VtTerminal.shellMetadata, ht.seen hne]
  refine ⟨hsome, fun h => ?_, fun h m hm => (ht.describes_iff hm).mpr h⟩
  by_cases hne : v.feedsMarks E folding chunks [] = []
  · rw [hne]
    intro r hr
    cases hr
  · obtain ⟨m, hm⟩ := Option.ne_none_iff_exists'.mp (hsome hne)
    exact (ht.describes_iff hm).mp (h m hm)

/-! ## Instances -/

/-- A screen whose first row is a prompt with `ls` behind it. -/
def listing : Emulator Unit where
  new _ := some ()
  decode _ := some ()
  encode _ := some []
  format _ := some []
  write _ _ := ()
  pwd _ := none
  cursorAtPrompt _ := none
  cursorY _ := some 0
  rowSemantic _ _ := .prompt
  rowWrap _ _ := false
  cells _ _ := [⟨.prompt, .narrow, 36⟩, ⟨.input, .narrow, 108⟩, ⟨.input, .narrow, 115⟩]

def blankListing : VtTerminal Unit := ⟨some (), [], false, false, [], [], 0, false, none⟩

/-- The time is the number of bytes that were fed. -/
def ticking : Moment := ⟨[], Int.ofNat⟩

theorem blankListing_new : newVTTerminal listing ⟨80, 24⟩ = some blankListing := by rfl

def caseSensitive : Folding := ⟨fun a b => a == b, id⟩

/-- `ls` runs and ends with status 1. -/
def failedRun : List (Moment × List Byte) := [(ticking, bytes "\x1b]133;C\x07\x1b]133;D;1\x07")]

theorem failedRun_marks :
    blankListing.feedsMarks listing caseSensitive failedRun [] = [.done (some 1) 18, .command ['l', 's']] := by decide

theorem status_is_fresh_iff_failed : ∃ m, (blankListing.feeds listing caseSensitive failedRun).shellMetadata = some m ∧
    m.lastCommand = ['l', 's'] ∧ m.lastExitCode = some 1 ∧ m.lastExitAt = some 18 := by
  have h := @status_is_fresh_iff Unit listing caseSensitive blankListing ⟨80, 24⟩ blankListing_new failedRun
  rw [failedRun_marks] at h
  obtain ⟨m, hm⟩ := Option.ne_none_iff_exists'.mp (h.1 (by simp))
  have hfresh : Fresh [.done (some 1) 18, .command ['l', 's']] := by
    rintro r hr he
    obtain rfl := Option.some.inj hr
    cases he
  exact ⟨m, hm, h.2.mpr hfresh m hm⟩

/-- A second command ends without a status: its time is reported, with the status of the
    first. -/
theorem a_status_goes_stale :
    blankListing.feedsMarks listing caseSensitive (failedRun ++ [(ticking, bytes "\x1b]133;C\x07\x1b]133;D\x07")]) [] =
      [.done none 16, .command ['l', 's'], .done (some 1) 18, .command ['l', 's']] ∧
    (blankListing.feeds listing caseSensitive
      (failedRun ++ [(ticking, bytes "\x1b]133;C\x07\x1b]133;D\x07")])).shellMetadata =
      some ⟨false, [], ['l', 's'], some 1, some 16⟩ := by
  decide

end Ghostline.Terminal
