/-
  Ghostline.Handoff.Meta — what the source says of a session when it hands it over (migrate.go:
  `sessionMetaLocked`), and the state the target builds from it (process.go:
  `adoptStateWithTerminal`).

  - Of an output log its directory, its generation and its error are kept; of a master only
    whether there is one.
  - Times are in nanoseconds. The wire has seconds.
  - `WaitErr` is the error value of `waitErr`: `process` is an `*exec.ExitError`, with the
    exit code and the name of the signal that ended the process.
  - The wire form of an exit leaves its empty fields out, and there is none for a session that
    is alive or that has ended without an error.

  An exit comes through (`exit_survives_iff`), but no exit does not: for a child that ended
  with status zero the target has nothing to go by and reports an unknown exit
  (`a_clean_exit_becomes_unknown`).
-/

import Ghostline.Types

namespace Ghostline.Handoff

/-! ## Exits -/

structure ExitError where
  code : Int
  signal : String
  unknown : Bool
  deriving DecidableEq, Repr

def ExitError.unrecorded : ExitError := ⟨-1, "", true⟩

inductive WaitErr where
  | success
  | exit (e : ExitError)
  | process (code : Int) (signal : Option String)
  | other (message : String)
  deriving DecidableEq, Repr

/-- An error as `Wait` returns it. -/
inductive Outcome where
  | success
  | exit (e : ExitError)
  | other (message : String)
  deriving DecidableEq, Repr

def convertExit : WaitErr → Outcome
  | .success => .success
  | .exit e => .exit e
  | .process code signal => .exit ⟨code, signal.getD "", false⟩
  | .other message => .other message

/-- The `*ExitError` an outcome is, if it is one. -/
def Outcome.exitError : Outcome → Option ExitError
  | .exit e => some e
  | _ => none

structure ExitMeta where
  code : Int
  signal : String
  unknown : Bool
  deriving DecidableEq, Repr

def exitMetaOf (err : WaitErr) : Option ExitMeta :=
  match err with
  | .success => none
  | err =>
    match (convertExit err).exitError with
    | some e => some ⟨e.code, e.signal, e.unknown⟩
    | none => some ⟨-1, "", true⟩

def ExitMeta.error (m : ExitMeta) : ExitError := ⟨m.code, m.signal, m.unknown⟩

/-- The JSON object of an exit: a field with its zero value is left out. -/
structure ExitWire where
  code : Int
  signal : Option String
  unknown : Option Bool
  deriving DecidableEq, Repr

def ExitMeta.encode (m : ExitMeta) : ExitWire :=
  ⟨m.code, if m.signal = "" then none else some m.signal, if m.unknown then some true else none⟩

def ExitWire.decode (w : ExitWire) : ExitMeta := ⟨w.code, w.signal.getD "", w.unknown.getD false⟩

theorem decode_encode (m : ExitMeta) : m.encode.decode = m := by
  obtain ⟨code, signal, unknown⟩ := m
  simp only [ExitMeta.encode, ExitWire.decode, ExitMeta.mk.injEq, true_and]
  constructor
  · split
    · rename_i h; rw [h]; rfl
    · rfl
  · cases unknown <;> rfl

/-! ## Sessions -/

structure OutputInfo where
  directory : String
  generation : Nat
  err : Option Err
  deriving DecidableEq, Repr

/-- The fields of a session state that the handoff and the handles read. -/
structure SessionState where
  name : String
  size : Size
  createdAt : Int
  pid : Int
  scrollbackMaxBytes : Nat
  output : OutputInfo
  done : Bool
  waitErr : WaitErr
  deriving DecidableEq, Repr

structure SessionMeta where
  name : String
  cols : Int
  rows : Int
  createdAt : Int
  pid : Int
  alive : Bool
  vtScrollbackMaxBytes : Nat
  outputDirectory : String
  outputGeneration : Nat
  exit : Option ExitWire
  deriving DecidableEq, Repr

def sessionMetaLocked (s : SessionState) : Except Err SessionMeta :=
  match s.output.err with
  | some e => .error e
  | none => .ok
    { name := s.name, cols := s.size.columns, rows := s.size.rows, createdAt := s.createdAt / 10 ^ 9, pid := s.pid,
      alive := !s.done, vtScrollbackMaxBytes := s.scrollbackMaxBytes, outputDirectory := s.output.directory,
      outputGeneration := s.output.generation,
      exit := if s.done then (exitMetaOf s.waitErr).map ExitMeta.encode else none }

def adoptStateWithTerminal (name : String) (master : Bool) (output : OutputInfo) (size : Size) (createdAt pid : Int)
    (exit : Option ExitError) (scrollbackMaxBytes : Nat) : SessionState :=
  { name := name, size := size, createdAt := createdAt, pid := pid, scrollbackMaxBytes := scrollbackMaxBytes,
    output := output, done := !master,
    waitErr := if master then .success else .exit (exit.getD .unrecorded) }

def resolveVTScrollbackMaxBytes (value fallback : Nat) : Nat := if value ≠ 0 then value else fallback

/-- The state the target builds, around the log it has opened: the source's, or a fresh one when
    that cannot be opened. -/
def adopt (adopted : SessionMeta) (directory : String) (generation defaultScrollback : Nat) : SessionState :=
  adoptStateWithTerminal adopted.name adopted.alive ⟨directory, generation, none⟩ ⟨adopted.cols, adopted.rows⟩
    (adopted.createdAt * 10 ^ 9) adopted.pid (adopted.exit.map fun w => w.decode.error)
    (resolveVTScrollbackMaxBytes adopted.vtScrollbackMaxBytes defaultScrollback)

/-! ## What a handle reports -/

structure Status where
  alive : Bool
  exit : Option ExitError
  deriving DecidableEq, Repr

/-- `status` of a handle whose session is the hub's current one. -/
def status (s : SessionState) : Except Err Status :=
  match s.output.err with
  | some e => .error e
  | none => .ok (if s.done then ⟨false, (convertExit s.waitErr).exitError⟩ else ⟨true, none⟩)

/-- `wait`: the error of the output joined with the exit; `none` while the session is alive. -/
def wait (s : SessionState) : Option (Option Err × Outcome) :=
  if s.done then some (s.output.err, convertExit s.waitErr) else none

/-! ## Exits survive -/

/-- The result recorded is an exit of the process: a non-zero code, a signal, or unknown. -/
def WaitErr.isExit : WaitErr → Bool
  | .exit _ | .process _ _ => true
  | _ => false

theorem convertExit_exit (e : ExitError) : convertExit (.exit e) = .exit e := rfl

theorem isExit_iff (w : WaitErr) : w.isExit = true ↔ ∃ e, convertExit w = .exit e := by
  cases w <;> simp [WaitErr.isExit, convertExit]

/-- What the target makes of the exit the wire has. -/
theorem exitMetaOf_error (w : WaitErr) :
    ((exitMetaOf w).map fun m => m.encode.decode.error).getD .unrecorded = (convertExit w).exitError.getD .unrecorded := by
  cases w <;> simp [exitMetaOf, convertExit, Outcome.exitError, decode_encode, ExitMeta.error, ExitError.unrecorded]

/-- For a session that has stopped: what the target's handle reports is what the source's
    did exactly when the result recorded is an exit. -/
theorem exit_survives_iff (s : SessionState) (m : SessionMeta) (directory : String) (generation scrollback : Nat)
    (hs : s.done = true) (hm : sessionMetaLocked s = .ok m) :
    status (adopt m directory generation scrollback) = status s ∧ wait (adopt m directory generation scrollback) = wait s ↔
      s.waitErr.isExit = true := by
  have herr : s.output.err = none := by
    cases h : s.output.err with
    | none => rfl
    | some e => simp [sessionMetaLocked, h] at hm
  simp only [sessionMetaLocked, herr, hs, if_true, Bool.not_true, Except.ok.injEq] at hm
  subst hm
  -- the target always has an exit to report
  have hexit := exitMetaOf_error s.waitErr
  simp only [adopt, adoptStateWithTerminal, status, wait, herr, hs, Option.map_map, Function.comp_def, hexit,
    Bool.not_false, Bool.false_eq_true, if_false, if_true, convertExit_exit]
  rw [isExit_iff]
  constructor
  · rintro ⟨-, h⟩
    exact ⟨_, by simpa using h.symm⟩
  · rintro ⟨e, he⟩
    simp [he, Outcome.exitError]

/-- A stopped session whose wait had the given result. -/
def stopped (w : WaitErr) : SessionState := ⟨"s", ⟨80, 24⟩, 1700000000000000000, 42, 0, ⟨"/out/s", 1, none⟩, true, w⟩

theorem exit_survives_iff_signal : ∃ m, sessionMetaLocked (stopped (.process (-1) (some "hangup"))) = .ok m ∧
    wait (adopt m "/out/s" 1 0) = some (none, .exit ⟨-1, "hangup", false⟩) := by
  refine ⟨_, rfl, ?_⟩
  exact ((exit_survives_iff (stopped (.process (-1) (some "hangup"))) _ "/out/s" 1 0 rfl rfl).mpr rfl).2

/-- The child ended with status zero; the target reports an unknown exit. -/
theorem a_clean_exit_becomes_unknown : ∃ m, sessionMetaLocked (stopped .success) = .ok m ∧
    status (stopped .success) = .ok ⟨false, none⟩ ∧ wait (stopped .success) = some (none, .success) ∧
    status (adopt m "/out/s" 1 0) = .ok ⟨false, some ⟨-1, "", true⟩⟩ ∧
    wait (adopt m "/out/s" 1 0) = some (none, .exit ⟨-1, "", true⟩) :=
  ⟨_, rfl, rfl, rfl, rfl, rfl⟩

end Ghostline.Handoff
