/-
  Ghostline.Handoff.Spool — the history of a v0 session (migrate_v0.go: `replayV0Spool`,
  `replayV0SpoolFile`; util.go: `validateName`).

  A v0 session has a live spool and compressed archives of it beside it, `spool.n.gz`. They
  are found with a pattern made of the spool's path, sorted, and read one after the other;
  each piece that is read goes to the terminal and to the new log.

  What is read is what is fed and what is appended (`replayFiles_serves`), so the history is
  right exactly if the pattern finds the archives and nothing else (`rebuilt_iff`), that is, if
  among the entries it is compared with it matches those (`v0_history_iff`). It does not
  always: a session's name may have characters in it that are special in a pattern, and the
  star also takes the name of another session (`the_pattern_is_not_the_spool`).
-/

import Mathlib.Data.List.Perm.Basic
import Ghostline.Lib.Decimal
import Ghostline.Lib.Glob
import Ghostline.Query.Responder

namespace Ghostline.Handoff.V0

open Lib Lib.Glob Lib.Decimal Query

/-! ## Names -/

inductive NameErr where
  | invalidSessionName (name : List Byte)
  deriving DecidableEq, Repr

def validateName (name : List Byte) : Except NameErr Unit :=
  if name = [] ∨ name = bytes "." ∨ name = bytes ".." ∨ byte '/' ∈ name ∨ byte '\\' ∈ name ∨ 0 ∈ name then
    .error (.invalidSessionName name)
  else .ok ()

/-! ## Replaying -/

/-- The size of the buffer. -/
def bufferSize : Nat := 256 * 1024

/-- How a file hands out its content, decompressed if it is an archive: reads without an error,
    and what comes with the error of the last one. -/
structure Reads where
  pieces : List (List Byte)
  last : List Byte
  fits : ∀ piece ∈ last :: pieces, piece.length ≤ bufferSize

def Reads.content (r : Reads) : List Byte := r.pieces.flatten ++ r.last

inductive Ending where
  | eof
  | failed
  deriving DecidableEq, Repr

/-- `os.Open`, and `gzip.NewReader` on an archive. -/
inductive Opened where
  | unopened
  | uncompressed
  | reads (r : Reads) (ending : Ending)

inductive Stat where
  | present
  | missing
  | failed
  deriving DecidableEq, Repr

inductive ReplayErr where
  | findArchives (err : BadPattern)
  | statSpool
  | openReplay (path : List Byte)
  | openCompressed (path : List Byte)
  | appendReplay (path : List Byte)
  | readReplay (path : List Byte)
  | canceled
  deriving DecidableEq, Repr

/-- What the terminal was fed and the log was given, in how many turns of the loop. -/
structure Sinks where
  fed : List Byte := []
  appended : List Byte := []
  turns : Nat := 0
  deriving DecidableEq, Repr

/-- The sinks, and the error a function returns. -/
abbrev Result := Sinks × Option ReplayErr

/-- An error is returned at once. -/
def Result.andThen (r : Result) (f : Sinks → Result) : Result :=
  match r.2 with
  | some _ => r
  | none => f r.1

/-- In which turn the context is canceled, and in which the log fails to append. -/
structure Env where
  canceled : Nat → Bool
  refuses : Nat → Bool

def Env.quiet : Env := ⟨fun _ => false, fun _ => false⟩

variable (env : Env)

/-- One turn: `ctx.Err()`, and a read that gave `data`. -/
def turn (path data : List Byte) (s : Sinks) : Result :=
  let next := { s with turns := s.turns + 1 }
  if env.canceled s.turns then (next, some .canceled)
  else if data = [] then (next, none)
  else if env.refuses s.turns then ({ next with fed := s.fed ++ data }, some (.appendReplay path))
  else ({ next with fed := s.fed ++ data, appended := s.appended ++ data }, none)

/-- The loop over the reads. -/
def replayReads (path last : List Byte) (ending : Ending) : List (List Byte) → Sinks → Result
  | [], s => (turn env path last s).andThen fun s =>
      (s, if ending = .eof then none else some (.readReplay path))
  | piece :: pieces, s => (turn env path piece s).andThen (replayReads path last ending pieces)

variable (opened : List Byte → Bool → Opened)

def replayV0SpoolFile (path : List Byte) (compressed : Bool) (s : Sinks) : Result :=
  match opened path compressed with
  | .unopened => (s, some (.openReplay path))
  | .uncompressed => (s, some (.openCompressed path))
  | .reads r ending => replayReads env path r.last ending r.pieces s

def replayFiles : List (List Byte × Bool) → Sinks → Result
  | [], s => (s, none)
  | item :: items, s => (replayV0SpoolFile env opened item.1 item.2 s).andThen (replayFiles items)

variable (tree : Tree) (stat : List Byte → Stat)

def replayV0Spool (spoolPath : List Byte) (s : Sinks) : Result :=
  match glob tree (spoolPath ++ bytes ".*.gz") with
  | .error err => (s, some (.findArchives err))
  | .ok archives =>
    let paths := (sortStrings archives).map (·, true)
    match stat spoolPath with
    | .present => replayFiles env opened (paths ++ [(spoolPath, false)]) s
    | .failed => (s, some .statSpool)
    | .missing => if paths = [] then (s, some .statSpool) else replayFiles env opened paths s

/-! ## What the sinks get -/

/-- Both sinks get a part of the content from its beginning on, and all of it if there is no
    error. Only where an append has failed the terminal has more than the log. -/
def Serves (content : List Byte) (s : Sinks) (r : Result) : Prop :=
  ∃ fed appended, r.1.fed = s.fed ++ fed ∧ r.1.appended = s.appended ++ appended ∧ appended <+: fed ∧ fed <+: content ∧
    (r.2 = none → fed = content ∧ appended = content) ∧
    ((∀ path, r.2 ≠ some (.appendReplay path)) → fed = appended)

variable {env opened tree stat} {path : List Byte} {s : Sinks}

/-- Nothing is served. -/
theorem Serves.none (content : List Byte) {s s' : Sinks} {err : ReplayErr} (hf : s'.fed = s.fed)
    (ha : s'.appended = s.appended) : Serves content s (s', some err) :=
  ⟨[], [], by simp [hf], by simp [ha], List.prefix_refl _, List.nil_prefix, nofun, fun _ => rfl⟩

/-- All of it is served. -/
theorem Serves.all {content : List Byte} {s s' : Sinks} (err : Option ReplayErr) (hf : s'.fed = s.fed ++ content)
    (ha : s'.appended = s.appended ++ content) : Serves content s (s', err) :=
  ⟨content, content, hf, ha, List.prefix_refl _, List.prefix_refl _, fun _ => ⟨rfl, rfl⟩, fun _ => rfl⟩

theorem Serves.andThen {a b : List Byte} {r : Result} {f : Sinks → Result} (h : Serves a s r)
    (hf : ∀ s, Serves b s (f s)) : Serves (a ++ b) s (r.andThen f) := by
  obtain ⟨fed, appended, hfed, happ, hle, hpre, hall, hsame⟩ := h
  unfold Result.andThen
  cases herr : r.2 with
  | some err =>
    refine ⟨fed, appended, hfed, happ, hle, hpre.trans (List.prefix_append _ _), ?_, hsame⟩
    intro hnone
    rw [herr] at hnone
    cases hnone
  | none =>
    obtain ⟨rfl, rfl⟩ := hall herr
    obtain ⟨fed', appended', hfed', happ', hle', hpre', hall', hsame'⟩ := hf r.1
    refine ⟨appended ++ fed', appended ++ appended', ?_, ?_, List.prefix_append_right_inj _ |>.mpr hle',
      List.prefix_append_right_inj _ |>.mpr hpre', ?_, ?_⟩
    · rw [hfed', hfed, List.append_assoc]
    · rw [happ', happ, List.append_assoc]
    · intro hnone
      obtain ⟨rfl, rfl⟩ := hall' hnone
      exact ⟨rfl, rfl⟩
    · intro hno
      rw [hsame' hno]

theorem turn_serves (data : List Byte) : Serves data s (turn env path data s) := by
  unfold turn
  by_cases hc : env.canceled s.turns = true
  · rw [if_pos hc]
    exact .none data rfl rfl
  rw [if_neg hc]
  by_cases hd : data = []
  · rw [if_pos hd, hd]
    exact .all _ (by simp) (by simp)
  rw [if_neg hd]
  by_cases hr : env.refuses s.turns = true
  · rw [if_pos hr]
    refine ⟨data, [], rfl, by simp, List.nil_prefix, List.prefix_refl _, nofun, ?_⟩
    intro hno
    exact absurd rfl (hno path)
  · rw [if_neg hr]
    exact .all _ rfl rfl

theorem replayReads_serves (last : List Byte) (ending : Ending) (pieces : List (List Byte)) :
    Serves (pieces.flatten ++ last) s (replayReads env path last ending pieces s) := by
  induction pieces generalizing s with
  | nil =>
    have hend : ∀ s : Sinks, Serves [] s (s, if ending = .eof then none else some (.readReplay path)) := fun s =>
      .all _ (List.append_nil _).symm (List.append_nil _).symm
    have hturn : Serves last s (turn env path last s) := turn_serves last
    have hlast := hturn.andThen hend
    rwa [List.append_nil] at hlast
  | cons piece pieces ih =>
    rw [List.flatten_cons, List.append_assoc]
    exact (turn_serves piece).andThen fun s => ih

/-- What a file hands out. -/
def Opened.content : Opened → List Byte
  | .reads r _ => r.content
  | _ => []

theorem replayV0SpoolFile_serves (compressed : Bool) :
    Serves (opened path compressed).content s (replayV0SpoolFile env opened path compressed s) := by
  unfold replayV0SpoolFile
  cases opened path compressed with
  | unopened | uncompressed => exact .none _ rfl rfl
  | reads r ending => exact replayReads_serves r.last ending r.pieces

theorem replayFiles_serves (items : List (List Byte × Bool)) :
    Serves (items.flatMap fun item => (opened item.1 item.2).content) s (replayFiles env opened items s) := by
  induction items generalizing s with
  | nil => exact .all _ (List.append_nil _).symm (List.append_nil _).symm
  | cons item items ih =>
    rw [List.flatMap_cons]
    exact (replayV0SpoolFile_serves item.2).andThen fun s => ih

/-- A tree in which every file can be read to its end. -/
def whole (contents : List Byte → Bool → Reads) (path : List Byte) (compressed : Bool) : Opened :=
  .reads (contents path compressed) .eof

theorem replayReads_quiet (last : List Byte) (pieces : List (List Byte)) (s : Sinks) :
    (replayReads .quiet path last .eof pieces s).2 = none := by
  have hturn : ∀ data s, (turn .quiet path data s).2 = none := by
    intro data s
    unfold turn
    by_cases hd : data = []
    · simp [Env.quiet, hd]
    · simp [Env.quiet, hd]
  induction pieces generalizing s with
  | nil =>
    unfold replayReads Result.andThen
    rw [hturn]
    rfl
  | cons piece pieces ih =>
    unfold replayReads Result.andThen
    rw [hturn]
    exact ih _

theorem replayFiles_quiet (contents : List Byte → Bool → Reads) (items : List (List Byte × Bool)) (s : Sinks) :
    (replayFiles .quiet (whole contents) items s).2 = none := by
  induction items generalizing s with
  | nil => rfl
  | cons item items ih =>
    have hfile : (replayV0SpoolFile .quiet (whole contents) item.1 item.2 s).2 = none :=
      replayReads_quiet _ _ s
    unfold replayFiles Result.andThen
    rw [hfile]
    exact ih _

/-- Where nothing fails both sinks get all files, one after the other. -/
theorem replayFiles_whole (contents : List Byte → Bool → Reads) (items : List (List Byte × Bool)) :
    (replayFiles .quiet (whole contents) items {}).1.fed = items.flatMap (fun item => (contents item.1 item.2).content) ∧
      (replayFiles .quiet (whole contents) items {}).1.appended =
        items.flatMap fun item => (contents item.1 item.2).content := by
  have hserves : Serves (items.flatMap fun item => (contents item.1 item.2).content) {}
      (replayFiles .quiet (whole contents) items {}) := replayFiles_serves items
  obtain ⟨fed, appended, hfed, happ, -, -, hall, -⟩ := hserves
  obtain ⟨rfl, rfl⟩ := hall (replayFiles_quiet contents items {})
  exact ⟨hfed, happ⟩

/-! ## Archives -/

/-- `spool.X.gz` -/
def archive (base x : List Byte) : List Byte := base ++ byte '.' :: (x ++ bytes ".gz")

/-- The number of an archive of this spool. -/
def archiveDigits (base file : List Byte) : Option (List Byte) :=
  let digits := (file.drop (base.length + 1)).take (file.length - (base.length + 4))
  if file = archive base digits ∧ Digits digits then some digits else none

/-- The archives of a spool in the order of their numbers. -/
def numbers (base : List Byte) (names : List (List Byte)) : List (List Byte) :=
  (names.filterMap (archiveDigits base)).insertionSort fun a b => value a ≤ value b

def archives (dir base : List Byte) (names : List (List Byte)) : List (List Byte) :=
  (numbers base names).map fun digits => join dir (archive base digits)

/-- What the history of the spool is read from. -/
def history (dir base : List Byte) (names : List (List Byte)) : List (List Byte × Bool) :=
  (archives dir base names).map (·, true) ++ if base ∈ names then [(join dir base, false)] else []

theorem archiveDigits_eq_some {base file digits : List Byte} :
    archiveDigits base file = some digits ↔ file = archive base digits ∧ Digits digits := by
  have hcut : ∀ x, ((archive base x).drop (base.length + 1)).take ((archive base x).length - (base.length + 4)) = x := by
    intro x
    have hlen : (bytes ".gz").length = 3 := rfl
    have hdrop : (archive base x).drop (base.length + 1) = x ++ bytes ".gz" := by
      unfold archive
      rw [List.append_cons]
      exact List.drop_left' (by simp)
    rw [hdrop]
    refine List.take_left' ?_
    simp only [archive, List.length_append, List.length_cons, hlen]
    omega
  unfold archiveDigits
  constructor
  · intro h
    simp only at h
    split at h
    · rename_i hd
      rw [Option.some.inj h] at hd
      exact hd
    · cases h
  · rintro ⟨rfl, hd⟩
    simp only [hcut]
    exact if_pos ⟨trivial, hd⟩

/-- The names of the archives, from the directory. -/
theorem filterMap_archive (base : List Byte) (names : List (List Byte)) :
    (names.filterMap (archiveDigits base)).map (archive base) = names.filter fun f => (archiveDigits base f).isSome := by
  induction names with
  | nil => rfl
  | cons f names ih =>
    cases h : archiveDigits base f with
    | none => simp [h, ih]
    | some digits =>
      have hf := (archiveDigits_eq_some.mp h).1
      simp [h, ih, ← hf]

theorem archives_perm (dir base : List Byte) (names : List (List Byte)) :
    (archives dir base names).Perm ((names.filter fun f => (archiveDigits base f).isSome).map (join dir)) := by
  unfold archives numbers
  rw [← filterMap_archive, List.map_map]
  exact (List.perm_insertionSort _ _).map _

/-- With numbers of one width the order of the names is that of the numbers. -/
theorem archives_sorted {dir base : List Byte} {names : List (List Byte)}
    (hwidth : ∀ a ∈ numbers base names, ∀ b ∈ numbers base names, a.length = b.length) :
    (archives dir base names).Pairwise (· ≤ ·) := by
  have hdigits : ∀ a ∈ numbers base names, Digits a := by
    intro a ha
    rw [numbers, List.mem_insertionSort, List.mem_filterMap] at ha
    obtain ⟨f, -, hf⟩ := ha
    exact (archiveDigits_eq_some.mp hf).2
  have hvalues : (numbers base names).Pairwise fun a b => value a ≤ value b := by
    have : Std.Total fun a b : List Byte => value a ≤ value b := ⟨fun _ _ => Nat.le_total _ _⟩
    have : IsTrans (List Byte) fun a b => value a ≤ value b := ⟨fun _ _ _ => Nat.le_trans⟩
    exact List.pairwise_insertionSort _ _
  unfold archives
  rw [List.pairwise_map]
  refine hvalues.imp_of_mem fun {a b} ha hb hab => ?_
  have hlen := hwidth a ha b hb
  have hle := (le_iff_value_le (hdigits a ha).2 (hdigits b hb).2 hlen).mpr hab
  have hjoin : ∀ x, join dir (archive base x) = join dir (base ++ [byte '.']) ++ (x ++ bytes ".gz") := by
    intro x
    rw [← join_append, archive, List.append_assoc, List.singleton_append]
  rw [hjoin, hjoin, append_le_append_left]
  exact append_le_append_right hle hlen _

theorem sortStrings_eq {found sorted : List (List Byte)} (hperm : found.Perm sorted) (hsorted : sorted.Pairwise (· ≤ ·)) :
    sortStrings found = sorted := by
  refine List.Perm.eq_of_pairwise ?_ (sortStrings_sorted found) hsorted ((sortStrings_perm found).trans hperm)
  exact fun a b _ _ => List.le_antisymm

/-! ## The history of a spool -/

section

variable (tree : Tree) (stat : List Byte → Stat) (dir base : List Byte) (names : List (List Byte))

/-- The spool `base` in the directory `dir`, with archives whose numbers are of one width among
    its entries. -/
structure Layout : Prop where
  named : dir ≠ []
  entries : tree.entries dir = some names
  flat : ∀ d, ∀ n ∈ tree.names d, slash ∉ n
  live : stat (join dir base) = if base ∈ names then .present else .missing
  width : ∀ a ∈ numbers base names, ∀ b ∈ numbers base names, a.length = b.length

/-- Log and terminal get the archives in the order of their numbers, and the live spool if
    there is one; it is an error if there is neither. -/
def Rebuilt (contents : List Byte → Bool → Reads) : Prop :=
  let r := replayV0Spool .quiet (whole contents) tree stat (join dir base) {}
  let content := (history dir base names).flatMap fun item => (contents item.1 item.2).content
  r.1.appended = content ∧ r.1.fed = content ∧ (r.2 = none ↔ history dir base names ≠ [])

/-- The pattern finds the archives of the spool. A bad one only does no harm where there is
    nothing to be found. -/
def FindsArchives : Prop :=
  match glob tree (join dir base ++ bytes ".*.gz") with
  | .ok found => found.Perm (archives dir base names)
  | .error _ => history dir base names = []

instance (contents : List Byte → Bool → Reads) : Decidable (Rebuilt tree stat dir base names contents) :=
  inferInstanceAs (Decidable (_ ∧ _ ∧ _))

/-- What the names of the archives are compared with. -/
def pattern : List Byte := base ++ bytes ".*.gz"

/-- The pattern is well formed, and these are the directories with entries it is compared with:
    the one of the spool, or all with a path that matches if there is a special byte in it. -/
structure Compares (dirs : List (List Byte)) : Prop where
  formed : ∃ b, matchName (join dir (pattern base)) [] = .ok b
  searched : searched tree dir = .ok dirs
  decided : ∀ d ∈ dirs, ∀ n ∈ tree.names d, ∃ b, matchName (pattern base) n = .ok b

/-- Of the entries those match that are archives of this spool. -/
def Singled : Prop :=
  (∃ dirs, Compares tree dir base dirs ∧
    (∀ d ∈ dirs, ∀ n ∈ tree.names d,
      matchName (pattern base) n = .ok true ↔ d = dir ∧ (archiveDigits base n).isSome = true) ∧
    ((∃ n ∈ names, (archiveDigits base n).isSome = true) → dirs.count dir = 1)) ∨
  -- nothing is looked for with a bad pattern, and there must be nothing
  (¬ ∃ dirs, Compares tree dir base dirs) ∧ history dir base names = []

/-- No other file is named `spool.X.gz`. -/
def Alone : Prop := ∀ x, archive base x ∈ names → Digits x

end

variable {dir base : List Byte} {names : List (List Byte)}

theorem replayV0Spool_found (layout : Layout tree stat dir base names) {found : List (List Byte)}
    (hglob : glob tree (join dir base ++ bytes ".*.gz") = .ok found) (contents : List Byte → Bool → Reads) :
    let items := (sortStrings found).map (·, true) ++ if base ∈ names then [(join dir base, false)] else []
    let r := replayV0Spool .quiet (whole contents) tree stat (join dir base) {}
    let content := items.flatMap fun item => (contents item.1 item.2).content
    r.1.appended = content ∧ r.1.fed = content ∧ (r.2 = none ↔ items ≠ []) := by
  intro items r content
  have hreplay : r.1 = (replayFiles .quiet (whole contents) items {}).1 ∧ (r.2 = none ↔ items ≠ []) := by
    have hquiet := replayFiles_quiet contents items {}
    simp only [r, items, replayV0Spool, hglob, layout.live] at hquiet ⊢
    by_cases hlive : base ∈ names
    · simp only [if_pos hlive] at hquiet ⊢
      exact ⟨trivial, iff_of_true hquiet (by simp)⟩
    · simp only [if_neg hlive, List.append_nil] at hquiet ⊢
      by_cases hnone : (sortStrings found).map (·, true) = []
      · rw [if_pos hnone, hnone]
        exact ⟨rfl, iff_of_false nofun fun h => h rfl⟩
      · rw [if_neg hnone]
        exact ⟨rfl, iff_of_true hquiet hnone⟩
  obtain ⟨hfed, happ⟩ := replayFiles_whole contents items
  rw [hreplay.1]
  exact ⟨happ, hfed, hreplay.2⟩

/-- A tree in which one archive is marked. -/
def marked (path : List Byte) (p : List Byte) (compressed : Bool) : Reads :=
  if p = path ∧ compressed = true then ⟨[], [0], by simp [bufferSize]⟩ else ⟨[], [], by simp⟩

theorem length_marked (path : List Byte) (found : List (List Byte)) (live : List (List Byte × Bool))
    (hlive : ∀ item ∈ live, item.2 = false) :
    ((found.map (·, true) ++ live).flatMap fun item => (marked path item.1 item.2).content).length = found.count path := by
  have hcontent : ∀ p c, (marked path p c).content.length = if p = path ∧ c = true then 1 else 0 := by
    intro p c
    unfold marked
    split <;> rfl
  have htail : (live.flatMap fun item => (marked path item.1 item.2).content) = [] := by
    refine List.flatMap_eq_nil_iff.mpr fun item hitem => List.length_eq_zero_iff.mp ?_
    rw [hcontent, if_neg fun h => by simp [hlive item hitem] at h]
  rw [List.flatMap_append, htail, List.append_nil]
  induction found with
  | nil => rfl
  | cons p found ih =>
    rw [List.map_cons, List.flatMap_cons, List.length_append, ih, hcontent, List.count_cons]
    by_cases hp : p = path
    · simp [hp, Nat.add_comm]
    · simp [hp]

theorem rebuilt_iff (layout : Layout tree stat dir base names) :
    (∀ contents, Rebuilt tree stat dir base names contents) ↔ FindsArchives tree dir base names := by
  unfold FindsArchives
  cases hglob : glob tree (join dir base ++ bytes ".*.gz") with
  | error err =>
    have hreplay : ∀ contents, replayV0Spool .quiet (whole contents) tree stat (join dir base) {} =
        ({}, some (.findArchives err)) := by
      intro contents
      unfold replayV0Spool
      rw [hglob]
    unfold Rebuilt
    simp only [hreplay, reduceCtorEq, false_iff, not_not]
    constructor
    · intro h
      exact (h (marked [])).2.2
    · intro h contents
      rw [h]
      exact ⟨rfl, rfl, rfl⟩
  | ok found =>
    constructor
    · -- a file that is marked is replayed as often as it is an archive
      intro h
      refine List.perm_iff_count.mpr fun path => ?_
      have hgot := (replayV0Spool_found layout hglob (marked path)).1
      rw [(h (marked path)).1] at hgot
      have hlive : ∀ item ∈ (if base ∈ names then [(join dir base, false)] else []), item.2 = false := by
        intro item hitem
        split at hitem
        · rw [List.mem_singleton.mp hitem]
        · cases hitem
      have hlength := congrArg List.length hgot
      rw [history, length_marked path _ _ hlive, length_marked path _ _ hlive] at hlength
      rw [hlength, (sortStrings_perm found).count_eq]
    · intro hperm contents
      have hsorted := sortStrings_eq hperm (archives_sorted layout.width)
      have hgot := replayV0Spool_found layout hglob contents
      rw [hsorted] at hgot
      exact hgot

/-! ## The entries that match -/

theorem join_injective (dir : List Byte) : Function.Injective (join dir) := by
  intro a b h
  unfold join at h
  split at h
  · exact h
  · split at h
    · exact (List.cons.inj h).2
    · exact (List.cons.inj (List.append_cancel_left h)).2

theorem Layout.names_eq (layout : Layout tree stat dir base names) : tree.names dir = names := by
  unfold Tree.names
  rw [layout.entries]
  rfl

section

variable {dirs : List (List Byte)} {M A : List Byte → Bool}

/-- The paths of the entries that match. -/
def matching (tree : Tree) (M : List Byte → Bool) (dirs : List (List Byte)) : List (List Byte) :=
  dirs.flatMap fun d => ((sortStrings (tree.names d)).filter M).map (join d)

theorem mem_matching {path : List Byte} :
    path ∈ matching tree M dirs ↔ ∃ d ∈ dirs, ∃ n ∈ tree.names d, M n = true ∧ join d n = path := by
  unfold matching
  simp only [List.mem_flatMap, List.mem_map, List.mem_filter, (sortStrings_perm _).mem_iff, and_assoc]

/-- If only archives match they are found as often as their directory is looked through. -/
theorem count_matching (hM : ∀ d ∈ dirs, ∀ n ∈ tree.names d, M n = true ↔ d = dir ∧ A n = true) (path : List Byte) :
    (matching tree M dirs).count path = dirs.count dir * (((tree.names dir).filter A).map (join dir)).count path := by
  unfold matching
  induction dirs with
  | nil => simp
  | cons d dirs ih =>
    obtain ⟨hd, hdirs⟩ := List.forall_mem_cons.mp hM
    rw [List.flatMap_cons, List.count_append, ih hdirs]
    by_cases heq : d = dir
    · subst heq
      have hfilter : (tree.names d).filter M = (tree.names d).filter A := by
        refine List.filter_congr fun n hn => Bool.eq_iff_iff.mpr ?_
        rw [hd n hn]
        exact and_iff_right rfl
      rw [(((sortStrings_perm (tree.names d)).filter M).map (join d)).count_eq, hfilter, List.count_cons_self,
        Nat.succ_mul, Nat.add_comm]
    · have hnone : (sortStrings (tree.names d)).filter M = [] := by
        refine List.filter_eq_nil_iff.mpr fun n hn hmatch => heq ?_
        exact ((hd n ((sortStrings_perm _).mem_iff.mp hn)).mp hmatch).1
      rw [hnone, List.map_nil, List.count_nil, Nat.zero_add, List.count_cons_of_ne heq]

theorem matching_perm_iff (hinj : ∀ d ∈ dirs, ∀ n ∈ tree.names d, ∀ m ∈ tree.names dir,
      join d n = join dir m → d = dir ∧ n = m) :
    (matching tree M dirs).Perm (((tree.names dir).filter A).map (join dir)) ↔
      (∀ d ∈ dirs, ∀ n ∈ tree.names d, M n = true ↔ d = dir ∧ A n = true) ∧
        ((∃ n ∈ tree.names dir, A n = true) → dirs.count dir = 1) := by
  constructor
  · intro hperm
    have hM : ∀ d ∈ dirs, ∀ n ∈ tree.names d, M n = true ↔ d = dir ∧ A n = true := by
      intro d hd n hn
      constructor
      · intro hmatch
        obtain ⟨m, hm, heq⟩ := List.mem_map.mp (hperm.mem_iff.mp (mem_matching.mpr ⟨d, hd, n, hn, hmatch, rfl⟩))
        obtain ⟨hmem, hA⟩ := List.mem_filter.mp hm
        obtain ⟨rfl, rfl⟩ := hinj d hd n hn m hmem heq.symm
        exact ⟨rfl, hA⟩
      · rintro ⟨rfl, hA⟩
        have hmem := hperm.mem_iff.mpr (List.mem_map.mpr ⟨n, List.mem_filter.mpr ⟨hn, hA⟩, rfl⟩)
        obtain ⟨d', hd', n', hn', hmatch, heq⟩ := mem_matching.mp hmem
        obtain ⟨-, rfl⟩ := hinj d' hd' n' hn' n hn heq
        exact hmatch
    refine ⟨hM, ?_⟩
    rintro ⟨n, hn, hA⟩
    have hcount := hperm.count_eq (join dir n)
    have hpos := List.count_pos_iff.mpr (List.mem_map_of_mem (f := join dir) (List.mem_filter.mpr ⟨hn, hA⟩))
    rw [count_matching hM] at hcount
    exact Nat.eq_of_mul_eq_mul_right hpos (by rw [hcount, Nat.one_mul])
  · rintro ⟨hM, honce⟩
    refine List.perm_iff_count.mpr fun path => ?_
    rw [count_matching hM]
    by_cases hany : ∃ n ∈ tree.names dir, A n = true
    · rw [honce hany, Nat.one_mul]
    · have hnone : (tree.names dir).filter A = [] :=
        List.filter_eq_nil_iff.mpr fun n hn hA => hany ⟨n, hn, hA⟩
      rw [hnone, List.map_nil, List.count_nil, Nat.mul_zero]

end

theorem compares_inj (layout : Layout tree stat dir base names) {dirs : List (List Byte)}
    (hsearched : searched tree dir = .ok dirs) :
    ∀ d ∈ dirs, ∀ n ∈ tree.names d, ∀ m ∈ tree.names dir, join d n = join dir m → d = dir ∧ n = m := by
  intro d hd n hn m hm heq
  by_cases hplain : hasMeta dir = false
  · rw [searched, if_pos hplain] at hsearched
    cases hsearched
    obtain rfl := List.mem_singleton.mp hd
    exact ⟨rfl, join_injective d heq⟩
  · have hroot : dir ≠ [slash] := fun h => hplain (by rw [h]; decide)
    exact join_inj hroot layout.named (layout.flat d n hn) (layout.flat dir m hm) heq

theorem glob_pattern (tree : Tree) (hdir : dir ≠ []) (hbase : slash ∉ base) :
    glob tree (join dir base ++ bytes ".*.gz") = (matchName (join dir (pattern base)) []).bind fun _ =>
      (searched tree dir).bind (searchIn tree (pattern base) · []) := by
  have hslash : slash ∉ pattern base := by
    unfold pattern
    rw [List.mem_append, not_or]
    exact ⟨hbase, by decide⟩
  have hmeta : hasMeta (pattern base) = true := by
    unfold pattern hasMeta
    rw [List.any_append, Bool.or_eq_true]
    exact .inr (by decide)
  rw [← join_append]
  exact glob_join hdir hslash hmeta

theorem findsArchives_iff (layout : Layout tree stat dir base names) (hbase : slash ∉ base) :
    FindsArchives tree dir base names ↔ Singled tree dir base names := by
  classical
  have hglob := glob_pattern tree layout.named hbase
  unfold FindsArchives Singled
  by_cases hcompares : ∃ dirs, Compares tree dir base dirs
  · obtain ⟨dirs, h⟩ := hcompares
    let M : List Byte → Bool := fun n => decide (matchName (pattern base) n = .ok true)
    have hM : ∀ d ∈ dirs, ∀ n ∈ tree.names d, matchName (pattern base) n = .ok (M n) := by
      intro d hd n hn
      obtain ⟨b, hb⟩ := h.decided d hd n hn
      cases b <;> simp [M, hb]
    obtain ⟨b, hformed⟩ := h.formed
    rw [hformed, h.searched] at hglob
    simp only [Except.bind, searchIn_eq hM, List.nil_append] at hglob
    rw [hglob]
    simp only
    rw [(archives_perm dir base names).congr_right, ← layout.names_eq]
    refine (matching_perm_iff (compares_inj layout h.searched)).trans ?_
    simp only [M, decide_eq_true_eq]
    constructor
    · intro hall
      exact .inl ⟨dirs, h, hall⟩
    · rintro (⟨dirs', h', hall⟩ | ⟨hno, -⟩)
      · have hsame := h.searched.symm.trans h'.searched
        cases hsame
        exact hall
      · exact absurd ⟨dirs, h⟩ hno
  · obtain ⟨e, he⟩ : ∃ e, glob tree (join dir base ++ bytes ".*.gz") = .error e := by
      rw [hglob]
      cases hformed : matchName (join dir (pattern base)) [] with
      | error e => exact ⟨e, rfl⟩
      | ok b =>
        cases hsearched : searched tree dir with
        | error e => exact ⟨e, rfl⟩
        | ok dirs =>
          refine searchIn_error ?_ []
          by_contra hno
          refine hcompares ⟨dirs, ⟨b, hformed⟩, hsearched, fun d hd n hn => ?_⟩
          cases hmatch : matchName (pattern base) n with
          | error e => exact absurd ⟨d, hd, n, hn, e, hmatch⟩ hno
          | ok b => exact ⟨b, rfl⟩
    rw [he]
    constructor
    · intro hnone
      exact .inr ⟨hcompares, hnone⟩
    · rintro (⟨dirs, h, -⟩ | ⟨-, hnone⟩)
      · exact absurd ⟨dirs, h⟩ hcompares
      · exact hnone

/-! ## Paths without special bytes -/

theorem archive_eq (base x : List Byte) : archive base x = (base ++ bytes ".") ++ (x ++ bytes ".gz") := by
  rw [archive, List.append_assoc]
  rfl

theorem archiveDigits_archive {x : List Byte} : (archiveDigits base (archive base x)).isSome = true ↔ Digits x := by
  rw [Option.isSome_iff_exists]
  constructor
  · rintro ⟨digits, h⟩
    obtain ⟨heq, hd⟩ := archiveDigits_eq_some.mp h
    rw [archive_eq, archive_eq] at heq
    rwa [List.append_cancel_right (List.append_cancel_left heq)]
  · intro hd
    exact ⟨x, archiveDigits_eq_some.mpr ⟨rfl, hd⟩⟩

/-- Without special bytes the pattern is well formed and matches `spool.X.gz`. -/
theorem matchName_pattern (hplain : hasMeta base = false) {n : List Byte} (hn : slash ∉ n) :
    ∃ b, matchName (pattern base) n = .ok b ∧ (b = true ↔ ∃ x, n = archive base x) := by
  have hdot : hasMeta (base ++ bytes ".") = false := hasMeta_append.mpr ⟨hplain, by decide⟩
  have hpattern : pattern base = (base ++ bytes ".") ++ Glob.star :: bytes ".gz" := by
    rw [List.append_assoc]
    rfl
  obtain ⟨b, hb, hiff⟩ := matchName_star hdot (t := bytes ".gz") (by decide) (by decide) n
  refine ⟨b, by rw [hpattern, hb], hiff.trans ?_⟩
  constructor
  · rintro ⟨x, -, rfl⟩
    exact ⟨x, (archive_eq base x).symm⟩
  · rintro ⟨x, rfl⟩
    refine ⟨x, fun hx => hn ?_, archive_eq base x⟩
    rw [archive_eq]
    exact List.mem_append_right _ (List.mem_append_left _ hx)

theorem compares_plain (layout : Layout tree stat dir base names) (hplain : hasMeta (join dir base) = false) :
    Compares tree dir base [dir] := by
  obtain ⟨hdir, hbase⟩ := hasMeta_join.mp hplain
  refine ⟨?_, if_pos hdir, ?_⟩
  · have hdot : hasMeta (join dir base ++ bytes ".") = false := hasMeta_append.mpr ⟨hplain, by decide⟩
    obtain ⟨b, hb, -⟩ := matchName_star hdot (t := bytes ".gz") (by decide) (by decide) []
    refine ⟨b, ?_⟩
    rw [← hb, pattern, join_append, List.append_assoc]
    rfl
  · intro d _ n hn
    obtain ⟨b, hb, -⟩ := matchName_pattern hbase (layout.flat d n hn)
    exact ⟨b, hb⟩

theorem singled_plain (layout : Layout tree stat dir base names) (hplain : hasMeta (join dir base) = false) :
    Singled tree dir base names ↔ Alone base names := by
  have hcompares := compares_plain layout hplain
  have hbase := (hasMeta_join.mp hplain).2
  have hmatch : ∀ n ∈ names, matchName (pattern base) n = .ok true ↔ ∃ x, n = archive base x := by
    intro n hn
    rw [← layout.names_eq] at hn
    obtain ⟨b, hb, hiff⟩ := matchName_pattern hbase (layout.flat dir n hn)
    rw [hb, ← hiff]
    exact ⟨fun h => Except.ok.inj h, fun h => congrArg _ h⟩
  constructor
  · rintro (⟨dirs, h, hall, -⟩ | ⟨hno, -⟩)
    · have hsame := hcompares.searched.symm.trans h.searched
      cases hsame
      intro x hx
      have hown := (hall dir (List.mem_singleton_self dir) (archive base x) (by rwa [layout.names_eq])).mp
        ((hmatch _ hx).mpr ⟨x, rfl⟩)
      exact archiveDigits_archive.mp hown.2
    · exact absurd ⟨_, hcompares⟩ hno
  · intro halone
    refine .inl ⟨[dir], hcompares, ?_, fun _ => List.count_singleton_self⟩
    intro d hd n hn
    obtain rfl := List.mem_singleton.mp hd
    rw [layout.names_eq] at hn
    rw [hmatch n hn, and_iff_right rfl]
    constructor
    · rintro ⟨x, rfl⟩
      exact archiveDigits_archive.mpr (halone x hn)
    · intro hsome
      obtain ⟨digits, hdigits⟩ := Option.isSome_iff_exists.mp hsome
      exact ⟨digits, (archiveDigits_eq_some.mp hdigits).1⟩

theorem slash_not_mem {name : List Byte} (h : validateName name = .ok ()) : slash ∉ name := by
  intro hmem
  unfold validateName at h
  rw [if_pos (.inr (.inr (.inr (.inl hmem))))] at h
  cases h

/-- The history of a session is rebuilt, whatever its files contain, exactly if of the entries
    the pattern is compared with those match that are its archives; where no byte of the path
    is special in a pattern, if there is no other file of the form `spool.X.gz`. -/
theorem v0_history_iff {name suffix : List Byte} (hname : validateName name = .ok ()) (hsuffix : slash ∉ suffix)
    (layout : Layout tree stat dir (name ++ suffix) names) :
    ((∀ contents, Rebuilt tree stat dir (name ++ suffix) names contents) ↔
        Singled tree dir (name ++ suffix) names) ∧
      (hasMeta (join dir (name ++ suffix)) = false →
        (Singled tree dir (name ++ suffix) names ↔ Alone (name ++ suffix) names)) := by
  have hbase : slash ∉ name ++ suffix := by
    rw [List.mem_append, not_or]
    exact ⟨slash_not_mem hname, hsuffix⟩
  exact ⟨(rebuilt_iff layout).trans (findsArchives_iff layout hbase), singled_plain layout⟩

/-! ## One directory -/

def directory (dir : List Byte) (names : List (List Byte)) : Tree where
  entries d := if d = dir then some names else none
  lstat p := p ∈ names.map (join dir)

def statIn (dir : List Byte) (names : List (List Byte)) (p : List Byte) : Stat :=
  if p ∈ names.map (join dir) then .present else .missing

theorem layout_directory (hdir : dir ≠ []) (hflat : ∀ n ∈ names, slash ∉ n)
    (hwidth : ∀ a ∈ numbers base names, ∀ b ∈ numbers base names, a.length = b.length) :
    Layout (directory dir names) (statIn dir names) dir base names where
  named := hdir
  entries := if_pos rfl
  flat := by
    intro d n hn
    simp only [Tree.names, directory] at hn
    by_cases hd : d = dir
    · rw [if_pos hd] at hn
      exact hflat n hn
    · rw [if_neg hd] at hn
      cases hn
  live := by
    unfold statIn
    simp only [List.mem_map_of_injective (join_injective dir)]
  width := hwidth

theorem alone_of_all (h : (names.all fun n => n == base || (archiveDigits base n).isSome) = true) : Alone base names := by
  intro x hx
  have hcase := List.all_eq_true.mp h _ hx
  rw [Bool.or_eq_true, beq_iff_eq] at hcase
  rcases hcase with heq | hsome
  · have hlen := congrArg List.length heq
    simp [archive] at hlen
  · exact archiveDigits_archive.mp hsome

def twoArchives : List (List Byte) := [bytes "a.out.200.gz", bytes "a.out", bytes "a.out.100.gz"]

/-- The archives of a session with a star in its name beside one of another session. -/
def starred : List (List Byte) :=
  [bytes "a*.out.200.gz", bytes "a*.out", bytes "a*.out.100.gz", bytes "b.out.300.gz"]

theorem singled_starred : Singled (directory (bytes "/run") starred) (bytes "/run") (bytes "a*.out") starred := by
  have hformed : ∃ b, matchName (join (bytes "/run") (pattern (bytes "a*.out"))) [] = .ok b :=
    ⟨false, by decide +kernel⟩
  have hdecided : ∀ d ∈ [bytes "/run"], ∀ n ∈ (directory (bytes "/run") starred).names d,
      ∃ b, matchName (pattern (bytes "a*.out")) n = .ok b := by
    decide +kernel
  exact .inl ⟨[bytes "/run"], ⟨hformed, if_pos (by decide), hdecided⟩, by decide +kernel, fun _ => by decide⟩

theorem v0_history_iff_two :
    (Alone (bytes "a" ++ bytes ".out") twoArchives ∧
      ∀ contents, Rebuilt (directory (bytes "/run") twoArchives) (statIn (bytes "/run") twoArchives) (bytes "/run")
        (bytes "a" ++ bytes ".out") twoArchives contents) ∧
    (Singled (directory (bytes "/run") starred) (bytes "/run") (bytes "a*" ++ bytes ".out") starred ∧
      ∀ contents, Rebuilt (directory (bytes "/run") starred) (statIn (bytes "/run") starred) (bytes "/run")
        (bytes "a*" ++ bytes ".out") starred contents) := by
  have ha : validateName (bytes "a") = .ok () := rfl
  have hstar : validateName (bytes "a*") = .ok () := rfl
  have hsuffix : slash ∉ bytes ".out" := by decide
  have htwo : Layout (directory (bytes "/run") twoArchives) (statIn (bytes "/run") twoArchives) (bytes "/run")
      (bytes "a" ++ bytes ".out") twoArchives := layout_directory (by decide) (by decide) (by decide)
  have hstarred : Layout (directory (bytes "/run") starred) (statIn (bytes "/run") starred) (bytes "/run")
      (bytes "a*" ++ bytes ".out") starred := layout_directory (by decide) (by decide) (by decide)
  have halone : Alone (bytes "a" ++ bytes ".out") twoArchives := alone_of_all (by decide)
  obtain ⟨hrebuilt, hplain⟩ := v0_history_iff ha hsuffix htwo
  exact ⟨⟨halone, hrebuilt.mpr ((hplain (by decide)).mpr halone)⟩, singled_starred,
    (v0_history_iff hstar hsuffix hstarred).1.mpr singled_starred⟩

/-- Every file holds its own path. -/
def labels (path : List Byte) (_compressed : Bool) : Reads :=
  if h : path.length ≤ bufferSize then ⟨[], path, by simpa using h⟩ else ⟨[], [], by simp⟩

def besideAnother : List (List Byte) := [bytes "a.out", bytes "a.out.b.out.1.gz"]

def bracketed : List (List Byte) := [bytes "[ab].out", bytes "[ab].out.1.gz"]

def replayedIn (names : List (List Byte)) (spoolPath : List Byte) : Result :=
  replayV0Spool .quiet (whole labels) (directory (bytes "/") names) (statIn (bytes "/") names) spoolPath {}

/-- The archive of the session `a.out.b` becomes a part of the history of `a`; that of `[ab]`
    gets lost. -/
theorem the_pattern_is_not_the_spool :
    (validateName (bytes "a") = .ok () ∧ validateName (bytes "a.out.b") = .ok () ∧
      (replayedIn besideAnother (bytes "/a.out")).1.appended = bytes "/a.out.b.out.1.gz" ++ bytes "/a.out" ∧
      ¬ Rebuilt (directory (bytes "/") besideAnother) (statIn (bytes "/") besideAnother) (bytes "/") (bytes "a.out")
        besideAnother labels) ∧
    (validateName (bytes "[ab]") = .ok () ∧
      (replayedIn bracketed (bytes "/[ab].out")).1.appended = bytes "/[ab].out" ∧
      ¬ Rebuilt (directory (bytes "/") bracketed) (statIn (bytes "/") bracketed) (bytes "/") (bytes "[ab].out")
        bracketed labels) := by
  decide +kernel

end Ghostline.Handoff.V0
