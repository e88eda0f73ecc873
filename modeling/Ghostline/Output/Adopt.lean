/-
  Ghostline.Output.Adopt — a log opened on the directory another one left.

  The name of a segment file gives its generation back (`segmentNumber_path`), so a log on a
  directory of named files does what the log keyed by generations does (`Refines`). There,
  as long as every write succeeds, the index is what a scan of the directory finds
  (`Indexed`); so adopting the directory gives the index of the log that left it
  (`adoption_agrees`).
-/

import Ghostline.Output.Disk
import Ghostline.Output.History

namespace Ghostline.Output

open OutputLog (Write scan)

variable {l : OutputLog} {d : DiskLog} {g k : Nat}

/-! ## Names -/

/-- The zeros in front of a number do not change it. -/
theorem parseUint_padded (n : Nat) (hg : g < 2 ^ 64) :
    parseUint (List.replicate n '0' ++ Nat.toDigits 10 g) = some g := by
  have hval : Nat.ofDigitChars 10 (List.replicate n '0' ++ Nat.toDigits 10 g) 0 = g := by
    rw [Nat.ofDigitChars_append, Nat.ofDigitChars_replicate_zero, Nat.mul_zero]
    exact Nat.ofDigitChars_toDigits (by decide) (by decide)
  have hne : List.replicate n '0' ++ Nat.toDigits 10 g ≠ [] := by simp [Nat.toDigits_ne_nil]
  have hdigit : (List.replicate n '0' ++ Nat.toDigits 10 g).all Char.isDigit = true := by
    simp only [List.all_append, List.all_replicate, Bool.and_eq_true, List.all_eq_true]
    refine ⟨?_, fun c hc => Nat.isDigit_of_mem_toDigits (by decide) (by decide) hc⟩
    split <;> decide
  simp only [parseUint, hval, hne, hdigit, hg, ne_eq, not_false_eq_true, and_self, if_true]

theorem segmentNumber_path (hg : g < 2 ^ 64) : segmentNumber (outputSegmentPath g) = some g := by
  have hsuffix : ".out".toList.isSuffixOf (outputSegmentPath g) = true := by
    rw [List.isSuffixOf_iff_suffix]
    exact List.suffix_append _ _
  have htake : (outputSegmentPath g).take ((outputSegmentPath g).length - 4) =
      List.replicate (20 - (Nat.toDigits 10 g).length) '0' ++ Nat.toDigits 10 g := by
    refine List.take_left' ?_
    simp only [outputSegmentPath, List.length_append]
    exact (Nat.add_sub_cancel _ 4).symm
  simp only [segmentNumber, hsuffix, if_true, htake]
  exact parseUint_padded _ hg

theorem path_injective (hg : g < 2 ^ 64) (hk : k < 2 ^ 64) (h : outputSegmentPath g = outputSegmentPath k) : g = k := by
  have := segmentNumber_path hg
  rw [h, segmentNumber_path hk] at this
  exact (Option.some.inj this).symm

/-! ## The directory -/

/-- The directory holds files of the log only, each name once. -/
structure Named (dir : Directory) : Prop where
  nodup : (dir.map Entry.name).Nodup
  own : ∀ e ∈ dir, e.isDir = false ∧ ∃ g, g < 2 ^ 64 ∧ e.name = outputSegmentPath g

theorem file_cons (e : Entry) (dir : Directory) (name : FileName) :
    Directory.file (e :: dir) name = if e.name = name then some e.content else Directory.file dir name := by
  unfold Directory.file
  by_cases h : e.name = name <;> simp [h]

theorem file_none {dir : Directory} {name : FileName} (h : name ∉ dir.map Entry.name) : dir.file name = none := by
  induction dir with
  | nil => rfl
  | cons e dir ih =>
    simp only [List.map_cons, List.mem_cons, not_or] at h
    rw [file_cons, if_neg fun he => h.1 he.symm, ih h.2]

theorem Named.tail {e : Entry} {dir : Directory} (h : Named (e :: dir)) : Named dir :=
  ⟨(List.nodup_cons.mp h.nodup).2, fun x hx => h.own x (.tail _ hx)⟩

/-- One file of the directory, read into the index. -/
theorem indexEntry_own {e : Entry} {generation : Nat} (he : e.isDir = false) (hk : k < 2 ^ 64)
    (hn : e.name = outputSegmentPath k) (segments : Nat → Option Segment) :
    indexEntry generation segments e g =
      if k = g ∧ 0 < g ∧ g ≤ generation then some ⟨outputSegmentPath g, e.content.length⟩ else segments g := by
  have hnum : segmentNumber e.name = some k := by rw [hn]; exact segmentNumber_path hk
  simp only [indexEntry, he, hnum, Bool.false_eq_true, if_false]
  by_cases hg : k = g
  · subst hg
    by_cases hr : 0 < k ∧ k ≤ generation
    · have : ¬ (k = 0 ∨ generation < k) := by omega
      simp [hr, this, hn]
    · have : k = 0 ∨ generation < k := by omega
      simp [hr, this]
  · simp only [hg, false_and, if_false]
    split
    · rfl
    · rw [Function.update_of_ne fun h => hg h.symm]

/-- Reading the directory finds each file of the log under its generation. -/
theorem foldl_index {dir : Directory} (h : Named dir) {generation : Nat} (hgen : generation < 2 ^ 64)
    (segments : Nat → Option Segment) :
    dir.foldl (indexEntry generation) segments g =
      if 0 < g ∧ g ≤ generation then
        ((dir.file (outputSegmentPath g)).map fun c => ⟨outputSegmentPath g, c.length⟩).or (segments g)
      else segments g := by
  induction dir generalizing segments with
  | nil => simp [Directory.file]
  | cons e dir ih =>
    obtain ⟨hdir, k, hk, hname⟩ := h.own e (.head _)
    rw [List.foldl_cons, ih h.tail, indexEntry_own hdir hk hname, file_cons, hname]
    by_cases hr : 0 < g ∧ g ≤ generation
    · by_cases hgk : k = g
      · -- no other entry has this name
        subst hgk
        have hout : Directory.file dir (outputSegmentPath k) = none := by
          refine file_none ?_
          rw [← hname]
          exact (List.nodup_cons.mp h.nodup).1
        simp [hr, hout]
      · have hne : outputSegmentPath k ≠ outputSegmentPath g := fun he => hgk (path_injective hk (by omega) he)
        simp [hr, hgk, hne]
    · simp [hr]

theorem mem_file {dir : Directory} {name : FileName} : name ∈ dir.map Entry.name ↔ (dir.file name).isSome = true := by
  induction dir with
  | nil => simp [Directory.file]
  | cons e dir ih =>
    rw [file_cons, List.map_cons, List.mem_cons, ih]
    by_cases h : e.name = name
    · simp [h]
    · have : ¬ name = e.name := fun he => h he.symm
      simp [h, this]

theorem file_create {dir : Directory} {name : FileName} (hf : dir.file name = none) (x : FileName) :
    (dir.create name).file x = if x = name then some [] else dir.file x := by
  induction dir with
  | nil =>
    rw [Directory.create, List.nil_append, file_cons]
    by_cases h : x = name
    · simp [h]
    · have : ¬ name = x := fun he => h he.symm
      simp [h, this]
  | cons e dir ih =>
    rw [file_cons] at hf
    split at hf
    · cases hf
    · rename_i hne
      rw [Directory.create, List.cons_append, file_cons, file_cons]
      have := ih hf
      rw [Directory.create] at this
      rw [this]
      split
      · rename_i he
        rw [if_neg]
        rintro rfl
        exact hne he
      · rfl

theorem Named.create {dir : Directory} (h : Named dir) (hg : g < 2 ^ 64) (hf : dir.file (outputSegmentPath g) = none) :
    Named (dir.create (outputSegmentPath g)) := by
  refine ⟨?_, fun e he => ?_⟩
  · have hout : outputSegmentPath g ∉ dir.map Entry.name := by rw [mem_file, hf]; simp
    rw [Directory.create, List.map_append, List.map_singleton, List.nodup_append]
    refine ⟨h.nodup, by simp, fun a ha b hb => ?_⟩
    rw [List.mem_singleton.mp hb]
    rintro rfl
    exact hout ha
  · rcases List.mem_append.mp he with he | he
    · exact h.own e he
    · rw [List.mem_singleton.mp he]
      exact ⟨rfl, g, hg, rfl⟩

theorem file_remove (dir : Directory) (name x : FileName) :
    (dir.remove name).file x = if x = name then none else dir.file x := by
  induction dir with
  | nil => simp [Directory.remove, Directory.file]
  | cons e dir ih =>
    rw [Directory.remove] at ih ⊢
    by_cases h : e.name = name
    · rw [List.filter_cons_of_neg (by simp [h]), ih, file_cons]
      by_cases hx : x = name
      · simp [hx]
      · have : e.name ≠ x := by rw [h]; exact fun he => hx he.symm
        simp [hx, this]
    · rw [List.filter_cons_of_pos (by simp [h]), file_cons, ih, file_cons]
      by_cases hx : x = name
      · subst hx
        simp [h]
      · simp [hx]

theorem Named.remove {dir : Directory} (h : Named dir) (name : FileName) : Named (dir.remove name) :=
  ⟨h.nodup.sublist (List.filter_sublist.map _), fun e he => h.own e (List.mem_filter.mp he).1⟩

theorem file_write (dir : Directory) (name : FileName) (data : List Byte) (x : FileName) :
    (dir.write name data).file x = if x = name then (dir.file x).map (· ++ data) else dir.file x := by
  induction dir with
  | nil => simp [Directory.write, Directory.file]
  | cons e dir ih =>
    rw [Directory.write] at ih ⊢
    rw [List.map_cons, file_cons, file_cons, ih]
    by_cases h : e.name = name
    · by_cases hx : x = name
      · simp [h, hx]
      · have : ¬ name = x := fun he => hx he.symm
        simp [h, hx, this]
    · by_cases hx : x = name
      · simp [h, hx]
      · simp [h, hx]

theorem Named.write {dir : Directory} (h : Named dir) (name : FileName) (data : List Byte) : Named (dir.write name data) := by
  have hname : ∀ e : Entry, (if e.name = name then { e with content := e.content ++ data } else e).name = e.name := fun e => by
    split <;> rfl
  refine ⟨?_, fun e he => ?_⟩
  · rw [Directory.write, List.map_map]
    have : (Entry.name ∘ fun e => if e.name = name then { e with content := e.content ++ data } else e) = Entry.name := by
      funext e
      exact hname e
    rw [this]
    exact h.nodup
  · obtain ⟨x, hx, rfl⟩ := List.mem_map.mp he
    obtain ⟨h1, h2⟩ := h.own x hx
    refine ⟨?_, by rw [hname]; exact h2⟩
    split <;> exact h1

/-! ## The log by name and the log by generation -/

/-- The log `d` on a directory is the log `l`. -/
structure Refines (d : DiskLog) (l : OutputLog) : Prop where
  generation : d.generation = l.generation
  segments : ∀ g, d.segments g = (l.segments g).map (⟨outputSegmentPath g, ·⟩)
  closed : d.closed = l.closed
  err : d.err = l.err
  named : Named d.directory
  files : ∀ g, g < 2 ^ 64 → d.directory.file (outputSegmentPath g) = if l.linked g then some (l.files g) else none

/-- The index is what a scan of the directory finds. -/
structure Indexed (l : OutputLog) : Prop where
  index : l.segments = scan l.files l.linked l.generation
  active : (l.segments l.generation).isSome = true
  bound : l.generation < 2 ^ 64

/-- The active segment is a file, of the size the index has. -/
theorem Indexed.linked (hi : Indexed l) : 0 < l.generation ∧ l.linked l.generation = true ∧
    l.segments l.generation = some (l.files l.generation).length := by
  obtain ⟨n, hn⟩ := Option.isSome_iff_exists.mp hi.active
  have hs := hn
  rw [hi.index] at hs
  obtain ⟨h0, -, hl, rfl⟩ := scan_some hs
  exact ⟨h0, hl, hn⟩

theorem Refines.append (h : Refines d l) (hi : Indexed l) (data : List Byte) :
    Refines (d.append data).1 (l.append data .full).1 ∧ Indexed (l.append data .full).1 := by
  by_cases hd : data = []
  · simp only [DiskLog.append, OutputLog.append, hd, if_true]
    exact ⟨h, hi⟩
  by_cases hc : l.closed = true
  · simp only [DiskLog.append, OutputLog.append, hd, h.closed, hc, if_true, if_false]
    exact ⟨h, hi⟩
  simp only [DiskLog.append, OutputLog.append, hd, h.closed, hc, if_false, OutputLog.signalLocked, Bool.false_eq_true]
  obtain ⟨h0, hlink, hsize⟩ := hi.linked
  refine ⟨⟨h.generation, fun g => ?_, rfl, h.err, h.named.write _ _, fun g hg => ?_⟩, ⟨?_, by simp, hi.bound⟩⟩
  · simp only [h.generation, h.segments l.generation, hsize, Option.map_some, Option.getD_some]
    by_cases e : g = l.generation
    · subst e; simp
    · simp [Function.update_of_ne e, h.segments g]
  · simp only [h.generation, file_write, h.files g hg]
    by_cases e : g = l.generation
    · subst e; simp [hlink]
    · have : outputSegmentPath g ≠ outputSegmentPath l.generation := fun he => e (path_injective hg hi.bound he)
      simp [this, Function.update_of_ne e]
  · funext g
    simp only [hsize, Option.getD_some, scan]
    by_cases e : g = l.generation
    · subst e; simp [h0, hlink]
    · rw [Function.update_of_ne e, Function.update_of_ne e, hi.index]
      rfl

theorem Refines.rotate (h : Refines d l) (hi : Indexed l) (fail : Option String) :
    Refines (d.rotate fail).1 (l.rotate fail).1 ∧ Indexed (l.rotate fail).1 := by
  by_cases hc : l.closed = true
  · simp only [DiskLog.rotate, OutputLog.rotate, h.closed, hc, if_true]
    exact ⟨h, hi⟩
  by_cases hw : (l.generation + 1) % 2 ^ 64 = 0
  · simp only [DiskLog.rotate, OutputLog.rotate, h.closed, hc, h.generation, hw, if_true, if_false, Bool.false_eq_true]
    exact ⟨h, hi⟩
  have hb := hi.bound
  have hmod : (l.generation + 1) % 2 ^ 64 = l.generation + 1 := by omega
  have hnext : l.generation + 1 < 2 ^ 64 := by omega
  have hfile := h.files _ hnext
  simp only [DiskLog.rotate, OutputLog.rotate, h.closed, hc, h.generation, hmod, hfile, Bool.false_eq_true,
    if_false, Nat.succ_ne_zero]
  cases hl : l.linked (l.generation + 1) with
  | true => simpa using ⟨h, hi⟩
  | false =>
    rw [hl] at hfile
    cases fail with
    | some m => simpa using ⟨h, hi⟩
    | none =>
      simp only [Bool.false_eq_true, if_false, Option.isSome_none, OutputLog.signalLocked]
      refine ⟨⟨rfl, fun g => ?_, rfl, h.err, h.named.create hnext hfile, fun g hg => ?_⟩, ⟨?_, by simp, hnext⟩⟩
      · by_cases e : g = l.generation + 1
        · subst e; simp
        · simp [Function.update_of_ne e, h.segments g]
      · simp only [file_create hfile]
        by_cases e : g = l.generation + 1
        · subst e; simp
        · have : outputSegmentPath g ≠ outputSegmentPath (l.generation + 1) := fun he => e (path_injective hg hnext he)
          simp [this, Function.update_of_ne e, h.files g hg]
      · funext g
        by_cases e : g = l.generation + 1
        · subst e; simp [scan]
        · have hle : g ≤ l.generation + 1 ↔ g ≤ l.generation := by omega
          simp only [Function.update_of_ne e, hi.index, scan, hle]

theorem pruneLoop_refines (before : Nat) (rm : Nat → Option String) (order : List Nat) (hnd : order.Nodup)
    (h : Refines d l) (hi : Indexed l) (hmem : ∀ g ∈ order, (l.segments g).isSome = true) :
    Refines (DiskLog.pruneLoop before rm d order).1 (OutputLog.pruneLoop before rm l order).1 ∧
      Indexed (OutputLog.pruneLoop before rm l order).1 ∧
      (DiskLog.pruneLoop before rm d order).2 = (OutputLog.pruneLoop before rm l order).2 := by
  induction order generalizing d l with
  | nil => exact ⟨h, hi, rfl⟩
  | cons g rest ih =>
    obtain ⟨hg, hnd⟩ := List.nodup_cons.mp hnd
    obtain ⟨n, hn⟩ := Option.isSome_iff_exists.mp (hmem g (.head _))
    have hseg : d.segments g = some ⟨outputSegmentPath g, n⟩ := by rw [h.segments, hn]; rfl
    have hrest : ∀ k ∈ rest, (l.segments k).isSome = true := fun k hk => hmem k (.tail _ hk)
    simp only [DiskLog.pruneLoop, OutputLog.pruneLoop, hseg, h.generation]
    split
    · exact ih hnd h hi hrest
    · rename_i hkeep
      cases hrm : rm g with
      | some m => exact ⟨h, hi, rfl⟩
      | none =>
        have hb : g < 2 ^ 64 := by
          rw [hi.index] at hn
          have := (scan_some hn).2.1
          have := hi.bound
          omega
        refine ih hnd ⟨rfl, fun k => ?_, h.closed, h.err, h.named.remove _, fun k hk => ?_⟩
          ⟨?_, ?_, hi.bound⟩ fun k hk => ?_
        · by_cases e : k = g
          · subst e; simp
          · simp [Function.update_of_ne e, h.segments k]
        · simp only [file_remove]
          by_cases e : k = g
          · subst e; simp
          · have : outputSegmentPath k ≠ outputSegmentPath g := fun he => e (path_injective hk hb he)
            simp [this, Function.update_of_ne e, h.files k hk]
        · funext k
          by_cases e : k = g
          · subst e; simp [scan]
          · simp only [Function.update_of_ne e, hi.index, scan]
        · have : l.generation ≠ g := by omega
          simp only [Function.update_of_ne this]
          exact hi.active
        · have : k ≠ g := by rintro rfl; exact hg hk
          simp only [Function.update_of_ne this]
          exact hrest k hk

theorem Refines.keys (h : Refines d l) : d.keys = l.keys := by
  simp [DiskLog.keys, OutputLog.keys, h.generation, h.segments]

/-- The marks are no matter of the directory. -/
theorem Refines.marks (h : Refines d l) (hi : Indexed l) (sizes : List SizeMark) (changed : Nat) :
    Refines d { l with sizes := sizes, changed := changed } ∧ Indexed { l with sizes := sizes, changed := changed } :=
  ⟨⟨h.generation, h.segments, h.closed, h.err, h.named, h.files⟩, hi.index, hi.active, hi.bound⟩

theorem Refines.prune (h : Refines d l) (hi : Indexed l) (before : Cursor) (order : List Nat) (rm : Nat → Option String)
    (ho : order.Perm d.keys) :
    Refines (d.prune before order rm).1 (l.prune before order rm).1 ∧ Indexed (l.prune before order rm).1 := by
  have hkeys : l.keys.Nodup := List.nodup_range.filter _
  rw [h.keys] at ho
  have hmem : ∀ g ∈ order, (l.segments g).isSome = true := fun g hg => by
    have := ho.mem_iff.mp hg
    exact (List.mem_filter.mp this).2
  obtain ⟨hr, hx, he⟩ := pruneLoop_refines before.generation rm order (ho.nodup_iff.mpr hkeys) h hi hmem
  simp only [DiskLog.prune, OutputLog.prune, h.err, h.closed, h.generation]
  split
  · exact ⟨h, hi⟩
  · split
    · exact ⟨h, hi⟩
    · split
      · exact ⟨h, hi⟩
      · split
        · rename_i l' e hp
          rw [hp] at hr hx
          exact ⟨hr, hx⟩
        · rename_i l' hp
          rw [hp] at hr hx
          exact hr.marks hx _ _

theorem Refines.close (h : Refines d l) (hi : Indexed l) (err : Option Err) :
    Refines (d.close err) (l.close err) ∧ Indexed (l.close err) := by
  simp only [DiskLog.close, OutputLog.close, h.closed]
  split
  · exact ⟨h, hi⟩
  · exact ⟨⟨h.generation, h.segments, rfl, rfl, h.named, h.files⟩, hi.index, hi.active, hi.bound⟩

theorem Refines.step {d' : DiskLog} {e : DiskEv} (h : Refines d l) (hi : Indexed l) (he : d.step e = some d') :
    ∃ l', Refines d' l' ∧ Indexed l' := by
  cases e with
  | append data => cases he; exact ⟨_, h.append hi data⟩
  | rotate fail => cases he; exact ⟨_, h.rotate hi fail⟩
  | prune before order rm =>
    simp only [DiskLog.step, Option.ite_none_right_eq_some, Option.some.injEq] at he
    obtain ⟨ho, rfl⟩ := he
    exact ⟨_, h.prune hi before order rm ho⟩
  | close err => cases he; exact ⟨_, h.close hi _⟩

/-- The index read from a directory that refines a log is the index of the log. -/
theorem Refines.index (h : Refines d l) (hi : Indexed l) :
    d.directory.foldl (indexEntry d.generation) (fun _ => none) = d.segments := by
  funext g
  have hb : d.generation < 2 ^ 64 := h.generation ▸ hi.bound
  rw [foldl_index h.named hb, h.segments, hi.index, h.generation]
  by_cases hg : 0 < g ∧ g ≤ l.generation
  · have hbound := hi.bound
    rw [if_pos hg, h.files g (by omega), scan]
    cases hl : l.linked g <;> simp [hg]
  · have : ¬ (0 < g ∧ g ≤ l.generation ∧ l.linked g = true) := fun hx => hg ⟨hx.1, hx.2.1⟩
    simp [hg, scan, this]

/-- Opening the directory again gives the log, open and without an error. -/
theorem Refines.adopt (h : Refines d l) (hi : Indexed l) :
    DiskLog.adoptOutputLog d.directory d.generation = .ok { d with closed := false, err := none } := by
  obtain ⟨h0, hlink, hsize⟩ := hi.linked
  have hne : l.generation ≠ 0 := by omega
  have hfile := h.files _ hi.bound
  rw [hlink, if_pos rfl] at hfile
  have hseg := h.segments l.generation
  rw [hsize, Option.map_some] at hseg
  have hindex := h.index hi
  rw [h.generation] at hindex
  have hupd : Function.update d.segments l.generation (d.segments l.generation) = d.segments :=
    Function.update_eq_self _ _
  rw [hseg] at hupd
  simp only [DiskLog.adoptOutputLog, DiskLog.openOutputLog, h.generation, hne, hfile, hindex, hseg, hupd, if_false,
    Bool.false_and, Bool.not_false, Bool.true_and, Option.isNone_some, Bool.false_eq_true, Option.getD_some]

/-- What `createOutputLog` makes on an empty directory. -/
def DiskLog.created : DiskLog :=
  ⟨[⟨outputSegmentPath 1, false, []⟩], 1, Function.update (fun _ => none) 1 (some ⟨outputSegmentPath 1, 0⟩), false, none⟩

theorem DiskLog.createOutputLog_eq : DiskLog.createOutputLog = .ok DiskLog.created := by
  let e : Entry := ⟨outputSegmentPath 1, false, []⟩
  have hindex : indexEntry 1 (fun _ => none) e = DiskLog.created.segments := by
    funext g
    rw [indexEntry_own (g := g) rfl (by omega : 1 < 2 ^ 64) rfl, DiskLog.created]
    by_cases hg : g = 1
    · subst hg; simp [e]
    · have : ¬ 1 = g := fun he => hg he.symm
      simp [hg, this]
  simp only [DiskLog.createOutputLog, DiskLog.openOutputLog, Directory.file, Directory.create, List.find?_nil,
    Option.map_none, Option.isSome_none, Bool.and_false, Bool.false_eq_true, if_false, Bool.not_true, Bool.false_and,
    if_true, List.nil_append, List.foldl_cons, List.foldl_nil]
  rw [hindex]
  simp [DiskLog.created]

theorem created_refines : Refines DiskLog.created created ∧ Indexed created := by
  refine ⟨⟨rfl, fun g => ?_, rfl, rfl, ⟨by simp [DiskLog.created], fun x hx => ?_⟩, fun g hg => ?_⟩, rfl, rfl, by decide⟩
  · by_cases hg : g = 1
    · subst hg; simp [DiskLog.created, created, scan]
    · simp [DiskLog.created, created, scan, Function.update_of_ne hg]
  · rw [List.mem_singleton.mp hx]
    exact ⟨rfl, 1, by omega, rfl⟩
  · simp only [DiskLog.created, file_cons]
    by_cases h1 : g = 1
    · subst h1; simp [created]
    · have : outputSegmentPath 1 ≠ outputSegmentPath g := fun he => h1 (path_injective (by omega) hg he).symm
      simp [created, Function.update_of_ne h1, this, Directory.file]

theorem reach_refines (h : diskMachine.Reach Lib.Machine.always d) : ∃ l, Refines d l ∧ Indexed l :=
  h.invariant (I := fun d => ∃ l, Refines d l ∧ Indexed l)
    (fun _ hd => by
      rw [diskMachine, DiskLog.createOutputLog_eq] at hd
      cases hd
      exact ⟨_, created_refines⟩)
    fun _ _ _ ⟨_, hr, hi⟩ _ hs => hr.step hi hs

/-! ## What a cursor resolves to -/

/-- What a cursor resolves to, by the files in the directory. -/
inductive Resolves (d : DiskLog) : Cursor → Except Err Cursor → Prop
  | earliest {g : Nat} {content : List Byte} : 0 < g → d.directory.file (outputSegmentPath g) = some content →
      (∀ k, 0 < k → k < g → d.directory.file (outputSegmentPath k) = none) → Resolves d 0 (.ok ⟨g, 0⟩)
  | itself {c : Cursor} {content : List Byte} : 0 < c.generation → c.generation ≤ d.generation →
      d.directory.file (outputSegmentPath c.generation) = some content → c.offset ≤ content.length →
      c.offset ≤ OutputLog.maxInt64 → Resolves d c (.ok c)
  | expired {c : Cursor} : 0 < c.generation → c.generation < d.generation →
      d.directory.file (outputSegmentPath c.generation) = none → c.offset ≤ OutputLog.maxInt64 →
      Resolves d c (.error (.sentinel .cursorExpired))
  | never {c : Cursor} : c ≠ 0 → c.generation = 0 ∨ d.generation < c.generation ∨ OutputLog.maxInt64 < c.offset →
      Resolves d c (.error (.sentinel .invalidCursor))
  | beyond {c : Cursor} {content : List Byte} :
      d.directory.file (outputSegmentPath c.generation) = some content → content.length < c.offset →
      Resolves d c (.error (.sentinel .invalidCursor))

/-- The index has the files from generation 1 to the active one. -/
theorem Refines.found (h : Refines d l) (hi : Indexed l) (g : Nat) :
    d.segments g = if 0 < g ∧ g ≤ d.generation then
      (d.directory.file (outputSegmentPath g)).map fun c => ⟨outputSegmentPath g, c.length⟩ else none := by
  rw [← h.index hi, foldl_index h.named (h.generation ▸ hi.bound), Option.or_none]

theorem Refines.earliest (h : Refines d l) (hi : Indexed l) : Resolves d 0 (.ok ⟨d.earliest, 0⟩) := by
  have least : ∀ g, (d.segments g).isSome = true → (∀ k < g, d.segments k = none) → Resolves d 0 (.ok ⟨g, 0⟩) := by
    intro g hg hmin
    rw [h.found hi] at hg
    split at hg
    · rename_i hr
      rw [Option.isSome_map] at hg
      obtain ⟨content, hc⟩ := Option.isSome_iff_exists.mp hg
      refine .earliest hr.1 hc fun k h0 hk => ?_
      have hnone := hmin k hk
      rw [h.found hi, if_pos ⟨h0, by omega⟩] at hnone
      exact Option.map_eq_none_iff.mp hnone
    · cases hg
  unfold DiskLog.earliest
  cases hf : (List.range d.generation).find? fun g => (d.segments g).isSome with
  | none =>
    refine least _ ?_ fun k hk => ?_
    · rw [h.generation, h.segments, Option.isSome_map]
      exact hi.active
    · have := List.find?_eq_none.mp hf k (List.mem_range.mpr hk)
      simpa using this
  | some g =>
    obtain ⟨hg, -, hmin⟩ := List.find?_range_eq_some.mp hf
    exact least g hg fun k hk => by simpa using hmin k hk

theorem Refines.resolves (h : Refines d l) (hi : Indexed l) (c : Cursor) : Resolves d c (d.resolveCursorLocked c) := by
  unfold DiskLog.resolveCursorLocked
  by_cases h0 : c = 0
  · subst h0
    exact h.earliest hi
  by_cases hbad : c.generation = 0 ∨ OutputLog.maxInt64 < c.offset
  · rw [if_neg h0, if_pos hbad]
    exact .never h0 (hbad.imp_right .inr)
  rw [if_neg h0, if_neg hbad, h.found hi]
  have hpos : 0 < c.generation := by omega
  by_cases hle : c.generation ≤ d.generation
  · rw [if_pos ⟨hpos, hle⟩]
    cases hf : d.directory.file (outputSegmentPath c.generation) with
    | none =>
      have hne : c.generation ≠ d.generation := by
        intro heq
        have hactive := hi.active
        rw [← h.generation, ← Option.isSome_map (f := (⟨outputSegmentPath d.generation, ·⟩ : Nat → Segment)),
          ← h.segments, h.found hi, ← heq, hf] at hactive
        simp at hactive
      simp only [Option.map_none]
      rw [if_pos (by omega)]
      exact .expired hpos (by omega) hf (by omega)
    | some content =>
      simp only [Option.map_some]
      split
      · rename_i hlt
        exact .beyond hf hlt
      · exact .itself hpos hle hf (by omega) (by omega)
  · rw [if_neg (fun hx => hle hx.2)]
    simp only
    rw [if_neg (by omega)]
    exact .never h0 (.inr (.inl (by omega)))

/-- In every run of a log whose writes succeed: the log adopted from its directory has its
    generation and its index, so every cursor resolves as before and to the same bytes, and
    to what the files in the directory say. -/
theorem adoption_agrees (h : diskMachine.Reach Lib.Machine.always d) :
    ∃ d', DiskLog.adoptOutputLog d.directory d.generation = .ok d' ∧ d'.generation = d.generation ∧
      d'.segments = d.segments ∧
      ∀ c, d'.resolveCursorLocked c = d.resolveCursorLocked c ∧ d'.bytesFrom c = d.bytesFrom c ∧
        Resolves d c (d.resolveCursorLocked c) := by
  obtain ⟨l, hr, hi⟩ := reach_refines h
  exact ⟨_, hr.adopt hi, rfl, rfl, fun c => ⟨rfl, rfl, hr.resolves hi c⟩⟩

/-- Two generations, of which the first is pruned. -/
theorem adoption_agrees_pruned :
    ∃ d d', diskMachine.Reach Lib.Machine.always d ∧ d.keys = [2] ∧
      DiskLog.adoptOutputLog d.directory d.generation = .ok d' ∧ d'.bytesFrom ⟨2, 1⟩ = some [4, 5] := by
  obtain ⟨d, hr, hk, hb⟩ := diskMachine.exists_reach Lib.Machine.always DiskLog.createOutputLog_eq
    [.append [1, 2], .rotate none, .append [3], .append [4, 5], .prune ⟨2, 0⟩ [1, 2] fun _ => none]
    (P := fun d => d.keys = [2] ∧ d.bytesFrom ⟨2, 1⟩ = some [4, 5]) (by decide)
  obtain ⟨d', hd', -, -, hc⟩ := adoption_agrees hr
  exact ⟨d, d', hr, hk, hd', (hc _).2.1.trans hb⟩

end Ghostline.Output
