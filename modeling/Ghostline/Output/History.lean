/-
  Ghostline.Output.History — an `outputLog` against what it was given.

  `wrote g` is what generation `g` was successfully given, each byte with the size in
  force when it was appended. `Keeps l wrote` says that the index and the files agree
  with that record; every operation of the log keeps it.
-/

import Ghostline.Output.Log

namespace Ghostline.Output

open OutputLog

abbrev Wrote := Nat → List (Byte × Size)

/-- The record after a successful append of `data` under `size`. -/
def extend (wrote : Wrote) (g : Nat) (data : List Byte) (size : Size) : Wrote :=
  Function.update wrote g (wrote g ++ data.map fun b => (b, size))

structure Keeps (l : OutputLog) (wrote : Wrote) : Prop where
  index : ∀ g n, l.segments g = some n → n = (wrote g).length ∧ 0 < g ∧ g ≤ l.generation
  active : (l.segments l.generation).isSome = true
  future : ∀ g, l.generation < g → wrote g = []
  /-- A file may hold more: the part of a failed append that reached it. -/
  content : ∀ g, (wrote g).map Prod.fst <+: l.files g
  exact : l.closed = false → l.files l.generation = (wrote l.generation).map Prod.fst
  entries : ∀ g, 0 < g → g ≤ l.generation → l.linked g = true → (l.segments g).isSome = true
  bound : l.generation < 2 ^ 64
  notEof : l.err ≠ some .eof

variable {l : OutputLog} {wrote : Wrote}

theorem Keeps.size (h : Keeps l wrote) : l.segments l.generation = some (wrote l.generation).length := by
  obtain ⟨n, hn⟩ := Option.isSome_iff_exists.mp h.active
  rw [hn, (h.index _ n hn).1]

@[simp] theorem extend_nil (g : Nat) (size : Size) : extend wrote g [] size = wrote := by
  simp [extend]

theorem extend_self (g : Nat) (data : List Byte) (size : Size) :
    extend wrote g data size g = wrote g ++ data.map fun b => (b, size) := by simp [extend]

theorem extend_ne {g k : Nat} (data : List Byte) (size : Size) (h : k ≠ g) :
    extend wrote g data size k = wrote k := by simp [extend, h]

/-! ## A closed log -/

theorem append_closed (hc : l.closed = true) (data : List Byte) (w : Write) : (l.append data w).1 = l := by
  unfold OutputLog.append
  split
  · rfl
  · rfl

theorem append_closed_err (hc : l.closed = true) {data : List Byte} (hd : data ≠ []) (w : Write) :
    (l.append data w).2 = some l.closedErr := by
  simp [OutputLog.append, hd, hc]

theorem rotate_closed (hc : l.closed = true) (fail : Option String) : (l.rotate fail).1 = l := by
  simp [rotate, hc]

theorem prune_closed (hc : l.closed = true) (before : Cursor) (order : List Nat) (rm : Nat → Option String) :
    (l.prune before order rm).1 = l := by
  unfold prune
  split
  · rfl
  · rfl

theorem markSize_closed (hc : l.closed = true) (size : Size) : l.markSize size = l := by simp [markSize, hc]

theorem close_closed (hc : l.closed = true) (err : Option Err) : l.close err = l := by simp [close, hc]

/-! ## Appending -/

/-- An append is refused, fails on the way, or adds its data to the active segment. -/
theorem append_cases (l : OutputLog) (data : List Byte) (w : Write) :
    ((l.append data w).1 = l ∧ (data = [] ∨ l.closed = true ∧ (l.append data w).2 ≠ none)) ∨
    (l.closed = false ∧ data ≠ [] ∧ ∃ n m, w = .short n m ∧ (l.append data w).2 ≠ none ∧
      (l.append data w).1 =
        failLocked { l with files := Function.update l.files l.generation (l.files l.generation ++ data.take n) }
          (.other ("append output: " ++ m))) ∨
    (l.closed = false ∧ data ≠ [] ∧ (l.append data w).2 = none ∧ (l.append data w).1 =
      signalLocked { l with
        files := Function.update l.files l.generation (l.files l.generation ++ data)
        segments := Function.update l.segments l.generation (some ((l.segments l.generation).getD 0 + data.length)) }) := by
  by_cases hd : data = []
  · left; simp [OutputLog.append, hd]
  by_cases hc : l.closed = true
  · left; simp [OutputLog.append, hd, hc]
  have hc' : l.closed = false := by simpa using hc
  cases w with
  | short n m =>
    right; left
    exact ⟨hc', hd, n, m, rfl, by simp [OutputLog.append, hd, hc'], by simp [OutputLog.append, hd, hc']⟩
  | full => right; right; exact ⟨hc', hd, by simp [OutputLog.append, hd, hc'], by simp [OutputLog.append, hd, hc']⟩

theorem Keeps.append (h : Keeps l wrote) (data : List Byte) (w : Write) (size : Size) :
    Keeps (l.append data w).1
      (if (l.append data w).2 = none then extend wrote l.generation data size else wrote) := by
  rcases append_cases l data w with ⟨he, hd | ⟨hc, hn⟩⟩ | ⟨hc, hd, n, m, hw, hn, he⟩ | ⟨hc, hd, hn, he⟩
  · subst hd; rw [he]; simpa using h
  · rw [he, if_neg hn]; exact h
  · -- the prefix that reached the file lies behind everything the index knows of
    rw [he, if_neg hn]
    refine ⟨h.index, h.active, h.future, fun g => ?_, (fun hc' => by cases hc'), h.entries, h.bound, ?_⟩
    · simp only [failLocked, signalLocked]
      by_cases e : g = l.generation
      · subst e; rw [Function.update_self]; exact (h.content _).trans (List.prefix_append _ _)
      · rw [Function.update_of_ne e]; exact h.content g
    · have := h.notEof
      cases hl : l.err <;> simp_all [failLocked, signalLocked]
  · rw [he, if_pos hn]
    have hsize := h.size
    have hfile := h.exact hc
    refine ⟨fun g n hg => ?_, ?_, fun g hg => ?_, fun g => ?_, fun _ => ?_, fun g h0 hg hl => ?_, h.bound, h.notEof⟩
    · simp only [signalLocked] at hg
      by_cases e : g = l.generation
      · subst e
        rw [Function.update_self, hsize] at hg
        have hpos := (h.index _ _ hsize).2
        rw [extend_self]
        simp only [Option.getD_some, Option.some.injEq, List.length_append, List.length_map] at hg ⊢
        exact ⟨hg.symm, hpos⟩
      · rw [Function.update_of_ne e] at hg
        rw [extend_ne _ _ e]; exact h.index g n hg
    · simp [signalLocked]
    · have hne : g ≠ l.generation := by simp only [signalLocked] at hg; omega
      rw [extend_ne _ _ hne]; exact h.future g hg
    · simp only [signalLocked]
      by_cases e : g = l.generation
      · subst e
        rw [Function.update_self, extend_self, hfile]
        simp [Function.comp_def]
      · rw [Function.update_of_ne e, extend_ne _ _ e]; exact h.content g
    · simp only [signalLocked]
      rw [Function.update_self, extend_self, hfile]
      simp [Function.comp_def]
    · simp only [signalLocked]
      by_cases e : g = l.generation
      · subst e; simp
      · rw [Function.update_of_ne e]; exact h.entries g h0 hg hl

/-! ## Opening -/

theorem scan_some {files : Nat → List Byte} {linked : Nat → Bool} {generation g n : Nat}
    (h : scan files linked generation g = some n) :
    0 < g ∧ g ≤ generation ∧ linked g = true ∧ n = (files g).length := by
  unfold scan at h
  split at h
  · rename_i hg
    simp only [Option.some.injEq] at h
    exact ⟨hg.1, hg.2.1, hg.2.2, h.symm⟩
  · cases h

/-- What opening gives: the scan of the directory, with nothing recorded yet. -/
theorem openOutputLog_ok {files : Nat → List Byte} {linked : Nat → Bool} {generation : Nat} {create : Bool}
    (h : openOutputLog files linked generation create = .ok l) :
    l.generation = generation ∧ l.segments = scan l.files l.linked generation ∧
      (l.segments generation).isSome = true ∧ l.closed = false ∧ l.err = none ∧ l.sizes = [] := by
  unfold openOutputLog at h
  split at h
  · cases h
  split at h
  · cases h
  simp only at h
  split at h
  · cases h
  · rename_i n hn
    simp only [Except.ok.injEq] at h
    subst h
    exact ⟨rfl, rfl, by simp [hn], rfl, rfl, rfl⟩

/-- The record of a log just opened: its indexed files, at sizes not known. -/
def adopted (l : OutputLog) : Wrote :=
  fun g => if (l.segments g).isSome then (l.files g).map fun b => (b, 0) else []

theorem keeps_open {files : Nat → List Byte} {linked : Nat → Bool} {generation : Nat} {create : Bool}
    (hb : generation < 2 ^ 64) (h : openOutputLog files linked generation create = .ok l) :
    Keeps l (adopted l) := by
  obtain ⟨hg, hs, ha, hc, he, -⟩ := openOutputLog_ok h
  subst hg
  refine ⟨fun g n hn => ?_, ha, fun g hlt => ?_, fun g => ?_, fun _ => ?_, fun g h0 hle hl => ?_, hb, by simp [he]⟩
  · have hn' := hn
    rw [hs] at hn'
    obtain ⟨h0, hle, -, rfl⟩ := scan_some hn'
    exact ⟨by simp [adopted, hn], h0, hle⟩
  · have : l.segments g = none := by rw [hs, scan, if_neg]; omega
    simp [adopted, this]
  · unfold adopted
    split
    · simp [Function.comp_def]
    · simp
  · simp [adopted, ha, Function.comp_def]
  · rw [hs, scan, if_pos ⟨h0, hle, hl⟩]; rfl

/-- What `createOutputLog` makes. -/
def created : OutputLog :=
  let linked := Function.update (fun _ => false) 1 true
  let files := Function.update (fun _ => []) 1 []
  ⟨1, scan files linked 1, false, none, [], 0, files, linked⟩

theorem created_eq : createOutputLog = .ok created := rfl

/-! ## Rotation -/

/-- A rotation changes nothing, or opens the next generation. -/
theorem rotate_cases (hb : l.generation < 2 ^ 64) (fail : Option String) :
    (l.rotate fail).1 = l ∨
    (l.closed = false ∧ l.linked (l.generation + 1) = false ∧ l.generation + 1 < 2 ^ 64 ∧ (l.rotate fail).1 =
      signalLocked { l with
        generation := l.generation + 1
        segments := Function.update l.segments (l.generation + 1) (some 0)
        sizes := carrySize l.sizes (l.generation + 1)
        files := Function.update l.files (l.generation + 1) []
        linked := Function.update l.linked (l.generation + 1) true }) := by
  by_cases hc : l.closed = true
  · left; exact rotate_closed hc fail
  have hc' : l.closed = false := by simpa using hc
  by_cases hw : l.generation + 1 = 2 ^ 64
  · left; simp [rotate, hc', hw]
  have hmod : (l.generation + 1) % 2 ^ 64 = l.generation + 1 := Nat.mod_eq_of_lt (by omega)
  unfold rotate
  rw [hmod]
  by_cases hl : l.linked (l.generation + 1) = true
  · left; simp [hc', hl]
  cases fail with
  | some m => left; simp [hc', hl]
  | none => right; exact ⟨hc', by simpa using hl, by omega, by simp [hc', hl]⟩

theorem Keeps.rotate (h : Keeps l wrote) (fail : Option String) : Keeps (l.rotate fail).1 wrote := by
  rcases rotate_cases h.bound fail with he | ⟨-, -, hb, he⟩
  · rw [he]; exact h
  rw [he]
  have hnew : wrote (l.generation + 1) = [] := h.future _ (by omega)
  refine ⟨fun g n hg => ?_, by simp [signalLocked], fun g hg => h.future g ?_, fun g => ?_, fun _ => ?_,
    fun g h0 hle hl => ?_, hb, h.notEof⟩
  · simp only [signalLocked] at hg ⊢
    by_cases e : g = l.generation + 1
    · subst e
      rw [Function.update_self] at hg
      simp only [Option.some.injEq] at hg
      exact ⟨by rw [hnew]; exact hg.symm, by omega, Nat.le_refl _⟩
    · rw [Function.update_of_ne e] at hg
      obtain ⟨h1, h2, h3⟩ := h.index g n hg
      exact ⟨h1, h2, by omega⟩
  · simp only [signalLocked] at hg; omega
  · simp only [signalLocked]
    by_cases e : g = l.generation + 1
    · subst e; rw [hnew]; simp
    · rw [Function.update_of_ne e]; exact h.content g
  · simp [signalLocked, hnew]
  · simp only [signalLocked] at hle hl ⊢
    by_cases e : g = l.generation + 1
    · subst e; simp
    · rw [Function.update_of_ne e] at hl ⊢
      exact h.entries g h0 (by omega) hl

/-! ## Pruning -/

/-- What a prune may do: take generations other than the active one out of the index
    and the directory, and marks of generations no longer indexed. -/
structure Pruned (l l' : OutputLog) : Prop where
  generation : l'.generation = l.generation
  closed : l'.closed = l.closed
  err : l'.err = l.err
  files : l'.files = l.files
  entry : ∀ g, (l'.segments g = l.segments g ∧ l'.linked g = l.linked g) ∨
    (g ≠ l.generation ∧ l'.segments g = none ∧ l'.linked g = false)
  sizes : l'.sizes = l.sizes ∨ l'.sizes = l.sizes.filter fun m => (l'.segments m.cursor.generation).isSome

theorem Pruned.refl (l : OutputLog) : Pruned l l := ⟨rfl, rfl, rfl, rfl, fun _ => .inl ⟨rfl, rfl⟩, .inl rfl⟩

theorem pruneLoop_spec (before : Nat) (rm : Nat → Option String) :
    ∀ (order : List Nat) (l : OutputLog), Pruned l (pruneLoop before rm l order).1 ∧
      (pruneLoop before rm l order).1.sizes = l.sizes := by
  intro order
  induction order with
  | nil => intro l; exact ⟨.refl l, rfl⟩
  | cons g rest ih =>
    intro l
    simp only [pruneLoop]
    split
    · exact ih l
    · rename_i hg
      split
      · exact ⟨.refl l, rfl⟩
      · obtain ⟨h, hsz⟩ := ih
          { l with linked := Function.update l.linked g false, segments := Function.update l.segments g none }
        refine ⟨⟨h.generation, h.closed, h.err, h.files, fun k => ?_, .inl hsz⟩, hsz⟩
        rcases h.entry k with ⟨h1, h2⟩ | ⟨h1, h2, h3⟩
        · by_cases e : k = g
          · subst e
            simp only [Function.update_self] at h1 h2
            exact .inr ⟨by omega, h1, h2⟩
          · simp only [Function.update_of_ne e] at h1 h2
            exact .inl ⟨h1, h2⟩
        · exact .inr ⟨h1, h2, h3⟩

theorem prune_spec (l : OutputLog) (before : Cursor) (order : List Nat) (rm : Nat → Option String) :
    Pruned l (l.prune before order rm).1 := by
  unfold prune
  split
  · exact .refl l
  split
  · exact .refl l
  split
  · exact .refl l
  obtain ⟨h, hsz⟩ := pruneLoop_spec before.generation rm order l
  split
  · rename_i l' e hp; rw [hp] at h; exact h
  · rename_i l' hp
    rw [hp] at h hsz
    exact ⟨h.generation, h.closed, h.err, h.files, h.entry, .inr (by simp only [signalLocked]; rw [hsz])⟩

theorem Keeps.pruned {l' : OutputLog} (h : Keeps l wrote) (hp : Pruned l l') : Keeps l' wrote := by
  refine ⟨fun g n hg => ?_, ?_, fun g hg => h.future g (hp.generation ▸ hg), fun g => hp.files ▸ h.content g,
    fun hc => ?_, fun g h0 hle hl => ?_, hp.generation ▸ h.bound, hp.err ▸ h.notEof⟩
  · rw [hp.generation]
    rcases hp.entry g with ⟨h1, -⟩ | ⟨-, h1, -⟩
    · exact h.index g n (h1 ▸ hg)
    · rw [h1] at hg; cases hg
  · rw [hp.generation]
    rcases hp.entry l.generation with ⟨h1, -⟩ | ⟨h1, -⟩
    · rw [h1]; exact h.active
    · exact absurd rfl h1
  · rw [hp.files, hp.generation]; exact h.exact (hp.closed ▸ hc)
  · rw [hp.generation] at hle
    rcases hp.entry g with ⟨h1, h2⟩ | ⟨-, -, h2⟩
    · rw [h1]; exact h.entries g h0 hle (h2 ▸ hl)
    · rw [h2] at hl; cases hl

/-! ## Marking and closing -/

/-- A mark touches the marks only. -/
theorem markSize_eq (l : OutputLog) (size : Size) :
    ∃ sizes changed, l.markSize size = { l with sizes := sizes, changed := changed } := by
  unfold markSize
  split
  · exact ⟨_, _, rfl⟩
  simp only
  split
  · exact ⟨_, _, rfl⟩
  split
  · exact ⟨_, _, rfl⟩
  split
  · exact ⟨_, _, rfl⟩
  · exact ⟨_, _, rfl⟩

theorem Keeps.markSize (h : Keeps l wrote) (size : Size) : Keeps (l.markSize size) wrote := by
  obtain ⟨sizes, changed, he⟩ := markSize_eq l size
  rw [he]
  exact ⟨h.index, h.active, h.future, h.content, h.exact, h.entries, h.bound, h.notEof⟩

theorem Keeps.close (h : Keeps l wrote) {err : Option Err} (he : err ≠ some .eof) : Keeps (l.close err) wrote := by
  unfold OutputLog.close
  split
  · exact h
  · exact ⟨h.index, h.active, h.future, h.content, (fun hc => by cases hc), h.entries, h.bound, he⟩

end Ghostline.Output
