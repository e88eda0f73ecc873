/-
  Ghostline.Lib.Glob — shell patterns for file names, over bytes: matching a name
  (`path/filepath`: `Match`) and finding the files of a tree that match (`Glob`).

  A pattern is a sequence of chunks with stars between them. A chunk is matched from left to
  right without going back; a star takes the shortest text behind which its chunk matches.
  Patterns with a class that is not closed or a backslash at the end are bad, and so are
  found to be even behind a mismatch.

  - `matchName_star`: text without a special byte on both sides of one star matches the names
    that begin and end with it.
  - `glob_join`: the entries of those directories are looked through whose path matches that
    of the directory; `searchIn_eq`, `searchIn_error`: exactly the entries are found that match,
    unless one of them shows that the pattern is bad.
-/

import Mathlib.Data.List.Sort
import Ghostline.Lib.Trim

namespace Ghostline.Lib.Glob

/-! ## Runes -/

def runeError : Nat := 0xfffd

def isTail (b : UInt8) : Bool := 0x80 ≤ b && b ≤ 0xbf

/-- The first rune of a text in UTF-8, and in how many bytes; an invalid one is one byte long. -/
def decodeRune : List UInt8 → Nat × Nat
  | [] => (runeError, 0)
  | a :: s =>
    if a < 0x80 then (a.toNat, 1)
    else if 0xc2 ≤ a ∧ a ≤ 0xdf then
      match s with
      | b :: _ => if isTail b then (a.toNat % 32 * 64 + b.toNat % 64, 2) else (runeError, 1)
      | _ => (runeError, 1)
    else if 0xe0 ≤ a ∧ a ≤ 0xef then
      match s with
      | b :: c :: _ =>
        -- neither an overlong form nor a surrogate
        if (a = 0xe0 → 0xa0 ≤ b) ∧ (a = 0xed → b ≤ 0x9f) ∧ isTail b ∧ isTail c then
          (a.toNat % 16 * 4096 + b.toNat % 64 * 64 + c.toNat % 64, 3)
        else (runeError, 1)
      | _ => (runeError, 1)
    else if 0xf0 ≤ a ∧ a ≤ 0xf4 then
      match s with
      | b :: c :: d :: _ =>
        if (a = 0xf0 → 0x90 ≤ b) ∧ (a = 0xf4 → b ≤ 0x8f) ∧ isTail b ∧ isTail c ∧ isTail d then
          (a.toNat % 8 * 262144 + b.toNat % 64 * 4096 + c.toNat % 64 * 64 + d.toNat % 64, 4)
        else (runeError, 1)
      | _ => (runeError, 1)
    else (runeError, 1)

/-! ## Patterns -/

def slash : UInt8 := 0x2f
def star : UInt8 := 0x2a
def question : UInt8 := 0x3f
def bracket : UInt8 := 0x5b
def backslash : UInt8 := 0x5c
def closing : UInt8 := 0x5d
def caret : UInt8 := 0x5e
def minus : UInt8 := 0x2d

inductive BadPattern where
  | bad
  deriving DecidableEq, Repr

/-- A character of a class, which may be escaped. It is not the last one of the chunk. -/
def getEsc (chunk : List UInt8) : Except BadPattern (Nat × List UInt8) :=
  match chunk with
  | [] => .error .bad
  | c :: rest =>
    if c = minus ∨ c = closing then .error .bad
    else
      let chunk := if c = backslash then rest else chunk
      let (r, n) := decodeRune chunk
      if chunk = [] ∨ r = runeError ∧ n = 1 ∨ chunk.drop n = [] then .error .bad else .ok (r, chunk.drop n)

/-- The ranges of a class up to its end, which is not in front of the first one. Every round
    takes a byte of the chunk. -/
def ranges (r : Nat) : Nat → List UInt8 → Bool → Bool → Except BadPattern (Bool × List UInt8)
  | 0, _, _, _ => .error .bad
  | fuel + 1, chunk, any, found =>
    if any = true ∧ chunk.head? = some closing then .ok (found, chunk.tail)
    else do
      let (lo, chunk) ← getEsc chunk
      let (hi, chunk) ← if chunk.head? = some minus then getEsc chunk.tail else .ok (lo, chunk)
      ranges r fuel chunk true (found || lo ≤ r && r ≤ hi)

/-- The rest of the name behind one byte; `none` once the match has failed. -/
def literal (c : UInt8) : Option (List UInt8) → Option (List UInt8)
  | some (b :: s) => if c = b then some s else none
  | _ => none

/-- What is left of the name behind a chunk. After a mismatch the chunk is only checked. Every
    round takes a byte of the chunk. -/
def matchChunkFrom : Nat → List UInt8 → Option (List UInt8) → Except BadPattern (Option (List UInt8))
  | 0, _, s => .ok s
  | _ + 1, [], s => .ok s
  | fuel + 1, c :: chunk, s =>
    let s := s.filter (· ≠ [])
    if c = bracket then do
      let (r, n) := decodeRune (s.getD [])
      let negated : Bool := chunk.head? = some caret
      let chunk := if negated then chunk.tail else chunk
      let (found, chunk) ← ranges r chunk.length chunk false false
      matchChunkFrom fuel chunk (if found = negated then none else s.map (·.drop n))
    else if c = question then
      matchChunkFrom fuel chunk ((s.filter (·.head? ≠ some slash)).map fun s => s.drop (decodeRune s).2)
    else if c = backslash then
      match chunk with
      | [] => .error .bad
      | c :: chunk => matchChunkFrom fuel chunk (literal c s)
    else matchChunkFrom fuel chunk (literal c s)

def matchChunk (chunk name : List UInt8) : Except BadPattern (Option (List UInt8)) :=
  matchChunkFrom chunk.length chunk (some name)

/-- Up to the next star that is neither escaped nor in a class. -/
def scan : Bool → List UInt8 → List UInt8 × List UInt8
  | _, [] => ([], [])
  | inrange, [c] => if c = star ∧ inrange = false then ([], [c]) else ([c], [])
  | inrange, c :: d :: s =>
    if c = star ∧ inrange = false then ([], c :: d :: s)
    else if c = backslash then
      let (chunk, rest) := scan inrange s
      (c :: d :: chunk, rest)
    else
      let (chunk, rest) := scan (if c = bracket then true else if c = closing then false else inrange) (d :: s)
      (c :: chunk, rest)

/-- The next chunk, and whether there is a star in front of it. -/
def scanChunk (pattern : List UInt8) : Bool × List UInt8 × List UInt8 :=
  (pattern.head? = some star, scan false (pattern.dropWhile (· = star)))

/-- Behind a star: what is left of the name behind the first occurrence of the chunk past its
    first byte, at its end if this is the last chunk. A star does not take a slash. -/
def skip (chunk : List UInt8) (last : Bool) : List UInt8 → Except BadPattern (Option (List UInt8))
  | [] => .ok none
  | b :: name =>
    if b = slash then .ok none
    else do
      match ← matchChunk chunk name with
      | some t => if last = true ∧ t ≠ [] then skip chunk last name else .ok (some t)
      | none => skip chunk last name

/-- Where there is no star nothing is skipped. -/
def next (starred : Bool) (chunk : List UInt8) (last : Bool) (name : List UInt8) :
    Except BadPattern (Option (List UInt8)) :=
  if starred then skip chunk last name else .ok none

/-- The chunks of a pattern that is not matched any further are well formed. -/
def check : Nat → List UInt8 → Except BadPattern Unit
  | 0, _ => .ok ()
  | fuel + 1, pattern =>
    if pattern = [] then .ok ()
    else do
      let (_, chunk, rest) := scanChunk pattern
      let _ ← matchChunk chunk []
      check fuel rest

/-- Every round takes a byte of the pattern. -/
def matchesFrom : Nat → List UInt8 → List UInt8 → Except BadPattern Bool
  | 0, _, name => .ok (name = [])
  | fuel + 1, pattern, name =>
    if pattern = [] then .ok (name = [])
    else do
      let (starred, chunk, rest) := scanChunk pattern
      if starred = true ∧ chunk = [] then .ok (slash ∉ name)
      else
        let t ← matchChunk chunk name
        match t.filter fun t => t = [] ∨ rest ≠ [] with
        | some t => matchesFrom fuel rest t
        | none =>
          match ← next starred chunk (rest = []) name with
          | some t => matchesFrom fuel rest t
          | none => do
            check fuel rest
            .ok false

/-- `filepath.Match` -/
def matchName (pattern name : List UInt8) : Except BadPattern Bool := matchesFrom pattern.length pattern name

/-! ## Text without special bytes -/

def isMeta (c : UInt8) : Bool := c == star || c == question || c == bracket || c == backslash

def hasMeta (s : List UInt8) : Bool := s.any isMeta

theorem hasMeta_cons {c : UInt8} {s : List UInt8} :
    hasMeta (c :: s) = false ↔ (c ≠ star ∧ c ≠ question ∧ c ≠ bracket ∧ c ≠ backslash) ∧ hasMeta s = false := by
  simp [hasMeta, isMeta, and_assoc]

theorem hasMeta_append {s t : List UInt8} : hasMeta (s ++ t) = false ↔ hasMeta s = false ∧ hasMeta t = false := by
  simp [hasMeta, List.any_append]

theorem scan_plain {s : List UInt8} (hs : hasMeta s = false) (inrange : Bool) : scan inrange s = (s, []) := by
  induction s generalizing inrange with
  | nil => rfl
  | cons c s ih =>
    obtain ⟨⟨hstar, -, -, hback⟩, hrest⟩ := hasMeta_cons.mp hs
    cases s with
    | nil => exact if_neg fun h => hstar h.1
    | cons d s =>
      unfold scan
      rw [if_neg fun h => hstar h.1, if_neg hback, ih hrest]

theorem scan_plain_star {s : List UInt8} (hs : hasMeta s = false) (t : List UInt8) :
    scan false (s ++ star :: t) = (s, star :: t) := by
  induction s with
  | nil =>
    cases t with
    | nil => rfl
    | cons d t => exact if_pos ⟨rfl, rfl⟩
  | cons c s ih =>
    obtain ⟨⟨hstar, -, hbracket, hback⟩, hrest⟩ := hasMeta_cons.mp hs
    obtain ⟨d, u, hu⟩ : ∃ d u, s ++ star :: t = d :: u := by
      cases s with
      | nil | cons d s => exact ⟨_, _, rfl⟩
    have ih := ih hrest
    rw [List.cons_append, hu]
    rw [hu] at ih
    unfold scan
    rw [if_neg fun h => hstar h.1, if_neg hback, if_neg hbracket, ite_self, ih]

theorem matchChunkFrom_plain {chunk : List UInt8} (hc : hasMeta chunk = false) (name : Option (List UInt8)) :
    matchChunkFrom chunk.length chunk name =
      .ok (name.bind fun s => if chunk <+: s then some (s.drop chunk.length) else none) := by
  induction chunk generalizing name with
  | nil => cases name <;> simp [matchChunkFrom]
  | cons c chunk ih =>
    obtain ⟨⟨-, hquestion, hbracket, hback⟩, hrest⟩ := hasMeta_cons.mp hc
    rw [List.length_cons]
    unfold matchChunkFrom
    simp only [if_neg hbracket, if_neg hquestion, if_neg hback, ih hrest]
    congr 1
    cases name with
    | none => rfl
    | some s =>
      cases s with
      | nil => simp [literal]
      | cons b s =>
        have hfilter : (some (b :: s)).filter (· ≠ []) = some (b :: s) := rfl
        rw [hfilter]
        by_cases hb : c = b
        · simp [literal, hb]
        · simp [literal, hb]

theorem matchChunk_plain {chunk : List UInt8} (hc : hasMeta chunk = false) (name : List UInt8) :
    matchChunk chunk name = .ok (if chunk <+: name then some (name.drop chunk.length) else none) :=
  matchChunkFrom_plain hc (some name)

/-! ## One star -/

/-- The chunk is at the end of the name, behind at least one byte and no slash. -/
def Past (chunk name : List UInt8) : Prop := ∃ mid, mid ≠ [] ∧ slash ∉ mid ∧ name = mid ++ chunk

theorem past_cons {chunk name : List UInt8} {b : UInt8} :
    Past chunk (b :: name) ↔ b ≠ slash ∧ (name = chunk ∨ Past chunk name) := by
  constructor
  · rintro ⟨mid, hne, hslash, heq⟩
    cases mid with
    | nil => exact absurd rfl hne
    | cons c mid =>
      obtain ⟨rfl, htail⟩ := List.cons.inj heq
      rw [List.mem_cons, not_or] at hslash
      refine ⟨Ne.symm hslash.1, ?_⟩
      cases mid with
      | nil => exact .inl htail
      | cons d mid => exact .inr ⟨d :: mid, List.cons_ne_nil _ _, hslash.2, htail⟩
  · rintro ⟨hb, rfl | ⟨mid, hne, hslash, rfl⟩⟩
    · exact ⟨[b], List.cons_ne_nil _ _, by simpa using hb.symm, rfl⟩
    · exact ⟨b :: mid, List.cons_ne_nil _ _, by simpa using ⟨hb.symm, hslash⟩, rfl⟩

/-- The last chunk is looked for at the end of the name. -/
theorem skip_plain {chunk : List UInt8} (hc : hasMeta chunk = false) (name : List UInt8) :
    Past chunk name ∧ skip chunk true name = .ok (some []) ∨ ¬ Past chunk name ∧ skip chunk true name = .ok none := by
  induction name with
  | nil =>
    refine .inr ⟨?_, rfl⟩
    rintro ⟨mid, hne, -, heq⟩
    exact hne (List.append_eq_nil_iff.mp heq.symm).1
  | cons b name ih =>
    rw [past_cons]
    unfold skip
    by_cases hb : b = slash
    · rw [if_pos hb]
      exact .inr ⟨fun h => h.1 hb, rfl⟩
    rw [if_neg hb, matchChunk_plain hc]
    by_cases heq : name = chunk
    · subst heq
      refine .inl ⟨⟨hb, .inl rfl⟩, ?_⟩
      simp [bind, Except.bind]
    · -- the chunk is not here, or there is more behind it
      have hnext : (do
          match ← (.ok (if chunk <+: name then some (name.drop chunk.length) else none) : Except BadPattern _) with
          | some t => if true = true ∧ t ≠ [] then skip chunk true name else .ok (some t)
          | none => skip chunk true name) = skip chunk true name := by
        by_cases hpre : chunk <+: name
        · obtain ⟨t, rfl⟩ := hpre
          have ht : t ≠ [] := fun h => heq (by rw [h, List.append_nil])
          simp [bind, Except.bind, ht]
        · simp [bind, Except.bind, hpre]
      rw [hnext]
      simpa only [hb, heq, ne_eq, not_false_eq_true, true_and, false_or] using ih

theorem matchesFrom_nil (fuel : Nat) (name : List UInt8) : matchesFrom fuel [] name = .ok (name = []) := by
  cases fuel with
  | zero => rfl
  | succ fuel => rfl

theorem check_nil (fuel : Nat) : check fuel [] = .ok () := by
  cases fuel with
  | zero => rfl
  | succ fuel => rfl

theorem scanChunk_star {s : List UInt8} (hs : hasMeta s = false) : scanChunk (star :: s) = (true, s, []) := by
  have hdrop : s.dropWhile (· = star) = s := by
    cases s with
    | nil => rfl
    | cons c s => exact List.dropWhile_cons_of_neg (by simpa using (hasMeta_cons.mp hs).1.1)
  unfold scanChunk
  rw [List.dropWhile_cons_of_pos (by decide), hdrop, scan_plain hs]
  rfl

theorem scanChunk_plain {s : List UInt8} (hs : hasMeta s = false) (hne : s ≠ []) (t : List UInt8) :
    scanChunk (s ++ star :: t) = (false, s, star :: t) := by
  cases s with
  | nil => exact absurd rfl hne
  | cons c s =>
    have hc := (hasMeta_cons.mp hs).1.1
    unfold scanChunk
    rw [List.cons_append, List.dropWhile_cons_of_neg (by simpa using hc), ← List.cons_append, scan_plain_star hs]
    simp [hc]

section

variable {pattern name chunk rest t : List UInt8} {starred : Bool} {left : Option (List UInt8)} (fuel : Nat)
  (hne : pattern ≠ []) (hscan : scanChunk pattern = (starred, chunk, rest)) (hstar : ¬ (starred = true ∧ chunk = []))
  (hleft : matchChunk chunk name = .ok left)

include hne hscan hstar hleft

/-- The chunk is here. -/
theorem matchesFrom_here (ht : left = some t) (hlast : t = [] ∨ rest ≠ []) :
    matchesFrom (fuel + 1) pattern name = matchesFrom fuel rest t := by
  have hfilter : left.filter (fun t => t = [] ∨ rest ≠ []) = some t := by
    rw [ht, Option.filter_some, if_pos (decide_eq_true hlast)]
  conv_lhs => unfold matchesFrom
  rw [if_neg hne, hscan]
  simp only [if_neg hstar, hleft, bind, Except.bind, hfilter]

/-- The chunk is not here: a star goes on to the next occurrence. -/
theorem matchesFrom_next {found : Option (List UInt8)} (ht : ∀ t, left = some t → t ≠ [] ∧ rest = [])
    (hnext : next starred chunk (rest = []) name = .ok found) : matchesFrom (fuel + 1) pattern name =
      found.elim ((check fuel rest).map fun _ => false) (matchesFrom fuel rest) := by
  have hfilter : left.filter (fun t => t = [] ∨ rest ≠ []) = none := by
    cases left with
    | none => rfl
    | some t =>
      obtain ⟨h1, h2⟩ := ht t rfl
      rw [Option.filter_some, if_neg (by simp [h1, h2])]
  conv_lhs => unfold matchesFrom
  rw [if_neg hne, hscan]
  simp only [if_neg hstar, hleft, bind, Except.bind, hfilter, hnext]
  cases found with
  | some t => rfl
  | none => cases check fuel rest <;> rfl

end

theorem matchesFrom_star {s : List UInt8} (hs : hasMeta s = false) (hne : s ≠ []) (fuel : Nat) (name : List UInt8) :
    ∃ b, matchesFrom (fuel + 1) (star :: s) name = .ok b ∧ (b = true ↔ ∃ mid, slash ∉ mid ∧ name = mid ++ s) := by
  have hpast : (∃ mid, slash ∉ mid ∧ name = mid ++ s) ↔ name = s ∨ Past s name := by
    constructor
    · rintro ⟨mid, hslash, rfl⟩
      by_cases hm : mid = []
      · exact .inl (by rw [hm, List.nil_append])
      · exact .inr ⟨mid, hm, hslash, rfl⟩
    · rintro (rfl | ⟨mid, -, hslash, heq⟩)
      · exact ⟨[], List.not_mem_nil, rfl⟩
      · exact ⟨mid, hslash, heq⟩
  have hround : ¬ (true = true ∧ s = []) := fun h => hne h.2
  rw [hpast]
  by_cases heq : name = s
  · have hleft : (if s <+: name then some (name.drop s.length) else none) = some [] := by simp [heq]
    refine ⟨true, ?_, by simp [heq]⟩
    rw [matchesFrom_here fuel (List.cons_ne_nil _ _) (scanChunk_star hs) hround (matchChunk_plain hs name) hleft
      (.inl rfl), matchesFrom_nil]
    rfl
  · have hlonger : ∀ t, (if s <+: name then some (name.drop s.length) else none) = some t →
        t ≠ [] ∧ ([] : List UInt8) = [] := by
      intro t ht
      refine ⟨?_, rfl⟩
      rintro rfl
      split at ht
      · rename_i hpre
        obtain ⟨u, rfl⟩ := hpre
        simp at ht
        exact heq (by rw [ht, List.append_nil])
      · cases ht
    have hnext : ∀ found, skip s true name = .ok found → matchesFrom (fuel + 1) (star :: s) name =
        found.elim ((check fuel []).map fun _ => false) (matchesFrom fuel []) := fun found hskip =>
      matchesFrom_next fuel (List.cons_ne_nil _ _) (scanChunk_star hs) hround (matchChunk_plain hs name) hlonger hskip
    simp only [heq, false_or]
    rcases skip_plain hs name with ⟨hp, hskip⟩ | ⟨hp, hskip⟩
    · refine ⟨true, ?_, by simp [hp]⟩
      rw [hnext _ hskip, Option.elim_some, matchesFrom_nil]
      rfl
    · refine ⟨false, ?_, by simp [hp]⟩
      rw [hnext _ hskip, Option.elim_none, check_nil]
      rfl

/-- One star between two texts without special bytes. -/
theorem matchName_star {s t : List UInt8} (hs : hasMeta s = false) (ht : hasMeta t = false) (hne : t ≠ [])
    (name : List UInt8) : ∃ b, matchName (s ++ star :: t) name = .ok b ∧
      (b = true ↔ ∃ mid, slash ∉ mid ∧ name = s ++ (mid ++ t)) := by
  unfold matchName
  by_cases hempty : s = []
  · subst hempty
    exact matchesFrom_star ht hne t.length name
  obtain ⟨fuel, hfuel⟩ : ∃ fuel, (s ++ star :: t).length = fuel + 1 + 1 := by
    refine ⟨s.length + t.length - 1, ?_⟩
    have := List.length_pos_of_ne_nil hempty
    simp only [List.length_append, List.length_cons]
    omega
  have hround : ¬ (false = true ∧ s = []) := fun h => hempty h.2
  have hpattern : s ++ star :: t ≠ [] := List.append_ne_nil_of_left_ne_nil hempty _
  rw [hfuel]
  by_cases hpre : s <+: name
  · obtain ⟨u, rfl⟩ := hpre
    have hleft : (if s <+: s ++ u then some ((s ++ u).drop s.length) else none) = some u := by simp
    rw [matchesFrom_here _ hpattern (scanChunk_plain hs hempty t) hround (matchChunk_plain hs _) hleft
      (.inr (List.cons_ne_nil _ _))]
    simp only [List.append_cancel_left_eq]
    exact matchesFrom_star ht hne fuel u
  · have hleft : ∀ u, (if s <+: name then some (name.drop s.length) else none) = some u →
        u ≠ [] ∧ star :: t = [] := by
      intro u hu
      rw [if_neg hpre] at hu
      cases hu
    have hcheck : check (fuel + 1) (star :: t) = .ok () := by
      unfold check
      rw [if_neg (List.cons_ne_nil _ _), scanChunk_star ht]
      simp only [matchChunk_plain ht, bind, Except.bind, check_nil]
    refine ⟨false, ?_, ?_⟩
    · rw [matchesFrom_next _ hpattern (scanChunk_plain hs hempty t) hround (matchChunk_plain hs _) hleft rfl, hcheck]
      rfl
    · simp only [Bool.false_eq_true, false_iff]
      rintro ⟨mid, -, rfl⟩
      exact hpre (List.prefix_append _ _)

/-! ## Finding files -/

/-- What there is at which path: the names in a directory that can be read, and what
    `os.Lstat` finds. -/
structure Tree where
  entries : List UInt8 → Option (List (List UInt8))
  lstat : List UInt8 → Bool

/-- `filepath.Join` of a clean path and the name of an entry. -/
def join (dir name : List UInt8) : List UInt8 :=
  if dir = [0x2e] then name else if dir = [slash] then slash :: name else dir ++ slash :: name

/-- The directory without the slash behind it. -/
def cleanGlobPath (dir : List UInt8) : List UInt8 :=
  if dir = [] then [0x2e] else if dir = [slash] then dir else dir.dropLast

/-- `sort.Strings` -/
def sortStrings (names : List (List UInt8)) : List (List UInt8) := names.insertionSort (· ≤ ·)

variable (tree : Tree)

/-- The entries of a directory that match, behind those found before. One that cannot be read
    has none. -/
def globIn (dir file : List UInt8) (found : List (List UInt8)) : Except BadPattern (List (List UInt8)) :=
  match tree.entries dir with
  | none => .ok found
  | some names => (sortStrings names).foldlM (fun found n => do
      if ← matchName file n then .ok (found ++ [join dir n]) else .ok found) found

/-- The directories are searched for first, if there is a special byte in their path. -/
def globWithLimit : Nat → List UInt8 → Except BadPattern (List (List UInt8))
  | 0, _ => .error .bad
  | limit + 1, pattern => do
    let _ ← matchName pattern []
    if hasMeta pattern = false then .ok (if tree.lstat pattern then [pattern] else [])
    else
      let dir := cleanGlobPath (pattern.rdropWhile (· ≠ slash))
      let file := pattern.rtakeWhile (· ≠ slash)
      if hasMeta dir = false then globIn tree dir file []
      else if dir = pattern then .error .bad
      else do
        let dirs ← globWithLimit limit dir
        dirs.foldlM (fun found d => globIn tree d file found) []

def glob (pattern : List UInt8) : Except BadPattern (List (List UInt8)) := globWithLimit tree 10000 pattern

/-- The names in a directory. One that cannot be read has none. -/
def Tree.names (dir : List UInt8) : List (List UInt8) := (tree.entries dir).getD []

/-- The directories in which an entry of `dir` is looked for. -/
def searched (dir : List UInt8) : Except BadPattern (List (List UInt8)) :=
  if hasMeta dir = false then .ok [dir] else globWithLimit tree 9999 dir

def searchIn (file : List UInt8) (dirs : List (List UInt8)) (found : List (List UInt8)) :
    Except BadPattern (List (List UInt8)) :=
  dirs.foldlM (fun found d => globIn tree d file found) found

variable {tree} {dir file : List UInt8} {names : List (List UInt8)}

theorem sortStrings_perm (names : List (List UInt8)) : (sortStrings names).Perm names :=
  List.perm_insertionSort _ names

theorem sortStrings_sorted (names : List (List UInt8)) : (sortStrings names).Pairwise (· ≤ ·) :=
  List.pairwise_insertionSort _ names

theorem append_le_append_left {s t u : List UInt8} : u ++ s ≤ u ++ t ↔ s ≤ t := by
  induction u with
  | nil => rfl
  | cons b u ih =>
    rw [List.cons_append, List.cons_append, List.cons_le_cons_iff, ih]
    simp [UInt8.lt_irrefl]

theorem append_le_append_right {s t : List UInt8} (h : s ≤ t) (hlen : s.length = t.length) (u : List UInt8) :
    s ++ u ≤ t ++ u := by
  induction s generalizing t with
  | nil =>
    obtain rfl := List.length_eq_zero_iff.mp hlen.symm
    exact List.le_refl _
  | cons a s ih =>
    cases t with
    | nil => cases hlen
    | cons b t =>
      rw [List.cons_append, List.cons_append, List.cons_le_cons_iff]
      rcases List.cons_le_cons_iff.mp h with hab | ⟨hab, hst⟩
      · exact .inl hab
      · exact .inr ⟨hab, ih hst (Nat.succ.inj hlen)⟩

/-- A round that always fails fails the loop. -/
theorem foldlM_error {α σ : Type} {f : σ → α → Except BadPattern σ} {l : List α}
    (h : ∃ x ∈ l, ∀ s, ∃ e, f s x = .error e) (s : σ) : ∃ e, l.foldlM f s = .error e := by
  induction l generalizing s with
  | nil =>
    obtain ⟨x, hx, -⟩ := h
    cases hx
  | cons y l ih =>
    obtain ⟨x, hx, hfail⟩ := h
    rw [List.foldlM_cons]
    cases hy : f s y with
    | error e => exact ⟨e, rfl⟩
    | ok s' =>
      rcases List.mem_cons.mp hx with rfl | hmem
      · obtain ⟨e, he⟩ := hfail s
        rw [hy] at he
        cases he
      · exact ih ⟨x, hmem, hfail⟩ s'

/-- Where every name is decided. -/
theorem globIn_eq {P : List UInt8 → Bool} (h : ∀ n ∈ tree.names dir, matchName file n = .ok (P n))
    (found : List (List UInt8)) :
    globIn tree dir file found = .ok (found ++ ((sortStrings (tree.names dir)).filter P).map (join dir)) := by
  have hsorted : ∀ n ∈ sortStrings (tree.names dir), matchName file n = .ok (P n) := fun n hn =>
    h n ((sortStrings_perm _).mem_iff.mp hn)
  unfold globIn
  unfold Tree.names at hsorted ⊢
  cases hentries : tree.entries dir with
  | none => simp [sortStrings]
  | some names =>
    rw [hentries] at hsorted
    simp only [Option.getD_some] at hsorted ⊢
    generalize sortStrings names = l at hsorted
    induction l generalizing found with
    | nil => simp [pure, Except.pure]
    | cons n l ih =>
      obtain ⟨hn, hl⟩ := List.forall_mem_cons.mp hsorted
      rw [List.foldlM_cons, hn]
      cases hP : P n with
      | true =>
        show List.foldlM _ (found ++ [join dir n]) l = _
        rw [ih _ hl]
        simp [hP]
      | false =>
        show List.foldlM _ found l = _
        rw [ih _ hl]
        simp [hP]

theorem globIn_error (h : ∃ n ∈ tree.names dir, ∃ e, matchName file n = .error e) (found : List (List UInt8)) :
    ∃ e, globIn tree dir file found = .error e := by
  obtain ⟨n, hn, e, he⟩ := h
  unfold Tree.names at hn
  unfold globIn
  cases hentries : tree.entries dir with
  | none =>
    rw [hentries] at hn
    cases hn
  | some names =>
    rw [hentries] at hn
    refine foldlM_error ⟨n, (sortStrings_perm names).mem_iff.mpr hn, fun s => ⟨e, ?_⟩⟩ found
    rw [he]
    rfl

theorem searchIn_eq {P : List UInt8 → Bool} {dirs : List (List UInt8)}
    (h : ∀ d ∈ dirs, ∀ n ∈ tree.names d, matchName file n = .ok (P n)) (found : List (List UInt8)) :
    searchIn tree file dirs found =
      .ok (found ++ dirs.flatMap fun d => ((sortStrings (tree.names d)).filter P).map (join d)) := by
  unfold searchIn
  induction dirs generalizing found with
  | nil => simp [pure, Except.pure]
  | cons d dirs ih =>
    obtain ⟨hd, hdirs⟩ := List.forall_mem_cons.mp h
    rw [List.foldlM_cons, globIn_eq hd, List.flatMap_cons, ← List.append_assoc]
    exact ih hdirs _

theorem searchIn_error {dirs : List (List UInt8)}
    (h : ∃ d ∈ dirs, ∃ n ∈ tree.names d, ∃ e, matchName file n = .error e) (found : List (List UInt8)) :
    ∃ e, searchIn tree file dirs found = .error e := by
  obtain ⟨d, hd, hbad⟩ := h
  exact foldlM_error ⟨d, hd, globIn_error hbad⟩ found

theorem blank_of_not_mem (hfile : slash ∉ file) : Blank (fun b : UInt8 => decide (b ≠ slash)) file := by
  intro b hb
  rw [decide_eq_true_eq]
  rintro rfl
  exact hfile hb

theorem split_at_slash {s : List UInt8} (hfile : slash ∉ file) :
    (s ++ slash :: file).rdropWhile (· ≠ slash) = s ++ [slash] ∧ (s ++ slash :: file).rtakeWhile (· ≠ slash) = file := by
  have hdrop : (s ++ slash :: file).rdropWhile (· ≠ slash) = s ++ [slash] := by
    rw [List.append_cons, rdropWhile_append_blank (blank_of_not_mem hfile)]
    exact List.rdropWhile_concat_neg _ _ _ (by simp)
  have hall := List.rdropWhile_append_rtakeWhile (p := fun b : UInt8 => decide (b ≠ slash)) (l := s ++ slash :: file)
  rw [hdrop, List.append_assoc] at hall
  exact ⟨hdrop, (List.cons.inj (List.append_cancel_left hall)).2⟩

/-- A path is taken apart into what it was joined from. -/
theorem split_join (hdir : dir ≠ []) (hfile : slash ∉ file) :
    cleanGlobPath ((join dir file).rdropWhile (· ≠ slash)) = dir ∧ (join dir file).rtakeWhile (· ≠ slash) = file := by
  unfold join
  by_cases hdot : dir = [0x2e]
  · have hdrop : file.rdropWhile (· ≠ slash) = [] := List.rdropWhile_eq_nil_iff.mpr (blank_of_not_mem hfile)
    have htake : file.rtakeWhile (· ≠ slash) = file := List.rtakeWhile_eq_self_iff.mpr (blank_of_not_mem hfile)
    rw [if_pos hdot, hdrop, htake, hdot]
    exact ⟨rfl, rfl⟩
  by_cases hroot : dir = [slash]
  · obtain ⟨hdrop, htake⟩ := split_at_slash (s := []) hfile
    rw [if_neg hdot, if_pos hroot, ← List.nil_append (slash :: file), hdrop, htake, hroot]
    exact ⟨rfl, rfl⟩
  · obtain ⟨hdrop, htake⟩ := split_at_slash (s := dir) hfile
    rw [if_neg hdot, if_neg hroot, hdrop, htake]
    refine ⟨?_, rfl⟩
    unfold cleanGlobPath
    rw [if_neg (by simp), if_neg (by simpa using hdir), List.dropLast_concat]

theorem join_append (dir s t : List UInt8) : join dir (s ++ t) = join dir s ++ t := by
  unfold join
  split
  · rfl
  · split
    · rfl
    · rw [List.append_assoc, List.cons_append]

theorem hasMeta_join {s : List UInt8} : hasMeta (join dir s) = false ↔ hasMeta dir = false ∧ hasMeta s = false := by
  have hslash : hasMeta [slash] = false := by decide
  unfold join
  by_cases hdot : dir = [0x2e]
  · rw [if_pos hdot, hdot]
    exact (and_iff_right (by decide)).symm
  by_cases hroot : dir = [slash]
  · rw [if_neg hdot, if_pos hroot, hroot, ← List.singleton_append, hasMeta_append]
  · rw [if_neg hdot, if_neg hroot, ← List.singleton_append, hasMeta_append, hasMeta_append, and_iff_right hslash]

/-- Where entries with one name are in two directories, it is the same directory. -/
theorem join_inj {d n m : List UInt8} (hdir : dir ≠ [slash]) (hne : dir ≠ []) (hn : slash ∉ n) (hm : slash ∉ m)
    (h : join d n = join dir m) : d = dir ∧ n = m := by
  obtain ⟨hclean, htake⟩ := split_join hne hm
  by_cases hd : d = []
  · -- the path of an entry of the root
    subst hd
    have hroot : cleanGlobPath ((join [slash] n).rdropWhile (· ≠ slash)) = [slash] := (split_join (by decide) hn).1
    have heq : join [] n = join [slash] n := rfl
    rw [← heq, h, hclean] at hroot
    exact absurd hroot hdir
  · obtain ⟨hclean', htake'⟩ := split_join hd hn
    rw [h] at hclean' htake'
    exact ⟨hclean'.symm.trans hclean, htake'.symm.trans htake⟩

/-- The pattern is checked as a whole; then the entries of the directories are looked through. -/
theorem glob_join (hdir : dir ≠ []) (hfile : slash ∉ file) (hmeta : hasMeta file = true) :
    glob tree (join dir file) =
      (matchName (join dir file) []).bind fun _ => (searched tree dir).bind (searchIn tree file · []) := by
  have hspecial : ¬ hasMeta (join dir file) = false := by
    rw [hasMeta_join, hmeta]
    exact fun h => Bool.noConfusion h.2
  obtain ⟨hclean, htake⟩ := split_join hdir hfile
  unfold glob globWithLimit searched
  rw [if_neg hspecial, hclean, htake]
  by_cases hplain : hasMeta dir = false
  · simp only [if_pos hplain, bind, Except.bind, searchIn, List.foldlM_cons, List.foldlM_nil, pure, Except.pure]
    split
    · rfl
    · cases globIn tree dir file [] <;> rfl
  · have hself : dir ≠ join dir file := by
      intro h
      have hdot : dir ≠ [0x2e] := fun h => hplain (by rw [h]; decide)
      have hroot : dir ≠ [slash] := fun h => hplain (by rw [h]; decide)
      have hlen := congrArg List.length h
      rw [join, if_neg hdot, if_neg hroot, List.length_append, List.length_cons] at hlen
      omega
    rw [if_neg hplain, if_neg hplain, if_neg hself]
    rfl

end Ghostline.Lib.Glob
