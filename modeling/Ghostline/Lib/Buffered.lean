/-
  Ghostline.Lib.Buffered — reading a stream through a buffer of bounded size.

  The reader has what it has buffered and a source that delivers the rest in pieces of its
  own choosing (`cuts`). `readSlice` looks for a delimiter in the buffer and fills it until
  there is one, the buffer is full, or the source is at its end; `readLine` puts the slices
  of one line together and gives up when it gets longer than its limit; `readFull` reads an
  exact number of elements. `content` is all that is still to come: each reads a front of
  it that depends on neither the buffer's size nor the pieces.
-/

import Mathlib.Data.List.TakeWhile
import Mathlib.Tactic.Common

namespace Ghostline.Lib.Buffered

structure Reader (α : Type) where
  size : Nat
  pos : 0 < size
  buffered : List α
  src : List α
  /-- One less than what each of the next reads of the source returns, if it has that much. -/
  cuts : List Nat

namespace Reader

variable {α : Type} (b : Reader α)

def content : List α := b.buffered ++ b.src

/-- A reader with a buffer of one element in front of `xs`. -/
def ofList (xs : List α) : Reader α := ⟨1, Nat.one_pos, [], xs, []⟩

/-- More arrives at the source. -/
def feed (xs : List α) : Reader α := { b with src := b.src ++ xs }

theorem feed_content (xs : List α) : (b.feed xs).content = b.content ++ xs := by simp [feed, content]

/-- How much a read of the source into `space` returns. -/
def cut (space : Nat) : Nat :=
  match b.cuts with
  | [] => space
  | c :: _ => min (c + 1) space

/-- A read of the source into `space`, and the source behind it. -/
def draw (space : Nat) : List α × Reader α :=
  (b.src.take (b.cut space), { b with src := b.src.drop (b.cut space), cuts := b.cuts.tail })

def fill : Reader α :=
  let (more, b') := b.draw (b.size - b.buffered.length)
  { b' with buffered := b.buffered ++ more }

theorem cut_pos {space : Nat} (h : 0 < space) : 0 < b.cut space := by
  unfold cut
  split
  · exact h
  · omega

theorem fill_content : b.fill.content = b.content := by simp [fill, draw, content]

theorem fill_src (h : b.buffered.length < b.size) (hs : b.src ≠ []) : b.fill.src.length < b.src.length := by
  have := b.cut_pos (show 0 < b.size - b.buffered.length by omega)
  have : 0 < b.src.length := List.length_pos_iff.mpr hs
  simp only [fill, draw, List.length_drop]
  omega

end Reader

/-- How a slice ends. -/
inductive End where
  | found
  | full
  | eof
  deriving DecidableEq, Repr

inductive Stop where
  | tooLarge
  | eof
  | unexpectedEof
  deriving DecidableEq, Repr

/-! ## Delimiters -/

section

variable {α : Type} {delim : α}

/-- The first delimiter splits a list in one way. -/
theorem first_delim {front line rest rest' : List α} (h : front ++ delim :: rest = line ++ delim :: rest')
    (hf : delim ∉ front) (hl : delim ∉ line) : front = line ∧ rest = rest' := by
  induction front generalizing line with
  | nil =>
    cases line with
    | nil => exact ⟨rfl, (List.cons.inj h).2⟩
    | cons x line => exact absurd (List.mem_cons.mpr (.inl (List.cons.inj h).1)) hl
  | cons x front ih =>
    cases line with
    | nil => exact absurd (List.mem_cons.mpr (.inl (List.cons.inj h).1.symm)) hf
    | cons y line =>
      obtain ⟨rfl, ht⟩ := List.cons.inj h
      obtain ⟨rfl, hr⟩ := ih ht (fun hx => hf (.tail _ hx)) fun hx => hl (.tail _ hx)
      exact ⟨rfl, hr⟩

/-- A piece without the delimiter lies in front of the first one. -/
theorem before_delim {front chunk more rest : List α} (h : front ++ delim :: rest = chunk ++ more) (hc : delim ∉ chunk) :
    ∃ front', front = chunk ++ front' ∧ more = front' ++ delim :: rest := by
  rcases List.append_eq_append_iff.mp h with ⟨as, rfl, he⟩ | ⟨as, rfl, he⟩
  · cases as with
    | nil => exact ⟨[], by simp, by simpa using he.symm⟩
    | cons x as =>
      obtain ⟨rfl, -⟩ := List.cons.inj he
      exact absurd (by simp) hc
  · exact ⟨as, rfl, he⟩

end

/-! ## Slices -/

section

variable {α : Type} [DecidableEq α] (delim : α)

def readSlice (b : Reader α) : (List α × End) × Reader α :=
  if delim ∈ b.buffered then
    ((b.buffered.takeWhile (· != delim) ++ [delim], .found),
      { b with buffered := (b.buffered.dropWhile (· != delim)).tail })
  else if b.size ≤ b.buffered.length then ((b.buffered, .full), { b with buffered := [] })
  else if b.src = [] then ((b.buffered, .eof), { b with buffered := [] })
  else readSlice b.fill
termination_by b.src.length
decreasing_by exact b.fill_src (by omega) (by assumption)

theorem split_at_delim {l : List α} (h : delim ∈ l) :
    l = l.takeWhile (· != delim) ++ [delim] ++ (l.dropWhile (· != delim)).tail := by
  induction l with
  | nil => cases h
  | cons x l ih =>
    by_cases hx : x = delim
    · simp [hx]
    · have hmem : delim ∈ l := (List.mem_cons.mp h).resolve_left fun e => hx e.symm
      simpa [hx] using ih hmem

theorem takeWhile_plain (l : List α) : delim ∉ l.takeWhile (· != delim) := by
  intro h
  have := List.mem_takeWhile_imp h
  simp at this

/-- What a slice is: a front of the content, without the delimiter but for its end. -/
structure Slice (b : Reader α) (chunk : List α) (e : End) (b' : Reader α) : Prop where
  front : b.content = chunk ++ b'.content
  size : b'.size = b.size
  found : e = .found → ∃ line, chunk = line ++ [delim] ∧ delim ∉ line
  plain : e ≠ .found → delim ∉ chunk
  full : e = .full → 0 < chunk.length
  eof : e = .eof → b'.content = []

theorem readSlice_spec (b : Reader α) :
    Slice delim b (readSlice delim b).1.1 (readSlice delim b).1.2 (readSlice delim b).2 := by
  fun_induction readSlice delim b with
  | case1 b h =>
    refine ⟨?_, rfl, fun _ => ⟨_, rfl, takeWhile_plain delim _⟩, fun h => absurd rfl h, fun h => (by cases h),
      fun h => (by cases h)⟩
    have := split_at_delim delim h
    simp only [Reader.content]
    rw [← List.append_assoc, ← this]
  | case2 b h hs =>
    refine ⟨by simp [Reader.content], rfl, fun h => (by cases h), fun _ => h, fun _ => ?_, fun h => (by cases h)⟩
    exact Nat.lt_of_lt_of_le b.pos hs
  | case3 b h hs he =>
    exact ⟨by simp [Reader.content], rfl, fun h => (by cases h), fun _ => h, fun h => (by cases h),
      fun _ => by simp [Reader.content, he]⟩
  | case4 b h hs he ih =>
    exact ⟨b.fill_content ▸ ih.front, ih.size, ih.found, ih.plain, ih.full, ih.eof⟩

theorem slice_of_eq {b b' : Reader α} {chunk : List α} {e : End} (h : readSlice delim b = ((chunk, e), b')) :
    Slice delim b chunk e b' := by
  have := readSlice_spec delim b
  rw [h] at this
  exact this

/-! ## Lines -/

/-- A line with its delimiter, put together behind `line` from as many slices as it takes. -/
def readLine (limit : Nat) (line : List α) (b : Reader α) : Except Stop (List α) × Reader α :=
  match _h : readSlice delim b with
  | ((chunk, .found), b') =>
    if limit < (line ++ chunk).length then (.error .tooLarge, b') else (.ok (line ++ chunk), b')
  | ((chunk, .eof), b') => if limit < (line ++ chunk).length then (.error .tooLarge, b') else (.error .eof, b')
  | ((chunk, .full), b') =>
    if limit < (line ++ chunk).length then (.error .tooLarge, b') else readLine limit (line ++ chunk) b'
termination_by b.content.length
decreasing_by
  have hs := slice_of_eq delim _h
  have := hs.full rfl
  rw [hs.front, List.length_append]
  omega

variable {delim}

/-- A line within the limit is read whole, a longer one is refused, whatever the size of
    the buffer. -/
theorem readLine_spec (limit : Nat) (acc : List α) (b : Reader α) {front rest : List α}
    (hc : b.content = front ++ delim :: rest) (hp : delim ∉ front) :
    (acc.length + front.length + 1 ≤ limit ∧
      ∃ b', readLine delim limit acc b = (.ok (acc ++ front ++ [delim]), b') ∧ b'.content = rest) ∨
    (limit < acc.length + front.length + 1 ∧ (readLine delim limit acc b).1 = .error .tooLarge) := by
  induction hn : b.content.length using Nat.strongRecOn generalizing acc b front with
  | ind n ih =>
    subst hn
    unfold readLine
    split
    · rename_i chunk b' he
      have hs := slice_of_eq delim he
      obtain ⟨line, rfl, hline⟩ := hs.found rfl
      have hsplit := hc.symm.trans hs.front
      rw [List.append_assoc] at hsplit
      obtain ⟨rfl, rfl⟩ := first_delim hsplit hp hline
      simp only [List.length_append, List.length_singleton]
      split
      · exact .inr ⟨by omega, rfl⟩
      · exact .inl ⟨by omega, b', by rw [List.append_assoc], rfl⟩
    · rename_i chunk b' he
      -- the end of the source is behind the delimiter
      have hs := slice_of_eq delim he
      have hall := hc.symm.trans hs.front
      rw [hs.eof rfl, List.append_nil] at hall
      exact absurd (by rw [← hall]; simp) (hs.plain (by simp))
    · rename_i chunk b' he
      have hs := slice_of_eq delim he
      obtain ⟨front', rfl, hmore⟩ := before_delim (hc.symm.trans hs.front) (hs.plain (by simp))
      have hpos := hs.full rfl
      simp only [List.length_append]
      split
      · exact .inr ⟨by omega, rfl⟩
      · -- the rest of the line is in a shorter content
        have hlt : b'.content.length < b.content.length := by rw [hs.front, List.length_append]; omega
        have hrest := ih _ hlt (acc ++ chunk) b' hmore (fun h => hp (List.mem_append_right _ h)) rfl
        simpa only [List.length_append, List.append_assoc, Nat.add_assoc] using hrest

theorem readLine_line (limit : Nat) (acc : List α) (b : Reader α) {front rest : List α}
    (hc : b.content = front ++ delim :: rest) (hp : delim ∉ front) (hl : acc.length + front.length + 1 ≤ limit) :
    ∃ b', readLine delim limit acc b = (.ok (acc ++ front ++ [delim]), b') ∧ b'.content = rest := by
  rcases readLine_spec limit acc b hc hp with h | h
  · exact h.2
  · omega

theorem readLine_tooLarge (limit : Nat) (acc : List α) (b : Reader α) {front rest : List α}
    (hc : b.content = front ++ delim :: rest) (hp : delim ∉ front) (hl : limit < acc.length + front.length + 1) :
    (readLine delim limit acc b).1 = .error .tooLarge := by
  rcases readLine_spec limit acc b hc hp with h | h
  · omega
  · exact h.2

/-- At the end of the source there is no line. -/
theorem readLine_end (limit : Nat) (b : Reader α) (hc : b.content = []) : (readLine delim limit [] b).1 = .error .eof := by
  unfold readLine
  split
  · rename_i chunk b' he
    have hs := slice_of_eq delim he
    obtain ⟨line, rfl, -⟩ := hs.found rfl
    have := hc.symm.trans hs.front
    simp at this
  · rename_i chunk b' he
    have hs := slice_of_eq delim he
    obtain ⟨rfl, -⟩ := List.append_eq_nil_iff.mp (hc.symm.trans hs.front).symm
    simp
  · rename_i chunk b' he
    have hs := slice_of_eq delim he
    obtain ⟨rfl, -⟩ := List.append_eq_nil_iff.mp (hc.symm.trans hs.front).symm
    exact absurd (hs.full rfl) (by simp)

end

/-! ## Exact numbers -/

section

variable {α : Type}

/-- One read into a buffer of `n`: nothing only at the end of the source. -/
def Reader.read (b : Reader α) (n : Nat) : List α × Reader α :=
  if b.buffered ≠ [] then (b.buffered.take n, { b with buffered := b.buffered.drop n })
  else if b.size ≤ n then b.draw n
  else (b.fill.buffered.take n, { b.fill with buffered := b.fill.buffered.drop n })

structure Reader.Reads (b : Reader α) (n : Nat) (chunk : List α) (b' : Reader α) : Prop where
  front : b.content = chunk ++ b'.content
  le : chunk.length ≤ n
  nothing : chunk = [] → b.content = []

theorem Reader.read_spec (b : Reader α) {n : Nat} (hn : 0 < n) : b.Reads n (b.read n).1 (b.read n).2 := by
  have taken : ∀ (l : List α), l.take n = [] → l = [] := by
    intro l h
    rcases List.take_eq_nil_iff.mp h with h | h
    · omega
    · exact h
  unfold Reader.read
  split
  · rename_i hb
    exact ⟨by simp [content, ← List.append_assoc], List.length_take_le _ _, fun h => absurd (taken _ h) hb⟩
  · rename_i hb
    have hb : b.buffered = [] := by simpa using hb
    split
    · refine ⟨by simp [content, draw, hb], ?_, fun h => ?_⟩
      · have hcut : b.cut n ≤ n := by
          unfold cut
          split <;> omega
        simp only [draw, List.length_take]
        omega
      · have := b.cut_pos hn
        simp only [draw, List.take_eq_nil_iff] at h
        simp only [content, hb, List.nil_append]
        exact h.resolve_left (by omega)
    · refine ⟨?_, List.length_take_le _ _, fun h => ?_⟩
      · rw [← b.fill_content]
        simp [content, ← List.append_assoc]
      · have hfill := taken _ h
        have := b.cut_pos (show 0 < b.size - b.buffered.length by rw [hb]; exact b.pos)
        simp only [fill, draw, hb, List.nil_append, List.take_eq_nil_iff, List.length_nil] at hfill
        simp only [content, hb, List.nil_append]
        exact hfill.resolve_left (by simp only [hb, List.length_nil] at this; omega)

/-- `n` elements behind `acc`. -/
def readFull (n : Nat) (acc : List α) (b : Reader α) : Except Stop (List α) × Reader α :=
  if n = 0 then (.ok acc, b)
  else
    match b.read n with
    | ([], b') => (.error (if acc = [] then .eof else .unexpectedEof), b')
    | (x :: chunk, b') => readFull (n - (x :: chunk).length) (acc ++ x :: chunk) b'
termination_by n
decreasing_by simp only [List.length_cons]; omega

theorem readFull_exact (n : Nat) (acc : List α) (b : Reader α) (h : n ≤ b.content.length) :
    ∃ b', readFull n acc b = (.ok (acc ++ b.content.take n), b') ∧ b'.content = b.content.drop n := by
  induction hk : n using Nat.strongRecOn generalizing n acc b with
  | ind k ih =>
    subst hk
    unfold readFull
    split
    · rename_i h0
      exact ⟨b, by simp [h0], by simp [h0]⟩
    · rename_i h0
      have hspec := b.read_spec (Nat.pos_of_ne_zero h0)
      split
      · rename_i b' he
        rw [he] at hspec
        have := hspec.nothing rfl
        rw [this] at h
        exact absurd (Nat.le_zero.mp h) h0
      · rename_i x chunk b' he
        rw [he] at hspec
        have hfront := hspec.front
        have hle := hspec.le
        simp only at hfront hle
        have hlen : n - (x :: chunk).length < n := by simp only [List.length_cons]; omega
        obtain ⟨b'', hr, hc⟩ := ih _ hlen (n - (x :: chunk).length) (acc ++ x :: chunk) b'
          (by rw [hfront, List.length_append] at h; omega) rfl
        refine ⟨b'', ?_, ?_⟩
        · rw [hr, hfront, List.take_append, List.take_of_length_le hle, List.append_assoc]
        · rw [hc, hfront, List.drop_append, List.drop_eq_nil_of_le hle, List.nil_append]

theorem readFull_length (n : Nat) (acc : List α) (b : Reader α) {xs : List α} {b' : Reader α}
    (h : readFull n acc b = (.ok xs, b')) : xs.length = acc.length + n := by
  induction hk : n using Nat.strongRecOn generalizing n acc b with
  | ind k ih =>
    subst hk
    unfold readFull at h
    split at h
    · rename_i h0
      obtain ⟨rfl, -⟩ := Prod.mk.inj h |>.imp_left Except.ok.inj
      simp [h0]
    · rename_i h0
      have hspec := b.read_spec (Nat.pos_of_ne_zero h0)
      split at h
      · cases h
      · rename_i x chunk b'' he
        have hle := hspec.le
        rw [he] at hle
        simp only [List.length_cons] at hle h
        have := ih _ (by omega) _ _ _ h rfl
        simp only [List.length_append, List.length_cons] at this
        omega

end

end Ghostline.Lib.Buffered
