/-
  Ghostline.Terminal.Markers — the markers of a chunk, and what `findOSC133` finds of them
  (semantic.go).

  A `Marker` has a kind and a payload without BEL and ESC, and then a terminator. The scan
  reads on to the first terminator instead, whatever is on the way (`Reads`): behind a marker
  that was broken off it takes the terminator of the next one and reports a span that is not
  there, in place of the marker that is (`a_broken_marker_swallows_the_next`).

  `Scans` is the scan as a relation: it stops at the first `ESC ]133;` from a position on,
  reads it, and goes on behind its terminator. When its spans are the markers can be said of the
  bytes alone (`spans_are_the_markers_iff`): every `ESC ]133;` with which a text begins
  (`Begins`) is a marker up to the first terminator behind it, or a broken one in front of a
  marker with the same kind and status, for which it is taken (`Kept`).
-/

import Mathlib.Data.List.Forall2
import Mathlib.Data.Nat.Find
import Ghostline.Terminal.Osc133

namespace Ghostline.Terminal

open Lib Query

/-! ## Markers -/

def bel : Byte := 0x07

variable (data : List Byte)

/-- `ESC ]133;` -/
def StartsAt (s : Nat) : Prop := osc133Prefix <+: data.drop s

/-- BEL, or ESC and a backslash. -/
def TerminatorAt (t n : Nat) : Prop :=
  (data[t]? = some bel ∧ n = 1) ∨ (data[t]? = some esc ∧ data[t + 1]? = some (byte '\\') ∧ n = 2)

def payload (s t : Nat) : List Byte := (data.drop (s + 7)).take (t - (s + 7))

/-- The span of a text with its prefix at `s` and its terminator, of `n` bytes, at `t`. -/
def spanOf (kind : Byte) (s t n : Nat) : Osc133Span :=
  ⟨kind, if kind = byte 'D' then parseOSC133Exit (payload data s t) else none, t + n⟩

def Marker (s : Nat) (span : Osc133Span) : Prop :=
  ∃ kind t n, StartsAt data s ∧ data[s + 6]? = some kind ∧ kind ≠ bel ∧ kind ≠ esc ∧ s + 7 ≤ t ∧
    (∀ j, s + 7 ≤ j → j < t → data[j]? ≠ some bel ∧ data[j]? ≠ some esc) ∧ TerminatorAt data t n ∧
    span = spanOf data kind s t n

/-- The spans are those of all the markers, from left to right. -/
def Exactly (spans : List Osc133Span) : Prop :=
  ∃ starts : List Nat, starts.Pairwise (· < ·) ∧ (∀ s, s ∈ starts ↔ ∃ span, Marker data s span) ∧
    List.Forall₂ (Marker data) starts spans

/-! ## Where the scan goes right -/

/-- A prefix that is not within the text behind an earlier one: this has its terminator. -/
def Begins (s : Nat) : Prop :=
  StartsAt data s ∧ ∀ s₀ < s, StartsAt data s₀ → ∃ t n, s₀ + 7 ≤ t ∧ t < s ∧ TerminatorAt data t n

/-- The first terminator behind the kind, of `n` bytes, is at `t`. -/
def ClosedBy (s t n : Nat) : Prop :=
  s + 7 ≤ t ∧ TerminatorAt data t n ∧ ∀ j m, s + 7 ≤ j → j < t → ¬ TerminatorAt data j m

/-- The text from `s` to the terminator at `t` is a marker, or it ends with one that has its kind
    and, for D, its status. -/
def Kept (s t : Nat) : Prop :=
  ∃ s' kind, s ≤ s' ∧ StartsAt data s' ∧ data[s + 6]? = some kind ∧ data[s' + 6]? = some kind ∧
    kind ≠ bel ∧ kind ≠ esc ∧ s' + 7 ≤ t ∧
    (∀ j, s' + 7 ≤ j → j < t → data[j]? ≠ some bel ∧ data[j]? ≠ some esc) ∧
    (kind = byte 'D' → parseOSC133Exit (payload data s t) = parseOSC133Exit (payload data s' t))

/-! ## The scan -/

/-- What is at `s`, read on to the first terminator. -/
def Reads (s : Nat) (span : Osc133Span) : Prop :=
  ∃ kind t n, StartsAt data s ∧ data[s + 6]? = some kind ∧ s + 7 ≤ t ∧
    (∀ j m, s + 7 ≤ j → j < t → ¬ TerminatorAt data j m) ∧ TerminatorAt data t n ∧ span = spanOf data kind s t n

def First (p s : Nat) : Prop := p ≤ s ∧ StartsAt data s ∧ ∀ j, p ≤ j → j < s → ¬ StartsAt data j

inductive Scans : Nat → List Osc133Span → Prop
  | stop {p : Nat} : (∀ s span, First data p s → ¬ Reads data s span) → Scans p []
  | read {p s : Nat} {span : Osc133Span} {spans : List Osc133Span} : First data p s → Reads data s span →
      Scans span.end spans → Scans p (span :: spans)

variable {data} {p s s' t n : Nat} {span a b : Osc133Span} {spans : List Osc133Span}

/-! ### Prefixes and terminators -/

@[simp]
theorem osc133Prefix_length : osc133Prefix.length = 6 := by decide

theorem StartsAt.get (h : StartsAt data s) {k : Nat} (hk : k < 6) : data[s + k]? = osc133Prefix[k]? := by
  obtain ⟨rest, hr⟩ := h
  rw [← List.getElem?_drop, ← hr, List.getElem?_append_left (by simpa using hk)]

theorem StartsAt.esc (h : StartsAt data s) : data[s]? = some esc := h.get (k := 0) (by omega)

/-- Behind its ESC the prefix has no ESC, no BEL and no backslash. -/
theorem StartsAt.plain (h : StartsAt data s) {j : Nat} (h1 : s < j) (h2 : j < s + 6) :
    data[j]? ≠ some Query.esc ∧ data[j]? ≠ some bel ∧ data[j]? ≠ some (byte '\\') := by
  obtain ⟨k, rfl⟩ : ∃ k, j = s + (k + 1) := ⟨j - s - 1, by omega⟩
  have hk : k < 5 := by omega
  rw [h.get (by omega)]
  have hall : ∀ k < 5, osc133Prefix[k + 1]? ≠ some Query.esc ∧ osc133Prefix[k + 1]? ≠ some bel ∧
      osc133Prefix[k + 1]? ≠ some (byte '\\') := by decide
  exact hall k hk

theorem startsAt_iff : StartsAt data s ↔ data[s]? = some esc ∧ osc133Suffix <+: data.drop (s + 1) := by
  constructor
  · intro h
    refine ⟨h.esc, ?_⟩
    obtain ⟨rest, hr⟩ := h
    refine ⟨rest, ?_⟩
    rw [← List.drop_drop, ← hr]
    rfl
  · rintro ⟨he, rest, hr⟩
    refine ⟨rest, ?_⟩
    obtain ⟨hlt, hget⟩ := List.getElem?_eq_some_iff.mp he
    rw [List.drop_eq_getElem_cons hlt, hget, ← hr]
    rfl

theorem StartsAt.noTerminator (h : StartsAt data s) {j m : Nat} (h1 : s ≤ j) (h2 : j < s + 6) :
    ¬ TerminatorAt data j m := by
  rintro (⟨hb, -⟩ | ⟨he, hs, -⟩)
  · rcases Nat.eq_or_lt_of_le h1 with rfl | hlt
    · rw [h.esc] at hb
      exact absurd hb (by decide)
    · exact (h.plain hlt h2).2.1 hb
  · rcases Nat.eq_or_lt_of_le h1 with rfl | hlt
    · exact (h.plain (j := s + 1) (by omega) (by omega)).2.2 hs
    · exact (h.plain hlt h2).1 he

/-- A terminator at a place is of one kind. -/
theorem TerminatorAt.length (h : TerminatorAt data t n) {m : Nat} (h' : TerminatorAt data t m) : n = m := by
  rcases h with ⟨h1, rfl⟩ | ⟨h1, -, rfl⟩ <;> rcases h' with ⟨h2, rfl⟩ | ⟨h2, -, rfl⟩
  · rfl
  · exact absurd (h1.symm.trans h2) (by decide)
  · exact absurd (h1.symm.trans h2) (by decide)
  · rfl

theorem TerminatorAt.pos (h : TerminatorAt data t n) : 0 < n := by
  rcases h with ⟨-, rfl⟩ | ⟨-, -, rfl⟩ <;> omega

/-- A prefix does not begin within a terminator. -/
theorem TerminatorAt.behind (h : TerminatorAt data t n) (hs : StartsAt data s) (ht : t ≤ s) : t + n ≤ s := by
  rcases h with ⟨h1, rfl⟩ | ⟨h1, h2, rfl⟩
  · rcases Nat.eq_or_lt_of_le ht with rfl | hlt
    · exact absurd (h1.symm.trans hs.esc) (by decide)
    · omega
  · rcases Nat.eq_or_lt_of_le ht with rfl | hlt
    · exact absurd h2 (hs.plain (j := t + 1) (by omega) (by omega)).2.2
    · rcases Nat.eq_or_lt_of_le hlt with rfl | hlt
      · exact absurd (h2.symm.trans hs.esc) (by decide)
      · omega

/-- Terminators that end at the same place are one. -/
theorem TerminatorAt.start_unique (h : TerminatorAt data t n) {t' n' : Nat} (h' : TerminatorAt data t' n')
    (he : t + n = t' + n') : t = t' := by
  rcases h with ⟨h1, rfl⟩ | ⟨-, h1, rfl⟩ <;> rcases h' with ⟨h2, rfl⟩ | ⟨-, h2, rfl⟩
  · omega
  · rw [show t = t' + 1 by omega, h2] at h1
    exact absurd h1 (by decide)
  · rw [show t' = t + 1 by omega, h1] at h2
    exact absurd h2 (by decide)
  · omega

theorem TerminatorAt.last (h : TerminatorAt data t n) : data[t + n - 1]? ≠ some Query.esc := by
  rcases h with ⟨h1, rfl⟩ | ⟨-, h2, rfl⟩
  · rw [show t + 1 - 1 = t by omega, h1]
    decide
  · rw [show t + 2 - 1 = t + 1 by omega, h2]
    decide

/-! ### Markers and what is read -/

theorem Marker.reads (h : Marker data s span) : Reads data s span := by
  obtain ⟨kind, t, n, hs, hk, -, -, hle, hclean, ht, he⟩ := h
  refine ⟨kind, t, n, hs, hk, hle, fun j m h1 h2 hj => ?_, ht, he⟩
  rcases hj with ⟨hb, -⟩ | ⟨hb, -⟩
  · exact (hclean j h1 h2).1 hb
  · exact (hclean j h1 h2).2 hb

theorem Reads.starts (h : Reads data s span) : StartsAt data s := by
  obtain ⟨kind, t, n, hs, -⟩ := h
  exact hs

theorem Reads.end_gt (h : Reads data s span) : s + 7 < span.end := by
  obtain ⟨kind, t, n, -, -, hle, -, ht, rfl⟩ := h
  have := ht.pos
  simp only [spanOf]
  omega

theorem Reads.unique (ha : Reads data s a) (hb : Reads data s b) : a = b := by
  obtain ⟨kind, t, n, -, hk, hle, hno, ht, rfl⟩ := ha
  obtain ⟨kind', t', n', -, hk', hle', hno', ht', rfl⟩ := hb
  obtain rfl : kind = kind' := Option.some.inj (hk.symm.trans hk')
  have : t = t' := by
    rcases Nat.lt_trichotomy t t' with hlt | he | hgt
    · exact absurd ht (hno' t n hle hlt)
    · exact he
    · exact absurd ht' (hno t' n' hle' hgt)
  subst this
  rw [ht.length ht']

theorem First.unique (h : First data p s) (h' : First data p s') : s = s' := by
  rcases Nat.lt_trichotomy s s' with hlt | he | hgt
  · exact absurd h.2.1 (h'.2.2 s h.1 hlt)
  · exact he
  · exact absurd h'.2.1 (h.2.2 s' h'.1 hgt)

/-- The next prefix begins behind the one before it. -/
theorem StartsAt.apart (h : StartsAt data s) (h' : StartsAt data s') (hlt : s < s') : s + 6 ≤ s' := by
  by_contra hn
  exact (h.plain hlt (by omega)).1 h'.esc

/-- A later prefix begins behind a marker. -/
theorem Marker.before (ha : Marker data s a) (hs' : StartsAt data s') (hlt : s < s') : a.end ≤ s' := by
  obtain ⟨kind, t, n, hs, hk, -, hne, hle, hclean, ht, rfl⟩ := ha
  have h6 := hs.apart hs' hlt
  have hesc := hs'.esc
  rcases Nat.eq_or_lt_of_le h6 with rfl | h7
  · exact absurd (Option.some.inj (hk.symm.trans hesc)) hne
  · rcases Nat.lt_or_ge s' t with hlt | hge
    · exact absurd hesc (hclean s' (by omega) hlt).2
    · exact ht.behind hs' hge

/-- Markers that end at the same place are one marker. -/
theorem Marker.start_unique (ha : Marker data s a) (hb : Marker data s' b) (he : a.end = b.end) : s = s' := by
  have h1 := ha.reads.end_gt
  have h2 := hb.reads.end_gt
  rcases Nat.lt_trichotomy s s' with hlt | heq | hgt
  · have := ha.before hb.reads.starts hlt
    omega
  · exact heq
  · have := hb.before ha.reads.starts hgt
    omega

/-- What is read over a marker ends where the marker does. -/
theorem Reads.across (ha : Reads data s a) (hb : Marker data s' b) (hlt : s < s') (hacross : s' < a.end) :
    a.end = b.end := by
  obtain ⟨kind, t, n, hs, hk, hle, hno, ht, rfl⟩ := ha
  obtain ⟨kind', t', n', hs', hk', hbel, hesc, hle', hclean, ht', rfl⟩ := hb
  have h6 := hs.apart hs' hlt
  have hinto : s' < t := by
    by_contra hn
    have := ht.behind hs' (by omega)
    simp only [spanOf] at hacross
    omega
  -- the first terminator is not in the marker's prefix, kind or payload
  have hge : t' ≤ t := by
    by_contra hn
    rcases Nat.lt_or_ge t (s' + 6) with h1 | h1
    · exact hs'.noTerminator (by omega) h1 ht
    · rcases Nat.eq_or_lt_of_le h1 with rfl | h1
      · rcases ht with ⟨hc, -⟩ | ⟨hc, -⟩
        · exact hbel (Option.some.inj (hk'.symm.trans hc))
        · exact hesc (Option.some.inj (hk'.symm.trans hc))
      · rcases ht with ⟨hc, -⟩ | ⟨hc, -⟩
        · exact (hclean t (by omega) (by omega)).1 hc
        · exact (hclean t (by omega) (by omega)).2 hc
  have heq : t = t' := by
    rcases Nat.eq_or_lt_of_le hge with h | h
    · exact h.symm
    · exact absurd ht' (hno t' n' (by omega) h)
  subst heq
  simp only [spanOf, ht.length ht']

theorem ClosedBy.reads (h : ClosedBy data s t n) (hs : StartsAt data s) :
    ∃ kind, data[s + 6]? = some kind ∧ Reads data s (spanOf data kind s t n) := by
  have hlt : t < data.length := by
    rcases h.2.1 with ⟨hb, -⟩ | ⟨hb, -⟩
    · exact (List.getElem?_eq_some_iff.mp hb).1
    · exact (List.getElem?_eq_some_iff.mp hb).1
  have hle := h.1
  have hk : data[s + 6]? = some data[s + 6] := List.getElem?_eq_getElem (by omega)
  exact ⟨_, hk, _, t, n, hs, hk, h.1, h.2.2, h.2.1, rfl⟩

/-- A prefix with a terminator behind its kind can be read. -/
theorem StartsAt.reads_closed (h : StartsAt data s) (h7 : s + 7 ≤ t) (ht : TerminatorAt data t n) :
    ∃ a, Reads data s a := by
  have hex : ∃ t, s + 7 ≤ t ∧ ∃ n, TerminatorAt data t n := ⟨t, h7, n, ht⟩
  classical
  obtain ⟨h7', n', ht'⟩ := Nat.find_spec hex
  obtain ⟨kind, -, hr⟩ := ClosedBy.reads (n := n')
    ⟨h7', ht', fun j m h1 h2 hj => Nat.find_min hex h2 ⟨h1, m, hj⟩⟩ h
  exact ⟨_, hr⟩

theorem StartsAt.reads_before (h : StartsAt data s) (hb : Marker data s' b) (hlt : s < s') : ∃ a, Reads data s a := by
  obtain ⟨kind', t', n', hs', -, -, -, hle', -, ht', -⟩ := hb
  have h6 := h.apart hs' hlt
  exact h.reads_closed (by omega) ht'

theorem exists_first (h : StartsAt data s) (hp : p ≤ s) : ∃ s₀, First data p s₀ ∧ s₀ ≤ s := by
  classical
  have hex : ∃ j, p ≤ j ∧ StartsAt data j := ⟨s, hp, h⟩
  obtain ⟨h1, h2⟩ := Nat.find_spec hex
  exact ⟨_, ⟨h1, h2, fun j hj hlt hs => Nat.find_min hex hlt ⟨hj, hs⟩⟩, Nat.find_min' hex ⟨hp, h⟩⟩

/-! ### The parser reads -/

theorem terminatorAt_drop {k i : Nat} : TerminatorAt (data.drop k) i n ↔ TerminatorAt data (k + i) n := by
  simp only [TerminatorAt, List.getElem?_drop, Nat.add_assoc]

theorem terminatorAt_cons {x : Byte} {i : Nat} : TerminatorAt (x :: data) (i + 1) n ↔ TerminatorAt data i n := by
  simp only [TerminatorAt, List.getElem?_cons_succ]

theorem terminatorAt_zero {x : Byte} : TerminatorAt (x :: data) 0 n ↔
    (x = bel ∧ n = 1) ∨ ((x = esc ∧ data.head? = some (byte '\\')) ∧ n = 2) := by
  simp only [TerminatorAt, List.getElem?_cons_zero, Option.some.injEq, List.getElem?_cons_succ, Nat.zero_add,
    List.head?_eq_getElem?, and_assoc]

theorem terminator_some {i : Nat} (h : terminator data = some (i, n)) :
    TerminatorAt data i n ∧ ∀ j m, j < i → ¬ TerminatorAt data j m := by
  induction data generalizing i n with
  | nil => simp [terminator] at h
  | cons x rest ih =>
    unfold terminator at h
    split at h
    · rename_i hx
      obtain ⟨rfl, rfl⟩ := Prod.mk.inj (Option.some.inj h)
      exact ⟨terminatorAt_zero.mpr (Or.inl ⟨hx, rfl⟩), fun j m hj => absurd hj (Nat.not_lt_zero j)⟩
    · rename_i hb
      split at h
      · rename_i hx
        obtain ⟨rfl, rfl⟩ := Prod.mk.inj (Option.some.inj h)
        exact ⟨terminatorAt_zero.mpr (Or.inr ⟨hx, rfl⟩), fun j m hj => absurd hj (Nat.not_lt_zero j)⟩
      · rename_i hst
        obtain ⟨⟨i', n'⟩, ht, he⟩ := Option.map_eq_some_iff.mp h
        obtain ⟨rfl, rfl⟩ := Prod.mk.inj he
        obtain ⟨hat, hbefore⟩ := ih ht
        refine ⟨terminatorAt_cons.mpr hat, fun j m hj => ?_⟩
        cases j with
        | zero => exact fun h0 => (terminatorAt_zero.mp h0).elim (fun h => hb h.1) fun h => hst h.1
        | succ j => exact fun hj' => hbefore j m (by omega) (terminatorAt_cons.mp hj')

theorem terminator_none (h : terminator data = none) (i n : Nat) : ¬ TerminatorAt data i n := by
  induction data generalizing i with
  | nil => simp [TerminatorAt]
  | cons x rest ih =>
    unfold terminator at h
    split at h
    · cases h
    · rename_i hb
      split at h
      · cases h
      · rename_i hst
        cases i with
        | zero => exact fun h0 => (terminatorAt_zero.mp h0).elim (fun h => hb h.1) fun h => hst h.1
        | succ i => exact fun hi => ih (Option.map_eq_none_iff.mp h) i (terminatorAt_cons.mp hi)

theorem parseOSC133At_reads (hs : StartsAt data s) (h : parseOSC133At data s = (span, true)) :
    Reads data s span := by
  unfold parseOSC133At at h
  simp only [osc133Prefix_length] at h
  split at h
  · exact absurd (Prod.mk.inj h).2 (by decide)
  · rename_i kind hk
    split at h
    · exact absurd (Prod.mk.inj h).2 (by decide)
    · rename_i i n ht
      obtain ⟨hat, hbefore⟩ := terminator_some ht
      obtain ⟨rfl, -⟩ := Prod.mk.inj h
      refine ⟨kind, s + 7 + i, n, hs, hk, by omega, fun j m h1 h2 hj => ?_, terminatorAt_drop.mp hat, ?_⟩
      · obtain ⟨k, rfl⟩ : ∃ k, j = s + 7 + k := ⟨j - (s + 7), by omega⟩
        exact hbefore k m (by omega) (terminatorAt_drop.mpr hj)
      · simp only [spanOf, payload, Nat.add_sub_cancel_left]

theorem parseOSC133At_open (h : parseOSC133At data s = (span, false)) :
    span.end = data.length ∧ ∀ a, ¬ Reads data s a := by
  unfold parseOSC133At at h
  simp only [osc133Prefix_length] at h
  split at h
  · rename_i hk
    obtain ⟨rfl, -⟩ := Prod.mk.inj h
    refine ⟨rfl, ?_⟩
    rintro a ⟨kind, t, n, -, hk', -⟩
    exact absurd (hk.symm.trans hk') nofun
  · split at h
    · rename_i ht
      obtain ⟨rfl, -⟩ := Prod.mk.inj h
      refine ⟨rfl, ?_⟩
      rintro a ⟨kind, t, n, -, -, hle, -, hat, -⟩
      obtain ⟨k, rfl⟩ : ∃ k, t = s + 7 + k := ⟨t - (s + 7), by omega⟩
      exact terminator_none ht k n (terminatorAt_drop.mpr hat)
    · exact absurd (Prod.mk.inj h).2 (by decide)

/-! ### The loop scans -/

/-- No prefix begins just before `p`. -/
def Clear (data : List Byte) (p : Nat) : Prop := p = 0 ∨ data[p - 1]? ≠ some esc

theorem StartsAt.lt (h : StartsAt data s) : s < data.length := (List.getElem?_eq_some_iff.mp h.esc).1

theorem Scans.skip {q : Nat} (h : Scans data q spans) (hpq : p ≤ q)
    (hno : ∀ j, p ≤ j → j < q → ¬ StartsAt data j) : Scans data p spans := by
  cases h with
  | stop hstop =>
    refine .stop fun s span hf hr => hstop s span ⟨?_, hf.2.1, fun j h1 h2 => hf.2.2 j (by omega) h2⟩ hr
    by_contra hn
    exact hno s hf.1 (by omega) hf.2.1
  | read hf hr hrest =>
    refine .read ⟨by have := hf.1; omega, hf.2.1, fun j h1 h2 => ?_⟩ hr hrest
    rcases Nat.lt_or_ge j q with hj | hj
    · exact hno j h1 hj
    · exact hf.2.2 j hj h2

theorem Reads.clear (h : Reads data s span) : Clear data span.end := by
  obtain ⟨kind, t, n, -, -, -, -, ht, rfl⟩ := h
  exact Or.inr ht.last

theorem scans_end (h : data.length ≤ p) : Scans data p [] := by
  refine .stop fun s span hf _ => ?_
  have hle := hf.1
  have hlt := hf.2.1.lt
  omega

theorem suffix_not_esc {k : Nat} (h : osc133Suffix <+: data.drop k) : data[k]? ≠ some Query.esc := by
  obtain ⟨rest, hr⟩ := h
  have h0 : (data.drop k)[0]? = data[k]? := by rw [List.getElem?_drop, Nat.add_zero]
  rw [← h0, ← hr]
  exact (by decide : some (byte ']') ≠ some Query.esc)

/-- The first `]133;` from `p` on is at `offset + p`: no prefix has its `]133;` before. -/
theorem index_suffix {offset : Nat} (h : index osc133Suffix (data.drop p) = some offset) :
    osc133Suffix <+: data.drop (offset + p) ∧ ∀ j, p ≤ j → j + 1 < offset + p → ¬ StartsAt data j := by
  obtain ⟨hat, hbefore⟩ := index_some h
  rw [List.drop_drop, Nat.add_comm] at hat
  refine ⟨hat, fun j h1 h2 hs => hbefore (j + 1 - p) (by omega) ?_⟩
  rw [List.drop_drop, show p + (j + 1 - p) = j + 1 by omega]
  exact (startsAt_iff.mp hs).2

theorem scans_no_suffix (h : index osc133Suffix (data.drop p) = none) : Scans data p [] := by
  refine .stop fun s span hf _ => ?_
  have hle := hf.1
  apply index_none h (s + 1 - p)
  rw [List.drop_drop, show p + (s + 1 - p) = s + 1 by omega]
  exact (startsAt_iff.mp hf.2.1).2

/-- A `]133;` at `k` without its ESC. -/
theorem scans_past_suffix {k : Nat} (hpk : p ≤ k) (hat : osc133Suffix <+: data.drop k)
    (hno : ∀ j, p ≤ j → j + 1 < k → ¬ StartsAt data j) (hesc : k = 0 ∨ data[k - 1]? ≠ some esc)
    (h : Scans data (k + 1) spans) : Scans data p spans := by
  refine h.skip (by omega) fun j h1 h2 hs => ?_
  rcases Nat.lt_trichotomy (j + 1) k with h3 | rfl | h3
  · exact hno j h1 h3 hs
  · exact hesc.elim (by omega) fun h => h hs.esc
  · obtain rfl : j = k := by omega
    exact suffix_not_esc hat hs.esc

theorem findFrom_end (data : List Byte) (fuel : Nat) : findFrom data fuel data.length = [] := by
  cases fuel with
  | zero => rfl
  | succ fuel => simp [findFrom]

theorem findFrom_scans (data : List Byte) : ∀ (fuel position : Nat), data.length ≤ fuel + position →
    Clear data position → Scans data position (findFrom data fuel position) := by
  intro fuel
  induction fuel with
  | zero => exact fun position hfuel _ => scans_end (by omega)
  | succ fuel ih =>
    intro position hfuel hclear
    unfold findFrom
    split
    · rename_i hend
      exact scans_end hend
    · rename_i hlt
      split
      · rename_i hnone
        exact scans_no_suffix hnone
      · rename_i offset ho
        obtain ⟨hat, hno⟩ := index_suffix ho
        simp only
        split
        · rename_i hesc
          exact scans_past_suffix (by omega) hat hno hesc (ih _ (by omega) (Or.inr (suffix_not_esc hat)))
        · rename_i hesc
          obtain ⟨hpos, hesc⟩ := not_or.mp hesc
          have hesc := not_not.mp hesc
          obtain ⟨s, hs⟩ : ∃ s, offset + position = s + 1 := ⟨offset + position - 1, by omega⟩
          rw [hs] at hat hesc hno ⊢
          rw [Nat.add_sub_cancel] at hesc ⊢
          -- the prefix does not begin before `position`: there is no ESC just before it
          have hge : position ≤ s := by
            by_contra hn
            have he : position - 1 = s := by omega
            rcases hclear with h0 | h0
            · omega
            · exact h0 (he ▸ hesc)
          have hfirst : First data position s :=
            ⟨hge, startsAt_iff.mpr ⟨hesc, hat⟩, fun j h1 h2 => hno j h1 (by omega)⟩
          rcases hp : parseOSC133At data s with ⟨span, _ | _⟩
          · obtain ⟨hend, hopen⟩ := parseOSC133At_open hp
            simp only [hend, if_neg hlt, Bool.false_eq_true, if_false, findFrom_end]
            exact .stop fun s' a hf => hf.unique hfirst ▸ hopen a
          · have hr := parseOSC133At_reads hfirst.2.1 hp
            have hgt := hr.end_gt
            simp only [if_neg (show ¬ span.end ≤ position by omega), if_true]
            exact .read hfirst hr (ih _ (by omega) hr.clear)

theorem findOSC133_scans (data : List Byte) : Scans data 0 (findOSC133 data) := by
  unfold findOSC133
  split
  · rename_i hnone
    exact scans_no_suffix hnone
  · exact findFrom_scans data _ 0 (by omega) (Or.inl rfl)

/-! ## The spans and the markers -/

theorem Kept.marker {kind : Byte} (h : Kept data s t) (hk : data[s + 6]? = some kind) (ht : TerminatorAt data t n) :
    ∃ s', Marker data s' (spanOf data kind s t n) := by
  obtain ⟨s', kind', -, hs', hk', hk'', hbel, hesc, hle, hclean, hexit⟩ := h
  obtain rfl : kind = kind' := Option.some.inj (hk.symm.trans hk')
  refine ⟨s', kind, t, n, hs', hk'', hbel, hesc, hle, hclean, ht, ?_⟩
  unfold spanOf
  by_cases hd : kind = byte 'D'
  · rw [if_pos hd, if_pos hd]
    exact congrArg (Osc133Span.mk kind · (t + n)) (hexit hd)
  · rw [if_neg hd, if_neg hd]

theorem Marker.kept {kind : Byte} (hm : Marker data s' (spanOf data kind s t n)) (hs : StartsAt data s)
    (hk : data[s + 6]? = some kind) (hc : ClosedBy data s t n) : Kept data s t := by
  have hafter : s ≤ s' := by
    by_contra hn
    have hend := hm.before hs (by omega)
    have := hc.1
    simp only [spanOf] at hend
    omega
  obtain ⟨kind', t', n', hs', hk', hbel, hesc, hle, hclean, ht', he⟩ := hm
  obtain rfl : kind = kind' := congrArg Osc133Span.kind he
  obtain rfl : t = t' := hc.2.1.start_unique ht' (congrArg Osc133Span.end he)
  refine ⟨s', kind, hafter, hs', hk, hk', hbel, hesc, hle, hclean, fun hd => ?_⟩
  have hexit := congrArg Osc133Span.exit he
  simp only [spanOf, if_pos hd] at hexit
  exact hexit

theorem Reads.closed (h : Reads data s span) :
    ∃ kind t n, data[s + 6]? = some kind ∧ ClosedBy data s t n ∧ span = spanOf data kind s t n := by
  obtain ⟨kind, t, n, -, hk, hle, hno, ht, he⟩ := h
  exact ⟨kind, t, n, hk, ⟨hle, ht, hno⟩, he⟩

/-- What begins at or behind `p` and is closed is read. -/
theorem Scans.mem (h : Scans data p spans) (hp : p ≤ s) (hb : Begins data s) (hr : Reads data s span) :
    span ∈ spans := by
  induction h with
  | @stop p hstop =>
    obtain ⟨s₀, hf, hle⟩ := exists_first hb.1 hp
    rcases Nat.eq_or_lt_of_le hle with rfl | hlt
    · exact absurd hr (hstop _ _ hf)
    · obtain ⟨t, n, h7, -, ht⟩ := hb.2 s₀ hlt hf.2.1
      obtain ⟨a, ha⟩ := hf.2.1.reads_closed h7 ht
      exact absurd ha (hstop _ _ hf)
  | @read p s₀ a spans hf ha _ ih =>
    obtain ⟨s₁, hf', hle⟩ := exists_first hb.1 hp
    obtain rfl := hf.unique hf'
    rcases Nat.eq_or_lt_of_le hle with rfl | hlt
    · rw [hr.unique ha]
      exact List.mem_cons_self
    · -- the text in front has its terminator before `s`
      refine List.mem_cons_of_mem _ (ih ?_)
      obtain ⟨t, n, h7, hts, ht⟩ := hb.2 s₀ hlt hf.2.1
      obtain ⟨kind, t₀, n₀, -, hc, rfl⟩ := ha.closed
      have hle₀ : t₀ ≤ t := by
        by_contra hn
        exact hc.2.2 t n h7 (by omega) ht
      exact hc.2.1.behind hb.1 (by omega)

/-- Every prefix in front of `p` has its terminator there. -/
def Settled (data : List Byte) (p : Nat) : Prop :=
  ∀ s₀ < p, StartsAt data s₀ → ∃ t n, s₀ + 7 ≤ t ∧ t < p ∧ TerminatorAt data t n

theorem First.begins (hf : First data p s) (ho : Settled data p) : Begins data s := by
  refine ⟨hf.2.1, fun s₀ hlt hs₀ => ?_⟩
  have hbefore : s₀ < p := by
    by_contra hn
    exact hf.2.2 s₀ (by omega) hlt hs₀
  obtain ⟨t, n, h7, htp, ht⟩ := ho s₀ hbefore hs₀
  exact ⟨t, n, h7, Nat.lt_of_lt_of_le htp hf.1, ht⟩

/-- A prefix in front of the end of a marker is at its start or before, and so has its terminator. -/
theorem Marker.settled {kind : Byte} {m : Nat} (hm : Marker data m (spanOf data kind s t n)) (hc : ClosedBy data s t n) :
    Settled data (t + n) := by
  intro s₀ hlt hs₀
  have hsm : s₀ ≤ m := by
    by_contra hn
    have hend : t + n ≤ s₀ := hm.before hs₀ (by omega)
    omega
  obtain ⟨kind', t', n', -, -, -, -, hle, -, ht', he⟩ := hm
  obtain rfl : t = t' := hc.2.1.start_unique ht' (congrArg Osc133Span.end he)
  have hpos := hc.2.1.pos
  exact ⟨t, n, by omega, by omega, hc.2.1⟩

/-- Up to the end of what was read there is no other marker than the one with its span. -/
theorem First.only {m : Nat} (hf : First data p s) (hr : Reads data s span) (hm : Marker data m span)
    (hb : Marker data s' b) (hp : p ≤ s') (hlt : s' < span.end) : s' = m := by
  have hs' : s ≤ s' := by
    by_contra hn
    exact hf.2.2 s' hp (by omega) hb.reads.starts
  rcases Nat.eq_or_lt_of_le hs' with rfl | hs'
  · exact hb.start_unique hm (congrArg _ (hb.reads.unique hr))
  · exact hb.start_unique hm (hr.across hb hs' hlt).symm

/-- From `p` on the spans are those of the markers, if what begins there is kept. -/
theorem Scans.markers (h : Scans data p spans) (hopen : Settled data p)
    (hall : ∀ s t n, Begins data s → ClosedBy data s t n → Kept data s t) :
    ∃ starts : List Nat, starts.Pairwise (· < ·) ∧ (∀ s, s ∈ starts ↔ p ≤ s ∧ ∃ span, Marker data s span) ∧
      List.Forall₂ (Marker data) starts spans := by
  induction h with
  | @stop p hstop =>
    refine ⟨[], .nil, fun s => ⟨nofun, ?_⟩, .nil⟩
    rintro ⟨hp, span, hm⟩
    obtain ⟨s₀, hf, hle⟩ := exists_first hm.reads.starts hp
    rcases Nat.eq_or_lt_of_le hle with rfl | hlt
    · exact absurd hm.reads (hstop _ _ hf)
    · obtain ⟨a, ha⟩ := hf.2.1.reads_before hm hlt
      exact absurd ha (hstop _ _ hf)
  | @read p s span spans hf hr hrest ih =>
    have hp := hf.1
    obtain ⟨kind, t, n, hk, hc, rfl⟩ := hr.closed
    obtain ⟨m, hm⟩ := (hall s t n (hf.begins hopen) hc).marker hk hc.2.1
    have hend := hr.end_gt
    have hmend := hm.reads.end_gt
    have hms : s ≤ m := by
      by_contra hn
      have := hm.before hr.starts (by omega)
      omega
    obtain ⟨starts, hsorted, hmem, hrel⟩ := ih (hm.settled hc)
    refine ⟨m :: starts, List.pairwise_cons.mpr ⟨fun s' hs' => ?_, hsorted⟩, fun s' => ?_, .cons hm hrel⟩
    · have := ((hmem s').mp hs').1
      omega
    · rw [List.mem_cons, hmem]
      constructor
      · rintro (rfl | ⟨h1, h2⟩)
        · exact ⟨by omega, _, hm⟩
        · exact ⟨by omega, h2⟩
      · rintro ⟨h1, b, hb⟩
        rcases Nat.lt_or_ge s' (spanOf data kind s t n).end with hlt | hge
        · exact Or.inl (hf.only hr hm hb h1 hlt)
        · exact Or.inr ⟨hge, b, hb⟩

theorem spans_are_the_markers_iff (data : List Byte) :
    Exactly data (findOSC133 data) ↔ ∀ s t n, Begins data s → ClosedBy data s t n → Kept data s t := by
  have hscan := findOSC133_scans data
  constructor
  · rintro ⟨starts, -, -, hrel⟩ s t n hb hc
    obtain ⟨kind, hk, hr⟩ := hc.reads hb.1
    obtain ⟨i, hi, he⟩ := List.getElem_of_mem (hscan.mem (Nat.zero_le s) hb hr)
    have hlen := hrel.length_eq
    have hm : Marker data starts[i] (findOSC133 data)[i] := hrel.get (by omega) hi
    rw [he] at hm
    exact hm.kept hb.1 hk hc
  · intro hall
    obtain ⟨starts, hsorted, hmem, hrel⟩ := hscan.markers (fun s₀ h => absurd h (Nat.not_lt_zero s₀)) hall
    exact ⟨starts, hsorted, fun s => by simp [hmem], hrel⟩

/-- `ESC ]133;A` BEL, and `ESC ]133;D;1` with ESC and a backslash. -/
def twoMarkers : List Byte :=
  osc133Prefix ++ [byte 'A', bel] ++ (osc133Prefix ++ [byte 'D', byte ';', byte '1', esc, byte '\\'])

theorem spans_are_the_markers_iff_two :
    findOSC133 twoMarkers = [⟨byte 'A', none, 8⟩, ⟨byte 'D', some 1, 19⟩] ∧ Exactly twoMarkers (findOSC133 twoMarkers) := by
  refine ⟨by decide, (spans_are_the_markers_iff twoMarkers).mpr fun s t n hb hc => ?_⟩
  have hstarts : ∀ s < 19, osc133Prefix <+: twoMarkers.drop s → s = 0 ∨ s = 8 := by decide
  -- the first terminator is where it is to be
  have hat : ∀ t' n', TerminatorAt twoMarkers t' n' → s + 7 ≤ t' → t ≤ t' := by
    intro t' n' ht' h7
    by_contra hn
    exact hc.2.2 t' n' h7 (by omega) ht'
  have hle := hc.1
  rcases hstarts s hb.1.lt hb.1 with rfl | rfl
  · obtain rfl : t = 7 := Nat.le_antisymm (hat 7 1 (.inl (by decide)) (by omega)) hle
    exact ⟨0, byte 'A', by omega, hb.1, by decide, by decide, by decide, by decide, by omega,
      fun j h1 h2 => by omega, fun _ => rfl⟩
  · have hle' := hat 17 2 (.inr (by decide)) (by omega)
    have hclean : ∀ j < 17, 15 ≤ j → twoMarkers[j]? ≠ some bel ∧ twoMarkers[j]? ≠ some esc := by decide
    exact ⟨8, byte 'D', by omega, hb.1, by decide, by decide, by decide, by decide, hle,
      fun j h1 h2 => hclean j (by omega) h1, fun _ => rfl⟩

/-- `ESC ]133;A`, broken off, and a complete `ESC ]133;C` BEL. -/
def brokenOff : List Byte := osc133Prefix ++ [byte 'A'] ++ (osc133Prefix ++ [byte 'C', bel])

/-- The C marker is there; what is reported is an A that is not. -/
theorem a_broken_marker_swallows_the_next :
    Marker brokenOff 7 ⟨byte 'C', none, 15⟩ ∧ findOSC133 brokenOff = [⟨byte 'A', none, 15⟩] ∧
      ¬ Exactly brokenOff (findOSC133 brokenOff) := by
  have hfound : findOSC133 brokenOff = [⟨byte 'A', none, 15⟩] := by decide
  refine ⟨⟨byte 'C', 14, 1, ⟨[byte 'C', bel], by decide⟩, by decide, by decide, by decide, by decide,
    fun j h1 h2 => absurd h1 (by omega), Or.inl (by decide), by decide⟩, hfound, ?_⟩
  rintro ⟨starts, -, -, hrel⟩
  rw [hfound] at hrel
  cases hrel with
  | @cons s _ _ _ hm _ =>
    obtain ⟨kind, t, n, hs, hk, -, -, hle, hclean, ht, he⟩ := hm
    have hA : ∀ s < 15, brokenOff[s + 6]? = some (byte 'A') → s = 0 := by decide
    obtain rfl : byte 'A' = kind := congrArg Osc133Span.kind he
    obtain rfl := hA s hs.lt hk
    have hend : 15 = t + n := congrArg Osc133Span.end he
    have ht7 : 7 < t := by
      rcases ht with ⟨-, rfl⟩ | ⟨-, -, rfl⟩ <;> omega
    exact (hclean 7 (by omega) ht7).2 (by decide)

end Ghostline.Terminal
