/-
  Ghostline.Terminal.Writes — what `Feed` writes to the emulator, and when it acts on a
  marker (terminal.go: `Feed`; semantic.go: `findOSC133`).

  `Turns` is the loop of `findOSC133` as it is written, without a bound on its turns. Each
  turn moves the position on and leaves it within the chunk, whichever of its three rules
  moves it, so the loop ends (`findOSC133_turns`) and the spans end one behind the other.

  `Feed` cuts the chunk at these ends. Its writes, one after the other, are the chunk, and a
  marker is applied when the chunk is written up to its end (`feed_writes_the_chunk`).
-/

import Ghostline.Terminal.Vt

namespace Ghostline.Terminal

open Lib Query

variable {data : List Byte} {position fed : Nat} {spans : List Osc133Span}

/-! ## The loop of the scan -/

/-- One turn: `none` where the loop is left, else the next position and the span it adds. -/
def findStep (data : List Byte) (position : Nat) : Option (Nat × Option Osc133Span) :=
  if data.length ≤ position then none
  else
    match index osc133Suffix (data.drop position) with
    | none => none
    | some offset =>
      let at_ := offset + position
      if at_ = 0 ∨ data[at_ - 1]? ≠ some esc then some (at_ + 1, none)
      else
        let (span, ok) := parseOSC133At data (at_ - 1)
        if span.end ≤ position then some (at_ + osc133Suffix.length, none)
        else some (span.end, if ok then some span else none)

/-- The loop from a position on: the spans it adds, and its turns. -/
inductive Turns (data : List Byte) : Nat → Nat → List Osc133Span → Prop
  | leave {position : Nat} : findStep data position = none → Turns data position 1 []
  | next {position position' turns : Nat} {found : Option Osc133Span} {spans : List Osc133Span} :
      findStep data position = some (position', found) → Turns data position' turns spans →
        Turns data position (turns + 1) (found.toList ++ spans)

theorem findStep_moves {position' : Nat} {found : Option Osc133Span}
    (h : findStep data position = some (position', found)) : position < position' ∧ position' ≤ data.length := by
  unfold findStep at h
  split at h
  · cases h
  · split at h
    · cases h
    · rename_i offset ho
      have hle := index_le ho
      have hlen : osc133Suffix.length = 5 := by decide
      simp only [List.length_drop] at hle
      simp only at h
      split at h
      · obtain ⟨rfl, -⟩ := Prod.mk.inj (Option.some.inj h)
        omega
      · have hend := parseOSC133At_end data (offset + position - 1)
        split at h
        · obtain ⟨rfl, -⟩ := Prod.mk.inj (Option.some.inj h)
          omega
        · obtain ⟨rfl, -⟩ := Prod.mk.inj (Option.some.inj h)
          omega

theorem findFrom_succ (data : List Byte) (fuel position : Nat) : findFrom data (fuel + 1) position =
    match findStep data position with
    | none => []
    | some (position', found) => found.toList ++ findFrom data fuel position' := by
  rw [findFrom, findStep]
  by_cases hlen : data.length ≤ position
  · rw [if_pos hlen, if_pos hlen]
  · rw [if_neg hlen, if_neg hlen]
    cases index osc133Suffix (data.drop position) with
    | none => rfl
    | some offset =>
      dsimp only
      by_cases hat : offset + position = 0 ∨ data[offset + position - 1]? ≠ some esc
      · rw [if_pos hat, if_pos hat]
        rfl
      · rw [if_neg hat, if_neg hat]
        obtain ⟨span, ok⟩ := parseOSC133At data (offset + position - 1)
        by_cases hend : span.end ≤ position
        · rw [if_pos hend, if_pos hend]
          rfl
        · rw [if_neg hend, if_neg hend]
          cases ok <;> rfl

theorem findFrom_turns (fuel : Nat) (h : data.length ≤ position + fuel) :
    ∃ turns, turns ≤ fuel + 1 ∧ Turns data position turns (findFrom data fuel position) := by
  induction fuel generalizing position with
  | zero => exact ⟨1, Nat.le_refl 1, .leave (if_pos h)⟩
  | succ fuel ih =>
    rw [findFrom_succ]
    cases hstep : findStep data position with
    | none => exact ⟨1, by omega, .leave hstep⟩
    | some next =>
      obtain ⟨position', found⟩ := next
      have hmoves := findStep_moves hstep
      obtain ⟨turns, hle, hturns⟩ := ih (show data.length ≤ position' + fuel by omega)
      exact ⟨turns + 1, by omega, .next hstep hturns⟩

theorem findOSC133_turns (data : List Byte) : ∃ turns, turns ≤ data.length + 1 ∧ Turns data 0 turns (findOSC133 data) := by
  unfold findOSC133
  split
  · rename_i hnone
    refine ⟨1, by omega, .leave ?_⟩
    unfold findStep
    rw [List.drop_zero, hnone]
    split <;> rfl
  · exact findFrom_turns data.length (by omega)

theorem Ends.bounds {limit : Nat} (h : Ends limit position spans) :
    (spans.map Osc133Span.end).Pairwise (· < ·) ∧ ∀ span ∈ spans, position < span.end ∧ span.end ≤ limit := by
  induction spans generalizing position with
  | nil => exact ⟨.nil, fun span hs => absurd hs List.not_mem_nil⟩
  | cons span spans ih =>
    obtain ⟨hsorted, hbounds⟩ := ih h.2
    refine ⟨List.pairwise_cons.mpr ⟨?_, hsorted⟩, ?_⟩
    · intro e he
      obtain ⟨s, hs, rfl⟩ := List.mem_map.mp he
      exact (hbounds s hs).1
    · intro s hs
      rcases List.mem_cons.mp hs with rfl | hs
      · exact ⟨h.1, h.2.le⟩
      · exact ⟨Nat.lt_trans h.1 (hbounds s hs).1, (hbounds s hs).2⟩

/-! ## What a call does -/

inductive Act where
  /-- `writeLocked`, also of nothing. -/
  | write (slice : List Byte)
  /-- `applyOSC133Locked` and `refreshAtPromptLocked`. -/
  | apply (span : Osc133Span)
  deriving DecidableEq, Repr

/-- What the loop of `Feed` does from `fed` on, and the write behind it. -/
def feedActs (data : List Byte) : Nat → List Osc133Span → List Act
  | fed, [] => [.write (data.drop fed)]
  | fed, span :: spans => .write ((data.take span.end).drop fed) :: .apply span :: feedActs data span.end spans

def Act.slice : Act → List Byte
  | .write slice => slice
  | .apply _ => []

def Act.span : Act → Option Osc133Span
  | .write _ => none
  | .apply span => some span

/-- The bytes that are written. -/
def written (acts : List Act) : List Byte := (acts.map Act.slice).flatten

/-- The slices that reach the emulator: `writeLocked` returns at once if there is nothing to write. -/
def slices (acts : List Act) : List (List Byte) := (acts.map Act.slice).filter (· ≠ [])

variable {ε : Type} {E : Emulator ε} {folding : Folding} {v : VtTerminal ε}

def Act.run (E : Emulator ε) (clock : Nat → Int) (v : VtTerminal ε) : Act → VtTerminal ε
  | .write slice => v.writeLocked E slice
  | .apply span => (v.applyOSC133Locked E (clock span.end) span).refreshAtPromptLocked E

theorem feedSpans_acts (clock : Nat → Int) (data : List Byte) (fed : Nat) (spans : List Osc133Span)
    (v : VtTerminal ε) :
    VtTerminal.feedSpans E clock data fed spans v = (feedActs data fed spans).foldl (Act.run E clock) v := by
  induction spans generalizing fed v with
  | nil => rfl
  | cons span spans ih => exact ih span.end _

/-- The writes from `fed` on are what is left of the chunk. -/
theorem written_feedActs (h : Ends data.length fed spans) : written (feedActs data fed spans) = data.drop fed := by
  induction spans generalizing fed with
  | nil => simp [feedActs, written, Act.slice]
  | cons span spans ih =>
    have htail : written (feedActs data fed (span :: spans)) =
        (data.take span.end).drop fed ++ written (feedActs data span.end spans) := by
      simp [feedActs, written, Act.slice]
    have hsplit : data.drop fed = (data.take span.end).drop fed ++ data.drop span.end := by
      conv_lhs => rw [← List.take_append_drop span.end data]
      rw [List.drop_append_of_le_length]
      have := h.2.le
      have := h.1
      rw [List.length_take]
      omega
    rw [htail, ih h.2, hsplit]

/-- Up to a marker, the writes from `fed` on are the chunk up to the marker's end. -/
theorem written_before (h : Ends data.length fed spans) {before after : List Act} {span : Osc133Span}
    (hacts : feedActs data fed spans = before ++ .apply span :: after) :
    written before = (data.take span.end).drop fed ∧ fed ≤ span.end := by
  induction spans generalizing fed before with
  | nil =>
    cases before with
    | nil => cases hacts
    | cons act before => simp [feedActs] at hacts
  | cons first spans ih =>
    cases before with
    | nil => cases hacts
    | cons act before =>
      obtain ⟨rfl, hrest⟩ := List.cons.inj hacts
      cases before with
      | nil =>
        obtain ⟨hfirst, -⟩ := List.cons.inj hrest
        obtain rfl := Act.apply.inj hfirst
        exact ⟨by simp [written, Act.slice], Nat.le_of_lt h.1⟩
      | cons act before =>
        obtain ⟨rfl, htail⟩ := List.cons.inj hrest
        obtain ⟨hw, hle⟩ := ih h.2 htail
        have hlt := h.1
        refine ⟨?_, by omega⟩
        have hbefore : written (.write ((data.take first.end).drop fed) :: .apply first :: before) =
            (data.take first.end).drop fed ++ written before := by simp [written, Act.slice]
        have hcut : (data.take span.end).take first.end = data.take first.end := by
          rw [List.take_take, Nat.min_eq_left hle]
        have hlen : fed ≤ (data.take first.end).length := by
          have := h.2.le
          rw [List.length_take]
          omega
        rw [hbefore, hw]
        conv_rhs => rw [← List.take_append_drop first.end (data.take span.end), hcut]
        rw [List.drop_append_of_le_length hlen]

theorem applied_feedActs (data : List Byte) (fed : Nat) (spans : List Osc133Span) :
    (feedActs data fed spans).filterMap Act.span = spans := by
  induction spans generalizing fed with
  | nil => rfl
  | cons span spans ih =>
    show span :: (feedActs data span.end spans).filterMap Act.span = span :: spans
    rw [ih]

/-! ## The emulator -/

theorem run_terminal (clock : Nat → Int) (acts : List Act) (v : VtTerminal ε) :
    (acts.foldl (Act.run E clock) v).terminal = v.terminal.map ((slices acts).foldl E.write) := by
  induction acts generalizing v with
  | nil => cases hv : v.terminal <;> simp [slices, hv]
  | cons act acts ih =>
    rw [List.foldl_cons, ih]
    cases act with
    | apply span => simp [Act.run, slices, Act.slice]
    | write slice =>
      by_cases hs : slice = []
      · simp [Act.run, slices, Act.slice, VtTerminal.writeLocked, hs]
      · cases hv : v.terminal <;> simp [Act.run, slices, Act.slice, VtTerminal.writeLocked, hs, hv]

theorem flatten_slices (acts : List Act) : (slices acts).flatten = written acts := by
  induction acts with
  | nil => rfl
  | cons act acts ih =>
    have hw : written (act :: acts) = act.slice ++ written acts := rfl
    rw [hw, ← ih]
    by_cases hs : act.slice = [] <;> simp [slices, hs]

/-- The scan ends, its spans end one behind the other within the chunk, and `Feed` writes the
    chunk, in order and once, and acts on each marker when the chunk is written up to its end. -/
theorem feed_writes_the_chunk (data : List Byte) :
    (∃ turns, turns ≤ data.length + 1 ∧ Turns data 0 turns (findOSC133 data)) ∧
      ((findOSC133 data).map Osc133Span.end).Pairwise (· < ·) ∧
      (∀ span ∈ findOSC133 data, 0 < span.end ∧ span.end ≤ data.length) ∧
      ∃ acts : List Act,
        (slices acts).flatten = data ∧ acts.filterMap Act.span = findOSC133 data ∧
        (∀ before span after, acts = before ++ .apply span :: after →
          (slices before).flatten = data.take span.end) ∧
        ∀ {ε : Type} (E : Emulator ε) (folding : Folding) (m : Moment) (v : VtTerminal ε) (e : ε),
          v.terminal = some e → data ≠ [] →
          (v.feed E folding m data).terminal = some ((slices acts).foldl E.write e) ∧
          v.feed E folding m data = ((acts.foldl (Act.run E m.clock) v).refreshReportedPwdLocked E folding
            m.hostname).refreshAtPromptLocked E := by
  have hends := findOSC133_ends data
  refine ⟨findOSC133_turns data, hends.bounds.1, hends.bounds.2, feedActs data 0 (findOSC133 data), ?_,
    applied_feedActs data 0 _, ?_, ?_⟩
  · rw [flatten_slices, written_feedActs hends, List.drop_zero]
  · intro before span after hacts
    rw [flatten_slices, (written_before hends hacts).1, List.drop_zero]
  · intro ε E folding m v e he hne
    have hfeed : v.feed E folding m data = (((feedActs data 0 (findOSC133 data)).foldl (Act.run E m.clock)
        v).refreshReportedPwdLocked E folding m.hostname).refreshAtPromptLocked E := by
      unfold VtTerminal.feed
      rw [if_neg (by simp [he, hne]), feedSpans_acts]
    refine ⟨?_, hfeed⟩
    have hterminal := run_terminal (E := E) m.clock (feedActs data 0 (findOSC133 data)) v
    rw [he] at hterminal
    rw [hfeed, VtTerminal.refreshAtPrompt_terminal]
    exact hterminal

end Ghostline.Terminal
