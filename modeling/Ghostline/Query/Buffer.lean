/-
  Ghostline.Query.Buffer — the loop over the buffer, and what it leaves there (query.go:
  `feedLocked`).

  `Loops` is the loop as it is written, without a bound on its turns. It ends, since every
  turn but the last makes the buffer shorter, and `scan` computes what it ends with. It
  leaves nothing, an ESC, or a CSI or OSC sequence that has not ended and is not too long
  (`Kept`), whatever was fed before.

  A run is a sequence of calls of `Feed` and `Resize`. The callback is the caller's and may
  say something else each time it is asked.
-/

import Ghostline.Query.Chunks

namespace Ghostline.Query

variable {r : Responder} {p q : List Byte} {turns : Nat} {replies : List PendingReply}

/-! ## The loop -/

inductive Responder.Loops (r : Responder) : List Byte → Nat → List PendingReply → List Byte → Prop
  | stop {p q : List Byte} : r.scanStep p = .stop q → r.Loops p 1 [] q
  | discard {p : List Byte} : r.scanStep p = .discard → r.Loops p 1 [] []
  | next {p rest q : List Byte} {reply : Option PendingReply} {turns : Nat} {replies : List PendingReply} :
      r.scanStep p = .next rest reply → r.Loops rest turns replies q →
        r.Loops p (turns + 1) (reply.toList ++ replies) q

theorem scan_loops (fuel : Nat) (p : List Byte) (hf : p.length ≤ fuel) :
    ∃ turns, turns ≤ p.length + 1 ∧ r.Loops p turns (r.scan fuel p).1 ((r.scan fuel p).2.getD []) := by
  induction fuel generalizing p with
  | zero =>
    obtain rfl : p = [] := List.length_eq_zero_iff.mp (by omega)
    exact ⟨1, by simp, .stop rfl⟩
  | succ fuel ih =>
    have ht := scanStep_turns (r := r) p
    simp only [Responder.scan]
    cases hs : r.scanStep p with
    | next rest reply =>
      rw [hs] at ht
      have hlt : rest.length < p.length := ht.1
      obtain ⟨turns, hle, hloop⟩ := ih rest (by omega)
      exact ⟨turns + 1, by omega, .next hs hloop⟩
    | stop q => exact ⟨1, by omega, .stop hs⟩
    | discard => exact ⟨1, by omega, .discard hs⟩

theorem feedLocked_loops (r : Responder) (data : List Byte) :
    ∃ turns, turns ≤ (r.pending ++ data).length + 1 ∧
      r.Loops (r.pending ++ data) turns (r.feedLocked data).2 (r.feedLocked data).1.pending :=
  scan_loops _ _ (Nat.le_refl _)

/-! ## What it leaves -/

inductive Kept : List Byte → Prop
  | nothing : Kept []
  | escape : Kept [esc]
  | csi {body : List Byte} (parameters : ∀ b ∈ body, 0x20 ≤ b ∧ b ≤ 0x3f ∨ 0x7f < b)
      (short : (esc :: byte '[' :: body).length ≤ 256) : Kept (esc :: byte '[' :: body)
  | osc {body : List Byte} (text : ∀ b ∈ body, 0x20 ≤ b)
      (short : (esc :: byte ']' :: body).length ≤ 4096) : Kept (esc :: byte ']' :: body)

theorem csiFinal_incomplete_iff {body : List Byte} :
    csiFinal body = .incomplete ↔ ∀ b ∈ body, 0x20 ≤ b ∧ b ≤ 0x3f ∨ 0x7f < b := by
  induction body with
  | nil => simp [csiFinal]
  | cons b body ih =>
    have hb : (0x20 ≤ b ∧ b ≤ 0x3f ∨ 0x7f < b) ↔ ¬ (b ≥ 0x40 ∧ b ≤ 0x7e) ∧ ¬ (b < 0x20 ∨ b = 0x7f) := by grind
    rw [List.forall_mem_cons, ← ih, hb]
    simp only [csiFinal]
    split
    · simp [*]
    · split
      · simp [*]
      · simp [*, Scan.next_incomplete]

theorem oscEnd_incomplete_iff {body : List Byte} : oscEnd body = .incomplete ↔ ∀ b ∈ body, 0x20 ≤ b := by
  induction body with
  | nil => simp [oscEnd]
  | cons b body ih =>
    rw [List.forall_mem_cons, ← ih]
    simp only [oscEnd]
    split
    · rename_i hb
      subst hb
      exact ⟨fun h => (by cases h), fun h => absurd h.1 (by decide)⟩
    · split
      · rename_i hb
        subst hb
        refine ⟨fun h => ?_, fun h => absurd h.1 (by decide)⟩
        split at h <;> cases h
      · split
        · rename_i hb
          exact ⟨fun h => (by cases h), fun h => absurd h.1 (UInt8.not_le.mpr hb)⟩
        · rename_i hb
          rw [Scan.next_incomplete]
          exact ⟨fun h => ⟨UInt8.not_lt.mp hb, h⟩, fun h => h.2⟩

theorem scanStep_stop (h : r.scanStep p = .stop q) : Kept q := by
  rcases first_esc p with ⟨-, hd⟩ | ⟨w, t, -, -, hd⟩
  · simp only [Responder.scanStep, hd] at h
    obtain rfl := Step.stop.inj h
    exact .nothing
  · cases t with
    | nil =>
      simp only [Responder.scanStep, hd] at h
      obtain rfl := Step.stop.inj h
      exact .escape
    | cons c body =>
      simp only [Responder.scanStep, hd] at h
      split at h
      · rename_i hc
        subst hc
        split at h
        · cases h
        · cases h
        · rename_i hi
          split at h
          · cases h
          · obtain rfl := Step.stop.inj h
            exact .csi (csiFinal_incomplete_iff.mp hi) (by simp only [List.length_cons]; omega)
      · split at h
        · rename_i hc
          subst hc
          split at h
          · cases h
          · cases h
          · rename_i hi
            split at h
            · cases h
            · obtain rfl := Step.stop.inj h
              exact .osc (oscEnd_incomplete_iff.mp hi) (by simp only [List.length_cons]; omega)
        · cases h

theorem Responder.Loops.kept (h : r.Loops p turns replies q) : Kept q := by
  induction h with
  | stop hs => exact scanStep_stop hs
  | discard _ => exact .nothing
  | next _ _ ih => exact ih

theorem Kept.length_le (h : Kept q) : q.length ≤ 4096 := by
  cases h with
  | nothing | escape => simp
  | csi _ short => exact Nat.le_trans short (by decide)
  | osc _ short => exact short

/-- The one ESC it may have is its first byte, and what is behind it has not ended. -/
theorem Kept.sequence (h : Kept q) : q = [] ∨ ∃ t, q = esc :: t ∧ unfinished t = true := by
  cases h with
  | nothing => exact Or.inl rfl
  | escape => exact Or.inr ⟨[], rfl, rfl⟩
  | @csi body parameters _ =>
    refine Or.inr ⟨_, rfl, ?_⟩
    rw [unfinished_csi, beq_iff_eq]
    exact csiFinal_incomplete_iff.mpr parameters
  | @osc body text _ =>
    refine Or.inr ⟨_, rfl, ?_⟩
    rw [unfinished_osc, beq_iff_eq]
    exact oscEnd_incomplete_iff.mpr text

theorem Kept.count_esc (h : Kept q) : q.count esc ≤ 1 := by
  rcases h.sequence with rfl | ⟨t, rfl, ht⟩
  · simp
  · rw [List.count_cons_self, List.count_eq_zero_of_not_mem (unfinished_no_esc ht)]

theorem Kept.unfinished (h : Kept q) {t : List Byte} (ht : esc :: t <:+ q) : unfinished t = true := by
  rcases h.sequence with rfl | ⟨t', rfl, hu⟩
  · simp at ht
  · rcases List.suffix_cons_iff.mp ht with he | hs
    · rwa [(List.cons.inj he).2]
    · exact absurd (hs.subset List.mem_cons_self) (unfinished_no_esc hu)

/-! ## Runs -/

/-- A call; `said i` is what the callback says about the `i`-th sequence of the call. -/
inductive Call where
  | feed (data : List Byte) (said : Nat → ColorQueryKind → Option (List Byte))
  | resize (columns rows : Int)

namespace Responder

/-- `Feed` with what the callback, if there is one, says each time. -/
def feedSaid (r : Responder) (data : List Byte) (said : Nat → ColorQueryKind → Option (List Byte)) :
    Responder × List (List Byte) :=
  ((r.feedLocked data).1,
    (r.feedLocked data).2.zipIdx.filterMap fun p => ({ r with colorQuery := r.colorQuery.map fun _ => said p.2 }).answer p.1)

def call (r : Responder) : Call → Responder × List (List Byte)
  | .feed data said => r.feedSaid data said
  | .resize columns rows => (r.resize columns rows, [])

/-- The responder after the calls. -/
def after (r : Responder) : List Call → Responder
  | [] => r
  | c :: rest => (r.call c).1.after rest

/-- All replies of the calls. -/
def replied (r : Responder) : List Call → List (List Byte)
  | [] => []
  | c :: rest => (r.call c).2 ++ (r.call c).1.replied rest

end Responder

/-- `feed` is the case of a callback that is a function of the kind. -/
theorem feed_eq_feedSaid (r : Responder) (data : List Byte) {callback : ColorQueryKind → Option (List Byte)}
    (h : ∀ f, r.colorQuery = some f → f = callback) : r.feed data = r.feedSaid data fun _ => callback := by
  have hr : ({ r with colorQuery := r.colorQuery.map fun _ => callback } : Responder) = r := by
    cases r with
    | mk pending rows cols colorQuery =>
      cases colorQuery with
      | none => rfl
      | some f => simp [h f rfl]
  have hzip : (r.feedLocked data).2.filterMap r.answer =
      (r.feedLocked data).2.zipIdx.filterMap fun p => r.answer p.1 := by
    conv_lhs => rw [← List.zipIdx_map_fst 0 (r.feedLocked data).2, List.filterMap_map]
    rfl
  simp only [Responder.feed, Responder.feedSaid, hr, hzip]

theorem call_kept (c : Call) (h : Kept r.pending) : Kept (r.call c).1.pending := by
  cases c with
  | feed data said =>
    obtain ⟨_, -, hloop⟩ := feedLocked_loops r data
    exact hloop.kept
  | resize columns rows =>
    simp only [Responder.call, Responder.resize]
    split <;> exact h

theorem after_kept (calls : List Call) (h : Kept r.pending) : Kept (r.after calls).pending := by
  induction calls generalizing r with
  | nil => exact h
  | cons c rest ih => exact ih (call_kept c h)

/-- After every run the buffer is what `Kept` says, so that it is bounded and holds no
    complete sequence and no second ESC, and the loop of the next call ends, whatever it is
    given. -/
theorem buffer_is_kept (callback : Option (ColorQueryKind → Option (List Byte))) (calls : List Call) :
    let r := (Responder.new callback).after calls
    (Kept r.pending ∧ r.pending.length ≤ 4096 ∧ r.pending.count esc ≤ 1 ∧
      ∀ t, esc :: t <:+ r.pending → unfinished t = true) ∧
    ∀ data, ∃ turns replies kept, turns ≤ (r.pending ++ data).length + 1 ∧ r.Loops (r.pending ++ data) turns replies kept ∧
      r.feedLocked data = ({ r with pending := kept }, replies) := by
  intro r
  have hkept : Kept r.pending := after_kept calls .nothing
  refine ⟨⟨hkept, hkept.length_le, hkept.count_esc, fun t => hkept.unfinished⟩, fun data => ?_⟩
  obtain ⟨turns, hle, hloop⟩ := feedLocked_loops r data
  exact ⟨turns, _, _, hle, hloop, rfl⟩

end Ghostline.Query
