/-
  Ghostline.Lib.Gate — a reader/writer lock among the threads of a list.

  Where a thread stands says whether it holds the lock, and how (`hold`). A thread may
  share the lock while nobody holds it exclusively, and take it while nobody holds it at
  all; then a thread that holds it exclusively is the only one that holds it
  (`Exclusive`), whatever the threads do otherwise.

  `Guarded` is the lock with what it guards: `R none` holds while nobody has the lock, and
  `R (some a)` while the thread at `a` has it exclusively. A thread may break `R none` once
  it has the lock, and has to restore it before it lets go.
-/

import Mathlib.Data.List.Basic
import Mathlib.Tactic.Common

namespace Ghostline.Lib.Gate

inductive Hold where
  | free
  | shared
  | exclusive
  deriving DecidableEq, Repr

variable {τ : Type} (hold : τ → Hold)

def canShare (ts : List τ) : Bool := ts.all fun t => hold t != .exclusive

def canTake (ts : List τ) : Bool := ts.all fun t => hold t == .free

def Exclusive (ts : List τ) : Prop :=
  ∀ (i j : Nat) (a b : τ), i ≠ j → ts[i]? = some a → ts[j]? = some b → hold a = .exclusive → hold b = .free

variable {hold} {ts : List τ} {i : Nat} {a b : τ}

theorem set_getElem? {j : Nat} {c : τ} (h : (ts.set i b)[j]? = some c) :
    (i = j ∧ c = b) ∨ (i ≠ j ∧ ts[j]? = some c) := by
  by_cases e : i = j
  · subst e
    rw [List.getElem?_set_self'] at h
    obtain ⟨-, -, rfl⟩ := Option.map_eq_some_iff.mp h
    exact .inl ⟨rfl, rfl⟩
  · rw [List.getElem?_set_ne e] at h
    exact .inr ⟨e, h⟩

theorem concat_getElem? {j : Nat} {c : τ} (h : (ts ++ [b])[j]? = some c) : ts[j]? = some c ∨ c = b := by
  by_cases e : j < ts.length
  · rw [List.getElem?_append_left e] at h; exact .inl h
  · rw [List.getElem?_append_right (by omega)] at h
    exact .inr (by simpa using List.mem_of_getElem? h)

/-- A thread that holds no more than before. -/
theorem Exclusive.keep (h : Exclusive hold ts) (ha : ts[i]? = some a) (hb : hold b = hold a ∨ hold b = .free) :
    Exclusive hold (ts.set i b) := by
  intro j k c d hne hc hd he
  rcases set_getElem? hc with ⟨rfl, rfl⟩ | ⟨-, hc'⟩
  · rcases set_getElem? hd with ⟨rfl, rfl⟩ | ⟨-, hd'⟩
    · exact absurd rfl hne
    · rcases hb with hb | hb
      · exact h i k a d hne ha hd' (hb ▸ he)
      · rw [hb] at he; cases he
  · rcases set_getElem? hd with ⟨rfl, rfl⟩ | ⟨-, hd'⟩
    · rcases hb with hb | hb
      · rw [hb]; exact h j i c a hne hc' ha he
      · exact hb
    · exact h j k c d hne hc' hd' he

/-- A thread shares the lock. -/
theorem Exclusive.share (hs : canShare hold ts = true) (hb : hold b = .shared) :
    Exclusive hold (ts.set i b) := by
  have hno : ∀ (j : Nat) (c : τ), ts[j]? = some c → hold c ≠ .exclusive := by
    intro j c hc
    have := List.all_eq_true.mp hs c (List.mem_of_getElem? hc)
    simpa using this
  intro j k c d hne hc hd he
  rcases set_getElem? hc with ⟨rfl, rfl⟩ | ⟨-, hc'⟩
  · rw [hb] at he; cases he
  · exact absurd he (hno j c hc')

/-- A thread takes the lock. -/
theorem Exclusive.take (ht : canTake hold ts = true) : Exclusive hold (ts.set i b) := by
  have hfree : ∀ (j : Nat) (c : τ), ts[j]? = some c → hold c = .free := by
    intro j c hc
    have := List.all_eq_true.mp ht c (List.mem_of_getElem? hc)
    simpa using this
  intro j k c d hne hc hd he
  rcases set_getElem? hd with ⟨rfl, rfl⟩ | ⟨-, hd'⟩
  · rcases set_getElem? hc with ⟨rfl, -⟩ | ⟨-, hc'⟩
    · exact absurd rfl hne
    · rw [hfree j c hc'] at he; cases he
  · exact hfree k d hd' 

/-- A new thread, which holds nothing. -/
theorem Exclusive.spawn (h : Exclusive hold ts) (hb : hold b = .free) : Exclusive hold (ts ++ [b]) := by
  intro j k c d hne hc hd he
  rcases concat_getElem? hd with hd' | rfl
  · rcases concat_getElem? hc with hc' | rfl
    · exact h j k c d hne hc' hd' he
    · rw [hb] at he; cases he
  · exact hb

/-! ## What a lock guards -/

structure Guarded (hold : τ → Hold) (ts : List τ) (R : Option τ → Prop) : Prop where
  alone : Exclusive hold ts
  held : ∀ (i : Nat) (a : τ), ts[i]? = some a → hold a = .exclusive → R (some a)
  free : canTake hold ts = true → R none

variable {R R' : Option τ → Prop}

theorem canTake_iff : canTake hold ts = true ↔ ∀ (i : Nat) (a : τ), ts[i]? = some a → hold a = .free := by
  simp only [canTake, List.all_eq_true, beq_iff_eq]
  constructor
  · intro h i a ha
    exact h a (List.mem_of_getElem? ha)
  · intro h a ha
    obtain ⟨i, hi⟩ := List.mem_iff_getElem?.mp ha
    exact h i a hi

theorem Guarded.single (ha : hold a = .free) (hR : R none) : Guarded hold [a] R := by
  refine ⟨fun i j b c hne hb hc he => ?_, fun i b hb he => ?_, fun _ => hR⟩
  · rw [List.getElem?_singleton] at hc
    split at hc <;> cases hc
    exact ha
  · rw [List.getElem?_singleton] at hb
    split at hb <;> cases hb
    rw [ha] at he; cases he

/-- A thread without the lock does something that keeps what is guarded, whoever has it. -/
theorem Guarded.outside (h : Guarded hold ts R) (ha : ts[i]? = some a) (hf : hold a = .free) (hb : hold b = .free)
    (hR : ∀ o, R o → R' o) : Guarded hold (ts.set i b) R' := by
  refine ⟨h.alone.keep ha (.inr hb), fun j c hc he => ?_, fun ht => hR _ (h.free ?_)⟩
  · rcases set_getElem? hc with ⟨rfl, rfl⟩ | ⟨-, hc'⟩
    · rw [hb] at he; cases he
    · exact hR _ (h.held j c hc' he)
  · rw [canTake_iff] at ht ⊢
    intro j c hc
    by_cases e : i = j
    · subst e; rw [ha] at hc; cases hc; exact hf
    · exact ht j c (by rw [List.getElem?_set_ne e]; exact hc)

theorem Guarded.lock (h : Guarded hold ts R) (ht : canTake hold ts = true) (hb : hold b = .exclusive)
    (hi : i < ts.length) (hR : R none → R' (some b)) : Guarded hold (ts.set i b) R' := by
  refine ⟨.take ht, fun j c hc he => ?_, fun ht' => ?_⟩
  · rcases set_getElem? hc with ⟨rfl, rfl⟩ | ⟨-, hc'⟩
    · exact hR (h.free ht)
    · rw [canTake_iff.mp ht j c hc'] at he; cases he
  · have := canTake_iff.mp ht' i b (by simp [hi])
    rw [hb] at this; cases this

/-- The thread that has the lock goes on. -/
theorem Guarded.inside (h : Guarded hold ts R) (ha : ts[i]? = some a) (hx : hold a = .exclusive)
    (hb : hold b = .exclusive) (hR : R (some a) → R' (some b)) : Guarded hold (ts.set i b) R' := by
  refine ⟨h.alone.keep ha (.inl (hb.trans hx.symm)), fun j c hc he => ?_, fun ht' => ?_⟩
  · rcases set_getElem? hc with ⟨rfl, rfl⟩ | ⟨hne, hc'⟩
    · exact hR (h.held i a ha hx)
    · rw [h.alone i j a c hne ha hc' hx] at he; cases he
  · have hi : i < ts.length := (List.getElem?_eq_some_iff.mp ha).1
    have := canTake_iff.mp ht' i b (by simp [hi])
    rw [hb] at this; cases this

theorem Guarded.unlock (h : Guarded hold ts R) (ha : ts[i]? = some a) (hx : hold a = .exclusive)
    (hb : hold b = .free) (hR : R (some a) → R' none) : Guarded hold (ts.set i b) R' := by
  refine ⟨h.alone.keep ha (.inr hb), fun j c hc he => ?_, fun _ => hR (h.held i a ha hx)⟩
  rcases set_getElem? hc with ⟨rfl, rfl⟩ | ⟨hne, hc'⟩
  · rw [hb] at he; cases he
  · rw [h.alone i j a c hne ha hc' hx] at he; cases he

theorem Guarded.spawn (h : Guarded hold ts R) (hb : hold b = .free) : Guarded hold (ts ++ [b]) R := by
  refine ⟨h.alone.spawn hb, fun j c hc he => ?_, fun ht => h.free ?_⟩
  · rcases concat_getElem? hc with hc' | rfl
    · exact h.held j c hc' he
    · rw [hb] at he; cases he
  · simp only [canTake, List.all_append, Bool.and_eq_true] at ht ⊢
    exact ht.1

end Ghostline.Lib.Gate
