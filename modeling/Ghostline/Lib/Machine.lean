/-
  Ghostline.Lib.Machine — labelled machines with guarded reachability.

  A machine has a set of initial states and, for each state and event, at most one
  next state (`none`: the event is not enabled). What a scheduler, a peer or the
  operating system decides is part of the event, so that a run is a list of events
  and can be evaluated. `Reach ok` is what runs reach when every event taken meets
  `ok` in the state it is taken in; `Reach always` is plain reachability.
-/

import Mathlib.Tactic.Common

namespace Ghostline.Lib

structure Machine (σ ε : Type) where
  init : σ → Prop
  step : σ → ε → Option σ

namespace Machine

variable {σ ε : Type} (M : Machine σ ε)

inductive Reach (ok : σ → ε → Bool) : σ → Prop
  | init {s : σ} : M.init s → Reach ok s
  | step {s s' : σ} (e : ε) : Reach ok s → ok s e = true → M.step s e = some s' → Reach ok s'

/-- No event is ruled out. -/
def always : σ → ε → Bool := fun _ _ => true

/-- The invariant rule: what holds initially and is kept by every allowed step holds
    in every state reached. -/
theorem Reach.invariant {M : Machine σ ε} {ok : σ → ε → Bool} {I : σ → Prop} (h0 : ∀ s, M.init s → I s)
    (hs : ∀ s e s', I s → ok s e = true → M.step s e = some s' → I s') {s : σ} (h : M.Reach ok s) : I s := by
  induction h with
  | init hi => exact h0 _ hi
  | step e _ hok he ih => exact hs _ e _ ih hok he

/-- Take the events in turn; `none` when one is not enabled or not allowed. -/
def run (ok : σ → ε → Bool) (s : σ) : List ε → Option σ
  | [] => some s
  | e :: es => if ok s e then (M.step s e).bind fun t => run ok t es else none

/-- What every allowed step keeps, a run keeps. -/
theorem run_stable {ok : σ → ε → Bool} {P : σ → Prop}
    (hP : ∀ s e s', P s → ok s e = true → M.step s e = some s' → P s') {s t : σ} {es : List ε} (h : P s)
    (hr : M.run ok s es = some t) : P t := by
  induction es generalizing s with
  | nil => simp only [run, Option.some.injEq] at hr; exact hr ▸ h
  | cons e es ih =>
    simp only [run, Option.ite_none_right_eq_some, Option.bind_eq_some_iff] at hr
    obtain ⟨hok, u, hu, hr⟩ := hr
    exact ih (hP s e u h hok hu) hr

theorem run_reach {ok : σ → ε → Bool} {s t : σ} {es : List ε} (h : M.Reach ok s) (hr : M.run ok s es = some t) :
    M.Reach ok t := M.run_stable (fun _ e _ h hok he => .step e h hok he) h hr

/-- A run that ends in a state with a checked property reaches such a state. -/
theorem exists_reach (ok : σ → ε → Bool) {s : σ} (h : M.init s) (es : List ε) {P : σ → Prop} [DecidablePred P]
    (hr : (M.run ok s es).any (fun t => decide (P t)) = true) : ∃ t, M.Reach ok t ∧ P t := by
  obtain ⟨t, ht, hp⟩ := (Option.any_eq_true _ _).mp hr
  exact ⟨t, M.run_reach (.init h) ht, of_decide_eq_true hp⟩

/-- The progress rule: when every allowed step from a state with `I` leads to `P`, which stays,
    or to `I` again at a rank no higher, and lower if the step is one of the party's own, a
    run takes at most as many of the party's steps as the rank says before it is at `P`. -/
theorem run_rank {ok : σ → ε → Bool} (own : ε → Bool) (rank : σ → Nat) (I P : σ → Prop)
    (hP : ∀ s e s', P s → M.step s e = some s' → P s')
    (hI : ∀ s e s', I s → ok s e = true → M.step s e = some s' →
      P s' ∨ I s' ∧ (rank s' + if own e then 1 else 0) ≤ rank s)
    {s t : σ} {es : List ε} (h : P s ∨ I s) (hr : M.run ok s es = some t) : P t ∨ es.countP own ≤ rank s := by
  induction es generalizing s with
  | nil => exact .inr (by simp)
  | cons e es ih =>
    simp only [run, Option.ite_none_right_eq_some, Option.bind_eq_some_iff] at hr
    obtain ⟨hok, u, hu, hr⟩ := hr
    have stays : P u → P t := fun hp => M.run_stable (fun s e s' h _ => hP s e s' h) hp hr
    rcases h with hp | hi
    · exact .inl (stays (hP s e u hp hu))
    · rcases hI s e u hi hok hu with hp | ⟨hi', hle⟩
      · exact .inl (stays hp)
      · refine (ih (.inr hi') hr).imp_right fun hc => ?_
        rw [List.countP_cons]
        omega

/-- The countdown: when every step from a state with `I n` leads to `I` at a lower number, a
    run from it has at most `n` steps. -/
theorem run_countdown {ok : σ → ε → Bool} (I : Nat → σ → Prop)
    (hI : ∀ n s e s', I n s → M.step s e = some s' → ∃ k < n, I k s') {n : Nat} {s t : σ} {es : List ε} (h : I n s)
    (hr : M.run ok s es = some t) : ∃ k, I k t ∧ k + es.length ≤ n := by
  induction es generalizing n s with
  | nil => simp only [run, Option.some.injEq] at hr; exact ⟨n, hr ▸ h, Nat.le_refl _⟩
  | cons e es ih =>
    simp only [run, Option.ite_none_right_eq_some, Option.bind_eq_some_iff] at hr
    obtain ⟨-, u, hu, hr⟩ := hr
    obtain ⟨m, hm, hi⟩ := hI n s e u h hu
    obtain ⟨k, hk, hle⟩ := ih hi hr
    exact ⟨k, hk, by simp only [List.length_cons]; omega⟩

/-- The way out: when every state with `I n` has `P` or an allowed step to `P` or to `I` at a
    lower number, some run from it ends at `P`. -/
theorem exists_run {ok : σ → ε → Bool} (I : Nat → σ → Prop) (P : σ → Prop)
    (hI : ∀ n s, I n s → P s ∨ ∃ e s', ok s e = true ∧ M.step s e = some s' ∧ (P s' ∨ ∃ k < n, I k s'))
    {n : Nat} {s : σ} (h : I n s) : ∃ es t, M.run ok s es = some t ∧ P t := by
  induction n using Nat.strongRecOn generalizing s with
  | ind n ih =>
    rcases hI n s h with hp | ⟨e, s', hok, hs, hp | ⟨k, hk, hi⟩⟩
    · exact ⟨[], s, rfl, hp⟩
    · exact ⟨[e], s', by simp [run, hok, hs], hp⟩
    · obtain ⟨es, t, hr, hp⟩ := ih k hk hi
      exact ⟨e :: es, t, by simp [run, hok, hs, hr], hp⟩

end Machine

end Ghostline.Lib
