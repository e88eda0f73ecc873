/-
  Ghostline.Lib.Descriptors — the descriptor numbers of a process.

  An open number refers to a file and belongs to the party that opened it. Opening takes a
  number that is free, closing gives it back to be taken again. `own k` is the number
  party `k` has, if it has one; `Keeps` says that each of these is still its party's and
  refers to a file that is right for it. A party may forget its number at any time; then
  nothing is said of it any more.
-/

import Mathlib.Logic.Function.Basic
import Mathlib.Tactic.Common

namespace Ghostline.Lib

def Descriptors (κ φ : Type) := Nat → Option (κ × φ)

namespace Descriptors

variable {κ φ : Type} (t : Descriptors κ φ)

def none : Descriptors κ φ := fun _ => .none

def open_ (fd : Nat) (k : κ) (f : φ) : Option (Descriptors κ φ) :=
  if (t fd).isNone then some (Function.update t fd (some (k, f))) else .none

def close (fd : Nat) : Descriptors κ φ := Function.update t fd .none

/-- What a number refers to. -/
def file (fd : Nat) : Option φ := (t fd).map Prod.snd

def Keeps (own : κ → Option Nat) (right : κ → φ → Prop) : Prop :=
  ∀ k fd, own k = some fd → ∃ f, t fd = some (k, f) ∧ right k f

variable {t} {t' : Descriptors κ φ} {own own' : κ → Option Nat} {right : κ → φ → Prop} {fd : Nat} {k : κ} {f : φ}

theorem Keeps.forget (h : t.Keeps own right) (ho : ∀ j g, own' j = some g → own j = some g) : t.Keeps own' right :=
  fun j g hg => h j g (ho j g hg)

/-- A number has one party. -/
theorem Keeps.sole {j : κ} (h : t.Keeps own right) (hj : own j = some fd) (hk : own k = some fd) : j = k := by
  obtain ⟨f, hf, -⟩ := h j fd hj
  obtain ⟨g, hg, -⟩ := h k fd hk
  rw [hf] at hg
  exact (Prod.mk.inj (Option.some.inj hg)).1

/-- A free number is nobody's, so that an open changes no other. -/
theorem Keeps.opened (h : t.Keeps own right) (ht : t.open_ fd k f = some t')
    (ho : ∀ j g, own' j = some g → own j = some g ∨ j = k ∧ g = fd ∧ right k f) : t'.Keeps own' right := by
  obtain ⟨hfree, ht⟩ := Option.ite_none_right_eq_some.mp ht
  obtain rfl := Option.some.inj ht
  intro j g hg
  rcases ho j g hg with hj | ⟨rfl, rfl, hf⟩
  · obtain ⟨x, hx, hr⟩ := h j g hj
    have hne : g ≠ fd := by
      rintro rfl
      rw [hx] at hfree
      cases hfree
    exact ⟨x, (Function.update_of_ne hne _ _).trans hx, hr⟩
  · exact ⟨f, Function.update_self .., hf⟩

theorem Keeps.closed (h : t.Keeps own right) (ho : ∀ j g, own' j = some g → own j = some g ∧ g ≠ fd) :
    (t.close fd).Keeps own' right := by
  intro j g hg
  obtain ⟨hj, hne⟩ := ho j g hg
  obtain ⟨x, hx, hr⟩ := h j g hj
  exact ⟨x, (Function.update_of_ne hne _ _).trans hx, hr⟩

/-- A party closes its own number and no other's. -/
theorem Keeps.closed_own (h : t.Keeps own right) (hk : own k = some fd) (ho : own' k = .none)
    (hn : ∀ j, j ≠ k → own' j = own j) : (t.close fd).Keeps own' right := by
  refine h.closed fun j g hg => ?_
  have hne : j ≠ k := by
    rintro rfl
    rw [ho] at hg
    cases hg
  rw [hn j hne] at hg
  refine ⟨hg, ?_⟩
  rintro rfl
  exact hne (h.sole hg hk)

/-- So does a party whose number is not followed. -/
theorem Keeps.closed_other (h : t.Keeps own right) (ht : t fd = some (k, f)) (hk : own k = .none) :
    (t.close fd).Keeps own right := by
  refine h.closed fun j g hg => ⟨hg, ?_⟩
  rintro rfl
  obtain ⟨x, hx, -⟩ := h j g hg
  rw [ht] at hx
  cases hx
  rw [hk] at hg
  cases hg

end Descriptors

end Ghostline.Lib
