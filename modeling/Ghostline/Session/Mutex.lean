/-
  Ghostline.Session.Mutex — who holds `outputMu`.

  The parties are the copy loop and the calls. `PartyMove` is a step of one of them, with
  what it does to the store; every other step leaves the store alone. A property of the
  store that `outputMu` guards is then kept by every run if each party's step keeps it
  (`Guarded`, see `step_guarded`).
-/

import Ghostline.Session.State

namespace Ghostline.Session

open Lib Lib.Gate Output

inductive Party where
  | loop (l : Loop)
  | op (pc : Pc)
  deriving DecidableEq, Repr

def Party.output : Party → Hold
  | .loop l => if l.output then .exclusive else .free
  | .op pc => if pc.output then .exclusive else .free

def Sys.parties (s : Sys) : List Party := .loop s.core.loop :: s.ops.map .op

inductive PartyMove (s : Sys) : Ev → Party → Party → Act → Prop
  | loop {e : LoopEv} {w : OutputLog.Write} {c : Core} : s.loopFits e w = true → LoopMove s.core e c →
      PartyMove s (.loop e w) (.loop s.core.loop) (.loop c.loop) (Sys.loopAct s.core.loop w)
  | op {i : Nat} {pc : Pc} {x : OpEv} {o : Sys.Out} : s.ops[i]? = some pc → OpMove s pc x o →
      PartyMove s (.op i x) (.op pc) (.op o.pc) o.act

variable {s s' : Sys} {e : Ev}

theorem outputFree_iff : s.outputFree = true ↔ canTake Party.output s.parties = true := by
  simp only [Sys.outputFree, Sys.parties, canTake, List.all_cons, List.all_map, Bool.and_eq_true, Bool.not_eq_true',
    List.all_eq_true, Function.comp_apply, Party.output, beq_iff_eq]
  constructor <;> rintro ⟨h1, h2⟩ <;> refine ⟨?_, fun pc hp => ?_⟩
  · simp [h1]
  · simp [h2 pc hp]
  · simpa using h1
  · simpa using h2 pc hp

/-- A step is one party's, or leaves the store and the parties alone, or adds a call. -/
theorem step_party (h : s.step e = some s') :
    (∃ i a b act, s.parties[i]? = some a ∧ PartyMove s e a b act ∧ s'.parties = s.parties.set i b ∧
      s'.store = s.store.act act) ∨
    (s'.parties = s.parties ∧ s'.store = s.store) ∨
    (∃ op, s'.parties = s.parties ++ [.op (.start op)] ∧ s'.store = s.store) := by
  -- the parties are the same when the loop is where it was
  have parties : ∀ {t : Sys}, t.core.loop = s.core.loop → t.ops = s.ops → t.parties = s.parties := by
    intro t hl ho
    simp only [Sys.parties, hl, ho]
  cases step_move h with
  | loop hf hm => exact .inl ⟨0, _, _, _, rfl, .loop hf hm, rfl, rfl⟩
  | @op i x pc o hp hm =>
    refine .inl ⟨i + 1, .op pc, .op o.pc, o.act, ?_, .op hp hm, ?_, rfl⟩
    · simp [Sys.parties, hp]
    · have hl : (s.after i o).core.loop = s.core.loop := hm.same.loop
      simp only [Sys.parties, hl]
      simp [Sys.after, List.map_set]
  | @call op => exact .inr (.inr ⟨op, by simp [Sys.parties, Sys.core], rfl⟩)
  | child hm => exact .inr (.inl ⟨parties (SameTickets.child hm).loop rfl, rfl⟩)
  | freeze _ _ | unfreeze _ | remove _ _ => exact .inr (.inl ⟨rfl, rfl⟩)
  | begin _ _ hm => exact .inr (.inl ⟨parties (Release.step_loop hm rfl) rfl, rfl⟩)
  | handler hl hm _ _ => exact .inr (.inl ⟨parties (Release.step_loop hm hl) rfl, rfl⟩)

theorem Loop.output_iff {l : Loop} : (Party.loop l).output = .exclusive ↔ l.output = true := by
  simp only [Party.output]
  split <;> simp_all

theorem Pc.output_iff {pc : Pc} : (Party.op pc).output = .exclusive ↔ pc.output = true := by
  simp only [Party.output]
  split <;> simp_all

/-- The loop takes `outputMu` in two places. -/
theorem LoopMove.locks {c c' : Core} {x : LoopEv} (h : LoopMove c x c') (ha : c.loop.output = false)
    (hb : c'.loop.output = true) : c.loop = .lock ∨ ∃ t n chunk, c.loop = .drainLock t n chunk := by
  cases h with
  | hop h =>
    simp only [Core.goto_loop] at hb
    generalize c.loop = k at h ha
    cases h <;> simp_all [Loop.output]
  | stopped hl => simp only [Core.goto_loop] at hb; split at hb <;> cases hb
  | killed hl _ => exact absurd (ha.symm.trans hb) (by simp)
  | _ => simp_all [Loop.output]

theorem enter_output (op : Op) : (s.enter op).output = false := by
  cases op <;> simp only [Sys.enter] <;> repeat' split
  all_goals rfl

theorem OpMove.locks {pc : Pc} {x : OpEv} {o : Sys.Out} (h : OpMove s pc x o) (ha : pc.output = false)
    (hb : o.pc.output = true) : s.outputFree = true := by
  cases h with
  | lock hf _ | lockResize hf => exact hf
  | @check op => exact absurd hb (by simp [Sys.out, enter_output op])
  | close => simp only [Sys.out] at hb; split at hb <;> cases hb
  | _ => first | (cases ha; done) | cases hb

/-- A party takes `outputMu` only when it is free. -/
theorem PartyMove.takes {a b : Party} {act : Act} (h : PartyMove s e a b act) (ha : a.output = .free)
    (hb : b.output = .exclusive) : canTake Party.output s.parties = true := by
  refine outputFree_iff.mp ?_
  cases h with
  | @loop x w c hf hm =>
    have hl : s.core.loop.output = false := by
      by_contra hc
      exact absurd (Loop.output_iff.mpr (by simpa using hc)) (by simp [ha])
    rcases hm.locks hl (Loop.output_iff.mp hb) with hk | ⟨t, n, chunk, hk⟩ <;> simpa [Sys.loopFits, hk] using hf
  | @op i pc x o _ hm =>
    refine hm.locks ?_ (Pc.output_iff.mp hb)
    by_contra hc
    exact absurd (Pc.output_iff.mpr (by simpa using hc)) (by simp [ha])

/-- What `outputMu` guards (`R st` for the store `st`) is kept by a step if it is kept by
    the party that makes it: outside of the lock, on entering it, in it and on leaving. -/
theorem step_guarded {R : Store → Option Party → Prop} (h : s.step e = some s')
    (hg : Guarded Party.output s.parties (R s.store))
    (outside : ∀ a b act, PartyMove s e a b act → a.output = .free → b.output = .free →
      ∀ o, R s.store o → R (s.store.act act) o)
    (enters : ∀ a b act, PartyMove s e a b act → a.output = .free → b.output = .exclusive →
      R s.store none → R (s.store.act act) (some b))
    (inside : ∀ a b act, PartyMove s e a b act → a.output = .exclusive → b.output = .exclusive →
      R s.store (some a) → R (s.store.act act) (some b))
    (leaves : ∀ a b act, PartyMove s e a b act → a.output = .exclusive → b.output = .free →
      R s.store (some a) → R (s.store.act act) none) :
    Guarded Party.output s'.parties (R s'.store) := by
  have two : ∀ p : Party, p.output = .free ∨ p.output = .exclusive := by
    intro p
    cases p <;> simp only [Party.output] <;> split <;> simp
  rcases step_party h with ⟨i, a, b, act, ha, hm, hp, hs⟩ | ⟨hp, hs⟩ | ⟨op, hp, hs⟩
  · rw [hp, hs]
    rcases two a with hfa | hfa <;> rcases two b with hfb | hfb
    · exact hg.outside ha hfa hfb (outside a b act hm hfa hfb)
    · exact hg.lock (hm.takes hfa hfb) hfb (List.getElem?_eq_some_iff.mp ha).1 (enters a b act hm hfa hfb)
    · exact hg.unlock ha hfa hfb (leaves a b act hm hfa hfb)
    · exact hg.inside ha hfa hfb (inside a b act hm hfa hfb)
  · rw [hp, hs]; exact hg
  · rw [hp, hs]; exact hg.spawn rfl

end Ghostline.Session
