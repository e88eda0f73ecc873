/-
  Ghostline.Hub.Handles — a stale handle and the session that replaced it.

  `Safe`: a `Delete` takes only the state of its own handle out of the map, and every
  published state stays under its name until its own `Delete` removes it, the hub is
  closed, or a migration commits it.

  `Delete` checks that its state is the current one in one section and removes by name
  in the next, sharing the lifecycle lock with `Start`: of two `Delete`s of one state that
  both passed the check, the second one takes out what a `Start` in between published
  under the name (`a_second_delete_removes_the_replacement`). When no `Start` publishes a
  name while a `Delete` of an earlier state stands between its check and its removal,
  `Safe` holds in every state reached (`stale_handles_are_harmless`).
-/

import Ghostline.Hub.Registry

namespace Ghostline.Hub

open Lib.Gate

structure Safe (s : Sys) : Prop where
  own : ∀ p ∈ s.removals, p.2 = none ∨ p.2 = some p.1
  stays : ∀ id n, s.names[id]? = some n →
    s.sessions n = some id ∨ id ∈ s.deleted ∨ s.closed = true ∨ id ∈ s.committed

/-- Some `Delete` of a state named `n` passed its check and has not removed yet. -/
def Sys.removing (s : Sys) (n : Nat) : Bool :=
  s.threads.any fun t => match t with
    | .remove id => s.names[id]? == some n
    | _ => false

/-- Nothing is published under a name some `Delete` is about to remove. -/
def publishesAlone (s : Sys) : Ev → Bool
  | .section i =>
    match s.threads[i]? with
    | some (.publish n) => !s.removing n
    | _ => true
  | _ => true

/-! ## What a step does -/

/-- The name a `Start` has reserved: from its reservation to its end. -/
def Pc.reserved : Pc → Option Nat
  | .launch n => some n
  | .publish n => some n
  | .release n => some n
  | _ => none

/-- A thread goes on: a `Delete` comes to its removal only from a check that holds, and a batch
    prepares only what the map has. -/
structure Shift (s : Sys) (i : Nat) (a b : Pc) : Prop where
  gate : Exclusive Pc.hold s.threads → Exclusive Pc.hold (s.threads.set i b)
  remove : ∀ id, b = .remove id → s.current id = true
  frozen : ∀ l, b = .frozen l → l = [] ∨ ∃ l' n id, a = .frozen l' ∧ l = l' ++ [(n, id)] ∧ s.sessions n = some id

inductive Move (s : Sys) : Ev → Sys → Prop
  | called {op : Op} : Move s (.call op) { s with threads := s.threads ++ [.waiting op] }
  | shifted {e : Ev} {i : Nat} {a b : Pc} : s.threads[i]? = some a → b.reserved = a.reserved → Shift s i a b →
      Move s e (s.goto i b)
  | reserved {i n : Nat} : s.threads[i]? = some (.reserve n) → s.closed = false → s.pending n = false →
      s.sessions n = none →
      Move s (.section i) ({ s with pending := Function.update s.pending n true }.goto i (.launch n))
  | gaveBack {i n : Nat} {a b : Pc} : s.threads[i]? = some a → a.reserved = some n → b = .ending ∨ b = .done →
      Move s (.section i) ({ s with pending := Function.update s.pending n false }.goto i b)
  | published {i n : Nat} : s.threads[i]? = some (.publish n) → s.closed = false → s.sessions n = none →
      Move s (.section i) { s with
        pending := Function.update s.pending n false
        sessions := Function.update s.sessions n (some s.names.length)
        names := s.names ++ [n]
        threads := s.threads.set i .done }
  | removed {i id n : Nat} : s.threads[i]? = some (.remove id) → s.names[id]? = some n →
      Move s (.section i) { s with
        sessions := Function.update s.sessions n none
        deleted := s.deleted ++ [id]
        removals := s.removals ++ [(id, s.sessions n)]
        threads := s.threads.set i .ending }
  | swept {i : Nat} : s.threads[i]? = some .close →
      Move s (.section i) { s with closed := true, sessions := fun _ => none, threads := s.threads.set i .sweeping }
  | committed {i : Nat} {l : List (Nat × Nat)} : s.threads[i]? = some (.frozen l) →
      Move s (.commit i) ((s.commitAll l).goto i .done)

variable {s s' : Sys} {i : Nat} {a b : Pc}

theorem reserved_hold {n : Nat} (h : a.reserved = some n) : a.hold = .shared := by
  cases a <;> first | rfl | cases h

/-- Neither a removal nor a batch. -/
def Pc.plain : Pc → Bool
  | .remove _ => false
  | .frozen _ => false
  | _ => true

theorem Shift.plain (hg : Exclusive Pc.hold s.threads → Exclusive Pc.hold (s.threads.set i b))
    (hb : b.plain = true) : Shift s i a b := by
  refine ⟨hg, fun id h => ?_, fun l h => ?_⟩
  · rw [h] at hb; cases hb
  · rw [h] at hb; cases hb

theorem shifted_keep {e : Ev} (ha : s.threads[i]? = some a) (hb : b.hold = a.hold ∨ b.hold = .free)
    (hr : b.reserved = a.reserved) (hp : b.plain = true) : Move s e (s.goto i b) :=
  .shifted ha hr (.plain (fun hg => hg.keep ha hb) hp)

theorem lock_move {op : Op} (ha : s.threads[i]? = some (.waiting op)) (h : s.lock i op = some s') :
    Move s (.lock i) s' := by
  cases op <;> simp only [Sys.lock, Option.ite_none_right_eq_some, Option.some.injEq] at h <;> obtain ⟨hs, rfl⟩ := h
  case start | delete | terminate => exact .shifted ha rfl (.plain (fun _ => .share hs rfl) rfl)
  case close => exact .shifted ha rfl (.plain (fun _ => .take hs) rfl)
  case migrate =>
    by_cases hc : s.closed = true
    · rw [if_pos hc]
      exact .shifted ha rfl (.plain (fun _ => .take hs) rfl)
    · rw [if_neg hc]
      refine .shifted ha rfl ⟨fun _ => .take hs, fun _ h => (by cases h), fun l h => .inl ?_⟩
      exact (Pc.frozen.inj h).symm

theorem section_move (ha : s.threads[i]? = some a) (h : s.section i a = some s') : Move s (.section i) s' := by
  revert h
  fun_cases Sys.section s i a <;> intro h <;> cases h
  case case2 n hc =>
    simp only [Bool.or_eq_true, not_or, Bool.not_eq_true, Option.isSome_eq_false_iff, Option.isNone_iff_eq_none] at hc
    exact .reserved ha hc.1.1 hc.1.2 hc.2
  case case4 n _ _ => exact .gaveBack ha rfl (.inl rfl)
  case case5 n _ hc =>
    simp only [Bool.or_eq_true, not_or, Bool.not_eq_true, Option.isSome_eq_false_iff, Option.isNone_iff_eq_none] at hc
    exact .published ha hc.1 hc.2
  case case6 n => exact .gaveBack ha rfl (.inr rfl)
  case case7 id =>
    by_cases hc : s.current id = true
    · rw [if_pos hc]
      refine .shifted ha rfl ⟨fun hg => hg.keep ha (.inl rfl), fun _ h => ?_, fun _ h => (by cases h)⟩
      exact Pc.remove.inj h ▸ hc
    · rw [if_neg hc]
      exact shifted_keep ha (.inr rfl) rfl rfl
  case case8 id =>
    cases hn : s.names[id]? with
    | some n => simp only [Sys.removeBy, hn, Sys.goto]; exact .removed ha hn
    | none => simp only [Sys.removeBy, hn]; exact shifted_keep ha (.inl rfl) rfl rfl
  case case9 id =>
    split
    · exact shifted_keep ha (.inl rfl) rfl rfl
    · exact shifted_keep ha (.inr rfl) rfl rfl
  case case12 => exact .swept ha
  case case3 => exact shifted_keep ha (.inl rfl) rfl rfl
  all_goals exact shifted_keep ha (.inr rfl) rfl rfl

theorem step_move {e : Ev} (h : s.step e = some s') : Move s e s' := by
  revert h
  fun_cases Sys.step s e <;> intro h <;> try cases h
  case case6 ha => exact lock_move ha h
  case case8 ha => exact section_move ha h
  case case10 ha => exact shifted_keep ha (.inl rfl) rfl rfl
  case case17 n l id hs ha _ =>
    refine .shifted ha rfl ⟨fun hg => hg.keep ha (.inl rfl), fun _ h => (by cases h), fun l' h => .inr ?_⟩
    exact ⟨l, n, id, rfl, (Pc.frozen.inj h).symm, hs⟩
  case case19 ha => exact .committed ha
  case case12 ha | case13 ha | case14 ha | case21 ha => exact shifted_keep ha (.inr rfl) rfl rfl
  all_goals exact .called

/-! ## The invariant -/

structure Inv (s : Sys) : Prop extends Safe s where
  named : ∀ n id, s.sessions n = some id → s.names[id]? = some n
  /-- A removal under way finds its own state, or nothing any more. -/
  removing : ∀ (i : Nat) id n, s.threads[i]? = some (.remove id) → s.names[id]? = some n →
    s.sessions n = none ∨ s.sessions n = some id
  gate : Exclusive Pc.hold s.threads
  frozen : ∀ (i : Nat) l, s.threads[i]? = some (.frozen l) → ∀ p ∈ l, s.sessions p.1 = some p.2

theorem fresh_inv : Inv fresh := by
  refine ⟨⟨?_, ?_⟩, ?_, ?_, ?_, ?_⟩
  · intro p hp; cases hp
  · intro id n h; cases h
  · intro n id h; cases h
  · intro i id n h; cases h
  · intro i j a b _ h; cases h
  · intro i l h; cases h

/-- While a batch is frozen no other thread is under the lifecycle lock. -/
theorem Inv.alone (h : Inv s) {i j : Nat} {a : Pc} {l : List (Nat × Nat)} (ha : s.threads[i]? = some a)
    (hl : s.threads[j]? = some (.frozen l)) (hne : a.hold ≠ .free) : i = j := by
  by_contra he
  exact hne (h.gate j i _ a (fun e => he e.symm) hl ha rfl)

theorem current_iff {id n : Nat} (hn : s.names[id]? = some n) : s.current id = true ↔ s.sessions n = some id := by
  simp [Sys.current, hn]

theorem called_inv (h : Inv s) (op : Op) : Inv { s with threads := s.threads ++ [.waiting op] } := by
  refine ⟨⟨h.own, h.stays⟩, h.named, fun j id n hj hn => ?_, h.gate.spawn rfl, fun j l hj => ?_⟩
  · rcases concat_getElem? hj with hj | hj
    · exact h.removing j id n hj hn
    · cases hj
  · rcases concat_getElem? hj with hj | hj
    · exact h.frozen j l hj
    · cases hj

theorem shifted_inv {pending : Nat → Bool} (h : Inv s) (ha : s.threads[i]? = some a) (hs : Shift s i a b) :
    Inv ({ s with pending := pending }.goto i b) := by
  refine ⟨⟨h.own, h.stays⟩, h.named, fun j id n hj hn => ?_, hs.gate h.gate, fun j l hj p hp => ?_⟩
  · rcases set_getElem? hj with ⟨-, hj⟩ | ⟨-, hj⟩
    · exact .inr ((current_iff hn).mp (hs.remove id hj.symm))
    · exact h.removing j id n hj hn
  · rcases set_getElem? hj with ⟨-, hj⟩ | ⟨-, hj⟩
    · rcases hs.frozen l hj.symm with rfl | ⟨l', n, id, rfl, rfl, hn⟩
      · cases hp
      · rcases List.mem_append.mp hp with hp | hp
        · exact h.frozen i l' ha p hp
        · obtain rfl := List.mem_singleton.mp hp
          exact hn
    · exact h.frozen j l hj p hp

theorem published_inv {i n : Nat} {pending : Nat → Bool} (h : Inv s) (ha : s.threads[i]? = some (.publish n))
    (hs : s.sessions n = none) (hok : s.removing n = false) :
    Inv { s with
      pending := pending
      sessions := Function.update s.sessions n (some s.names.length)
      names := s.names ++ [n]
      threads := s.threads.set i .done } := by
  -- names of states there were before
  have hold : ∀ (id m : Nat), (s.names ++ [n])[id]? = some m → s.names[id]? = some m ∨ id = s.names.length ∧ m = n := by
    intro id m hm
    by_cases hlt : id < s.names.length
    · rw [List.getElem?_append_left hlt] at hm; exact .inl hm
    · rw [List.getElem?_append_right (by omega)] at hm
      obtain ⟨hlen, he⟩ := List.getElem?_eq_some_iff.mp hm
      simp only [List.length_singleton] at hlen
      exact .inr ⟨by omega, by simpa using he.symm⟩
  have hkeep : ∀ (id m : Nat), s.names[id]? = some m → (s.names ++ [n])[id]? = some m := by
    intro id m hm
    rw [List.getElem?_append_left (List.getElem?_eq_some_iff.mp hm).1]; exact hm
  refine ⟨⟨h.own, fun id m hm => ?_⟩, fun m id hm => ?_, fun j id m hj hm => ?_, h.gate.keep ha (.inr rfl),
    fun j l hj p hp => ?_⟩
  · show Function.update s.sessions n (some s.names.length) m = some id ∨ _
    rcases hold id m hm with hm' | ⟨rfl, rfl⟩
    · by_cases e : m = n
      · subst e
        rcases h.stays id m hm' with h' | h'
        · rw [hs] at h'; cases h'
        · exact .inr h'
      · rw [Function.update_of_ne e]; exact h.stays id m hm'
    · exact .inl (by simp)
  · simp only at hm ⊢
    by_cases e : m = n
    · subst e
      simp only [Function.update_self, Option.some.injEq] at hm
      subst hm
      simp
    · rw [Function.update_of_ne e] at hm
      exact hkeep id m (h.named m id hm)
  · -- a removal under way is not of this name
    rcases set_getElem? hj with ⟨-, hj'⟩ | ⟨-, hj'⟩
    · cases hj'
    · simp only at hm ⊢
      have hin := List.mem_of_getElem? hj'
      rcases hold id m hm with hm' | ⟨rfl, rfl⟩
      · have hne : m ≠ n := by
          rintro rfl
          have : s.removing m = true := List.any_eq_true.mpr ⟨_, hin, by simp [hm']⟩
          rw [hok] at this; cases this
        rw [Function.update_of_ne hne]
        exact h.removing j id m hj' hm'
      · exact .inr (by simp)
  · rcases set_getElem? hj with ⟨-, hj⟩ | ⟨hne, hj⟩
    · cases hj
    · exact absurd (h.alone ha hj (by simp [Pc.hold])) hne

theorem removed_inv {i id n : Nat} (h : Inv s) (ha : s.threads[i]? = some (.remove id)) (hn : s.names[id]? = some n) :
    Inv { s with
      sessions := Function.update s.sessions n none
      deleted := s.deleted ++ [id]
      removals := s.removals ++ [(id, s.sessions n)]
      threads := s.threads.set i .ending } := by
  have hown := h.removing i id n ha hn
  refine ⟨⟨fun p hp => ?_, fun k m hm => ?_⟩, fun m k hm => ?_, fun j k m hj hm => ?_, h.gate.keep ha (.inl rfl),
    fun j l hj p hp => ?_⟩
  · rcases List.mem_append.mp hp with hp | hp
    · exact h.own p hp
    · obtain rfl := List.mem_singleton.mp hp
      exact hown
  · simp only
    by_cases e : m = n
    · subst e
      rcases h.stays k m hm with h' | h' | h' | h'
      · -- what was under the name is the state of the handle
        rcases hown with ho | ho
        · rw [h'] at ho; cases ho
        · rw [h'] at ho
          obtain rfl := Option.some.inj ho
          exact .inr (.inl (List.mem_append_right _ (List.mem_singleton_self _)))
      · exact .inr (.inl (List.mem_append_left _ h'))
      · exact .inr (.inr (.inl h'))
      · exact .inr (.inr (.inr h'))
    · rw [Function.update_of_ne e]
      rcases h.stays k m hm with h' | h' | h'
      · exact .inl h'
      · exact .inr (.inl (List.mem_append_left _ h'))
      · exact .inr (.inr h')
  · simp only at hm
    by_cases e : m = n
    · subst e; simp at hm
    · rw [Function.update_of_ne e] at hm; exact h.named m k hm
  · rcases set_getElem? hj with ⟨-, hj⟩ | ⟨-, hj⟩
    · cases hj
    · simp only
      by_cases e : m = n
      · subst e; exact .inl (by simp)
      · rw [Function.update_of_ne e]; exact h.removing j k m hj hm
  · rcases set_getElem? hj with ⟨-, hj⟩ | ⟨hne, hj⟩
    · cases hj
    · exact absurd (h.alone ha hj (by simp [Pc.hold])) hne

theorem swept_inv {i : Nat} (h : Inv s) (ha : s.threads[i]? = some .close) :
    Inv { s with closed := true, sessions := fun _ => none, threads := s.threads.set i .sweeping } := by
  refine ⟨⟨h.own, fun k m _ => .inr (.inr (.inl rfl))⟩, fun m k hm => (by cases hm), fun j k m _ _ => .inl rfl,
    h.gate.keep ha (.inl rfl), fun j l hj p hp => ?_⟩
  rcases set_getElem? hj with ⟨-, hj⟩ | ⟨hne, hj⟩
  · cases hj
  · exact absurd (h.alone ha hj (by simp [Pc.hold])) hne

theorem committed_inv {i : Nat} {l : List (Nat × Nat)} (h : Inv s) (ha : s.threads[i]? = some (.frozen l)) :
    Inv ((s.commitAll l).goto i .done) := by
  have hout : ∀ m, (s.commitAll l).sessions m = if m ∈ l.map Prod.fst then none else s.sessions m := fun _ => rfl
  refine ⟨⟨h.own, fun k m hm => ?_⟩, fun m k hm => ?_, fun j k m hj hm => ?_, h.gate.keep ha (.inr rfl),
    fun j l' hj p hp => ?_⟩
  · show (s.commitAll l).sessions m = some k ∨ k ∈ s.deleted ∨ s.closed = true ∨ k ∈ s.committed ++ l.map Prod.snd
    rw [hout]
    rcases h.stays k m hm with h' | h' | h' | h'
    · by_cases hin : m ∈ l.map Prod.fst
      · -- the name stands for the state that was prepared under it
        obtain ⟨p, hp, rfl⟩ := List.mem_map.mp hin
        have hp2 := h.frozen i l ha p hp
        rw [h'] at hp2
        refine .inr (.inr (.inr (List.mem_append_right _ (List.mem_map.mpr ⟨p, hp, ?_⟩))))
        exact (Option.some.inj hp2).symm
      · rw [if_neg hin]; exact .inl h'
    · exact .inr (.inl h')
    · exact .inr (.inr (.inl h'))
    · exact .inr (.inr (.inr (List.mem_append_left _ h')))
  · replace hm : (s.commitAll l).sessions m = some k := hm
    rw [hout] at hm
    split at hm
    · cases hm
    · exact h.named m k hm
  · show (s.commitAll l).sessions m = none ∨ (s.commitAll l).sessions m = some k
    rw [hout]
    split
    · exact .inl rfl
    · rcases set_getElem? hj with ⟨-, hj⟩ | ⟨-, hj⟩
      · cases hj
      · exact h.removing j k m hj hm
  · rcases set_getElem? hj with ⟨-, hj⟩ | ⟨hne, hj⟩
    · cases hj
    · exact absurd (h.alone ha hj (by simp [Pc.hold])) hne

theorem step_inv {e : Ev} (h : Inv s) (hok : publishesAlone s e = true) (he : s.step e = some s') : Inv s' := by
  cases step_move he with
  | called => exact called_inv h _
  | shifted ha _ hs => exact shifted_inv h ha hs
  | reserved ha _ _ _ => exact shifted_inv h ha (.plain (fun hg => hg.keep ha (.inl rfl)) rfl)
  | gaveBack ha hr hb =>
    have hhold := reserved_hold hr
    rcases hb with rfl | rfl
    · exact shifted_inv h ha (.plain (fun hg => hg.keep ha (.inl hhold.symm)) rfl)
    · exact shifted_inv h ha (.plain (fun hg => hg.keep ha (.inr rfl)) rfl)
  | published ha _ hs => exact published_inv h ha hs (by simpa [publishesAlone, ha] using hok)
  | removed ha hn => exact removed_inv h ha hn
  | swept ha => exact swept_inv h ha
  | committed ha => exact committed_inv h ha

/-! ## The result -/

theorem stale_handles_are_harmless (h : machine.Reach publishesAlone s) : Safe s := by
  have hi : Inv s := h.invariant (fun _ h0 => h0 ▸ fresh_inv) fun _ _ _ hi hok he => step_inv hi hok he
  exact hi.toSafe

/-- A session is started, deleted and replaced, and the first handle is used again. -/
def replaced : List Ev :=
  [.call (.start 7), .lock 0, .section 0, .section 0, .section 0,
    .call (.delete 0), .lock 1, .section 1, .section 1, .section 1,
    .call (.start 7), .lock 2, .section 2, .section 2, .section 2,
    .call (.delete 0), .lock 3, .section 3]

theorem stale_handles_are_harmless_replaced :
    ∃ s, (machine.Reach publishesAlone s ∧ s.sessions 7 = some 1 ∧ s.deleted = [0] ∧ s.names = [7, 7]) ∧ Safe s := by
  obtain ⟨s, hs, h⟩ := machine.exists_reach publishesAlone rfl replaced
    (P := fun s => s.sessions 7 = some 1 ∧ s.deleted = [0] ∧ s.names = [7, 7]) (by decide)
  exact ⟨s, ⟨hs, h⟩, stale_handles_are_harmless hs⟩

/-- Two deletes of one state pass their check; a start reuses the name in between. -/
def doubleDelete : List Ev :=
  [.call (.start 7), .lock 0, .section 0, .section 0, .section 0,
    .call (.delete 0), .call (.delete 0), .lock 1, .lock 2, .section 1, .section 2, .section 1,
    .call (.start 7), .lock 3, .section 3, .section 3, .section 3,
    .section 2]

/-- State 1 was started with success and is gone, though nobody deleted, closed or
    migrated it: the second delete of state 0 took it out. -/
theorem a_second_delete_removes_the_replacement :
    ∃ s, machine.Reach Lib.Machine.always s ∧
      (s.names = [7, 7] ∧ s.sessions 7 = none ∧ s.deleted = [0, 0] ∧ s.closed = false ∧ s.committed = [] ∧
        s.removals = [(0, some 0), (0, some 1)]) ∧ ¬ Safe s := by
  obtain ⟨s, hs, h⟩ := machine.exists_reach Lib.Machine.always rfl doubleDelete
    (P := fun s => s.names = [7, 7] ∧ s.sessions 7 = none ∧ s.deleted = [0, 0] ∧ s.closed = false ∧
      s.committed = [] ∧ s.removals = [(0, some 0), (0, some 1)]) (by decide)
  refine ⟨s, hs, h, fun hsafe => ?_⟩
  have := hsafe.own (0, some 1) (by rw [h.2.2.2.2.2]; decide)
  exact absurd this (by decide)

end Ghostline.Hub
