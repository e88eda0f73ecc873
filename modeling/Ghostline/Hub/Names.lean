/-
  Ghostline.Hub.Names — `Start` is atomic per name (hub.go).

  `Start` reserves its name in one section of `h.mu`, makes the output directory and starts
  the session outside it, and publishes or gives the name back in another section; from
  before the first to after the last it shares `lifecycleMu`. `Close` and a migration batch
  take `lifecycleMu` exclusively, so while a name is reserved the hub is open, and nothing
  but this `Start` can publish the name. Every failure on the way (the directory, the VT,
  the log, the PTY) is the registry's `fail`: each leads to the one release.

  The registry's threads are joined here by `Get` and `List`, which share `lifecycleMu` and
  read the map in one section. `history` records which names were published and which were
  taken out of the map, in order.
-/

import Ghostline.Hub.Handles

namespace Ghostline.Hub

open Lib.Gate

/-! ## Reservations -/

structure Reserved (s : Sys) : Prop where
  gate : Exclusive Pc.hold s.threads
  holder : ∀ n, s.pending n = true ↔ ∃ (i : Nat) (a : Pc), s.threads[i]? = some a ∧ a.reserved = some n
  unique : ∀ (i j : Nat) (a b : Pc) n, s.threads[i]? = some a → s.threads[j]? = some b →
    a.reserved = some n → b.reserved = some n → i = j
  unused : ∀ n, s.pending n = true → s.sessions n = none
  hubOpen : ∀ n, s.pending n = true → s.closed = false

variable {s s' : Sys} {i : Nat} {a b : Pc} {n : Nat}

theorem Reserved.fresh : Reserved fresh := by
  refine ⟨?_, ?_, ?_, ?_, ?_⟩
  · intro i j a b _ h; cases h
  · intro n
    constructor
    · intro h; cases h
    · rintro ⟨i, a, h, -⟩; cases h
  · intro i j a b n h; cases h
  · intro n h; cases h
  · intro n h; cases h

/-- A thread goes on without reserving or giving back a name. -/
theorem Reserved.keep (h : Reserved s) (ha : s.threads[i]? = some a) (ht : s'.threads = s.threads.set i b)
    (hg : Exclusive Pc.hold (s.threads.set i b)) (hb : b.reserved = a.reserved) (hp : s'.pending = s.pending)
    (hs : ∀ n, s.sessions n = none → s'.sessions n = none) (hc : s'.closed = s.closed) : Reserved s' := by
  have hlt : i < s.threads.length := (List.getElem?_eq_some_iff.mp ha).1
  -- each thread has what it had
  have hold : ∀ (j : Nat) (c : Pc), s'.threads[j]? = some c →
      ∃ c', s.threads[j]? = some c' ∧ c'.reserved = c.reserved := by
    intro j c hj
    rw [ht] at hj
    rcases set_getElem? hj with ⟨rfl, rfl⟩ | ⟨-, hj⟩
    · exact ⟨a, ha, hb.symm⟩
    · exact ⟨c, hj, rfl⟩
  refine ⟨ht ▸ hg, fun n => ?_, fun j k c d n hj hk hc' hd => ?_, fun n hn => hs n (h.unused n (hp ▸ hn)),
    fun n hn => hc ▸ h.hubOpen n (hp ▸ hn)⟩
  · rw [hp, h.holder n]
    constructor
    · rintro ⟨j, c, hj, hr⟩
      by_cases e : i = j
      · subst e
        obtain rfl := Option.some.inj (ha.symm.trans hj)
        exact ⟨i, b, by rw [ht, List.getElem?_set_self hlt], hb.trans hr⟩
      · exact ⟨j, c, by rw [ht, List.getElem?_set_ne e]; exact hj, hr⟩
    · rintro ⟨j, c, hj, hr⟩
      obtain ⟨c', hj', he⟩ := hold j c hj
      exact ⟨j, c', hj', he.trans hr⟩
  · obtain ⟨c', hj', he⟩ := hold j c hj
    obtain ⟨d', hk', he'⟩ := hold k d hk
    exact h.unique j k c' d' n hj' hk' (he.trans hc') (he'.trans hd)

theorem Reserved.spawn (h : Reserved s) (op : Op) : Reserved { s with threads := s.threads ++ [.waiting op] } := by
  have hold : ∀ (j : Nat) (c : Pc) n, (s.threads ++ [.waiting op])[j]? = some c → c.reserved = some n →
      s.threads[j]? = some c := by
    intro j c n hj hr
    rcases concat_getElem? hj with hj | rfl
    · exact hj
    · cases hr
  refine ⟨h.gate.spawn rfl, fun n => ?_, fun j k c d n hj hk hc hd => ?_, h.unused, h.hubOpen⟩
  · rw [h.holder n]
    constructor
    · rintro ⟨j, c, hj, hr⟩
      refine ⟨j, c, ?_, hr⟩
      rw [List.getElem?_append_left (List.getElem?_eq_some_iff.mp hj).1]
      exact hj
    · rintro ⟨j, c, hj, hr⟩
      exact ⟨j, c, hold j c n hj hr, hr⟩
  · exact h.unique j k c d n (hold j c n hj hc) (hold k d n hk hd) hc hd

/-- The first section of `Start`, when it succeeds. -/
theorem Reserved.reserve (h : Reserved s) (ha : s.threads[i]? = some (.reserve n)) (hc : s.closed = false)
    (hp : s.pending n = false) (hs : s.sessions n = none) :
    Reserved ({ s with pending := Function.update s.pending n true }.goto i (.launch n)) := by
  have hlt : i < s.threads.length := (List.getElem?_eq_some_iff.mp ha).1
  have hnone : ∀ (j : Nat) (c : Pc), s.threads[j]? = some c → c.reserved ≠ some n := by
    intro j c hj hr
    have := (h.holder n).mpr ⟨j, c, hj, hr⟩
    rw [hp] at this
    cases this
  refine ⟨h.gate.keep ha (.inl rfl), fun m => ?_, fun j k c d m hj hk hc' hd => ?_, fun m hm => ?_, fun m _ => hc⟩
  · by_cases e : m = n
    · subst e
      simp only [Sys.goto, Function.update_self, true_iff]
      exact ⟨i, .launch m, by rw [List.getElem?_set_self hlt], rfl⟩
    · simp only [Sys.goto, Function.update_of_ne e, h.holder m]
      constructor
      · rintro ⟨j, c, hj, hr⟩
        refine ⟨j, c, ?_, hr⟩
        rw [List.getElem?_set_ne]
        · exact hj
        · rintro rfl
          obtain rfl := Option.some.inj (ha.symm.trans hj)
          cases hr
      · rintro ⟨j, c, hj, hr⟩
        rcases set_getElem? hj with ⟨rfl, rfl⟩ | ⟨-, hj⟩
        · exact absurd (Option.some.inj hr).symm e
        · exact ⟨j, c, hj, hr⟩
  · rcases set_getElem? hj with ⟨rfl, rfl⟩ | ⟨-, hj⟩
    · obtain rfl := Option.some.inj hc'
      rcases set_getElem? hk with ⟨rfl, -⟩ | ⟨-, hk⟩
      · rfl
      · exact absurd hd (hnone k d hk)
    · rcases set_getElem? hk with ⟨rfl, rfl⟩ | ⟨-, hk⟩
      · obtain rfl := Option.some.inj hd
        exact absurd hc' (hnone j c hj)
      · exact h.unique j k c d m hj hk hc' hd
  · by_cases e : m = n
    · rw [e]; exact hs
    · exact h.unused m (by simpa [Sys.goto, Function.update_of_ne e] using hm)

/-- A `Start` gives its name back, or publishes it: nothing else has the name reserved. -/
theorem Reserved.giveBack (h : Reserved s) (ha : s.threads[i]? = some a) (hr : a.reserved = some n)
    (hp : s'.pending = Function.update s.pending n false) (ht : s'.threads = s.threads.set i b)
    (hb : b.reserved = none) (hh : b.hold = a.hold ∨ b.hold = .free) (hs : ∀ m, m ≠ n → s'.sessions m = s.sessions m)
    (hc : s'.closed = s.closed) : Reserved s' := by
  have hpend : ∀ m, s'.pending m = true → m ≠ n ∧ s.pending m = true := by
    intro m hm
    rw [hp] at hm
    by_cases e : m = n
    · rw [e, Function.update_self] at hm; cases hm
    · rw [Function.update_of_ne e] at hm; exact ⟨e, hm⟩
  have hold : ∀ (j : Nat) (c : Pc) m, s'.threads[j]? = some c → c.reserved = some m → i ≠ j ∧ s.threads[j]? = some c := by
    intro j c m hj hm
    rw [ht] at hj
    rcases set_getElem? hj with ⟨rfl, rfl⟩ | ⟨hne, hj⟩
    · rw [hb] at hm; cases hm
    · exact ⟨hne, hj⟩
  refine ⟨ht ▸ h.gate.keep ha hh, fun m => ?_, fun j k c d m hj hk hc' hd => ?_, fun m hm => ?_, fun m hm => ?_⟩
  · constructor
    · intro hm
      obtain ⟨hne, hm⟩ := hpend m hm
      obtain ⟨j, c, hj, hcr⟩ := (h.holder m).mp hm
      refine ⟨j, c, ?_, hcr⟩
      rw [ht, List.getElem?_set_ne]
      · exact hj
      · rintro rfl
        obtain rfl := Option.some.inj (ha.symm.trans hj)
        exact hne (Option.some.inj (hcr.symm.trans hr))
    · rintro ⟨j, c, hj, hcr⟩
      obtain ⟨hij, hj⟩ := hold j c m hj hcr
      have hne : m ≠ n := by
        rintro rfl
        exact hij (h.unique i j a c m ha hj hr hcr)
      rw [hp, Function.update_of_ne hne]
      exact (h.holder m).mpr ⟨j, c, hj, hcr⟩
  · exact h.unique j k c d m (hold j c m hj hc').2 (hold k d m hk hd).2 hc' hd
  · obtain ⟨hne, hm⟩ := hpend m hm
    rw [hs m hne]
    exact h.unused m hm
  · rw [hc]
    exact h.hubOpen m (hpend m hm).2

/-- While a thread has the lock exclusively no name is reserved. -/
theorem Reserved.none_pending (h : Reserved s) (ha : s.threads[i]? = some a) (hx : a.hold = .exclusive) (n : Nat) :
    s.pending n = false := by
  cases hp : s.pending n with
  | false => rfl
  | true =>
    obtain ⟨j, c, hj, hr⟩ := (h.holder n).mp hp
    have hshared := reserved_hold hr
    by_cases e : i = j
    · subst e
      obtain rfl := Option.some.inj (ha.symm.trans hj)
      rw [hx] at hshared
      cases hshared
    · rw [h.gate i j a c e ha hj hx] at hshared
      cases hshared

/-- `Close` takes everything out while no name is reserved. -/
theorem Reserved.sweep (h : Reserved s) (ha : s.threads[i]? = some .close) :
    Reserved ({ s with closed := true, sessions := fun _ => none }.goto i .sweeping) := by
  have hnone := h.none_pending ha rfl
  have hmove : Reserved (s.goto i .sweeping) :=
    h.keep ha rfl (h.gate.keep ha (.inl rfl)) rfl rfl (fun _ h => h) rfl
  refine ⟨hmove.gate, hmove.holder, hmove.unique, fun _ _ => rfl, fun n hn => ?_⟩
  have hn' : s.pending n = true := hn
  rw [hnone n] at hn'
  cases hn'

/-- What the two failure branches behind a started child ask for does not happen. -/
theorem Reserved.publishes (h : Reserved s) (ha : s.threads[i]? = some (.publish n)) :
    s.closed = false ∧ s.sessions n = none := by
  have hp := (h.holder n).mpr ⟨i, _, ha, rfl⟩
  exact ⟨h.hubOpen n hp, h.unused n hp⟩

theorem Reserved.step {e : Ev} (h : Reserved s) (he : s.step e = some s') : Reserved s' := by
  cases step_move he with
  | called => exact h.spawn _
  | shifted ha hr hs => exact h.keep ha rfl (hs.gate h.gate) hr rfl (fun _ h => h) rfl
  | reserved ha hc hp hs => exact h.reserve ha hc hp hs
  | gaveBack ha hr hb =>
    have hhold := reserved_hold hr
    rcases hb with rfl | rfl
    · exact h.giveBack ha hr rfl rfl rfl (.inl hhold.symm) (fun _ _ => rfl) rfl
    · exact h.giveBack ha hr rfl rfl rfl (.inr rfl) (fun _ _ => rfl) rfl
  | published ha _ _ =>
    exact h.giveBack ha rfl rfl rfl rfl (.inr rfl) (fun m hm => Function.update_of_ne hm _ _) rfl
  | @removed i id k ha hn =>
    refine h.keep ha rfl (h.gate.keep ha (.inl rfl)) rfl rfl (fun m hm => ?_) rfl
    show Function.update s.sessions k none m = none
    by_cases e : m = k
    · rw [e, Function.update_self]
    · rw [Function.update_of_ne e]; exact hm
  | swept ha => exact h.sweep ha
  | committed ha =>
    refine h.keep ha rfl (h.gate.keep ha (.inr rfl)) rfl rfl (fun m hm => ?_) rfl
    simp only [Sys.goto, Sys.commitAll]
    split
    · rfl
    · exact hm

/-! ## What happens to a name -/

inductive Happening where
  | started (name : Nat)
  | removed (name : Nat)
  deriving DecidableEq, Repr

/-- What a step did to the map: the names it took out, and the one it published. -/
def happened (s s' : Sys) : List Happening :=
  (s.names.filter fun n => (s.sessions n).isSome && (s'.sessions n).isNone).map .removed ++
    (s'.names.drop s.names.length).map .started

/-- Between two starts of a name there is a removal, and a name that is not live has been
    removed since its last start. -/
structure Alternates (live : Nat → Prop) (history : List Happening) : Prop where
  once : ∀ n front mid back, history = front ++ .started n :: (mid ++ .started n :: back) → .removed n ∈ mid
  gone : ∀ n, ¬ live n → ∀ front mid, history = front ++ .started n :: mid → .removed n ∈ mid

variable {live live' : Nat → Prop} {history : List Happening}

theorem split_concat {α : Type} {l front mid : List α} {x y : α} (h : l ++ [x] = front ++ y :: mid) :
    (mid = [] ∧ front = l ∧ y = x) ∨ ∃ mid', mid = mid' ++ [x] ∧ l = front ++ y :: mid' := by
  rcases List.eq_nil_or_concat' mid with rfl | ⟨mid', z, rfl⟩
  · obtain ⟨rfl, hx⟩ := List.append_inj' h rfl
    exact .inl ⟨rfl, rfl, (List.singleton_inj.mp hx).symm⟩
  · rw [show front ++ y :: (mid' ++ [z]) = (front ++ y :: mid') ++ [z] by simp] at h
    obtain ⟨rfl, hx⟩ := List.append_inj' h rfl
    exact .inr ⟨mid', by rw [List.singleton_inj.mp hx], rfl⟩

theorem Alternates.mono (h : Alternates live history) (hl : ∀ n, live n → live' n) : Alternates live' history :=
  ⟨h.once, fun n hn => h.gone n fun hl' => hn (hl n hl')⟩

theorem Alternates.remove (h : Alternates live history) (m : Nat) :
    Alternates (fun n => live n ∧ n ≠ m) (history ++ [.removed m]) := by
  refine ⟨fun n front mid back he => ?_, fun n hn front mid he => ?_⟩
  · rcases split_concat he with ⟨hm, -, -⟩ | ⟨mid', hm, hl⟩
    · simp at hm
    · rcases split_concat hm.symm with ⟨-, -, hx⟩ | ⟨back', -, rfl⟩
      · cases hx
      · exact h.once n front mid back' hl
  · rcases split_concat he with ⟨-, -, hx⟩ | ⟨mid', rfl, hl⟩
    · cases hx
    · by_cases e : n = m
      · simp [e]
      · exact List.mem_append_left _ (h.gone n (fun hl' => hn ⟨hl', e⟩) front mid' hl)

theorem Alternates.start (h : Alternates live history) {m : Nat} (hm : ¬ live m) :
    Alternates (fun n => live n ∨ n = m) (history ++ [.started m]) := by
  refine ⟨fun n front mid back he => ?_, fun n hn front mid he => ?_⟩
  · rcases split_concat he with ⟨hm', -, -⟩ | ⟨mid', hm', hl⟩
    · simp at hm'
    · rcases split_concat hm'.symm with ⟨-, rfl, hx⟩ | ⟨back', -, rfl⟩
      · obtain rfl := Happening.started.inj hx
        exact h.gone n hm front mid hl
      · exact h.once n front mid back' hl
  · rcases split_concat he with ⟨-, -, hx⟩ | ⟨mid', rfl, hl⟩
    · exact absurd (.inr (Happening.started.inj hx)) hn
    · exact List.mem_append_left _ (h.gone n (fun hl' => hn (.inl hl')) front mid' hl)

theorem Alternates.removeAll (h : Alternates live history) (l : List Nat) :
    Alternates (fun n => live n ∧ n ∉ l) (history ++ l.map .removed) := by
  induction l generalizing live history with
  | nil => simpa using h
  | cons m l ih =>
    have := ih (h.remove m)
    rw [List.map_cons, show history ++ Happening.removed m :: l.map .removed =
      (history ++ [.removed m]) ++ l.map .removed by simp]
    refine this.mono fun n hn => ⟨hn.1.1, ?_⟩
    simp only [List.mem_cons, not_or]
    exact ⟨hn.1.2, hn.2⟩

/-! ## All calls -/

inductive Query where
  | get (name : Nat)
  | list
  deriving DecidableEq, Repr

/-- A `Get` or a `List`: before it has the lifecycle lock, with it, and returned with the
    states it found. -/
inductive Look where
  | waiting (q : Query)
  | inside (q : Query)
  | found (ids : List Nat)
  deriving DecidableEq, Repr

def Look.hold : Look → Hold
  | .inside _ => .shared
  | _ => .free

structure Calls where
  hub : Sys
  looks : List Look
  history : List Happening

inductive Act where
  | hub (e : Ev)
  | ask (q : Query)
  | enter (j : Nat)
  | look (j : Nat)
  deriving DecidableEq, Repr

/-- The event takes the lifecycle lock exclusively. -/
def Sys.takes (s : Sys) : Ev → Bool
  | .lock i => s.threads[i]? == some (.waiting .close) || s.threads[i]? == some (.waiting .migrate)
  | _ => false

/-- `Hub.session` and the range over the map in `sessionStates`. -/
def Sys.answer (s : Sys) : Query → List Nat
  | .get n => (s.sessions n).toList
  | .list => (List.range s.names.length).filter s.current

def Calls.step (d : Calls) : Act → Option Calls
  | .hub e =>
    if d.hub.takes e && !canTake Look.hold d.looks then none
    else (d.hub.step e).map fun s => { d with hub := s, history := d.history ++ happened d.hub s }
  | .ask q => some { d with looks := d.looks ++ [.waiting q] }
  | .enter j =>
    match d.looks[j]? with
    | some (.waiting q) =>
      if canShare Pc.hold d.hub.threads then some { d with looks := d.looks.set j (.inside q) } else none
    | _ => none
  | .look j =>
    match d.looks[j]? with
    | some (.inside q) => some { d with looks := d.looks.set j (.found (d.hub.answer q)) }
    | _ => none

def callsMachine : Lib.Machine Calls Act := ⟨fun d => d = ⟨fresh, [], []⟩, Calls.step⟩

structure Orderly (d : Calls) : Prop where
  reserved : Reserved d.hub
  named : ∀ n, (d.hub.sessions n).isSome = true → n ∈ d.hub.names
  alternates : Alternates (fun n => (d.hub.sessions n).isSome = true) d.history

/-- A step that publishes nothing. -/
theorem Alternates.taken (hn : ∀ n, (s.sessions n).isSome = true → n ∈ s.names) (hnames : s'.names = s.names)
    (h : Alternates (fun n => (s.sessions n).isSome = true) history) :
    Alternates (fun n => (s'.sessions n).isSome = true) (history ++ happened s s') := by
  simp only [happened, hnames, List.drop_length, List.map_nil, List.append_nil]
  refine (h.removeAll _).mono fun n ⟨hlive, hout⟩ => ?_
  -- a live name that was not taken out stays in the map
  by_contra hnone
  apply hout
  simp only [List.mem_filter, Bool.and_eq_true, hlive, true_and]
  exact ⟨hn n hlive, by simpa using hnone⟩

/-- A step that publishes `n`. -/
theorem Alternates.published (hs : s.sessions n = none) (hnames : s'.names = s.names ++ [n])
    (hs' : s'.sessions = Function.update s.sessions n (some s.names.length))
    (h : Alternates (fun n => (s.sessions n).isSome = true) history) :
    Alternates (fun n => (s'.sessions n).isSome = true) (history ++ happened s s') := by
  have hkept : ∀ m, (s.sessions m).isSome = true → (s'.sessions m).isSome = true := by
    intro m hm
    rw [hs']
    by_cases e : m = n
    · rw [e, Function.update_self]; rfl
    · rw [Function.update_of_ne e]; exact hm
  have hnothing : (s.names.filter fun m => (s.sessions m).isSome && (s'.sessions m).isNone) = [] := by
    refine List.filter_eq_nil_iff.mpr fun m _ hm => ?_
    simp only [Bool.and_eq_true] at hm
    have := hkept m hm.1
    simp_all
  simp only [happened, hnothing, hnames, List.map_nil, List.nil_append, List.drop_left, List.map_cons]
  refine (h.start (m := n) (by simp [hs])).mono fun m hm => ?_
  rcases hm with hm | rfl
  · exact hkept m hm
  · rw [hs', Function.update_self]; rfl

theorem Orderly.hub {d : Calls} {e : Ev} (h : Orderly d) (he : d.hub.step e = some s') :
    Orderly { d with hub := s', history := d.history ++ happened d.hub s' } := by
  have hr := h.reserved.step he
  have taken : s'.names = d.hub.names → (∀ n, (s'.sessions n).isSome = true → (d.hub.sessions n).isSome = true) →
      Orderly { d with hub := s', history := d.history ++ happened d.hub s' } := fun hnames hs =>
    ⟨hr, fun n hn => hnames ▸ h.named n (hs n hn), h.alternates.taken h.named hnames⟩
  cases step_move he with
  | called | shifted | reserved | gaveBack => exact taken rfl fun _ h => h
  | removed _ _ =>
    refine taken rfl fun m hm => ?_
    by_contra hnone
    simp only [Function.update_apply] at hm
    split at hm
    · cases hm
    · exact hnone hm
  | swept => exact taken rfl fun m hm => (by cases hm)
  | committed =>
    refine taken rfl fun m hm => ?_
    simp only [Sys.goto, Sys.commitAll] at hm
    split at hm
    · cases hm
    · exact hm
  | @published i n ha hc hs =>
    refine ⟨hr, fun m hm => ?_, h.alternates.published hs rfl rfl⟩
    show m ∈ d.hub.names ++ [n]
    by_cases e : m = n
    · simp [e]
    · exact List.mem_append_left _ (h.named m (by simpa [Function.update_of_ne e] using hm))

theorem Orderly.step {d d' : Calls} {x : Act} (h : Orderly d) (hx : d.step x = some d') : Orderly d' := by
  cases x with
  | hub e =>
    simp only [Calls.step, Option.ite_none_left_eq_some, Option.map_eq_some_iff] at hx
    obtain ⟨-, s', he, rfl⟩ := hx
    exact h.hub he
  | ask q =>
    obtain rfl := Option.some.inj hx
    exact ⟨h.reserved, h.named, h.alternates⟩
  | enter j =>
    simp only [Calls.step] at hx
    split at hx
    · simp only [Option.ite_none_right_eq_some, Option.some.injEq] at hx
      obtain ⟨-, rfl⟩ := hx
      exact ⟨h.reserved, h.named, h.alternates⟩
    · cases hx
  | look j =>
    simp only [Calls.step] at hx
    split at hx
    · obtain rfl := Option.some.inj hx
      exact ⟨h.reserved, h.named, h.alternates⟩
    · cases hx

theorem orderly_reach {d : Calls} (h : callsMachine.Reach Lib.Machine.always d) : Orderly d := by
  refine h.invariant (I := Orderly) ?_ fun _ _ _ hi _ hx => hi.step hx
  rintro d rfl
  refine ⟨.fresh, fun n hn => (by cases hn), fun n front mid back he => ?_, fun n _ front mid he => ?_⟩
  · simp at he
  · simp at he

/-! ## The result -/

/-- `Start` is atomic per name, whatever runs beside it: no name is reserved and published,
    the reserved names are those of the `Start`s between their reservation and their end,
    a name is published once between two removals, and a `Start` whose child runs finds
    the hub open and its name free. -/
theorem start_is_atomic {d : Calls} (h : callsMachine.Reach Lib.Machine.always d) :
    (∀ n, ¬ (d.hub.pending n = true ∧ (d.hub.sessions n).isSome = true)) ∧
    (∀ n, d.hub.pending n = true ↔ ∃ a ∈ d.hub.threads, a.reserved = some n) ∧
    ((∀ a ∈ d.hub.threads, a.reserved = none) → ∀ n, d.hub.pending n = false) ∧
    (∀ n front mid back, d.history = front ++ .started n :: (mid ++ .started n :: back) → .removed n ∈ mid) ∧
    (∀ (i : Nat) n, d.hub.threads[i]? = some (.publish n) → d.hub.closed = false ∧ d.hub.sessions n = none) := by
  have ho := orderly_reach h
  have hholder : ∀ n, d.hub.pending n = true ↔ ∃ a ∈ d.hub.threads, a.reserved = some n := by
    intro n
    rw [ho.reserved.holder n]
    constructor
    · rintro ⟨i, a, ha, hr⟩
      exact ⟨a, List.mem_of_getElem? ha, hr⟩
    · rintro ⟨a, ha, hr⟩
      obtain ⟨i, hi⟩ := List.mem_iff_getElem?.mp ha
      exact ⟨i, a, hi, hr⟩
  refine ⟨fun n hn => ?_, hholder, fun hnone n => ?_, ho.alternates.once, fun i n ha => ho.reserved.publishes ha⟩
  · have := ho.reserved.unused n hn.1
    rw [this] at hn
    cases hn.2
  · cases hp : d.hub.pending n with
    | false => rfl
    | true =>
      obtain ⟨a, ha, hr⟩ := (hholder n).mp hp
      rw [hnone a ha] at hr
      cases hr

/-- Two `Start`s of one name and one of another, which fails; the first is published, looked
    up, deleted, and a third `Start` gets the name again. -/
def startTwice : List Act :=
  [.hub (.call (.start 7)), .hub (.call (.start 7)), .hub (.call (.start 8)), .hub (.lock 0), .hub (.lock 1), .hub (.lock 2),
    .hub (.section 0), .hub (.section 1), .hub (.section 2), .hub (.fail 2), .hub (.section 0), .hub (.section 0),
    .ask (.get 7), .enter 0, .look 0, .hub (.call (.delete 0)), .hub (.lock 3), .hub (.section 3), .hub (.section 3),
    .hub (.call (.start 7)), .hub (.lock 4), .hub (.section 4), .hub (.section 4), .hub (.section 4),
    .hub (.call (.start 7))]

theorem start_is_atomic_twice : ∃ d, callsMachine.Reach Lib.Machine.always d ∧
    (d.history = [.started 7, .removed 7, .started 7] ∧ d.looks = [.found [0]] ∧ d.hub.pending 8 = true) ∧
    ∃ a ∈ d.hub.threads, a.reserved = some 8 := by
  obtain ⟨d, hd, h⟩ := callsMachine.exists_reach Lib.Machine.always (s := ⟨fresh, [], []⟩) rfl startTwice
    (P := fun d => d.history = [.started 7, .removed 7, .started 7] ∧ d.looks = [.found [0]] ∧
      d.hub.pending 8 = true) (by decide)
  exact ⟨d, hd, h, ((start_is_atomic hd).2.1 8).mp h.2.2⟩

end Ghostline.Hub
