/-
  Ghostline.Session.Probes — what `Metadata` and `Signal` do with a session's descriptor
  number (session.go: `localSession.metadata`, `localSession.signal`).

  A session keeps the number of its PTY master next to the file itself. The file is closed
  in several places: by the copy loop on its way out, or before it kills a child whose
  output is lost; by `terminate`; by a commit. The number stays what it was.
  `Metadata` asks whether it is negative, and `Signal` whether `done` is closed, which
  comes after the close of the master. Once the number is taken again both go to another
  terminal (`a_probe_reaches_another_terminal`). They stay at their own one in every run with
  this order (`inOrder`, `probes_stay_at_their_own_terminal`):

  - no `Metadata` is called behind the close of the master, and the master is not closed while
    one is on its way to its `dup`;
  - the master is not closed between the look of a `Signal` at `done` and its `ioctl`;
  - no `Signal` looks at `done` when the master is closed and `done` is not yet.

  The process has any number of sessions, started or adopted, each with its loop, child,
  migrations and calls as in `Session.State`, and other files that come and go.

  - `masterFD` is `none` where the code has -1.
  - A session started or adopted later under an old name is another session.
  - `uses` records every use of a number and what it referred to.
  - What the probes do with the duplicate, and the process group `Signal` falls back to,
    use no number of a session.
-/

import Ghostline.Lib.Descriptors
import Ghostline.Session.State

namespace Ghostline.Session.Probes

open Lib Output

/-! ## The process -/

/-- Who opened a number. -/
inductive Holder where
  | session (n : Nat)
  | probe (i : Nat)
  | other
  deriving DecidableEq, Repr

inductive File where
  | master (n : Nat)
  | other
  deriving DecidableEq, Repr

structure Slot where
  sys : Session.Sys
  masterFD : Option Nat
  pid : Int

inductive Kind where
  | metadata
  | signal
  deriving DecidableEq, Repr

/-- Where a probe of session `n` stands. -/
inductive Probe where
  | start (k : Kind) (n : Nat)
  /-- `lifecycleMu` is held from here on. -/
  | entered (k : Kind) (n : Nat)
  | gate (k : Kind) (n : Nat)
  /-- `operationMu` is held from here on. -/
  | inside (k : Kind) (n : Nat)
  /-- Next is the `dup` or the `ioctl`. -/
  | ready (k : Kind) (n : Nat)
  /-- With its duplicate and no lock. -/
  | probing (fd : Nat)
  | done
  deriving DecidableEq, Repr

structure Use where
  kind : Kind
  session : Nat
  fd : Option Nat
  /-- The session's master was open. -/
  opened : Bool
  found : Option File
  deriving DecidableEq, Repr

structure Proc where
  slots : List Slot
  /-- A migration batch holds `lifecycleMu`. -/
  frozen : Bool
  table : Descriptors Holder File
  probes : List Probe
  uses : List Use

inductive ProbeEv where
  | go
  /-- The context is over, or foreground probing is off. -/
  | quit
  /-- The number the duplicate gets, or an error. -/
  | dup (fd : Option Nat)
  deriving DecidableEq, Repr

inductive ProcEv where
  | start (fd : Nat) (size : Size) (pid : Int)
  | adopt (fd : Option Nat) (log : OutputLog) (vt : Vt) (pid : Int)
  | session (n : Nat) (e : Session.Ev)
  | freeze
  | unfreeze
  /-- Other files. -/
  | opens (fd : Nat)
  | closes (fd : Nat)
  | call (k : Kind) (n : Nat)
  | probe (i : Nat) (x : ProbeEv)

def Probe.inBatch : Probe → Bool
  | .entered _ _ | .gate _ _ | .inside _ _ | .ready _ _ => true
  | _ => false

def Probe.shares (n : Nat) : Probe → Bool
  | .inside _ m | .ready _ m => m == n
  | _ => false

/-- The step takes the session's `operationMu`. -/
def takesOperation (s : Session.Sys) : Session.Ev → Bool
  | .handler .begin => true
  | .op i .go =>
    match s.ops[i]? with
    | some (.termGate _) => true
    | _ => false
  | _ => false

/-- The batch is the whole hub's. -/
def ofBatch : Session.Ev → Bool
  | .freeze | .unfreeze => true
  | _ => false

namespace Proc

variable (p : Proc)

def goto (i : Nat) (pc : Probe) : Proc := { p with probes := p.probes.set i pc }

/-- What the number of session `n` refers to. -/
def found (x : Slot) : Option File := x.masterFD.bind p.table.file

def record (k : Kind) (n : Nat) (x : Slot) : Proc :=
  { p with uses := p.uses ++ [⟨k, n, x.masterFD, x.sys.core.master == .opened, p.found x⟩] }

/-- Closing the master gives its number back. -/
def settle (x : Slot) (s : Session.Sys) : Descriptors Holder File :=
  match x.masterFD with
  | some fd => if x.sys.core.master = .opened ∧ s.core.master ≠ .opened then p.table.close fd else p.table
  | none => p.table

def next (i : Nat) : Probe → ProbeEv → Option Proc
  | .start _ _, .quit => some (p.goto i .done)
  | .start k n, .go => if p.frozen then none else some (p.goto i (.entered k n))
  | .entered .signal _, .quit => some (p.goto i .done)
  | .entered .signal n, .go =>
    p.slots[n]?.map fun x => p.goto i (if x.sys.inMap then .gate .signal n else .done)
  | .entered .metadata n, .go => some (p.goto i (.gate .metadata n))
  | .gate k n, .go =>
    match p.slots[n]? with
    | some x => if x.sys.canShareOperation then some (p.goto i (.inside k n)) else none
    | none => none
  | .inside .metadata n, .go =>
    p.slots[n]?.map fun x => p.goto i (if x.masterFD.isSome then .ready .metadata n else .done)
  | .inside .signal n, .go =>
    p.slots[n]?.map fun x => p.goto i (if x.sys.core.done || decide (x.pid ≤ 0) then .done else .ready .signal n)
  | .ready .metadata n, .dup d =>
    match p.slots[n]? with
    | some x =>
      match d, p.found x with
      | none, _ => some ((p.record .metadata n x).goto i .done)
      | some d, some f =>
        (p.table.open_ d (.probe i) f).map fun t => { p.record .metadata n x with table := t }.goto i (.probing d)
      -- a number that is not open has no duplicate
      | some _, none => none
    | none => none
  | .ready .signal n, .go => p.slots[n]?.map fun x => (p.record .signal n x).goto i .done
  | .probing fd, .go => some ({ p with table := p.table.close fd }.goto i .done)
  | _, _ => none

def setFrozen (frozen : Bool) : Proc :=
  { p with slots := p.slots.map fun x => { x with sys := { x.sys with frozen := frozen } }, frozen := frozen }

def step : ProcEv → Option Proc
  | .start fd size pid =>
    match p.frozen, size.validate with
    | false, .ok () =>
      (p.table.open_ fd (.session p.slots.length) (.master p.slots.length)).map fun t =>
        { p with slots := p.slots ++ [⟨startState .steady created size, some fd, pid⟩], table := t }
    | _, _ => none
  | .adopt (some fd) log vt pid =>
    (p.table.open_ fd (.session p.slots.length) (.master p.slots.length)).map fun t =>
      { p with
        slots := p.slots ++ [⟨{ adoptStateWithTerminal .steady log vt vt.grid true with frozen := p.frozen }, some fd, pid⟩]
        table := t }
  | .adopt none log vt pid =>
    some { p with
      slots := p.slots ++ [⟨{ adoptStateWithTerminal .steady log vt vt.grid false with frozen := p.frozen }, none, pid⟩] }
  | .session n e =>
    match p.slots[n]? with
    | some x =>
      if ofBatch e || takesOperation x.sys e && p.probes.any (·.shares n) then none
      else (x.sys.step e).map fun s => { p with slots := p.slots.set n { x with sys := s }, table := p.settle x s }
    | none => none
  | .freeze =>
    if !p.frozen && (p.probes.all fun pc => !pc.inBatch) && p.slots.all fun x => x.sys.ops.all fun pc => !pc.inBatch then
      some (p.setFrozen true)
    else none
  | .unfreeze =>
    if p.frozen && p.slots.all fun x => x.sys.mig.handler == .idle then some (p.setFrozen false) else none
  | .opens fd => (p.table.open_ fd .other .other).map fun t => { p with table := t }
  | .closes fd =>
    match p.table fd with
    | some (.other, _) => some { p with table := p.table.close fd }
    | _ => none
  | .call k n => if n < p.slots.length then some { p with probes := p.probes ++ [.start k n] } else none
  | .probe i x =>
    match p.probes[i]? with
    | some pc => p.next i pc x
    | none => none

end Proc

def procMachine : Machine Proc ProcEv where
  init p := p = ⟨[], false, .none, [], []⟩
  step := Proc.step

/-! ## What a step does -/

variable {p p' : Proc}

/-- The probe comes to use the number of session `n`, if nothing stops it, whatever it finds
    closed: a `Signal` from its look at `done` on, a `Metadata` from the call on. -/
def Probe.bound (n : Nat) : Probe → Bool
  | .start k m | .entered k m | .gate k m | .inside k m => k == .metadata && m == n
  | .ready _ m => m == n
  | _ => false

inductive ProcMove (p : Proc) : ProcEv → Proc → Prop
  | added {e : ProcEv} {fd : Nat} {x : Slot} {t : Descriptors Holder File} :
      p.table.open_ fd (.session p.slots.length) (.master p.slots.length) = some t → x.masterFD = some fd →
      x.sys.core.master = .opened → ProcMove p e { p with slots := p.slots ++ [x], table := t }
  /-- A session without a master. -/
  | stopped {e : ProcEv} {x : Slot} : x.masterFD = none → x.sys.core.done = true →
      ProcMove p e { p with slots := p.slots ++ [x] }
  | session {n : Nat} {e : Session.Ev} {x : Slot} {s : Session.Sys} : p.slots[n]? = some x →
      x.sys.step e = some s →
      ProcMove p (.session n e) { p with slots := p.slots.set n { x with sys := s }, table := p.settle x s }
  | batch {e : ProcEv} {frozen : Bool} : ProcMove p e (p.setFrozen frozen)
  | opens {fd : Nat} {t : Descriptors Holder File} : p.table.open_ fd .other .other = some t →
      ProcMove p (.opens fd) { p with table := t }
  | closes {fd : Nat} {f : File} : p.table fd = some (.other, f) →
      ProcMove p (.closes fd) { p with table := p.table.close fd }
  | call {k : Kind} {n : Nat} : n < p.slots.length → ProcMove p (.call k n) { p with probes := p.probes ++ [.start k n] }
  | goto {i : Nat} {ev : ProbeEv} {pc pc' : Probe} : p.probes[i]? = some pc → (∀ fd, pc' ≠ .probing fd) →
      (∀ k n, pc' = .ready k n → ∃ x, p.slots[n]? = some x ∧ (x.masterFD ≠ none ∨ x.sys.core.done = false)) →
      (∀ n, pc'.bound n = true → pc.bound n = true ∨ ev = .go ∧ pc = .inside .signal n ∧
        ∃ x, p.slots[n]? = some x ∧ x.sys.core.done = false) →
      ProcMove p (.probe i ev) (p.goto i pc')
  | used {i n : Nat} {ev : ProbeEv} {k : Kind} {x : Slot} : p.probes[i]? = some (.ready k n) → p.slots[n]? = some x →
      ProcMove p (.probe i ev) ((p.record k n x).goto i .done)
  | dup {i n d : Nat} {ev : ProbeEv} {x : Slot} {f : File} {t : Descriptors Holder File} :
      p.probes[i]? = some (.ready .metadata n) → p.slots[n]? = some x → p.table.open_ d (.probe i) f = some t →
      ProcMove p (.probe i ev) ({ p.record .metadata n x with table := t }.goto i (.probing d))
  | closeDup {i fd : Nat} {ev : ProbeEv} : p.probes[i]? = some (.probing fd) →
      ProcMove p (.probe i ev) ({ p with table := p.table.close fd }.goto i .done)

theorem next_move {i : Nat} {pc : Probe} {ev : ProbeEv} (hp : p.probes[i]? = some pc) (h : p.next i pc ev = some p') :
    ProcMove p (.probe i ev) p' := by
  -- a step to a place that is neither the use nor behind it
  have quiet : ∀ {ev : ProbeEv} (pc' : Probe), (∀ fd, pc' ≠ .probing fd) → (∀ k n, pc' ≠ .ready k n) →
      (∀ n, pc'.bound n = true → pc.bound n = true) → ProcMove p (.probe i ev) (p.goto i pc') := fun pc' h1 h2 h3 =>
    .goto hp h1 (fun k n h => absurd h (h2 k n)) fun n hb => .inl (h3 n hb)
  revert h
  fun_cases Proc.next p i pc ev <;> intro h
  case case5 n =>
    obtain ⟨x, -, rfl⟩ := Option.map_eq_some_iff.mp h
    split <;> exact quiet _ (by simp) (by simp) (by simp [Probe.bound])
  case case10 n =>
    obtain ⟨x, hx, rfl⟩ := Option.map_eq_some_iff.mp h
    split
    · rename_i hs
      refine .goto hp (by simp) (fun k m hk => ?_) (by simp [Probe.bound])
      cases hk
      exact ⟨x, hx, .inl (Option.isSome_iff_ne_none.mp hs)⟩
    · exact quiet _ (by simp) (by simp) (by simp [Probe.bound])
  case case11 n =>
    obtain ⟨x, hx, rfl⟩ := Option.map_eq_some_iff.mp h
    split
    · exact quiet _ (by simp) (by simp) (by simp [Probe.bound])
    · rename_i hd
      have hdone : x.sys.core.done = false := by simp_all
      refine .goto hp (by simp) (fun k m hk => ?_) (fun m hb => .inr ⟨rfl, ?_⟩)
      · cases hk
        exact ⟨x, hx, .inr hdone⟩
      · obtain rfl : n = m := by simpa [Probe.bound] using hb
        exact ⟨rfl, x, hx, hdone⟩
  case case12 n x hx => cases h; exact .used hp hx
  case case13 n x hx d f hf =>
    obtain ⟨t, ht, rfl⟩ := Option.map_eq_some_iff.mp h
    exact .dup hp hx ht
  case case16 n =>
    obtain ⟨x, hx, rfl⟩ := Option.map_eq_some_iff.mp h
    exact .used hp hx
  case case17 fd => cases h; exact .closeDup hp
  all_goals cases h
  all_goals exact quiet _ (by simp) (by simp) (by simp [Probe.bound])

theorem proc_move {e : ProcEv} (h : p.step e = some p') : ProcMove p e p' := by
  revert h
  fun_cases Proc.step p e <;> intro h
  case case1 | case3 =>
    obtain ⟨t, ht, rfl⟩ := Option.map_eq_some_iff.mp h
    exact .added ht rfl rfl
  case case4 => cases h; exact .stopped rfl rfl
  case case6 n e x hx _ =>
    obtain ⟨s, hs, rfl⟩ := Option.map_eq_some_iff.mp h
    exact .session hx hs
  case case8 | case10 => cases h; exact .batch
  case case12 =>
    obtain ⟨t, ht, rfl⟩ := Option.map_eq_some_iff.mp h
    exact .opens ht
  case case13 hf => cases h; exact .closes hf
  case case15 hn => cases h; exact .call hn
  case case17 hp => exact next_move hp h
  all_goals cases h

/-! ## The numbers -/

namespace Proc

/-- The numbers that are followed: of the masters that are open, and of the duplicates. -/
def own (p : Proc) : Holder → Option Nat
  | .session n => p.slots[n]?.bind fun x => if x.sys.core.master = .opened then x.masterFD else none
  | .probe i =>
    match p.probes[i]? with
    | some (.probing fd) => some fd
    | _ => none
  | .other => none

theorem own_session {n fd : Nat} : p.own (.session n) = some fd ↔
    ∃ x, p.slots[n]? = some x ∧ x.sys.core.master = .opened ∧ x.masterFD = some fd := by
  simp only [own, Option.bind_eq_some_iff, Option.ite_none_right_eq_some]

theorem own_probe {i fd : Nat} : p.own (.probe i) = some fd ↔ p.probes[i]? = some (.probing fd) := by
  simp only [own]
  split
  · rename_i g hg
    rw [hg]
    simp
  · rename_i hg
    simpa using hg fd

end Proc

def right : Holder → File → Prop
  | .session n, f => f = .master n
  | _, _ => True

structure Numbered (p : Proc) : Prop where
  table : p.table.Keeps p.own right
  /-- A session without a master has stopped. -/
  stopped : ∀ x ∈ p.slots, x.masterFD = none → x.sys.core.done = true
  ready : ∀ k n, .ready k n ∈ p.probes → ∃ x, p.slots[n]? = some x ∧ x.masterFD ≠ none
  uses : ∀ u ∈ p.uses, u.fd.isSome = true ∧ (u.opened = true → u.found = some (.master u.session))

/-- The sessions keep their numbers. -/
def Proc.Extends (p p' : Proc) : Prop :=
  ∀ (n : Nat) x, p.slots[n]? = some x → ∃ x', p'.slots[n]? = some x' ∧ x'.masterFD = x.masterFD

theorem extends_concat {x : Slot} {t : Descriptors Holder File} : p.Extends { p with slots := p.slots ++ [x], table := t } :=
  fun _ y hy => ⟨y, List.getElem?_append_left (List.getElem?_eq_some_iff.mp hy).1 ▸ hy, rfl⟩

theorem Numbered.ready_extends (h : Numbered p) (he : p.Extends p') (hp : p'.probes = p.probes) :
    ∀ k n, .ready k n ∈ p'.probes → ∃ x, p'.slots[n]? = some x ∧ x.masterFD ≠ none := by
  intro k n hr
  obtain ⟨x, hx, hm⟩ := h.ready k n (hp ▸ hr)
  obtain ⟨x', hx', hm'⟩ := he n x hx
  exact ⟨x', hx', hm' ▸ hm⟩

/-- What is followed after a step was followed before it. -/
theorem own_forget (hs : ∀ n fd, p'.own (.session n) = some fd → p.own (.session n) = some fd)
    (hp : ∀ i fd, p'.own (.probe i) = some fd → p.own (.probe i) = some fd) :
    ∀ j fd, p'.own j = some fd → p.own j = some fd
  | .session n, fd, h => hs n fd h
  | .probe i, fd, h => hp i fd h
  | .other, _, h => by cases h

/-- A probe that moves on without a duplicate. -/
theorem own_goto {i : Nat} {pc : Probe} (hpc : ∀ fd, pc ≠ .probing fd) :
    ∀ j fd, (p.goto i pc).own j = some fd → p.own j = some fd := by
  refine own_forget (fun _ _ => id) fun m g hg => ?_
  rw [Proc.own_probe] at hg ⊢
  rcases Gate.set_getElem? hg with ⟨-, hx⟩ | ⟨-, hx⟩
  · exact absurd hx.symm (hpc g)
  · exact hx

theorem Numbered.add {x : Slot} {fd : Nat} {t : Descriptors Holder File} (h : Numbered p)
    (ht : p.table.open_ fd (.session p.slots.length) (.master p.slots.length) = some t) (hx : x.masterFD = some fd) :
    Numbered { p with slots := p.slots ++ [x], table := t } := by
  refine ⟨h.table.opened ht fun j g hg => ?_, fun y hy => ?_, h.ready_extends extends_concat rfl, h.uses⟩
  · cases j with
    | session n =>
      obtain ⟨y, hy, hm, hf⟩ := Proc.own_session.mp hg
      rw [Proc.own_session]
      by_cases hn : n < p.slots.length
      · rw [List.getElem?_append_left hn] at hy
        exact .inl ⟨y, hy, hm, hf⟩
      · rw [List.getElem?_append_right (by omega), List.getElem?_singleton] at hy
        obtain ⟨h0, hy⟩ := Option.ite_none_right_eq_some.mp hy
        cases hy
        exact .inr ⟨by rw [show n = p.slots.length by omega], (Option.some.inj (hf.symm.trans hx)), rfl⟩
    | probe i => exact .inl hg
    | other => cases hg
  · rcases List.mem_append.mp hy with hy | hy
    · exact h.stopped y hy
    · rw [List.mem_singleton.mp hy, hx]
      exact fun hx => by cases hx

theorem Numbered.stop {x : Slot} (h : Numbered p) (hx : x.masterFD = none) (hd : x.sys.core.done = true) :
    Numbered { p with slots := p.slots ++ [x] } := by
  refine ⟨h.table.forget (own_forget (fun n fd hg => ?_) fun _ _ => id), fun y hy hn => ?_,
    h.ready_extends extends_concat rfl, h.uses⟩
  · obtain ⟨y, hy, hm, hf⟩ := Proc.own_session.mp hg
    rcases Gate.concat_getElem? hy with hy | rfl
    · exact Proc.own_session.mpr ⟨y, hy, hm, hf⟩
    · cases hx.symm.trans hf
  · rcases List.mem_append.mp hy with hy | hy
    · exact h.stopped y hy hn
    · exact List.mem_singleton.mp hy ▸ hd

theorem Numbered.session {n : Nat} {x : Slot} {s : Session.Sys} (h : Numbered p) (hx : p.slots[n]? = some x)
    (hc : x.sys.core.Closes s.core) :
    Numbered { p with slots := p.slots.set n { x with sys := s }, table := p.settle x s } := by
  refine ⟨?_, fun y hy hn => ?_, h.ready_extends (fun m y hy => ?_) rfl, h.uses⟩
  · -- the others, and this one while it is open, have what they had
    have own : ∀ m fd, ({ p with slots := p.slots.set n { x with sys := s } } : Proc).own (.session m) = some fd →
        p.own (.session m) = some fd ∧ (m = n → s.core.master = .opened) := fun m fd hg => by
      obtain ⟨y, hy, hm, hf⟩ := Proc.own_session.mp hg
      rcases Gate.set_getElem? hy with ⟨rfl, rfl⟩ | ⟨hne, hy⟩
      · exact ⟨Proc.own_session.mpr ⟨x, hx, hc.opened hm, hf⟩, fun _ => hm⟩
      · exact ⟨Proc.own_session.mpr ⟨y, hy, hm, hf⟩, fun e => absurd e.symm hne⟩
    have forget := own_forget (fun m fd hg => (own m fd hg).1) fun _ _ => id
    simp only [Proc.settle]
    split
    · rename_i fd hfd
      split
      · rename_i hm
        have hown : p.own (.session n) = some fd := Proc.own_session.mpr ⟨x, hx, hm.1, hfd⟩
        refine h.table.closed fun j g hg => ⟨forget j g hg, ?_⟩
        rintro rfl
        obtain rfl := h.table.sole (forget j g hg) hown
        exact hm.2 ((own n g hg).2 rfl)
      · exact h.table.forget forget
    · exact h.table.forget forget
  · rcases List.mem_or_eq_of_mem_set hy with hy | rfl
    · exact h.stopped y hy hn
    · exact hc.done (h.stopped x (List.mem_of_getElem? hx) hn)
  · by_cases hm : n = m
    · subst hm
      cases hx.symm.trans hy
      exact ⟨{ x with sys := s }, by simp [(List.getElem?_eq_some_iff.mp hx).1], rfl⟩
    · exact ⟨y, by rwa [List.getElem?_set_ne hm], rfl⟩

theorem Numbered.batch {frozen : Bool} (h : Numbered p) : Numbered (p.setFrozen frozen) := by
  refine ⟨h.table.forget (own_forget (fun n fd hg => ?_) fun _ _ => id), fun y hy hn => ?_,
    h.ready_extends (fun m y hy => ?_) rfl, h.uses⟩
  · obtain ⟨y, hy, hm, hf⟩ := Proc.own_session.mp hg
    obtain ⟨x, hx, rfl⟩ := Option.map_eq_some_iff.mp (List.getElem?_map .. ▸ hy)
    exact Proc.own_session.mpr ⟨x, hx, hm, hf⟩
  · obtain ⟨x, hx, rfl⟩ := List.mem_map.mp hy
    exact h.stopped x hx hn
  · exact ⟨{ y with sys := { y.sys with frozen := frozen } }, by rw [Proc.setFrozen, List.getElem?_map, hy]; rfl, rfl⟩

theorem Numbered.used {k : Kind} {n : Nat} {x : Slot} (h : Numbered p) (hr : .ready k n ∈ p.probes)
    (hx : p.slots[n]? = some x) : Numbered (p.record k n x) := by
  refine ⟨h.table, h.stopped, h.ready, fun u hu => ?_⟩
  rcases List.mem_append.mp hu with hu | hu
  · exact h.uses u hu
  · rw [List.mem_singleton.mp hu]
    obtain ⟨y, hy, hm⟩ := h.ready k n hr
    cases hx.symm.trans hy
    obtain ⟨fd, hfd⟩ := Option.ne_none_iff_exists'.mp hm
    refine ⟨by simp [hfd], fun ho => ?_⟩
    -- the number of an open master is followed
    obtain ⟨f, hf, hright⟩ := h.table (.session n) fd (Proc.own_session.mpr ⟨x, hx, by simpa using ho, hfd⟩)
    show x.masterFD.bind p.table.file = _
    rw [hfd, Option.bind_some, Descriptors.file, hf]
    exact congrArg some hright

theorem Numbered.goto {i : Nat} {pc : Probe} (h : Numbered p) (hpc : ∀ fd, pc ≠ .probing fd)
    (hr : ∀ k n, pc = .ready k n → ∃ x, p.slots[n]? = some x ∧ x.masterFD ≠ none) : Numbered (p.goto i pc) := by
  refine ⟨h.table.forget (own_goto hpc), h.stopped, fun k n hk => ?_, h.uses⟩
  rcases List.mem_or_eq_of_mem_set hk with hk | hk
  · exact h.ready k n hk
  · exact hr k n hk.symm

theorem Numbered.move {e : ProcEv} (h : Numbered p) (hm : ProcMove p e p') : Numbered p' := by
  cases hm with
  | added ht hx _ => exact h.add ht hx
  | stopped hx hd => exact h.stop hx hd
  | session hx hs => exact h.session hx (step_closes hs)
  | batch => exact h.batch
  | opens ht => exact ⟨h.table.opened ht fun j g hg => .inl hg, h.stopped, h.ready, h.uses⟩
  | closes hf => exact ⟨h.table.closed_other hf rfl, h.stopped, h.ready, h.uses⟩
  | call _ =>
    refine ⟨h.table.forget (own_forget (fun _ _ => id) fun i fd hg => ?_), h.stopped, fun k n hk => ?_, h.uses⟩
    · rw [Proc.own_probe] at hg ⊢
      exact (Gate.concat_getElem? hg).resolve_right (by simp)
    · rcases List.mem_append.mp hk with hk | hk
      · exact h.ready k n hk
      · cases List.mem_singleton.mp hk
  | goto _ hpc hr _ =>
    refine h.goto hpc fun k n hk => ?_
    obtain ⟨x, hx, hm⟩ := hr k n hk
    refine ⟨x, hx, fun hn => ?_⟩
    rcases hm with hm | hm
    · exact hm hn
    · rw [h.stopped x (List.mem_of_getElem? hx) hn] at hm
      cases hm
  | used hp hx => exact (h.used (List.mem_of_getElem? hp) hx).goto (by simp) (by simp)
  | @dup i n d ev x f t hp hx ht =>
    have hu := h.used (List.mem_of_getElem? hp) hx
    refine ⟨hu.table.opened ht fun j g hg => ?_, hu.stopped, fun k m hk => ?_, hu.uses⟩
    · cases j with
      | session m => exact .inl hg
      | probe m =>
        rw [Proc.own_probe] at hg ⊢
        rcases Gate.set_getElem? hg with ⟨rfl, hd⟩ | ⟨-, hd⟩
        · exact .inr ⟨rfl, Probe.probing.inj hd, trivial⟩
        · exact .inl hd
      | other => cases hg
    · rcases List.mem_or_eq_of_mem_set hk with hk | hk
      · exact h.ready k m hk
      · cases hk
  | @closeDup i fd ev hp =>
    have hown : p.own (.probe i) = some fd := Proc.own_probe.mpr hp
    have hi : i < p.probes.length := (List.getElem?_eq_some_iff.mp hp).1
    refine ⟨h.table.closed_own hown ?_ fun j hj => ?_, h.stopped, fun k n hk => ?_, h.uses⟩
    · simp [Proc.own, Proc.goto, hi]
    · cases j with
      | session m => rfl
      | probe m =>
        have hne : i ≠ m := fun e => hj (e ▸ rfl)
        simp only [Proc.own, Proc.goto, List.getElem?_set_ne hne]
      | other => rfl
    · rcases List.mem_or_eq_of_mem_set hk with hk | hk
      · exact h.ready k n hk
      · cases hk

theorem Numbered.reach {ok : Proc → ProcEv → Bool} (h : procMachine.Reach ok p) : Numbered p := by
  refine h.invariant (fun p hp => ?_) fun _ _ _ hi _ h => hi.move (proc_move h)
  obtain rfl := hp
  refine ⟨?_, by simp, by simp, by simp⟩
  rintro (n | i | _) fd h <;> cases h

/-! ## The order of the closes and the probes -/

/-- The step closes the master. -/
def Slot.closedBy (x : Slot) (e : Session.Ev) : Bool :=
  x.sys.core.master != .closed && (x.sys.step e).any (·.core.master == .closed)

def inOrder (p : Proc) : ProcEv → Bool
  | .session n e => p.slots[n]?.all (fun x => !x.closedBy e) || p.probes.all fun pc => !pc.bound n
  | .call .metadata n => p.slots[n]?.all (·.sys.core.master != .closed)
  | .probe i .go =>
    match p.probes[i]? with
    | some (.inside .signal n) => p.slots[n]?.all fun x => x.sys.core.done || x.sys.core.master != .closed
    | _ => true
  | _ => true

structure Ordered (p : Proc) : Prop where
  present : ∀ x ∈ p.slots, x.masterFD ≠ none → x.sys.core.master ≠ .absent
  bound : ∀ pc ∈ p.probes, ∀ n, pc.bound n = true → ∃ x, p.slots[n]? = some x ∧ x.sys.core.master ≠ .closed
  uses : ∀ u ∈ p.uses, u.opened = true

theorem closes_present {c c' : Core} (h : c.Closes c') (hp : c.master ≠ .absent) : c'.master ≠ .absent := by
  rcases h.master with hm | hm
  · rwa [hm]
  · rw [hm]
    simp [Core.dropMaster, hp]

/-- A probe that uses the number finds the master open. -/
theorem Ordered.opened {k : Kind} {n : Nat} {x : Slot} (h : Ordered p) (hn : Numbered p) (hr : .ready k n ∈ p.probes)
    (hx : p.slots[n]? = some x) : x.sys.core.master = .opened := by
  obtain ⟨y, hy, hclosed⟩ := h.bound _ hr n (by simp [Probe.bound])
  cases hx.symm.trans hy
  obtain ⟨z, hz, hfd⟩ := hn.ready k n hr
  cases hx.symm.trans hz
  have habsent := h.present x (List.mem_of_getElem? hx) hfd
  cases hm : x.sys.core.master with
  | absent => exact absurd hm habsent
  | opened => rfl
  | closed => exact absurd hm hclosed

theorem Ordered.record {k : Kind} {n : Nat} {x : Slot} (h : Ordered p) (hm : x.sys.core.master = .opened) :
    Ordered (p.record k n x) := by
  refine ⟨h.present, h.bound, fun u hu => ?_⟩
  rcases List.mem_append.mp hu with hu | hu
  · exact h.uses u hu
  · rw [List.mem_singleton.mp hu]
    simpa using hm

theorem Ordered.goto {i : Nat} {pc : Probe} (h : Ordered p)
    (hpc : ∀ n, pc.bound n = true → ∃ x, p.slots[n]? = some x ∧ x.sys.core.master ≠ .closed) : Ordered (p.goto i pc) := by
  refine ⟨h.present, fun pc' hmem => ?_, h.uses⟩
  rcases List.mem_or_eq_of_mem_set hmem with hmem | rfl
  · exact h.bound pc' hmem
  · exact hpc

/-- A session that is added leaves the others where they are. -/
theorem Ordered.add {x : Slot} {t : Descriptors Holder File} (h : Ordered p)
    (hx : x.masterFD ≠ none → x.sys.core.master ≠ .absent) : Ordered { p with slots := p.slots ++ [x], table := t } := by
  refine ⟨fun y hy => ?_, fun pc hpc n hb => ?_, h.uses⟩
  · rcases List.mem_append.mp hy with hy | hy
    · exact h.present y hy
    · rw [List.mem_singleton.mp hy]
      exact hx
  · obtain ⟨y, hy, hm⟩ := h.bound pc hpc n hb
    exact ⟨y, (List.getElem?_append_left (List.getElem?_eq_some_iff.mp hy).1).trans hy, hm⟩

theorem Ordered.session {n : Nat} {e : Session.Ev} {x : Slot} {s : Session.Sys} {t : Descriptors Holder File}
    (h : Ordered p) (hok : inOrder p (.session n e) = true) (hx : p.slots[n]? = some x) (hs : x.sys.step e = some s) :
    Ordered { p with slots := p.slots.set n { x with sys := s }, table := t } := by
  refine ⟨fun y hy hfd => ?_, fun pc hpc m hb => ?_, h.uses⟩
  · rcases List.mem_or_eq_of_mem_set hy with hy | rfl
    · exact h.present y hy hfd
    · exact closes_present (step_closes hs) (h.present x (List.mem_of_getElem? hx) hfd)
  · obtain ⟨y, hy, hm⟩ := h.bound pc hpc m hb
    by_cases hnm : n = m
    · subst hnm
      cases hx.symm.trans hy
      refine ⟨{ x with sys := s }, by simp [(List.getElem?_eq_some_iff.mp hx).1], fun hclosed => ?_⟩
      -- the step would close it while this probe is bound to use it
      simp only [inOrder, hx, Option.all_some, Bool.or_eq_true, List.all_eq_true, Bool.not_eq_true'] at hok
      rcases hok with hno | hfree
      · simp [Slot.closedBy, hs, hm, hclosed] at hno
      · rw [hfree pc hpc] at hb
        cases hb
    · exact ⟨y, by rwa [List.getElem?_set_ne hnm], hm⟩

theorem Ordered.move {e : ProcEv} (h : Ordered p) (hn : Numbered p) (hok : inOrder p e = true) (hm : ProcMove p e p') :
    Ordered p' := by
  cases hm with
  | added _ _ ho => exact h.add fun _ => by rw [ho]; simp
  | stopped hx _ => exact h.add fun hne => absurd hx hne
  | session hx hs => exact h.session hok hx hs
  | @batch _ frozen =>
    refine ⟨fun y hy => ?_, fun pc hpc n hb => ?_, h.uses⟩
    · obtain ⟨x, hx, rfl⟩ := List.mem_map.mp hy
      exact h.present x hx
    · obtain ⟨x, hx, hm⟩ := h.bound pc hpc n hb
      exact ⟨{ x with sys := { x.sys with frozen := frozen } }, by rw [Proc.setFrozen, List.getElem?_map, hx]; rfl, hm⟩
  | opens _ | closes _ => exact ⟨h.present, h.bound, h.uses⟩
  | @call k n hlt =>
    refine ⟨h.present, fun pc hpc m hb => ?_, h.uses⟩
    rcases List.mem_append.mp hpc with hpc | hpc
    · exact h.bound pc hpc m hb
    · rw [List.mem_singleton.mp hpc] at hb
      obtain ⟨rfl, rfl⟩ : k = .metadata ∧ n = m := by simpa [Probe.bound] using hb
      have hx := List.getElem?_eq_getElem hlt
      rw [inOrder, hx, Option.all_some, bne_iff_ne] at hok
      exact ⟨_, hx, hok⟩
  | goto hp _ _ hfollow =>
    refine h.goto fun n hb => ?_
    rcases hfollow n hb with hbefore | ⟨rfl, rfl, x, hx, hdone⟩
    · exact h.bound _ (List.mem_of_getElem? hp) n hbefore
    · simp only [inOrder, hp, hx, hdone, Option.all_some, Bool.false_or, bne_iff_ne] at hok
      exact ⟨x, hx, hok⟩
  | used hp hx => exact (h.record (h.opened hn (List.mem_of_getElem? hp) hx)).goto (by simp [Probe.bound])
  | @dup i n d ev x f t hp hx _ =>
    have hr : Ordered (p.record .metadata n x) := h.record (h.opened hn (List.mem_of_getElem? hp) hx)
    exact Ordered.goto ⟨hr.present, hr.bound, hr.uses⟩ (by simp [Probe.bound])
  | closeDup _ => exact Ordered.goto ⟨h.present, h.bound, h.uses⟩ (by simp [Probe.bound])

theorem Ordered.reach (h : procMachine.Reach inOrder p) : Ordered p := by
  have hboth : Numbered p ∧ Ordered p := by
    refine h.invariant (I := fun p => Numbered p ∧ Ordered p) (fun p hp => ?_) fun _ _ _ hi hok he =>
      ⟨hi.1.move (proc_move he), hi.2.move hi.1 hok (proc_move he)⟩
    have hstart : procMachine.Reach inOrder p := .init hp
    obtain rfl := hp
    exact ⟨Numbered.reach hstart, by simp, by simp, by simp⟩
  exact hboth.2

/-! ## What the probes reach -/

/-- In such a run every number that a probe uses is one of a master, and of its own session's. -/
theorem probes_stay_at_their_own_terminal (h : procMachine.Reach inOrder p) :
    ∀ u ∈ p.uses, u.fd.isSome = true ∧ u.found = some (.master u.session) := by
  intro u hu
  obtain ⟨hfd, hfound⟩ := (Numbered.reach h).uses u hu
  exact ⟨hfd, hfound ((Ordered.reach h).uses u hu)⟩

theorem launch_init : procMachine.init ⟨[], false, .none, [], []⟩ := rfl

/-- Up to the use. -/
def approach (i : Nat) : List ProcEv := List.replicate 4 (.probe i .go)

/-- The loop's steps when the child has exited, up to the deferred close of the master. -/
def exitRun : List LoopEv := [.go, .readable, .go, .readable, .readFailed, .go, .reap false, .go, .go]

def ofLoop (n : Nat) (e : LoopEv) : ProcEv := .session n (.loop e .full)

/-- Two sessions are probed, one of them stops, and the next one gets its number. A `Signal` that
    is called then uses none. -/
theorem probes_stay_at_their_own_terminal_two : ∃ p : Proc, procMachine.Reach inOrder p ∧
    p.uses.map Use.session = [0, 1] ∧ ∀ u ∈ p.uses, u.found = some (.master u.session) := by
  obtain ⟨p, hp, hs⟩ := procMachine.exists_reach inOrder launch_init
    (([.start 5 ⟨80, 24⟩ 100, .start 6 ⟨80, 24⟩ 101, .call .metadata 0, .call .signal 1] : List ProcEv) ++
      approach 0 ++ approach 1 ++
      ([.probe 0 (.dup (some 7)), .probe 1 .go, .session 0 (.child .exit), .session 0 (.child .hangup)] : List ProcEv) ++
      exitRun.map (ofLoop 0) ++ List.replicate 4 (ofLoop 0 .go) ++
      ([.start 5 ⟨80, 24⟩ 102, .call .signal 0] : List ProcEv) ++ approach 2)
    (P := fun p => p.uses.map Use.session = [0, 1]) (by decide)
  exact ⟨p, hp, hs, fun u hu => (probes_stay_at_their_own_terminal hp u hu).2⟩

/-- `Signal` looks at `done` before the loop closes the master, and the next session gets
    the number. `Metadata` finds it there for good. -/
theorem a_probe_reaches_another_terminal : ∃ p : Proc, procMachine.Reach Machine.always p ∧
    p.uses = [⟨.signal, 0, some 5, false, some (.master 1)⟩, ⟨.metadata, 0, some 5, false, some (.master 1)⟩] := by
  refine procMachine.exists_reach Machine.always launch_init
    (([.start 5 ⟨80, 24⟩ 100, .session 0 (.child .exit), .session 0 (.child .hangup)] : List ProcEv) ++
      exitRun.map (ofLoop 0) ++ ([.call .signal 0] : List ProcEv) ++ approach 0 ++
      ([ofLoop 0 .go, .start 5 ⟨80, 24⟩ 101, .probe 0 .go] : List ProcEv) ++
      List.replicate 3 (ofLoop 0 .go) ++ ([.call .metadata 0] : List ProcEv) ++ approach 1 ++
      ([.probe 1 (.dup (some 6))] : List ProcEv)) ?_
  decide

end Ghostline.Session.Probes
