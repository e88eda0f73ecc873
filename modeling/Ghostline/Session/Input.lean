/-
  Ghostline.Session.Input — input to one terminal, over any number of upgrades (session.go:
  `writeInput`, `writeFull`, and of `resize` the part that sets the size of the terminal).

  The servers that own the terminal one after the other are numbered. Each has a hub with its
  `lifecycleMu` and its own `inputMu`; the terminal is the only thing they share. A call through
  a handle of a server is a thread. `frozen k` says that an upgrade has locked the `k`-th hub,
  `owner` which hub has the session last, and `published` whether that hub has it in its map
  already.

  - What the terminal takes at a time is its own matter: a write may be short, may fail behind
    any number of bytes, and may make no progress.
  - `operationMu` is left out: what takes it for itself is kept out by the hub's lock as well,
    or closes the master, which makes the write fail.
-/

import Ghostline.Lib.Gate
import Ghostline.Lib.Machine
import Ghostline.Types

namespace Ghostline.Session.Input

open Lib Lib.Gate

/-- What reaches the terminal. -/
inductive Out where
  | byte (b : Byte)
  | size (s : Size)
  deriving DecidableEq, Repr

inductive Job where
  | input (data : List Byte)
  | resize (size : Size)
  deriving DecidableEq, Repr

/-- What the call is to make reach it. -/
def Job.out : Job → List Out
  | .input data => data.map .byte
  | .resize size => [.size size]

inductive Pc where
  | start (job : Job)
  /-- `lifecycleMu` is held from here on. -/
  | entered (job : Job)
  /-- The session is the current one of its name. -/
  | current (job : Job)
  /-- `inputMu` is held from here on: in `writeFull` with `rest` to be written, before
      `ptySetSize`, or behind it. -/
  | writing (data rest : List Byte)
  | resizing (size : Size)
  | leaving (job : Job) (err : Option Err)
  | unlocked (job : Job) (err : Option Err)
  | done (job : Job) (err : Option Err)
  deriving DecidableEq, Repr

def Pc.job : Pc → Job
  | .start job | .entered job | .current job | .leaving job _ | .unlocked job _ | .done job _ => job
  | .writing data _ => .input data
  | .resizing size => .resize size

def Pc.inHub : Pc → Bool
  | .start _ | .done _ _ => false
  | _ => true

def Pc.inputMu : Pc → Bool
  | .writing _ _ | .resizing _ | .leaving _ _ => true
  | _ => false

structure Call where
  server : Nat
  pc : Pc
  deriving DecidableEq, Repr

structure Sys where
  tty : List Out
  calls : List Call
  frozen : Nat → Bool
  owner : Nat
  published : Bool

def init : Sys := ⟨[], [], fun _ => false, 0, true⟩

/-- What happens in a call, as far as it is not the call's own doing. -/
inductive CallEv where
  | go
  /-- The context is cancelled, or the size is not valid. -/
  | refuse (err : Err)
  /-- A write that takes `n` bytes, and one that fails behind them. -/
  | wrote (n : Nat)
  | failed (n : Nat) (err : Err)
  deriving DecidableEq, Repr

inductive Ev where
  | call (server : Nat) (job : Job)
  | run (i : Nat) (e : CallEv)
  /-- `beginMigrationBatch` and `endMigrationBatch` of a hub. -/
  | freeze (k : Nat)
  | unfreeze (k : Nat)
  /-- The owner's `commit`, and the next server's map. -/
  | commit
  | publish
  deriving DecidableEq, Repr

def errClosed : Err := .sentinel .sessionClosed

def errShortWrite : Err := .other "short write"

/-- What `writeInput` returns when `writeFull` fails. -/
def wrapInput (err : Err) : Err := .other ("write pty input: " ++ err.text)

/-- One turn of `writeFull`'s loop: the bytes that reached the terminal, and where the call is. -/
def writeFull (data rest : List Byte) : CallEv → Option (List Byte × Pc)
  | .wrote n =>
    if n = 0 then some ([], .leaving (.input data) (some (wrapInput errShortWrite)))
    else if n < rest.length then some (rest.take n, .writing data (rest.drop n))
    else if n = rest.length then some (rest, .leaving (.input data) none)
    else none
  | .failed n err =>
    if n ≤ rest.length then some (rest.take n, .leaving (.input data) (some (wrapInput err))) else none
  | _ => none

def Sys.inputFree (s : Sys) (k : Nat) : Bool := s.calls.all fun c => !(c.pc.inputMu && c.server = k)

def Sys.idle (s : Sys) (k : Nat) : Bool := s.calls.all fun c => !(c.pc.inHub && c.server = k)

/-- What a step of a call through a handle of server `k` makes reach the terminal, and where the
    call is then. -/
def Sys.callStep (s : Sys) (k : Nat) : Pc → CallEv → Option (List Out × Pc)
  | .start job, .go => if s.frozen k then none else some ([], .entered job)
  | .entered job, .refuse err => some ([], .unlocked job (some err))
  | .entered job, .go =>
    if k = s.owner ∧ s.published then some ([], .current job) else some ([], .unlocked job (some errClosed))
  | .current (.input []), .go => some ([], .unlocked (.input []) none)
  | .current (.input data), .go => if s.inputFree k then some ([], .writing data data) else none
  | .current (.resize size), .go => if s.inputFree k then some ([], .resizing size) else none
  | .writing data rest, e => (writeFull data rest e).map fun r => (r.1.map .byte, r.2)
  | .resizing size, .go => some ([.size size], .leaving (.resize size) none)
  | .resizing size, .refuse err => some ([], .leaving (.resize size) (some err))
  | .leaving job err, .go => some ([], .unlocked job err)
  | .unlocked job err, .go => some ([], .done job err)
  | _, _ => none

def Sys.step (s : Sys) : Ev → Option Sys
  | .call server job => some { s with calls := s.calls ++ [⟨server, .start job⟩] }
  | .run i e =>
    match s.calls[i]? with
    | none => none
    | some c =>
      (s.callStep c.server c.pc e).map fun r =>
        { s with tty := s.tty ++ r.1, calls := s.calls.set i { c with pc := r.2 } }
  | .freeze k =>
    if s.frozen k = false ∧ s.idle k then some { s with frozen := Function.update s.frozen k true } else none
  | .unfreeze k => if s.frozen k then some { s with frozen := Function.update s.frozen k false } else none
  | .commit =>
    if s.frozen s.owner ∧ s.published then some { s with owner := s.owner + 1, published := false } else none
  | .publish => if s.published then none else some { s with published := true }

def machine : Machine Sys Ev where
  init s := s = Input.init
  step := Sys.step

/-! ## Steps -/

/-- A job with `inputMu` taken. -/
def Job.begin : Job → Pc
  | .input data => .writing data data
  | .resize size => .resizing size

/-- All that a step of a call can do. -/
inductive CallMove (s : Sys) (k : Nat) : Pc → List Out → Pc → Prop
  | enter (job : Job) : s.frozen k = false → CallMove s k (.start job) [] (.entered job)
  | refuse (job : Job) (err : Err) : CallMove s k (.entered job) [] (.unlocked job (some err))
  | check (job : Job) : k = s.owner → s.published = true → CallMove s k (.entered job) [] (.current job)
  | empty : CallMove s k (.current (.input [])) [] (.unlocked (.input []) none)
  | lock (job : Job) : s.inputFree k = true → CallMove s k (.current job) [] job.begin
  | write (data chunk rest : List Byte) :
      CallMove s k (.writing data (chunk ++ rest)) (chunk.map .byte) (.writing data rest)
  | wrote (data chunk rest : List Byte) (err : Option Err) : (err = none → rest = []) →
      CallMove s k (.writing data (chunk ++ rest)) (chunk.map .byte) (.leaving (.input data) err)
  | sized (size : Size) : CallMove s k (.resizing size) [.size size] (.leaving (.resize size) none)
  | unsized (size : Size) (err : Err) : CallMove s k (.resizing size) [] (.leaving (.resize size) (some err))
  | unlock (job : Job) (err : Option Err) : CallMove s k (.leaving job err) [] (.unlocked job err)
  | leave (job : Job) (err : Option Err) : CallMove s k (.unlocked job err) [] (.done job err)

variable {s s' : Sys} {k : Nat} {pc pc' : Pc} {out : List Out}

theorem writeFull_move {data rest chunk : List Byte} {e : CallEv} (h : writeFull data rest e = some (chunk, pc')) :
    CallMove s k (.writing data rest) (chunk.map .byte) pc' := by
  cases e with
  | wrote n =>
    simp only [writeFull] at h
    split at h
    · cases h
      simpa using CallMove.wrote (s := s) (k := k) data [] rest (some (wrapInput errShortWrite)) (by intro h; cases h)
    · split at h
      · cases h
        simpa using CallMove.write (s := s) (k := k) data (rest.take n) (rest.drop n)
      · split at h
        · cases h
          simpa using CallMove.wrote (s := s) (k := k) data rest [] none (fun _ => rfl)
        · cases h
  | failed n err =>
    simp only [writeFull, Option.ite_none_right_eq_some] at h
    obtain ⟨-, h⟩ := h
    cases h
    simpa using CallMove.wrote (s := s) (k := k) data (rest.take n) (rest.drop n) (some (wrapInput err))
      (by intro h; cases h)
  | go | refuse _ => cases h

theorem callStep_move {e : CallEv} (h : s.callStep k pc e = some (out, pc')) : CallMove s k pc out pc' := by
  revert h
  fun_cases Sys.callStep s k pc e <;> intro h <;> try cases h
  case case2 hf => exact .enter _ (by simpa using hf)
  case case4 hc => exact .check _ hc.1 hc.2
  case case6 => exact .empty
  case case7 hf => exact .lock (.input _) hf
  case case9 hf => exact .lock (.resize _) hf
  case case11 =>
    obtain ⟨⟨chunk, pc''⟩, hw, he⟩ := Option.map_eq_some_iff.mp h
    cases he
    exact writeFull_move hw
  case case12 => exact .sized _
  case case13 => exact .unsized _ _
  case case14 => exact .unlock _ _
  case case15 => exact .leave _ _
  all_goals exact .refuse _ _

/-- All that can happen. -/
inductive Step (s : Sys) : Ev → Sys → Prop
  | call (server : Nat) (job : Job) :
      Step s (.call server job) { s with calls := s.calls ++ [⟨server, .start job⟩] }
  | run {i : Nat} {e : CallEv} {c : Call} {out : List Out} {pc : Pc} : s.calls[i]? = some c →
      CallMove s c.server c.pc out pc →
      Step s (.run i e) { s with tty := s.tty ++ out, calls := s.calls.set i { c with pc := pc } }
  | freeze (k : Nat) : s.idle k = true → Step s (.freeze k) { s with frozen := Function.update s.frozen k true }
  | unfreeze (k : Nat) : Step s (.unfreeze k) { s with frozen := Function.update s.frozen k false }
  | commit : s.frozen s.owner = true → Step s .commit { s with owner := s.owner + 1, published := false }
  | publish : s.published = false → Step s .publish { s with published := true }

theorem step_cases {e : Ev} (h : s.step e = some s') : Step s e s' := by
  cases e with
  | call server job => cases h; exact .call server job
  | run i e =>
    simp only [Sys.step] at h
    split at h
    · cases h
    · rename_i c hc
      obtain ⟨⟨out, pc⟩, hm, rfl⟩ := Option.map_eq_some_iff.mp h
      exact .run hc (callStep_move hm)
  | freeze k =>
    simp only [Sys.step, Option.ite_none_right_eq_some, Option.some.injEq] at h
    obtain ⟨hc, rfl⟩ := h
    exact .freeze k hc.2
  | unfreeze k =>
    simp only [Sys.step, Option.ite_none_right_eq_some, Option.some.injEq] at h
    obtain ⟨-, rfl⟩ := h
    exact .unfreeze k
  | commit =>
    simp only [Sys.step, Option.ite_none_right_eq_some, Option.some.injEq] at h
    obtain ⟨hc, rfl⟩ := h
    exact .commit hc.1
  | publish =>
    simp only [Sys.step, Option.ite_none_left_eq_some, Option.some.injEq] at h
    obtain ⟨hc, rfl⟩ := h
    exact .publish (by simpa using hc)

/-! ## Who may write -/

def Pc.admitted : Pc → Bool
  | .current _ | .writing _ _ | .resizing _ | .leaving _ _ => true
  | _ => false

/-- A call that has found its session to be the current one is one of the server that owns it,
    and a call that is in a hub has not been overtaken by an upgrade. -/
structure Admitted (s : Sys) : Prop where
  owner : ∀ c ∈ s.calls, c.pc.admitted = true → c.server = s.owner ∧ s.published = true
  hub : ∀ c ∈ s.calls, c.pc.inHub = true → s.frozen c.server = false

theorem Pc.inHub_of_admitted (h : pc.admitted = true) : pc.inHub = true := by
  cases pc <;> first | rfl | (cases h)

theorem Pc.admitted_of_inputMu (h : pc.inputMu = true) : pc.admitted = true := by
  cases pc <;> first | rfl | (cases h)

theorem CallMove.admitted (h : CallMove s k pc out pc') (ha : pc'.admitted = true) :
    pc.admitted = true ∨ k = s.owner ∧ s.published = true := by
  cases h with
  | check job hk hp => exact .inr ⟨hk, hp⟩
  | lock job _ => exact .inl rfl
  | _ => first | exact .inl rfl | (cases ha)

theorem CallMove.inHub (h : CallMove s k pc out pc') (hh : pc'.inHub = true) :
    pc.inHub = true ∨ s.frozen k = false := by
  cases h with
  | enter job hf => exact .inr hf
  | _ => exact .inl rfl

theorem Admitted.step {e : Ev} (hi : Admitted s) (h : Step s e s') : Admitted s' := by
  cases h with
  | call server job =>
    refine ⟨fun c hc ha => ?_, fun c hc hh => ?_⟩
    · rcases List.mem_append.mp hc with hc | hc
      · exact hi.owner c hc ha
      · rw [List.mem_singleton.mp hc] at ha; cases ha
    · rcases List.mem_append.mp hc with hc | hc
      · exact hi.hub c hc hh
      · rw [List.mem_singleton.mp hc] at hh; cases hh
  | @run i e c out pc hc hm =>
    have hmem := List.mem_of_getElem? hc
    refine ⟨fun d hd ha => ?_, fun d hd hh => ?_⟩
    · rcases List.mem_or_eq_of_mem_set hd with hd | rfl
      · exact hi.owner d hd ha
      · rcases hm.admitted ha with ha | ha
        · exact hi.owner c hmem ha
        · exact ha
    · rcases List.mem_or_eq_of_mem_set hd with hd | rfl
      · exact hi.hub d hd hh
      · rcases hm.inHub hh with hh | hf
        · exact hi.hub c hmem hh
        · exact hf
  | freeze k hidle =>
    refine ⟨hi.owner, fun c hc hh => ?_⟩
    have hk : c.server ≠ k := by
      intro he
      have := List.all_eq_true.mp hidle c hc
      simp [hh, he] at this
    simpa [Function.update, hk] using hi.hub c hc hh
  | unfreeze k =>
    refine ⟨hi.owner, fun c hc hh => ?_⟩
    have := hi.hub c hc hh
    by_cases hk : c.server = k <;> simp [Function.update, hk, this]
  | commit hf =>
    -- nobody is in the owner's hub
    refine ⟨fun c hc ha => ?_, hi.hub⟩
    have howner := (hi.owner c hc ha).1
    have := hi.hub c hc (Pc.inHub_of_admitted ha)
    rw [howner, hf] at this
    cases this
  | publish hp =>
    refine ⟨fun c hc ha => ?_, hi.hub⟩
    have := (hi.owner c hc ha).2
    rw [hp] at this
    cases this

/-! ## Pieces -/

/-- What a call has made reach the terminal, from where it stands. -/
def Fits : Pc → List Out → Prop
  | .writing data rest, p => p ++ rest.map .byte = data.map .byte
  | .resizing _, p => p = []
  | .leaving job err, p | .unlocked job err, p | .done job err, p => p <+: job.out ∧ (err = none → p = job.out)
  | _, _ => False

/-- A call without an error that had something to do. -/
def Pc.succeeded : Pc → Bool
  | .unlocked job none | .done job none => job.out ≠ []
  | _ => false

/-- The stream falls into the pieces of single calls; the call that has `inputMu` is at the last. -/
structure Pieces (s : Sys) (ps : List (Nat × List Out)) : Prop where
  stream : s.tty = (ps.map Prod.snd).flatten
  once : (ps.map Prod.fst).Nodup
  fits : ∀ x ∈ ps, ∃ c, s.calls[x.1]? = some c ∧ Fits c.pc x.2
  whole : ∀ (i : Nat) (c : Call), s.calls[i]? = some c → c.pc.succeeded = true → ∃ p, (i, p) ∈ ps
  last : ∀ (i : Nat) (c : Call), s.calls[i]? = some c → c.pc.inputMu = true → ∃ first p, ps = first ++ [(i, p)]

theorem Fits.prefixOf {p : List Out} (h : Fits pc p) : p <+: pc.job.out := by
  cases pc with
  | writing data rest => exact ⟨_, h⟩
  | resizing size => rw [show p = [] from h]; exact List.nil_prefix
  | leaving _ _ | unlocked _ _ | done _ _ => exact h.1
  | start _ | entered _ | current _ => exact h.elim

theorem fits_begin (job : Job) : Fits job.begin [] := by
  cases job <;> simp [Job.begin, Fits]

/-- What a step under `inputMu` adds, and where it leads. -/
theorem CallMove.inside {p : List Out} (h : CallMove s k pc out pc') (hin : pc.inputMu = true) (hf : Fits pc p) :
    Fits pc' (p ++ out) := by
  cases h with
  | write data chunk rest | unlock job err => simpa [Fits] using hf
  | wrote data chunk rest err he =>
    have hall : p ++ chunk.map Out.byte ++ rest.map Out.byte = data.map Out.byte := by simpa [Fits] using hf
    refine ⟨⟨_, hall⟩, fun hn => ?_⟩
    rw [he hn] at hall
    simpa [Job.out] using hall
  | sized size => simp [Fits, show p = [] from hf, Job.out]
  | unsized size err => simp [Fits, show p = [] from hf]
  | _ => cases hin

/-- Outside of `inputMu` nothing is written. -/
theorem CallMove.outside (h : CallMove s k pc out pc') (hin : pc.inputMu = false) :
    out = [] ∧ (∀ p, Fits pc p → Fits pc' p) ∧ (pc'.succeeded = true → pc.succeeded = true) ∧
      (pc'.inputMu = true → (∃ job, pc = .current job ∧ pc' = job.begin) ∧ s.inputFree k = true) := by
  cases h with
  | enter job _ | refuse job _ | check job _ _ => exact ⟨rfl, fun p h => h.elim, fun h => (by cases h), fun h => (by cases h)⟩
  | empty => exact ⟨rfl, fun p h => h.elim, fun h => (by cases h), fun h => (by cases h)⟩
  | lock job hfree =>
    refine ⟨rfl, fun p h => h.elim, fun h => ?_, fun _ => ⟨⟨job, rfl, rfl⟩, hfree⟩⟩
    cases job <;> cases h
  | leave job err =>
    refine ⟨rfl, fun p h => h, fun h => ?_, fun h => (by cases h)⟩
    cases err with
    | none => exact h
    | some e => cases h
  | write data chunk rest | wrote data chunk rest err _ | sized size | unsized size err | unlock job err => cases hin

variable {ps : List (Nat × List Out)} {i : Nat} {c : Call}

/-- Where the `i`-th call is after its step, and the others. -/
def Sys.moved (s : Sys) (i : Nat) (c : Call) (out : List Out) (pc : Pc) : Sys :=
  { s with tty := s.tty ++ out, calls := s.calls.set i { c with pc := pc } }

theorem moved_self (hc : s.calls[i]? = some c) : (s.moved i c out pc).calls[i]? = some { c with pc := pc } := by
  have hi := (List.getElem?_eq_some_iff.mp hc).1
  simp [Sys.moved, hi]

theorem moved_ne {j : Nat} (hj : i ≠ j) : (s.moved i c out pc).calls[j]? = s.calls[j]? :=
  List.getElem?_set_ne hj

/-- A step of the call that has `inputMu` makes its piece longer. -/
theorem Pieces.inside (hp : Pieces s ps) (hc : s.calls[i]? = some c) (hin : c.pc.inputMu = true)
    (hm : CallMove s c.server c.pc out pc) : ∃ ps', Pieces (s.moved i c out pc) ps' := by
  obtain ⟨first, p, rfl⟩ := hp.last i c hc hin
  have honce : i ∉ first.map Prod.fst ∧ (first.map Prod.fst).Nodup := by
    have := hp.once
    simp only [List.map_append, List.map_cons, List.map_nil, List.nodup_append, List.mem_singleton] at this
    exact ⟨fun h => this.2.2 i h i rfl rfl, this.1⟩
  obtain ⟨c', hc', hfit⟩ := hp.fits (i, p) (by simp)
  rw [hc] at hc'
  cases hc'
  refine ⟨first ++ [(i, p ++ out)], ?_, ?_, fun x hx => ?_, fun j d hd hs => ?_, fun j d hd hi => ?_⟩
  · simp [Sys.moved, hp.stream]
  · simpa using hp.once
  · rcases List.mem_append.mp hx with hx | hx
    · obtain ⟨d, hd, hf⟩ := hp.fits x (List.mem_append_left _ hx)
      have hne : i ≠ x.1 := by
        intro he
        exact honce.1 (he ▸ List.mem_map_of_mem hx)
      exact ⟨d, by rw [moved_ne hne]; exact hd, hf⟩
    · rw [List.mem_singleton.mp hx]
      exact ⟨_, moved_self hc, hm.inside hin hfit⟩
  · by_cases hj : i = j
    · exact ⟨p ++ out, by simp [hj]⟩
    · rw [moved_ne hj] at hd
      obtain ⟨q, hq⟩ := hp.whole j d hd hs
      refine ⟨q, List.mem_append_left _ ?_⟩
      rcases List.mem_append.mp hq with hq | hq
      · exact hq
      · simp only [List.mem_singleton, Prod.mk.injEq] at hq
        exact absurd hq.1.symm hj
  · by_cases hj : i = j
    · exact ⟨first, _, by rw [hj]⟩
    · rw [moved_ne hj] at hd
      obtain ⟨first', q, he⟩ := hp.last j d hd hi
      have := (List.append_inj' he rfl).2
      simp only [List.cons.injEq, Prod.mk.injEq, and_true] at this
      exact absurd this.1 hj

/-- A step outside of `inputMu` that does not take it. -/
theorem Pieces.outside (hp : Pieces s ps) (hc : s.calls[i]? = some c) (hfit : ∀ p, Fits c.pc p → Fits pc p)
    (hsucc : pc.succeeded = true → c.pc.succeeded = true) (hin : pc.inputMu = false) :
    Pieces (s.moved i c [] pc) ps := by
  refine ⟨?_, hp.once, fun x hx => ?_, fun j d hd hs => ?_, fun j d hd hi => ?_⟩
  · simp [Sys.moved, hp.stream]
  · obtain ⟨d, hd, hf⟩ := hp.fits x hx
    by_cases hj : i = x.1
    · rw [← hj, hc] at hd
      cases hd
      rw [← hj]
      exact ⟨_, moved_self hc, hfit _ hf⟩
    · exact ⟨d, by rw [moved_ne hj]; exact hd, hf⟩
  · by_cases hj : i = j
    · subst hj
      rw [moved_self hc] at hd
      cases hd
      exact hp.whole i c hc (hsucc hs)
    · rw [moved_ne hj] at hd
      exact hp.whole j d hd hs
  · by_cases hj : i = j
    · subst hj
      rw [moved_self hc] at hd
      cases hd
      rw [show ({ c with pc := pc } : Call).pc.inputMu = pc.inputMu from rfl, hin] at hi
      cases hi
    · rw [moved_ne hj] at hd
      exact hp.last j d hd hi

/-- A call takes `inputMu` while nobody has it, and begins a piece. -/
theorem Pieces.lock (hp : Pieces s ps) (hc : s.calls[i]? = some c) (hfree : ∀ d ∈ s.calls, d.pc.inputMu = false)
    (hfit : ∀ p, ¬ Fits c.pc p) (hnew : Fits pc []) (hsucc : pc.succeeded = false) :
    Pieces (s.moved i c [] pc) (ps ++ [(i, [])]) := by
  have hi : ∀ p, (i, p) ∉ ps := by
    intro p hx
    obtain ⟨d, hd, hf⟩ := hp.fits _ hx
    rw [hc] at hd
    cases hd
    exact hfit p hf
  refine ⟨?_, ?_, fun x hx => ?_, fun j d hd hs => ?_, fun j d hd hin => ?_⟩
  · simp [Sys.moved, hp.stream]
  · simp only [List.map_append, List.map_cons, List.map_nil, List.nodup_append, List.mem_singleton]
    refine ⟨hp.once, by simp, fun j hj k hk he => ?_⟩
    obtain ⟨x, hx, rfl⟩ := List.mem_map.mp hj
    exact hi x.2 (by rw [← hk, ← he]; exact hx)
  · rcases List.mem_append.mp hx with hx | hx
    · obtain ⟨d, hd, hf⟩ := hp.fits x hx
      refine ⟨d, ?_, hf⟩
      rw [moved_ne fun he => hi x.2 (by rw [he]; exact hx)]
      exact hd
    · rw [List.mem_singleton.mp hx]
      exact ⟨_, moved_self hc, hnew⟩
  · by_cases hj : i = j
    · subst hj
      rw [moved_self hc] at hd
      cases hd
      rw [show ({ c with pc := pc } : Call).pc.succeeded = pc.succeeded from rfl, hsucc] at hs
      cases hs
    · rw [moved_ne hj] at hd
      exact (hp.whole j d hd hs).imp fun _ h => List.mem_append_left _ h
  · by_cases hj : i = j
    · exact ⟨ps, [], by rw [hj]⟩
    · rw [moved_ne hj] at hd
      rw [hfree d (List.mem_of_getElem? hd)] at hin
      cases hin

structure Inv (s : Sys) : Prop where
  admitted : Admitted s
  pieces : ∃ ps, Pieces s ps

/-- The same calls and the same stream. -/
theorem Pieces.same (hp : Pieces s ps) (ht : s'.tty = s.tty) (hc : s'.calls = s.calls) : Pieces s' ps :=
  ⟨ht ▸ hp.stream, hp.once, fun x hx => hc ▸ hp.fits x hx, fun j d hd => hp.whole j d (hc ▸ hd),
    fun j d hd => hp.last j d (hc ▸ hd)⟩

/-- A server's `inputMu` is free only if nobody's is taken: who has one is one of the owner's. -/
theorem Admitted.free (hi : Admitted s) (hc : c ∈ s.calls) (ha : c.pc.admitted = true)
    (hfree : s.inputFree c.server = true) : ∀ d ∈ s.calls, d.pc.inputMu = false := by
  intro d hd
  by_contra hn
  have hin : d.pc.inputMu = true := by simpa using hn
  have hsame : d.server = c.server := (hi.owner d hd (Pc.admitted_of_inputMu hin)).1.trans (hi.owner c hc ha).1.symm
  have := List.all_eq_true.mp hfree d hd
  simp [hin, hsame] at this

theorem Inv.step {e : Ev} (hi : Inv s) (h : Step s e s') : Inv s' := by
  refine ⟨hi.admitted.step h, ?_⟩
  obtain ⟨ps, hp⟩ := hi.pieces
  cases h with
  | call server job =>
    refine ⟨ps, hp.stream, hp.once, fun x hx => ?_, fun j d hd hs => ?_, fun j d hd hin => ?_⟩
    · obtain ⟨d, hd, hf⟩ := hp.fits x hx
      refine ⟨d, ?_, hf⟩
      rw [List.getElem?_append_left (List.getElem?_eq_some_iff.mp hd).1]
      exact hd
    · rcases concat_getElem? hd with hd | rfl
      · exact hp.whole j d hd hs
      · cases hs
    · rcases concat_getElem? hd with hd | rfl
      · exact hp.last j d hd hin
      · cases hin
  | @run i e c out pc hc hm =>
    cases hin : c.pc.inputMu with
    | true => exact hp.inside hc hin hm
    | false =>
      obtain ⟨rfl, hfit, hsucc, hlock⟩ := hm.outside hin
      cases hin' : pc.inputMu with
      | false => exact ⟨ps, hp.outside hc hfit hsucc hin'⟩
      | true =>
        obtain ⟨⟨job, hcur, rfl⟩, hfree⟩ := hlock hin'
        have hmem := List.mem_of_getElem? hc
        refine ⟨_, hp.lock hc (hi.admitted.free hmem (by rw [hcur]; rfl) hfree) (fun p h => ?_) (fits_begin job) ?_⟩
        · rw [hcur] at h
          exact h
        · cases job <;> rfl
  | freeze k _ | unfreeze k | commit _ | publish _ => exact ⟨ps, hp.same rfl rfl⟩

theorem Inv.reach (h : machine.Reach Machine.always s) : Inv s := by
  refine h.invariant (fun s hs => ?_) fun s e s' hi _ hs => hi.step (step_cases hs)
  obtain rfl : s = init := hs
  refine ⟨⟨fun c hc => (by cases hc), fun c hc => (by cases hc)⟩, [], ?_⟩
  refine ⟨rfl, List.nodup_nil, fun x hx => (by cases hx), fun j d hd => ?_, fun j d hd => ?_⟩ <;> simp [init] at hd

/-- Inputs and resizes reach the terminal one after the other, through whatever servers and
    over whatever upgrades: the stream falls into pieces, at most one of each call and each a
    first part of what the call was to write, and a call that returns no error has all of it
    in one piece. -/
theorem input_is_contiguous (h : machine.Reach Machine.always s) : ∃ ps : List (Nat × List Out),
    s.tty = (ps.map Prod.snd).flatten ∧ (ps.map Prod.fst).Nodup ∧
      (∀ x ∈ ps, ∃ c, s.calls[x.1]? = some c ∧ x.2 <+: c.pc.job.out) ∧
      ∀ (i : Nat) (c : Call) (job : Job), s.calls[i]? = some c → c.pc = .done job none → job.out ≠ [] →
        (i, job.out) ∈ ps := by
  obtain ⟨ps, hp⟩ := (Inv.reach h).pieces
  refine ⟨ps, hp.stream, hp.once, fun x hx => ?_, fun i c job hc hd hne => ?_⟩
  · obtain ⟨c, hc, hf⟩ := hp.fits x hx
    exact ⟨c, hc, hf.prefixOf⟩
  · obtain ⟨p, hx⟩ := hp.whole i c hc (by simp [hd, Pc.succeeded, hne])
    obtain ⟨c', hc', hf⟩ := hp.fits _ hx
    rw [hc] at hc'
    cases hc'
    rw [hd] at hf
    rw [← hf.2 rfl]
    exact hx

/-- Two inputs in short writes and a resize, with an upgrade between them and an input through a
    handle of the first server that comes too late. -/
def upgradeRun : List Ev :=
  [.call 0 (.input [97, 98, 99]), .call 0 (.input [100]), .run 0 .go, .run 0 .go, .run 0 .go, .run 0 (.wrote 1),
    .run 1 .go, .run 1 .go, .run 0 (.wrote 2), .run 0 .go, .run 0 .go, .run 1 .go, .run 1 (.wrote 1), .run 1 .go,
    .run 1 .go, .freeze 0, .call 0 (.input [101]), .commit, .unfreeze 0, .run 2 .go, .run 2 .go, .run 2 .go, .publish,
    .call 1 (.resize ⟨80, 24⟩), .run 3 .go, .run 3 .go, .run 3 .go, .run 3 .go, .run 3 .go, .run 3 .go]

theorem input_is_contiguous_over_upgrade : ∃ s, machine.Reach Machine.always s ∧
    s.tty = [.byte 97, .byte 98, .byte 99, .byte 100, .size ⟨80, 24⟩] ∧
    s.calls.map Call.pc = [.done (.input [97, 98, 99]) none, .done (.input [100]) none,
      .done (.input [101]) (some errClosed), .done (.resize ⟨80, 24⟩) none] ∧
    ∃ ps : List (Nat × List Out), s.tty = (ps.map Prod.snd).flatten ∧ (ps.map Prod.fst).Nodup ∧
      (∀ x ∈ ps, ∃ c, s.calls[x.1]? = some c ∧ x.2 <+: c.pc.job.out) ∧
      ∀ (i : Nat) (c : Call) (job : Job), s.calls[i]? = some c → c.pc = .done job none → job.out ≠ [] →
        (i, job.out) ∈ ps := by
  obtain ⟨s, hr, hp⟩ := machine.exists_reach Machine.always rfl upgradeRun
    (P := fun s => s.tty = [.byte 97, .byte 98, .byte 99, .byte 100, .size ⟨80, 24⟩] ∧
      s.calls.map Call.pc = [.done (.input [97, 98, 99]) none, .done (.input [100]) none,
        .done (.input [101]) (some errClosed), .done (.resize ⟨80, 24⟩) none]) (by decide +kernel)
  exact ⟨s, hr, hp.1, hp.2, input_is_contiguous hr⟩

end Ghostline.Session.Input
