/-
  Ghostline.Rpc.Socket — the socket files of the servers on one path (server.go: `listenUnix`,
  `Serve`, `Close`, `requestExit`; rpc.go: `socketReady`).

  A socket file is a name for the socket of whoever bound it last: a server whose file is gone
  still listens, and nobody can reach it. Any number of processes call `Serve` with the same
  path, and each call it makes is a step of its own.

  - `net.Listen` is two steps, `bind`, which makes the file, and `listen`. Between them a dial
    is refused.
  - `Close` of a listener removes the file of that name, once and whosever it is, and then
    closes the descriptor (`unlinkOnce`).
  - The deferred calls of `Serve` come in the reverse order. They remove the files once more.
  - A process that dies leaves its files behind.
  - The dial of `socketReady` may fail although there is somebody who listens: the backlog is
    full, there is no descriptor left, or it takes more than 100 ms.
  - `Close` takes what it finds in the field of the server, where the listener for clients is
    before the one for admins has been asked for. The context and `requestExit` close both, once
    both are there.

  `listenUnix` is to bind the path without unlinking a live server's socket. It does so while
  no server starts or stops during another's start or stop, and a dial to one that listens gets
  through (`alone`): then a server that serves has both files, so that it is the only one and
  can be reached (`a_serving_server_is_reached`). In general it is not so, and the loss is for
  good (`a_lost_file_stays_lost`). It happens in an upgrade: the old server closes its listener,
  which is what the new one waits for, and comes to its deferred calls when that has already
  bound the path (`an_upgrade_loses_its_socket`).

  Failures of `Lstat` are not modelled, nor a `Close` after `Serve` has returned: the listeners
  are closed then, and closing one again removes no file.
-/

import Ghostline.Lib.Gate
import Ghostline.Lib.Machine

namespace Ghostline.Rpc.Socket

open Lib

/-! ## The servers -/

inductive Path where
  | client
  | admin
  deriving DecidableEq, Repr

inductive Act where
  /-- The two halves of a listener's `Close`. -/
  | unlink (a : Path)
  | shut (a : Path)
  /-- `removeQuietly` -/
  | remove (a : Path)
  deriving DecidableEq, Repr

def close (a : Path) : List Act := [.unlink a, .shut a]

/-- What `Serve` does next. -/
inductive Pc where
  | check (a : Path)
  | probe (a : Path)
  | clear (a : Path)
  | bind (a : Path)
  | listen (a : Path)
  | chmod (a : Path)
  /-- In `Accept`. -/
  | serving
  /-- With these calls still to be made before it returns. -/
  | leaving (acts : List Act)
  deriving DecidableEq, Repr

structure Server where
  pc : Pc := .check .client
  /-- What `requestExit`, or whoever else closes the listeners, has still to do. -/
  closer : List Act := []
  /-- The listener is in the field of the server. -/
  stored : Path → Bool := fun _ => false
  listens : Path → Bool := fun _ => false
  unlinked : Path → Bool := fun _ => false
  alive : Bool := true

structure Sys where
  /-- Who bound the socket that the file is for. -/
  file : Path → Option Nat := fun _ => none
  servers : List Server := []

/-- Somebody listens on the socket that the file is for. -/
def Sys.ready (s : Sys) (a : Path) : Bool :=
  match s.file a with
  | none => false
  | some i => s.servers[i]?.any fun v => v.alive && v.listens a

inductive Ev where
  /-- A process calls `Serve`. -/
  | start
  /-- The next call of `Serve`, and whether it succeeds. -/
  | main (i : Nat) (ok : Bool)
  /-- `Close`, or of both listeners `requestExit` or the end of the context. -/
  | stop (i : Nat) (both : Bool)
  | closing (i : Nat)
  | die (i : Nat)
  deriving DecidableEq, Repr

def Sys.put (s : Sys) (i : Nat) (v : Server) : Sys := { s with servers := s.servers.set i v }

def Sys.act (s : Sys) (i : Nat) (v : Server) : Act → Sys
  | .unlink a =>
    if v.unlinked a then s.put i v
    else { s with file := Function.update s.file a none }.put i { v with unlinked := Function.update v.unlinked a true }
  | .shut a => s.put i { v with listens := Function.update v.listens a false }
  | .remove a => { s with file := Function.update s.file a none }.put i v

/-- The deferred calls, when the listener on this path could not be had. -/
def deferred : Path → List Act
  | .client => []
  | .admin => [.remove .client] ++ close .client

/-- The same for a `Serve` that has both. -/
def deferredAll : List Act := [.remove .admin] ++ close .admin ++ deferred .admin

/-- What is closed from outside `Serve`. -/
def Server.closes (v : Server) (both : Bool) : List Act :=
  (if v.stored .client then close .client else []) ++ if both && v.stored .admin then close .admin else []

def Sys.main (s : Sys) (i : Nat) (v : Server) (ok : Bool) : Option Sys :=
  match v.pc with
  | .check a => some (s.put i { v with pc := if s.file a = none then .bind a else .probe a })
  | .probe a => some (s.put i { v with pc := if ok && s.ready a then .leaving (deferred a) else .clear a })
  | .clear a => some ({ s with file := Function.update s.file a none }.put i { v with pc := .bind a })
  | .bind a =>
    if ok && s.file a = none then
      some ({ s with file := Function.update s.file a (some i) }.put i { v with pc := .listen a })
    else some (s.put i { v with pc := .leaving (deferred a) })
  | .listen a =>
    if ok then some (s.put i { v with pc := .chmod a, listens := Function.update v.listens a true })
    else some (s.put i { v with pc := .leaving (deferred a) })
  | .chmod a =>
    if ok then
      some (s.put i { v with pc := if a = .client then .check .admin else .serving, stored := Function.update v.stored a true })
    else some (s.put i { v with pc := .leaving (close a ++ [.remove a] ++ deferred a) })
  | .serving =>
    -- `Accept` waits unless the listener is closed or there is an error
    if ok && v.listens .client then none else some (s.put i { v with pc := .leaving deferredAll })
  | .leaving [] => none
  | .leaving (act :: acts) => some (s.act i { v with pc := .leaving acts } act)

def Sys.step (s : Sys) : Ev → Option Sys
  | .start => some { s with servers := s.servers ++ [{}] }
  | .main i ok => (s.servers[i]?.filter (·.alive)).bind fun v => s.main i v ok
  | .stop i both =>
    (s.servers[i]?.filter (·.alive)).bind fun v =>
      if v.pc = .leaving [] then none
      else some (s.put i { v with closer := v.closer ++ v.closes both })
  | .closing i =>
    (s.servers[i]?.filter (·.alive)).bind fun v =>
      match v.closer with
      | [] => none
      | act :: acts => some (s.act i { v with closer := acts } act)
  | .die i => s.servers[i]?.map fun v => s.put i { v with alive := false }

def machine : Machine Sys Ev := ⟨fun s => s = {}, Sys.step⟩

/-! ## One at a time -/

/-- The server serves, and nobody has closed its listeners. -/
def Server.serves (v : Server) : Bool := v.alive && v.pc == .serving && v.closer == [] && v.listens .client

/-- It has nothing to do on the files. -/
def Server.rests (v : Server) : Bool := !v.alive || v.serves || v.pc == .leaving [] && v.closer == []

def Sys.alone (s : Sys) (i : Nat) : Bool := (List.range s.servers.length).all fun j => j == i || s.servers[j]?.all Server.rests

/-- A dial to a server that listens gets through. -/
def Sys.dials (s : Sys) (i : Nat) (ok : Bool) : Bool :=
  s.servers[i]?.all fun v =>
    match v.pc with
    | .probe a => ok || !s.ready a
    | _ => true

/-- No server starts or stops while another does, and dials get through. -/
def alone (s : Sys) : Ev → Bool
  | .start => s.servers.all Server.rests
  | .main i ok => s.alone i && s.dials i ok
  | .stop i _ | .closing i => s.alone i
  | .die _ => true

/-! ## What a server has -/

/-- The file for clients is this server's, or nobody's. -/
def Sys.Free (s : Sys) (i : Nat) : Prop := s.file .client = none ∨ s.file .client = some i

/-- Nobody can close a listener of this server. -/
def Server.Bare (v : Server) : Prop := v.closer = [] ∧ ∀ a, v.stored a = false

/-- The server has its listener for clients, and nobody has closed it. -/
def Has (s : Sys) (i : Nat) (v : Server) : Prop := v.closer = [] ∧ v.stored .client = true ∧ s.file .client = some i

/-- The listener for clients is closed, or will be. -/
def Gives (s : Sys) (i : Nat) (v : Server) : Prop := s.Free i ∧ (.shut .client ∈ v.closer ∨ v.listens .client = false)

def Owns (s : Sys) (i : Nat) (v : Server) : Prop :=
  match v.pc with
  | .check .client | .probe .client => v.Bare
  | .clear .client => v.Bare ∧ s.ready .client = false
  | .bind .client => v.Bare ∧ s.file .client = none
  | .listen .client | .chmod .client => v.Bare ∧ s.file .client = some i
  | .check .admin | .probe .admin | .clear .admin | .bind .admin => Has s i v ∨ Gives s i v
  | .listen .admin => Has s i v ∧ s.file .admin = some i ∨ Gives s i v
  | .chmod .admin | .serving => Has s i v ∧ s.file .admin = some i ∧ v.listens .admin = true ∨ Gives s i v
  | .leaving acts => acts = [] ∧ v.closer = [] ∨ s.Free i

structure Inv (s : Sys) : Prop where
  one : ∀ (i j : Nat) (v w : Server), s.servers[i]? = some v → s.servers[j]? = some w → v.rests = false → w.rests = false → i = j
  own : ∀ (i : Nat) (v : Server), s.servers[i]? = some v → v.alive = true → Owns s i v

/-- Another server than `i` serves. -/
def Sys.Other (s : Sys) (i : Nat) : Prop := ∃ j w, j ≠ i ∧ s.servers[j]? = some w ∧ w.serves = true

variable {s s' : Sys} {i j : Nat} {v w : Server}

theorem serves_iff : v.serves = true ↔ v.alive = true ∧ v.pc = .serving ∧ v.closer = [] ∧ v.listens .client = true := by
  simp [Server.serves, and_assoc]

theorem Owns.serves (h : Owns s i v) (hv : v.serves = true) :
    s.file .client = some i ∧ s.file .admin = some i ∧ v.listens .admin = true := by
  obtain ⟨-, hpc, hcloser, hlistens⟩ := serves_iff.mp hv
  simp only [Owns, hpc] at h
  rcases h with ⟨hhas, h⟩ | ⟨-, h | h⟩
  · exact ⟨hhas.2.2, h⟩
  · rw [hcloser] at h
    cases h
  · rw [hlistens] at h
    cases h

/-- Where a server is on its way, no other one serves. -/
theorem Inv.no_other (h : Inv s) (hfree : s.Free i) : ¬ s.Other i := by
  rintro ⟨j, w, hne, hj, hserves⟩
  have hfile := ((h.own j w hj (serves_iff.mp hserves).1).serves hserves).1
  rcases hfree with hf | hf
  · rw [hf] at hfile
    cases hfile
  · rw [hf] at hfile
    exact hne (Option.some.inj hfile).symm

theorem Inv.ready_of_other (h : Inv s) (ho : s.Other i) : s.ready .client = true := by
  obtain ⟨j, w, -, hj, hserves⟩ := ho
  obtain ⟨halive, -, -, hlistens⟩ := serves_iff.mp hserves
  have hfile := ((h.own j w hj halive).serves hserves).1
  simp [Sys.ready, hfile, hj, halive, hlistens]

/-- What a server at rest has depends on the files alone, and on these only if it serves. -/
theorem Owns.rests (h : Owns s i v) (halive : v.alive = true) (hrests : v.rests = true)
    (hfile : v.serves = true → s'.file = s.file) : Owns s' i v := by
  simp only [Server.rests, halive, Bool.not_true, Bool.false_or, Bool.or_eq_true, Bool.and_eq_true, beq_iff_eq] at hrests
  rcases hrests with hserves | ⟨hpc, hcloser⟩
  · have hpc := (serves_iff.mp hserves).2.1
    simp only [Owns, hpc, Has, Gives, Sys.Free, hfile hserves] at h ⊢
    exact h
  · simp only [Owns, hpc]
    exact .inl ⟨trivial, hcloser⟩

theorem alone_rests (h : s.alone i = true) (hne : j ≠ i) (hj : s.servers[j]? = some w) : w.rests = true := by
  simp only [Sys.alone, List.all_eq_true, List.mem_range, Bool.or_eq_true, beq_iff_eq] at h
  have hlt : j < s.servers.length := (List.getElem?_eq_some_iff.mp hj).1
  simpa [hne, hj] using h j hlt

/-- A step of server `i` while the others rest: it has what it has to have, and if another one
    serves the files are as before. -/
theorem Inv.move (h : Inv s) (hq : s.alone i = true) (file : Path → Option Nat) (v' : Server)
    (hfile : s.Other i → file = s.file) (hown : Owns ⟨file, s.servers.set i v'⟩ i v') :
    Inv ⟨file, s.servers.set i v'⟩ := by
  -- whoever does not rest is `i`
  have hself : ∀ j w, (s.servers.set i v')[j]? = some w → w.rests = false → j = i := by
    intro j w hj hw
    rcases Gate.set_getElem? hj with ⟨rfl, -⟩ | ⟨hne, hj⟩
    · rfl
    · rw [alone_rests hq (Ne.symm hne) hj] at hw
      cases hw
  refine ⟨fun j k v w hj hk hv hw => (hself j v hj hv).trans (hself k w hk hw).symm, fun j w hj halive => ?_⟩
  rcases Gate.set_getElem? hj with ⟨rfl, rfl⟩ | ⟨hne, hj⟩
  · exact hown
  · exact (h.own j w hj halive).rests halive (alone_rests hq (Ne.symm hne) hj) fun hserves =>
      hfile ⟨j, w, Ne.symm hne, hj, hserves⟩

theorem ready_set (v' : Server) (hi : s.servers[i]? = some v) (halive : v'.alive = v.alive)
    (hlistens : v'.listens = v.listens) (a : Path) : Sys.ready ⟨s.file, s.servers.set i v'⟩ a = s.ready a := by
  simp only [Sys.ready]
  cases s.file a with
  | none => rfl
  | some j =>
    by_cases he : i = j
    · subst he
      dsimp only
      rw [hi, List.getElem?_set_self (List.getElem?_eq_some_iff.mp hi).1]
      simp only [Option.any_some, halive, hlistens]
    · simp [List.getElem?_set_ne he]

/-- One of the calls that take a listener down, by a server that has the files to itself. -/
theorem Inv.act (h : Inv s) (hq : s.alone i = true) (hf : s.Free i) {v' : Server} (act : Act)
    (hown : ∀ (t : Sys) (v'' : Server), t.Free i → v''.pc = v'.pc → v''.closer = v'.closer →
      (v''.listens .client = v'.listens .client ∧ act ≠ .shut .client ∨ v''.listens .client = false) → Owns t i v'') :
    Inv (s.act i v' act) := by
  have hfree : ∀ (file : Path → Option Nat) (v'' : Server), Owns ⟨file, s.servers.set i v''⟩ i v'' →
      Inv ⟨file, s.servers.set i v''⟩ := fun file v'' ho =>
    h.move hq file v'' (fun hother => absurd hother (h.no_other hf)) ho
  have hupdate : ∀ (a : Path) (servers : List Server), Sys.Free ⟨Function.update s.file a none, servers⟩ i := by
    intro a servers
    cases a with
    | client => exact .inl (by simp)
    | admin => simpa [Sys.Free] using hf
  cases act with
  | unlink a =>
    simp only [Sys.act]
    split
    · exact hfree _ _ (hown _ _ hf rfl rfl (.inl ⟨rfl, by simp⟩))
    · exact hfree _ _ (hown _ _ (hupdate a _) rfl rfl (.inl ⟨rfl, by simp⟩))
  | shut a =>
    refine hfree _ _ (hown _ _ hf rfl rfl ?_)
    cases a with
    | client => exact .inr (by simp)
    | admin => exact .inl ⟨by simp, by simp⟩
  | remove a => exact hfree _ _ (hown _ _ (hupdate a _) rfl rfl (.inl ⟨rfl, by simp⟩))

theorem free_of_has_or_gives (h : Has s i v ∨ Gives s i v) : s.Free i := by
  rcases h with h | h
  · exact .inr h.2.2
  · exact h.1

/-- The file for admins is not looked at. -/
theorem has_or_gives_congr {s' : Sys} (h : Has s i v ∨ Gives s i v) (hfile : s'.file .client = s.file .client) :
    Has s' i v ∨ Gives s' i v := by
  simp only [Has, Gives, Sys.Free, hfile] at h ⊢
  exact h

/-- A server that cannot have the listener on this path has nothing to take down, or may do it. -/
theorem Owns.withdraws {a : Path} (h : Owns s i v) (hpc : v.pc = .probe a ∨ v.pc = .bind a ∨ v.pc = .listen a) :
    deferred a = [] ∧ v.closer = [] ∨ s.Free i := by
  cases a with
  | client =>
    refine .inl ⟨rfl, ?_⟩
    rcases hpc with hpc | hpc | hpc <;> simp only [Owns, hpc] at h
    exacts [h.1, h.1.1, h.1.1]
  | admin =>
    right
    rcases hpc with hpc | hpc | hpc <;> simp only [Owns, hpc] at h
    exacts [free_of_has_or_gives h, free_of_has_or_gives h, free_of_has_or_gives (h.imp_left And.left)]

/-- A probe that gets no answer has found that there is nobody: the dial would have got through. -/
theorem Owns.unanswered {a : Path} {ok : Bool} (h : Owns s i v) (hdials : s.dials i ok = true)
    (hi : s.servers[i]? = some v) (hpc : v.pc = .probe a) (hn : ¬ (ok && s.ready a) = true) :
    Owns (s.put i { v with pc := .clear a }) i { v with pc := .clear a } := by
  cases a <;> simp only [Owns, hpc] at h
  · have hready : s.ready .client = false := by
      simp only [Sys.dials, hi, hpc, Option.all_some, Bool.or_eq_true, Bool.not_eq_true'] at hdials
      exact hdials.elim (fun hok => by simpa [hok] using hn) id
    exact And.intro h ((ready_set { v with pc := .clear .client } hi rfl rfl .client).trans hready)
  · exact h

/-- One of the calls of `Serve`. -/
theorem Inv.main {ok : Bool} (h : Inv s) (hq : s.alone i = true) (hdials : s.dials i ok = true)
    (hi : s.servers[i]? = some v) (halive : v.alive = true) (hstep : s.main i v ok = some s') : Inv s' := by
  have hown := h.own i v hi halive
  have hsame : ∀ v', Owns ⟨s.file, s.servers.set i v'⟩ i v' → Inv (s.put i v') := fun v' ho =>
    h.move hq s.file v' (fun _ => rfl) ho
  have hfree : ∀ file v', s.Free i → Owns ⟨file, s.servers.set i v'⟩ i v' → Inv ⟨file, s.servers.set i v'⟩ :=
    fun file v' hf ho => h.move hq file v' (fun hother => absurd hother (h.no_other hf)) ho
  have hadmin : ∀ owner, Function.update s.file .admin owner .client = s.file .client := fun owner => by simp
  revert hstep
  fun_cases Sys.main s i v ok <;> intro hstep <;> cases hstep
  case case1.refl a hpc =>
    split <;> cases a <;> simp only [Owns, hpc] at hown
    · exact hsame _ (And.intro hown ‹_›)
    all_goals exact hsame _ hown
  case case2.refl a hpc =>
    split
    · exact hsame _ (hown.withdraws (.inl hpc))
    · exact hsame _ (hown.unanswered hdials hi hpc ‹_›)
  case case3.refl a hpc =>
    cases a <;> simp only [Owns, hpc] at hown
    · refine h.move hq _ _ (fun hother => ?_) (And.intro hown.1 (by simp))
      rw [h.ready_of_other hother] at hown
      cases hown.2
    · exact hfree _ _ (free_of_has_or_gives hown) (has_or_gives_congr hown (hadmin none))
  case case4.refl a hpc _ =>
    cases a <;> simp only [Owns, hpc] at hown
    · exact hfree _ _ (.inl hown.2) (And.intro hown.1 (by simp))
    · refine hfree _ _ (free_of_has_or_gives hown) ?_
      exact (has_or_gives_congr hown (hadmin (some i))).imp_left fun hhas => And.intro hhas (by simp)
  case case5.refl hpc _ => exact hsame _ (hown.withdraws (.inr (.inl hpc)))
  case case6.refl a hpc _ =>
    cases a <;> simp only [Owns, hpc] at hown
    · exact hsame _ hown
    · refine hsame _ (Or.imp (fun hhas => And.intro hhas.1 (And.intro hhas.2 (by simp))) (fun hgives => ?_) hown)
      exact And.intro hgives.1 (by simpa using hgives.2)
  case case7.refl hpc _ => exact hsame _ (hown.withdraws (.inr (.inr hpc)))
  case case8.refl a hpc _ =>
    cases a <;> simp only [Owns, hpc] at hown
    · exact hsame _ (Or.inl ⟨hown.1.1, by simp, hown.2⟩)
    · refine hsame _ (Or.imp_left (fun hhas => And.intro ?_ hhas.2) hown)
      exact ⟨hhas.1.1, by simpa using hhas.1.2.1, hhas.1.2.2⟩
  case case9.refl a hpc _ =>
    cases a <;> simp only [Owns, hpc] at hown
    · exact hsame _ (Or.inr (.inr hown.2))
    · exact hsame _ (Or.inr (free_of_has_or_gives (hown.imp_left And.left)))
  case case11.refl hpc _ =>
    simp only [Owns, hpc] at hown
    exact hsame _ (Or.inr (free_of_has_or_gives (hown.imp_left And.left)))
  case case13.refl act acts hpc =>
    simp only [Owns, hpc, reduceCtorEq, false_and, false_or] at hown
    refine h.act hq hown act fun t v'' hf hpc'' _ _ => ?_
    simp only [Owns, hpc'']
    exact .inr hf

/-- What a server has depends on the files, and before it removes one on nobody's listening. -/
theorem Owns.of_files (h : Owns s j w) (hfile : s'.file = s.file)
    (hready : s.ready .client = false → s'.ready .client = false) : Owns s' j w := by
  have hhas : Has s' j w ↔ Has s j w := by simp only [Has, hfile]
  have hgives : Gives s' j w ↔ Gives s j w := by simp only [Gives, Sys.Free, hfile]
  cases hpc : w.pc with
  | clear a =>
    cases a with
    | client =>
      simp only [Owns, hpc] at h ⊢
      exact ⟨h.1, hready h.2⟩
    | admin => simpa only [Owns, hpc, hhas, hgives] using h
  | check a | probe a => cases a <;> simpa only [Owns, hpc, hhas, hgives] using h
  | bind a | listen a | chmod a => cases a <;> simpa only [Owns, hpc, hhas, hgives, hfile] using h
  | serving => simpa only [Owns, hpc, hhas, hgives, hfile] using h
  | leaving acts => simpa only [Owns, hpc, Sys.Free, hfile] using h

theorem Owns.dies (h : Owns s j w) (hi : s.servers[i]? = some v) : Owns (s.put i { v with alive := false }) j w := by
  refine h.of_files rfl ?_
  simp only [Sys.ready, Sys.put]
  cases s.file .client with
  | none => exact id
  | some k =>
    by_cases he : i = k
    · subst he
      intro _
      dsimp only
      rw [List.getElem?_set_self (List.getElem?_eq_some_iff.mp hi).1]
      rfl
    · dsimp only
      rw [List.getElem?_set_ne he]
      exact id

theorem Inv.start (h : Inv s) (hall : ∀ w ∈ s.servers, w.rests = true) :
    Inv ⟨s.file, s.servers ++ [({} : Server)]⟩ := by
  have hnew : ∀ {j : Nat} {w : Server}, (s.servers ++ [({} : Server)])[j]? = some w →
      (s.servers[j]? = some w ∧ w.rests = true) ∨ j = s.servers.length ∧ w = {} := by
    intro j w hj
    by_cases hlt : j < s.servers.length
    · rw [List.getElem?_append_left hlt] at hj
      exact .inl ⟨hj, hall w (List.mem_of_getElem? hj)⟩
    · rw [List.getElem?_append_right (by omega)] at hj
      obtain ⟨h0, hw⟩ := List.getElem?_eq_some_iff.mp hj
      simp only [List.length_singleton] at h0
      refine .inr ⟨by omega, ?_⟩
      simpa using hw.symm
  refine ⟨fun j k v w hj hk hv hw => ?_, fun j w hj halive => ?_⟩
  · rcases hnew hj with ⟨-, hrests⟩ | ⟨hj, -⟩
    · rw [hrests] at hv
      cases hv
    · rcases hnew hk with ⟨-, hrests⟩ | ⟨hk, -⟩
      · rw [hrests] at hw
        cases hw
      · exact hj.trans hk.symm
  · rcases hnew hj with ⟨hj, hrests⟩ | ⟨-, rfl⟩
    · exact (h.own j w hj halive).rests halive hrests fun _ => rfl
    · exact And.intro rfl fun _ => rfl

/-- Before the listener for clients is stored, from then on, and when `Serve` returns. -/
theorem Owns.phase (h : Owns s i v) :
    v.Bare ∨ ((Has s i v ∨ Gives s i v) ∧ ∀ t w, w.pc = v.pc → Gives t i w → Owns t i w) ∨
      ∃ acts, v.pc = .leaving acts ∧ (acts = [] ∧ v.closer = [] ∨ s.Free i) := by
  unfold Owns at h
  cases hpc : v.pc with
  | check a | probe a =>
    rw [hpc] at h
    cases a with
    | client => exact .inl h
    | admin => exact .inr (.inl ⟨h, fun t w hw hg => by simp only [Owns, hw]; exact .inr hg⟩)
  | clear a | bind a =>
    rw [hpc] at h
    cases a with
    | client => exact .inl h.1
    | admin => exact .inr (.inl ⟨h, fun t w hw hg => by simp only [Owns, hw]; exact .inr hg⟩)
  | listen a | chmod a =>
    rw [hpc] at h
    cases a with
    | client => exact .inl h.1
    | admin => exact .inr (.inl ⟨h.imp_left And.left, fun t w hw hg => by simp only [Owns, hw]; exact .inr hg⟩)
  | serving =>
    rw [hpc] at h
    exact .inr (.inl ⟨h.imp_left And.left, fun t w hw hg => by simp only [Owns, hw]; exact .inr hg⟩)
  | leaving acts =>
    rw [hpc] at h
    exact .inr (.inr ⟨acts, rfl, h⟩)

/-- Somebody closes the listeners there are. -/
theorem Owns.stopped (h : Owns s i v) (both : Bool) (hpc : v.pc ≠ .leaving []) :
    Owns s i { v with closer := v.closer ++ v.closes both } := by
  rcases h.phase with hbare | ⟨hhas, hall⟩ | ⟨acts, hacts, hrest⟩
  · have hnone : v.closer ++ v.closes both = v.closer := by simp [Server.closes, hbare.2]
    rw [hnone]
    exact h
  · refine hall s _ rfl ?_
    rcases hhas with hhas | hgives
    · exact ⟨.inr hhas.2.2, .inl (by simp [Server.closes, hhas.2.1, close])⟩
    · exact ⟨hgives.1, hgives.2.imp_left fun hmem => List.mem_append_left _ hmem⟩
  · simp only [Owns, hacts]
    rcases hrest with ⟨rfl, -⟩ | hf
    · exact absurd hacts hpc
    · exact .inr hf

theorem Inv.closing {act : Act} {acts : List Act} (h : Inv s) (hq : s.alone i = true) (hown : Owns s i v)
    (hcloser : v.closer = act :: acts) : Inv (s.act i { v with closer := acts } act) := by
  have hne : v.closer ≠ [] := by simp [hcloser]
  rcases hown.phase with hbare | ⟨hhas | ⟨hf, hshut⟩, hall⟩ | ⟨rest, hpc, ⟨-, hnone⟩ | hf⟩
  · exact absurd hbare.1 hne
  · exact absurd hhas.1 hne
  · refine h.act hq hf act fun t v'' hft hpc'' hcloser'' hlistens => hall t v'' hpc'' ⟨hft, ?_⟩
    rcases hlistens with ⟨hsame, hother⟩ | hfalse
    · rcases hshut with hshut | hshut
      · rw [hcloser, List.mem_cons] at hshut
        exact .inl (by rw [hcloser'']; exact hshut.resolve_left (Ne.symm hother))
      · exact .inr (hsame.trans hshut)
    · exact .inr hfalse
  · exact absurd hnone hne
  · refine h.act hq hf act fun t v'' hft hpc'' _ _ => ?_
    simp only [Owns, hpc'', hpc]
    exact .inr hft

theorem Inv.dies (h : Inv s) (hi : s.servers[i]? = some v) : Inv (s.put i { v with alive := false }) := by
  refine ⟨fun j k v w hj hk hv hw => ?_, fun j w hj halive => ?_⟩
  · rcases Gate.set_getElem? hj with ⟨rfl, rfl⟩ | ⟨-, hj⟩
    · cases hv
    · rcases Gate.set_getElem? hk with ⟨rfl, rfl⟩ | ⟨-, hk⟩
      · cases hw
      · exact h.one j k v w hj hk hv hw
  · rcases Gate.set_getElem? hj with ⟨rfl, rfl⟩ | ⟨-, hj⟩
    · cases halive
    · exact (h.own j w hj halive).dies hi

theorem Inv.step (h : Inv s) {e : Ev} (hok : alone s e = true) (hstep : s.step e = some s') : Inv s' := by
  cases e with
  | start =>
    obtain rfl := Option.some.inj hstep
    exact h.start (by simpa [alone] using hok)
  | main i ok =>
    simp only [Sys.step, Option.bind_eq_some_iff, Option.filter_eq_some_iff] at hstep
    obtain ⟨v, ⟨hi, halive⟩, hstep⟩ := hstep
    obtain ⟨hq, hdials⟩ := (Bool.and_eq_true _ _).mp hok
    exact h.main hq hdials hi halive hstep
  | stop i both =>
    simp only [Sys.step, Option.bind_eq_some_iff, Option.filter_eq_some_iff] at hstep
    obtain ⟨v, ⟨hi, halive⟩, hstep⟩ := hstep
    have hown := h.own i v hi halive
    by_cases hpc : v.pc = .leaving []
    · rw [if_pos hpc] at hstep
      cases hstep
    · rw [if_neg hpc] at hstep
      obtain rfl := Option.some.inj hstep
      refine h.move hok s.file _ (fun _ => rfl) ((hown.stopped both hpc).of_files rfl fun hready => ?_)
      exact (ready_set { v with closer := v.closer ++ v.closes both } hi rfl rfl .client).trans hready
  | closing i =>
    simp only [Sys.step, Option.bind_eq_some_iff, Option.filter_eq_some_iff] at hstep
    obtain ⟨v, ⟨hi, halive⟩, hstep⟩ := hstep
    cases hcloser : v.closer with
    | nil => simp [hcloser] at hstep
    | cons act acts =>
      simp only [hcloser, Option.some.injEq] at hstep
      subst hstep
      exact h.closing hok (h.own i v hi halive) hcloser
  | die i =>
    simp only [Sys.step, Option.map_eq_some_iff] at hstep
    obtain ⟨v, hi, rfl⟩ := hstep
    exact h.dies hi

/-- As long as no server starts or stops while another does, and a dial to one that listens gets
    through: a server that serves has both files.
    So a dial to either path gets to it, and it is the only one that serves. -/
theorem a_serving_server_is_reached (h : machine.Reach alone s) (hi : s.servers[i]? = some v) (hserves : v.serves = true) :
    (∀ a, s.file a = some i ∧ s.ready a = true) ∧
      ∀ j w, s.servers[j]? = some w → w.serves = true → j = i := by
  have hinv : Inv s := by
    refine h.invariant ?_ fun s e s' hs hok he => hs.step hok he
    rintro s rfl
    exact ⟨fun i j v w hi => by simp at hi, fun i v hi => by simp at hi⟩
  have hfiles : ∀ {j w}, s.servers[j]? = some w → w.serves = true →
      s.file .client = some j ∧ s.file .admin = some j ∧ w.listens .admin = true := fun {j w} hj hw =>
    (hinv.own j w hj (serves_iff.mp hw).1).serves hw
  obtain ⟨hclient, hadmin, hlistens⟩ := hfiles hi hserves
  obtain ⟨halive, -, -, hlistens'⟩ := serves_iff.mp hserves
  refine ⟨fun a => ?_, fun j w hj hw => ?_⟩
  · cases a with
    | client => exact ⟨hclient, by simp [Sys.ready, hclient, hi, halive, hlistens']⟩
    | admin => exact ⟨hadmin, by simp [Sys.ready, hadmin, hi, halive, hlistens]⟩
  · have := (hfiles hj hw).1
    rw [hclient] at this
    exact (Option.some.inj this).symm

/-- A server dies, and the next one comes up over the files that it has left. -/
theorem a_serving_server_is_reached_after_a_crash : ∃ s, machine.Reach alone s ∧ s.ready .client = true ∧ s.file .client = some 1 := by
  obtain ⟨s, hreach, hserves⟩ := machine.exists_reach alone rfl
    ([.start] ++ List.replicate 8 (.main 0 true) ++ [.die 0, .start] ++ List.replicate 12 (.main 1 true))
    (P := fun s => s.servers[1]?.any Server.serves = true) (by decide)
  obtain ⟨v, hv, hserves⟩ := (Option.any_eq_true _ _).mp hserves
  obtain ⟨hfile, hready⟩ := (a_serving_server_is_reached hreach hv hserves).1 .client
  exact ⟨s, hreach, hready, hfile⟩

/-! ## Losing the file -/

/-- The server has made its file for this path, or will not make it any more. -/
def Server.bound (a : Path) (v : Server) : Bool :=
  match v.pc, a with
  | .check .client, _ | .probe .client, _ | .clear .client, _ | .bind .client, _ => false
  | .listen .client, .client | .chmod .client, .client => true
  | .listen .client, .admin | .chmod .client, .admin => false
  | .check .admin, .client | .probe .admin, .client | .clear .admin, .client | .bind .admin, .client => true
  | .check .admin, .admin | .probe .admin, .admin | .clear .admin, .admin | .bind .admin, .admin => false
  | .listen .admin, _ | .chmod .admin, _ | .serving, _ | .leaving _, _ => true

/-- The file for this path is not the one of server `i`, which has been there. -/
def Lost (i : Nat) (a : Path) (s : Sys) : Prop :=
  s.file a ≠ some i ∧ ∃ v, s.servers[i]? = some v ∧ v.bound a = true

/-- What a step of server `j` does to the file for this path: nothing, it removes it, or it makes
    it, which it does once. -/
structure Touches (a : Path) (s : Sys) (j : Nat) (v : Server) (s' : Sys) : Prop where
  server : ∃ v', s'.servers = s.servers.set j v' ∧ (v.bound a = true → v'.bound a = true)
  file : s'.file a = s.file a ∨ s'.file a = none ∨ s'.file a = some j ∧ v.bound a = false

theorem update_none (file : Path → Option Nat) (a b : Path) :
    Function.update file b none a = file a ∨ Function.update file b none a = none := by
  by_cases h : a = b
  · exact .inr (by simp [h])
  · exact .inl (by simp [h])

theorem touches_act {a : Path} {v' : Server} (act : Act) (h : v.bound a = true → v'.bound a = true) :
    Touches a s i v (s.act i v' act) := by
  cases act with
  | unlink b =>
    simp only [Sys.act]
    split
    · exact ⟨⟨_, rfl, h⟩, .inl rfl⟩
    · exact ⟨⟨_, rfl, h⟩, (update_none s.file a b).imp_right .inl⟩
  | shut b => exact ⟨⟨_, rfl, h⟩, .inl rfl⟩
  | remove b => exact ⟨⟨_, rfl, h⟩, (update_none s.file a b).imp_right .inl⟩

theorem touches_main {a : Path} {ok : Bool} (hstep : s.main i v ok = some s') : Touches a s i v s' := by
  have hput : ∀ v', (v.bound a = true → v'.bound a = true) → Touches a s i v (s.put i v') := fun v' h =>
    ⟨⟨v', rfl, h⟩, .inl rfl⟩
  revert hstep
  fun_cases Sys.main s i v ok <;> intro hstep <;> cases hstep
  case case1 b hpc =>
    apply hput
    by_cases hn : s.file b = none <;> cases b <;> cases a <;> simp [Server.bound, hpc, hn]
  case case2 b hpc =>
    apply hput
    by_cases hn : (ok && s.ready b) = true <;> cases b <;> cases a <;> simp [Server.bound, hpc, hn]
  case case3 b hpc =>
    refine ⟨⟨_, rfl, ?_⟩, (update_none s.file a b).imp_right .inl⟩
    cases b <;> cases a <;> simp [Server.bound, hpc]
  case case4 b hpc _ =>
    refine ⟨⟨_, rfl, ?_⟩, ?_⟩
    · cases b <;> cases a <;> simp [Server.bound, hpc]
    · by_cases hab : a = b
      · subst hab
        refine .inr (.inr ⟨by simp [Sys.put], ?_⟩)
        cases a <;> simp [Server.bound, hpc]
      · exact .inl (by simp [Sys.put, hab])
  case case6 b hpc _ | case8 b hpc _ =>
    apply hput
    cases b <;> cases a <;> simp [Server.bound, hpc]
  case case13 act acts hpc => exact touches_act act fun _ => by simp [Server.bound]
  all_goals
    apply hput
    simp [Server.bound]

theorem Lost.touched {a : Path} (h : Lost i a s) (hj : s.servers[j]? = some w) (ht : Touches a s j w s') : Lost i a s' := by
  obtain ⟨hne, v, hi, hbound⟩ := h
  obtain ⟨v', hservers, hv'⟩ := ht.server
  by_cases he : j = i
  · subst he
    obtain rfl : v = w := by rw [hi] at hj; exact Option.some.inj hj
    refine ⟨?_, v', ?_, hv' hbound⟩
    · rcases ht.file with hf | hf | ⟨-, hf⟩
      · rw [hf]
        exact hne
      · rw [hf]
        simp
      · rw [hbound] at hf
        cases hf
    · rw [hservers, List.getElem?_set_self (List.getElem?_eq_some_iff.mp hi).1]
  · refine ⟨?_, v, ?_, hbound⟩
    · rcases ht.file with hf | hf | ⟨hf, -⟩
      · rw [hf]
        exact hne
      · rw [hf]
        simp
      · rw [hf]
        simpa using he
    · rw [hservers, List.getElem?_set_ne he]
      exact hi

theorem Lost.step {a : Path} (h : Lost i a s) {e : Ev} (hstep : s.step e = some s') : Lost i a s' := by
  cases e with
  | start =>
    obtain rfl := Option.some.inj hstep
    obtain ⟨hne, v, hi, hbound⟩ := h
    exact ⟨hne, v, (List.getElem?_append_left (List.getElem?_eq_some_iff.mp hi).1).trans hi, hbound⟩
  | main j ok =>
    simp only [Sys.step, Option.bind_eq_some_iff, Option.filter_eq_some_iff] at hstep
    obtain ⟨w, ⟨hj, -⟩, hstep⟩ := hstep
    exact h.touched hj (touches_main hstep)
  | stop j both =>
    simp only [Sys.step, Option.bind_eq_some_iff, Option.filter_eq_some_iff] at hstep
    obtain ⟨w, ⟨hj, -⟩, hstep⟩ := hstep
    split at hstep
    · cases hstep
    · obtain rfl := Option.some.inj hstep
      exact h.touched hj ⟨⟨_, rfl, id⟩, .inl rfl⟩
  | closing j =>
    simp only [Sys.step, Option.bind_eq_some_iff, Option.filter_eq_some_iff] at hstep
    obtain ⟨w, ⟨hj, -⟩, hstep⟩ := hstep
    split at hstep
    · cases hstep
    · obtain rfl := Option.some.inj hstep
      exact h.touched hj (touches_act _ id)
  | die j =>
    simp only [Sys.step, Option.map_eq_some_iff] at hstep
    obtain ⟨w, hj, rfl⟩ := hstep
    exact h.touched hj ⟨⟨_, rfl, id⟩, .inl rfl⟩

/-- A server that serves and does not have its file: in whatever happens from there on it does
    not get it back, so that nobody reaches it any more. -/
theorem a_lost_file_stays_lost (a : Path) (hi : s.servers[i]? = some v) (hserves : v.serves = true)
    (hfile : s.file a ≠ some i) (es : List Ev) (hrun : machine.run Machine.always s es = some s') : s'.file a ≠ some i := by
  have hlost : Lost i a s := ⟨hfile, v, hi, by simp [Server.bound, (serves_iff.mp hserves).2.1]⟩
  exact (machine.run_stable (fun t e t' ht _ he => Lost.step ht he) hlost hrun).1

/-- The calls of a `Serve` that succeeds, when there is no file yet. -/
def comesUp (i : Nat) : List Ev := List.replicate 8 (.main i true)

/-- A server comes up, is told to exit and closes its listener; the next one, which has waited
    for that, comes up; and the first one makes its deferred calls. -/
def upgrade : List Ev :=
  [.start] ++ comesUp 0 ++ [.stop 0 true] ++ List.replicate 4 (.closing 0) ++ [.start] ++ comesUp 1 ++
    List.replicate 5 (.main 0 true)

/-- The new server serves, its files are gone, and nobody ever reaches it. -/
theorem an_upgrade_loses_its_socket : ∃ s v, machine.Reach Machine.always s ∧ s.servers[1]? = some v ∧ v.serves = true ∧
    ∀ a es s', machine.run Machine.always s es = some s' → s'.file a ≠ some 1 := by
  obtain ⟨s, hreach, hserves, hclient, hadmin⟩ := machine.exists_reach Machine.always rfl upgrade
    (P := fun s => s.servers[1]?.any Server.serves = true ∧ s.file .client ≠ some 1 ∧ s.file .admin ≠ some 1) (by decide)
  obtain ⟨v, hv, hserves⟩ := (Option.any_eq_true _ _).mp hserves
  refine ⟨s, v, hreach, hv, hserves, fun a es s' hrun => ?_⟩
  refine a_lost_file_stays_lost a hv hserves ?_ es hrun
  cases a with
  | client => exact hclient
  | admin => exact hadmin

end Ghostline.Rpc.Socket
