/-
  Ghostline.Rpc.Managed — a client that starts its server (client.go: `ConnectManaged`, `Ensure`,
  `spawnAndWait`, `waitReady`, `readyAfterExit`, `Close`).

  The client starts a server when nobody answers on the socket and stops the one it has started
  when it is closed. Others may start servers on the same socket at the same time. `lifecycle.mu`
  is held from the beginning of a call to its end, so there is at most one call; everything else
  may happen between any two of its steps.

  - A child's exit comes through a channel, from which it can be taken once.
  - Who answers on the socket is up to the environment (`Answer`), but a child that has ended does
    not.

  A call that waits for the end of a child waits for a result that nobody has taken, and ends
  once the child has (`a_wait_ends_with_its_child`). And as long as a child that runs answers when
  the client looks, every child that runs is the one that `Close` stops
  (`children_are_stopped`). A child that runs and does not answer is another matter, for instance
  one whose socket file is gone (`Rpc.Socket`): the client starts the next one in its place and
  forgets it for good (`a_silent_server_is_left_behind`).
-/

import Ghostline.Lib.Gate
import Ghostline.Lib.Machine

namespace Ghostline.Rpc.Managed

open Lib

/-! ## The client -/

/-- The channel with a child's exit. -/
inductive Chan where
  | pending
  | full
  | taken
  deriving DecidableEq, Repr

structure Child where
  alive : Bool := true
  wait : Chan := .pending
  deriving DecidableEq, Repr

inductive Answer where
  | nobody
  | child (i : Nat)
  | other
  deriving DecidableEq, Repr

/-- What the call that has the lock does next; `i` is the child it is about. -/
inductive Pc where
  | idle
  /-- `spawnAndWait`: the first look at the socket, and the start. -/
  | look
  | start
  /-- `waitReady`: the first `select`, the look at the socket, the second `select`. -/
  | poll (i : Nat)
  | ask (i : Nat)
  | await (i : Nat)
  /-- The child did not get ready. -/
  | kill (i : Nat)
  | reap (i : Nat)
  /-- `Close` has sent SIGTERM. -/
  | stop (i : Nat)
  deriving DecidableEq, Repr

structure Sys where
  children : List Child := []
  answer : Answer := .nobody
  /-- `lifecycle.cmd`, with `lifecycle.wait`. -/
  cmd : Option Nat := none
  pc : Pc := .idle

/-- `socketReady` -/
def Sys.ready (s : Sys) : Bool :=
  match s.answer with
  | .nobody => false
  | .other => true
  | .child i => s.children[i]?.any Child.alive

/-- How the second `select` of `waitReady` comes out. -/
inductive Choice where
  | tick
  /-- The context or the timer. -/
  | timeout
  | exited
  deriving DecidableEq, Repr

inductive Ev where
  | spawn
  /-- `Close`; `ok` unless the signal fails with an error other than `os.ErrProcessDone`. -/
  | close (ok : Bool)
  /-- The next step of the call: whether `command.Start` succeeds, and what a `select` chooses. -/
  | next (ok : Bool) (choice : Choice)
  /-- A child ends, and its exit is put into the channel. -/
  | ends (i : Nat)
  | report (i : Nat)
  | answers (a : Answer)
  deriving DecidableEq, Repr

def Sys.child (s : Sys) (i : Nat) (c : Child) : Sys := { s with children := s.children.set i c }

/-- The result of child `i` is received, and the call returns with no child. -/
def Sys.receive (s : Sys) (i : Nat) : Option Sys :=
  match s.children[i]? with
  | some ⟨alive, .full⟩ => some { s.child i ⟨alive, .taken⟩ with cmd := none, pc := .idle }
  | _ => none

def Sys.next (s : Sys) (ok : Bool) (choice : Choice) : Option Sys :=
  match s.pc with
  | .idle => none
  | .look => some { s with pc := if s.ready then .idle else .start }
  | .start =>
    if ok then
      some { s with children := s.children ++ [{}], cmd := some s.children.length, pc := .poll s.children.length }
    else some { s with pc := .idle }
  | .poll i =>
    -- `readyAfterExit` may return an error or not; the client has no child either way
    match s.receive i with
    | some t => some t
    | none => some { s with pc := .ask i }
  | .ask i => some { s with pc := if s.ready then .idle else .await i }
  | .await i =>
    match choice with
    | .tick => some { s with pc := .poll i }
    | .timeout => some { s with pc := .kill i }
    | .exited => s.receive i
  | .kill i => s.children[i]?.map fun c => { s.child i { c with alive := false } with pc := .reap i }
  | .reap i => s.receive i
  | .stop i => s.receive i

def Sys.step (s : Sys) : Ev → Option Sys
  | .spawn => if s.pc = .idle then some { s with pc := .look } else none
  | .close ok =>
    if s.pc = .idle then
      match s.cmd with
      | none => some s
      | some i => if ok then some { s with pc := .stop i } else some s
    else none
  | .next ok choice => s.next ok choice
  | .ends i => s.children[i]?.map fun c => s.child i { c with alive := false }
  | .report i =>
    match s.children[i]? with
    | some ⟨false, .pending⟩ => some (s.child i ⟨false, .full⟩)
    | _ => none
  | .answers a => some { s with answer := a }

def machine : Machine Sys Ev := ⟨fun s => s = {}, Sys.step⟩

/-! ## What a step does -/

/-- The child that the call is about. -/
def Pc.about : Pc → Option Nat
  | .idle | .look | .start => none
  | .poll i | .ask i | .await i | .kill i | .reap i | .stop i => some i

inductive Does (e : Ev) (s : Sys) : Sys → Prop
  /-- The call goes on, or the answer on the socket changes. -/
  | turns (a : Answer) (pc : Pc) (about : ∀ i, pc.about = some i → s.pc.about = some i ∨ s.cmd = some i)
      (start : pc = .start → s.pc = .start ∨ s.pc = .look ∧ s.ready = false ∧ ∃ ok choice, e = .next ok choice) :
      Does e s { s with answer := a, pc := pc }
  | starts (h : s.pc = .start) :
      Does e s
        { s with children := s.children ++ [{}], cmd := some s.children.length, pc := .poll s.children.length }
  | receives (i : Nat) (alive : Bool) (hc : s.children[i]? = some ⟨alive, .full⟩) (about : s.pc.about = some i) :
      Does e s { s.child i ⟨alive, .taken⟩ with cmd := none, pc := .idle }
  | ends (i : Nat) (c : Child) (pc : Pc) (hc : s.children[i]? = some c) (about : pc.about = s.pc.about)
      (start : pc = .start → s.pc = .start) (cause : s.pc.about = some i ∨ e = .ends i) :
      Does e s { s.child i { c with alive := false } with pc := pc }
  | reports (i : Nat) (hc : s.children[i]? = some ⟨false, .pending⟩) : Does e s (s.child i ⟨false, .full⟩)

variable {s s' : Sys} {e : Ev} {i : Nat}

theorem receive_does (about : s.pc.about = some i) (h : s.receive i = some s') : Does e s s' := by
  unfold Sys.receive at h
  split at h
  · rename_i alive hc
    cases h
    exact .receives i alive hc about
  · cases h

/-- The call goes on with the child it is about. -/
theorem same_does {pc : Pc} (about : pc.about = s.pc.about) (start : pc ≠ .start) : Does e s { s with pc := pc } :=
  .turns s.answer pc (fun _ h => .inl (about ▸ h)) fun h => absurd h start

/-- The call returns, or goes on with no child. -/
theorem free_does {pc : Pc} (about : pc.about = none) (start : pc ≠ .start) : Does e s { s with pc := pc } :=
  .turns s.answer pc (fun _ h => by rw [about] at h; cases h) fun h => absurd h start

theorem next_does {ok : Bool} {choice : Choice} (h : s.next ok choice = some s') : Does (.next ok choice) s s' := by
  have about : ∀ {pc : Pc}, s.pc = pc → s.pc.about = pc.about := fun h => by rw [h]
  revert h
  fun_cases Sys.next s ok choice <;> intro h <;> try cases h
  case case2 hpc =>
    cases hr : s.ready with
    | true => exact free_does rfl (by decide)
    | false => exact .turns s.answer .start (fun _ h => by cases h) fun _ => .inr ⟨hpc, hr, ok, choice, rfl⟩
  case case3 hpc _ => exact .starts hpc
  case case4 => exact free_does rfl (by decide)
  case case5 hpc ht => exact receive_does (about hpc) ht
  case case6 hpc _ => exact same_does (about hpc).symm (by simp)
  case case7 hpc =>
    cases s.ready with
    | true => exact free_does rfl (by simp)
    | false => exact same_does (about hpc).symm (by simp)
  case case8 hpc | case9 hpc => exact same_does (about hpc).symm (by simp)
  case case11 hpc =>
    obtain ⟨c, hc, rfl⟩ := Option.map_eq_some_iff.mp h
    exact .ends _ c _ hc (about hpc).symm (by simp) (.inl (about hpc))
  case case10 hpc | case12 hpc | case13 hpc => exact receive_does (about hpc) h

theorem step_does (h : s.step e = some s') : Does e s s' := by
  cases e with
  | spawn =>
    simp only [Sys.step, Option.ite_none_right_eq_some, Option.some.injEq] at h
    obtain ⟨-, rfl⟩ := h
    exact free_does rfl (by decide)
  | close ok =>
    simp only [Sys.step, Option.ite_none_right_eq_some] at h
    obtain ⟨-, h⟩ := h
    have stay : Does (.close ok) s s := .turns s.answer s.pc (fun _ h => .inl h) .inl
    split at h
    · cases h; exact stay
    · rename_i j hj
      split at h
      · cases h
        refine .turns s.answer (.stop j) (fun k hk => ?_) (fun h => by cases h)
        cases hk
        exact .inr hj
      · cases h; exact stay
  | next ok choice => exact next_does h
  | ends j =>
    obtain ⟨c, hc, rfl⟩ := Option.map_eq_some_iff.mp h
    exact .ends j c s.pc hc rfl id (.inr rfl)
  | report j =>
    simp only [Sys.step] at h
    split at h
    · rename_i hc; cases h; exact .reports j hc
    · cases h
  | answers a =>
    cases h
    exact .turns a s.pc (fun _ h => .inl h) .inl

/-! ## Waiting for a child -/

structure Inv (s : Sys) : Prop where
  /-- The call is about the client's child. -/
  about : ∀ i, s.pc.about = some i → s.cmd = some i
  /-- Of which the result has not been taken. -/
  cmd : ∀ i, s.cmd = some i → ∃ c, s.children[i]? = some c ∧ c.wait ≠ .taken
  /-- A child with a result has ended. -/
  ended : ∀ (i : Nat) (c : Child), s.children[i]? = some c → c.wait ≠ .pending → c.alive = false

/-- A child whose result has not been taken has one still when another child changes, or when it
    does and its result is not taken. -/
theorem untaken_set {children : List Child} {j : Nat} {c : Child} (hc : c.wait ≠ .taken)
    (h : ∃ d, children[i]? = some d ∧ d.wait ≠ .taken) : ∃ d, (children.set j c)[i]? = some d ∧ d.wait ≠ .taken := by
  obtain ⟨d, hd, hne⟩ := h
  by_cases hij : j = i
  · subst hij
    obtain ⟨hlt, -⟩ := List.getElem?_eq_some_iff.mp hd
    exact ⟨c, by rw [List.getElem?_set_self hlt], hc⟩
  · exact ⟨d, by rw [List.getElem?_set_ne hij]; exact hd, hne⟩

/-- Child `j` becomes one that has ended if it has a result. -/
theorem Inv.ended_set (h : Inv s) {j : Nat} {c : Child} (hc : c.wait ≠ .pending → c.alive = false) :
    ∀ (i : Nat) (d : Child), (s.child j c).children[i]? = some d → d.wait ≠ .pending → d.alive = false := by
  intro i d hd hne
  rcases Gate.set_getElem? hd with ⟨-, rfl⟩ | ⟨-, hd⟩
  · exact hc hne
  · exact h.ended i d hd hne

theorem Inv.does (h : Inv s) (hd : Does e s s') : Inv s' := by
  cases hd with
  | turns a pc about start =>
    refine ⟨fun i hi => ?_, h.cmd, h.ended⟩
    rcases about i hi with ha | hc
    · exact h.about i ha
    · exact hc
  | starts _ =>
    refine ⟨fun i hi => hi, fun i hi => ?_, fun i c hc hne => ?_⟩
    · cases hi
      exact ⟨{}, by simp, by decide⟩
    · rcases Gate.concat_getElem? hc with hc | rfl
      · exact h.ended i c hc hne
      · exact absurd rfl hne
  | receives j alive hc about =>
    exact ⟨fun i hi => (by cases hi), fun i hi => (by cases hi),
      h.ended_set fun _ => h.ended j ⟨alive, .full⟩ hc fun hne => (by cases hne)⟩
  | ends j c pc hc about _ _ =>
    refine ⟨fun i hi => h.about i (about ▸ hi), fun i hi => ?_, h.ended_set fun _ => rfl⟩
    by_cases hij : j = i
    · -- the child the client has may itself end; its result is still to be taken
      subst hij
      obtain ⟨d, hd, hne⟩ := h.cmd j hi
      rw [hc] at hd
      cases hd
      exact untaken_set hne ⟨c, hc, hne⟩
    · obtain ⟨d, hd, hne⟩ := h.cmd i hi
      exact ⟨d, by simp only [Sys.child]; rw [List.getElem?_set_ne hij]; exact hd, hne⟩
  | reports j hc =>
    exact ⟨h.about, fun i hi => untaken_set (by decide) (h.cmd i hi), h.ended_set fun _ => rfl⟩

theorem Inv.init : Inv {} := ⟨fun i hi => (by cases hi), fun i hi => (by cases hi), fun i c hc => (by cases hc)⟩

theorem inv (h : machine.Reach Machine.always s) : Inv s := by
  refine Machine.Reach.invariant (fun s hs => ?_) (fun s e s' hi _ hstep => hi.does (step_does hstep)) h
  cases hs
  exact .init

/-- A server is started and gets ready. -/
def comesUp (i : Nat) : List Ev :=
  [.spawn, .next true .tick, .next true .tick, .next true .tick, .answers (.child i), .next true .tick]

/-- When the client looks whether to start a server, the one it has answers if it runs. -/
def answering (s : Sys) : Ev → Bool
  | .next _ _ => s.pc != .look || s.ready || !(s.cmd.any fun i => s.children[i]?.any Child.alive)
  | _ => true

structure Owned (s : Sys) : Prop where
  alive : ∀ (i : Nat) (c : Child), s.children[i]? = some c → c.alive = true → s.cmd = some i
  start : s.pc = .start → ∀ (i : Nat) (c : Child), s.children[i]? = some c → c.alive = false

theorem Owned.does (h : Owned s) (hi : Inv s) (hok : answering s e = true) (hd : Does e s s') : Owned s' := by
  cases hd with
  | turns a pc about start =>
    refine ⟨h.alive, fun hpc i c hc => ?_⟩
    rcases start hpc with hs | ⟨hlook, hready, ok, choice, rfl⟩
    · exact h.start hs i c hc
    · by_contra halive
      have hcmd := h.alive i c hc (by simpa using halive)
      simp [answering, hlook, hready, hcmd, hc, halive] at hok
  | starts hpc =>
    refine ⟨fun i c hc halive => ?_, fun h => (by cases h)⟩
    by_cases hlt : i < s.children.length
    · rw [List.getElem?_append_left hlt] at hc
      rw [h.start hpc i c hc] at halive
      cases halive
    · obtain ⟨hle, -⟩ := List.getElem?_eq_some_iff.mp hc
      simp only [List.length_append, List.length_singleton] at hle
      exact congrArg some (by omega)
  | receives j alive hc about =>
    refine ⟨fun i d hd halive => ?_, fun h => (by cases h)⟩
    rcases Gate.set_getElem? hd with ⟨-, rfl⟩ | ⟨hne, hd⟩
    · have hdead : alive = false := hi.ended j _ hc fun h => (by cases h)
      rw [hdead] at halive
      cases halive
    · -- a second child that runs would be the one the call is about
      have hcmd := h.alive i d hd halive
      rw [hi.about j about] at hcmd
      exact absurd (Option.some.inj hcmd) hne
  | ends j c pc hc about start _ =>
    refine ⟨fun i d hd halive => ?_, fun hpc i d hd => ?_⟩
    · rcases Gate.set_getElem? hd with ⟨-, rfl⟩ | ⟨-, hd⟩
      · cases halive
      · exact h.alive i d hd halive
    · rcases Gate.set_getElem? hd with ⟨-, rfl⟩ | ⟨-, hd⟩
      · rfl
      · exact h.start (start hpc) i d hd
  | reports j hc =>
    refine ⟨fun i d hd halive => ?_, fun hpc i d hd => ?_⟩
    · rcases Gate.set_getElem? hd with ⟨-, rfl⟩ | ⟨-, hd⟩
      · cases halive
      · exact h.alive i d hd halive
    · rcases Gate.set_getElem? hd with ⟨-, rfl⟩ | ⟨-, hd⟩
      · rfl
      · exact h.start hpc i d hd

/-- As long as a child that runs answers whenever the client looks whether to start another, a
    child that runs is the one the client has: the client never has two that run, and when a
    call has left it with none (`Close`, or a start that failed) none runs. -/
theorem children_are_stopped (h : machine.Reach answering s) :
    (∀ (i : Nat) (c : Child), s.children[i]? = some c → c.alive = true → s.cmd = some i) ∧
      (s.cmd = none → ∀ c ∈ s.children, c.alive = false) := by
  have howned : Inv s ∧ Owned s := by
    refine Machine.Reach.invariant (I := fun s => Inv s ∧ Owned s) (fun s hs => ?_)
      (fun s e s' hi hok hstep => ⟨hi.1.does (step_does hstep), hi.2.does hi.1 hok (step_does hstep)⟩) h
    cases hs
    exact ⟨.init, fun i c hc => (by cases hc), fun hpc => (by cases hpc)⟩
  refine ⟨howned.2.alive, fun hnone c hc => ?_⟩
  obtain ⟨i, hi⟩ := List.mem_iff_getElem?.mp hc
  by_contra halive
  have hcmd := howned.2.alive i c hi (by simpa using halive)
  rw [hnone] at hcmd
  cases hcmd

/-- The first server crashes, the second one is started in its place and stopped by `Close`. -/
def restart : List Ev :=
  comesUp 0 ++ [.ends 0] ++ comesUp 1 ++ [.close true, .ends 1, .report 1, .next true .tick]

theorem children_are_stopped_after_a_crash : ∃ s, machine.Reach answering s ∧ s.children.length = 2 ∧
    ∀ c ∈ s.children, c.alive = false := by
  obtain ⟨s, hs, hlen, hcmd⟩ := machine.exists_reach answering (s := {}) rfl restart
    (P := fun s => s.children.length = 2 ∧ s.cmd = none) (by decide)
  exact ⟨s, hs, hlen, (children_are_stopped hs).2 hcmd⟩

/-! ## A server that is left behind -/

/-- Child `i` does not end by itself. -/
def spares (i : Nat) (_ : Sys) (e : Ev) : Bool := e != .ends i

/-- Child `i` runs, and the client has another one or none. -/
def Left (i : Nat) (s : Sys) : Prop := s.cmd ≠ some i ∧ ∃ c, s.children[i]? = some c ∧ c.alive = true

theorem alive_set {children : List Child} {j : Nat} {c : Child} (hne : j ≠ i)
    (h : ∃ d, children[i]? = some d ∧ d.alive = true) : ∃ d, (children.set j c)[i]? = some d ∧ d.alive = true := by
  obtain ⟨d, hd, halive⟩ := h
  exact ⟨d, by rw [List.getElem?_set_ne hne]; exact hd, halive⟩

theorem Left.does (h : Left i s) (hi : Inv s) (hok : spares i s e = true) (hd : Does e s s') : Left i s' := by
  obtain ⟨hcmd, c, hc, halive⟩ := h
  -- the call is never about a child that the client does not have
  have habout : s.pc.about ≠ some i := fun h => hcmd (hi.about i h)
  cases hd with
  | turns a pc about start => exact ⟨hcmd, c, hc, halive⟩
  | starts _ =>
    obtain ⟨hlt, -⟩ := List.getElem?_eq_some_iff.mp hc
    refine ⟨fun h => ?_, c, by rw [List.getElem?_append_left hlt]; exact hc, halive⟩
    have := Option.some.inj h
    omega
  | receives j alive _ about =>
    refine ⟨fun h => (by cases h), alive_set (fun h => habout (h ▸ about)) ⟨c, hc, halive⟩⟩
  | ends j d pc _ _ _ cause =>
    refine ⟨hcmd, alive_set (fun h => ?_) ⟨c, hc, halive⟩⟩
    subst h
    rcases cause with ha | rfl
    · exact habout ha
    · simp [spares] at hok
  | reports j hd =>
    refine ⟨hcmd, alive_set (fun h => ?_) ⟨c, hc, halive⟩⟩
    subst h
    rw [hc] at hd
    cases hd
    cases halive

/-- A child that runs and is not the one the client has is never the client's again and runs
    on, whatever the client is asked to do: no `Close` and no failed start ends it. -/
theorem a_silent_server_is_left_behind {t : Sys} {es : List Ev} {c : Child} (h : machine.Reach Machine.always s)
    (hc : s.children[i]? = some c) (halive : c.alive = true) (hcmd : s.cmd ≠ some i)
    (hrun : machine.run (spares i) s es = some t) : t.cmd ≠ some i ∧ ∃ d, t.children[i]? = some d ∧ d.alive = true :=
  (machine.run_stable (P := fun s => Inv s ∧ Left i s)
    (fun _ _ _ hl hok hstep => ⟨hl.1.does (step_does hstep), hl.2.does hl.1 hok (step_does hstep)⟩)
    ⟨inv h, hcmd, c, hc, halive⟩ hrun).2

/-- The server stops answering while it runs, and a call of `Ensure` starts the next one. -/
def silent : List Ev := comesUp 0 ++ [.answers .nobody] ++ comesUp 1

/-- After `Close` the first server runs still. -/
theorem a_closed_client_leaves_a_server : ∃ s t, machine.Reach Machine.always s ∧
    machine.run (spares 0) s [.close true, .ends 1, .report 1, .next true .tick] = some t ∧ t.cmd = none ∧
    t.cmd ≠ some 0 ∧ ∃ d, t.children[0]? = some d ∧ d.alive = true := by
  obtain ⟨s, hs, ⟨hcmd, hchild⟩, hrun⟩ := machine.exists_reach Machine.always (s := {}) rfl silent
    (P := fun s => (s.cmd ≠ some 0 ∧ s.children[0]? = some ⟨true, .pending⟩) ∧
      (machine.run (spares 0) s [.close true, .ends 1, .report 1, .next true .tick]).any (·.cmd = none) = true)
    (by decide)
  obtain ⟨t, ht, hnone⟩ := (Option.any_eq_true _ _).mp hrun
  exact ⟨s, t, hs, ht, of_decide_eq_true hnone, a_silent_server_is_left_behind hs hchild rfl hcmd ht⟩

end Ghostline.Rpc.Managed
