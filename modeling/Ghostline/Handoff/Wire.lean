/-
  Ghostline.Handoff.Wire — an upgrade byte by byte (migrate.go: `adminTransport`).

  In `Handoff.Upgrade` a side reads a message whole. Here it is written and read in any
  number of pieces, which may hold parts of several messages, and a descriptor comes with
  the first byte of its reply. The target keeps the descriptors it has read in `received`
  and takes the first one when a reply says that its session is alive.

  - A write or a read may fail at any byte. What was written of a message stays in the
    socket, and what was read stays in the buffer; only a read whose descriptor does not
    fit (`MSG_CTRUNC`) loses what it read.
  - The target looks for a reply in its buffer before it reads on, so it does that in the
    step that has sent the request or read the bytes. A context that is cancelled in
    between makes no difference to it.
  - No side sends the NUL bytes that `read` and `takeFD` skip.

  As long as no call has failed, the bytes are those of the messages the two sides
  exchange (`Clean`), and a reply's descriptor is read before its newline. After a failed
  `snapshot` they may not be, but then no reply is taken for that of the second `adopt`
  (`Doomed`). So the sessions of a target that succeeds are those that were listed, each
  with its own master (`adoption_is_complete`).
-/

import Ghostline.Lib.Frames
import Ghostline.Handoff.Inventory

namespace Ghostline.Handoff

open Lib Session

/-! ## The machine -/

/-- The lengths of the messages, less one. -/
structure Sizes where
  request : Nat × Request → Nat
  reply : Nat × Reply → Nat

/-- The descriptor that comes with a reply. -/
def Reply.fd : Reply → Option Nat
  | .adopted _ _ fd => fd
  | _ => none

structure Wire where
  source : Source
  target : Target
  /-- The hub as it was listed. -/
  inventory : List Nat
  up : Pipe (Nat × Request) Nat
  /-- What is written of the request the target is at. -/
  sent : Nat
  down : Pipe (Nat × Reply) Nat
  /-- And of the reply the source is at. -/
  written : Nat

inductive WireSourceEv where
  | pull (k : Nat)
  | parse
  | readFailed
  | write (k : Nat)
  | writeFailed
  | act (e : AdminEv)
  deriving DecidableEq, Repr

inductive WireTargetEv where
  | send (k : Nat)
  | pull (k : Nat)
  | truncated (k : Nat)
  | turn (e : TargetEv)
  deriving DecidableEq, Repr

inductive WireEv where
  | loop (n : Nat) (e : LoopEv)
  | child (n : Nat) (e : Core.ChildEv)
  | opened (n : Nat)
  | deleted (n : Nat)
  | source (e : WireSourceEv)
  | target (e : WireTargetEv)
  deriving DecidableEq, Repr

namespace Target

variable (t : Target)

/-- A reply is taken out of the buffer. -/
def hears (st : Stage) (id : Nat) (q : Nat × Reply) : Target :=
  if q.1 = id then
    match q.2 with
    | .error _ => t.failed st
    | r => t.answered st r
  else t.failed st

/-- The request is not written, or not to its end. -/
def unsent (st : Stage) (begun : Bool) : Target :=
  { t with nextID := if !begun && (usesContext st && t.cancelled) then t.nextID else t.nextID + 1 }.failed st

end Target

section Step

variable (z : Sizes)

def requestFrame (q : Nat × Request) : List (Cell (Nat × Request) Nat) := frame z.request (fun _ => none) q

def replyFrame (q : Nat × Reply) : List (Cell (Nat × Reply) Nat) := frame z.reply (fun q => q.2.fd) q

/-- What the handler does with what it has taken out of its buffer. -/
def Source.parses (s : Source) (a : List (Piece (Nat × Request))) : Source :=
  match decode z.request a with
  | some q => s.handle q.1 q.2
  | none => s.goto (.leaving none)

def Target.parses (t : Target) (st : Stage) (id : Nat) (a : List (Piece (Nat × Reply))) : Target :=
  match decode z.reply a with
  | some q => t.hears st id q
  | none => t.failed st

namespace Wire

variable (w : Wire)

/-- The target looks into its buffer. -/
def hear : Wire :=
  match w.target.pc, pop w.down.buf with
  | .wait st id, some (a, rest) =>
    { w with target := w.target.parses z st id a, down := { w.down with buf := rest } }
  | _, _ => w

/-- A read of the target. -/
def read (k : Nat) : Wire :=
  { w with target := { w.target with received := w.target.received ++ w.down.pulled k }, down := w.down.pull k }

def sourceStep : WireSourceEv → Option Wire
  | .pull k => if w.source.admin = .idle ∧ 0 < k ∧ k ≤ w.up.wire.length then some { w with up := w.up.pull k } else none
  | .parse =>
    match w.source.admin, pop w.up.buf with
    | .idle, some (a, rest) => some { w with source := w.source.parses z a, up := { w.up with buf := rest } }
    | _, _ => none
  | .readFailed => if w.source.admin = .idle then some { w with source := w.source.goto (.leaving none) } else none
  | .write k =>
    match w.source.admin with
    | .reply id r _ =>
      let f := replyFrame z (id, r)
      if w.target.closed || f.length < w.written + k then none
      else if w.written + k = f.length then
        (w.source.wrote true).map fun source => { w with source := source, down := w.down.write (f.drop w.written), written := 0 }
      else some { w with down := w.down.write ((f.drop w.written).take k), written := w.written + k }
    | _ => none
  | .writeFailed => (w.source.wrote false).map fun source => { w with source := source, written := 0 }
  | .act e =>
    (w.source.step e).map fun source =>
      { w with source := source, inventory := if e = .listed then w.source.hub else w.inventory }

def targetStep : WireTargetEv → Option Wire
  | .send k =>
    match w.target.pc with
    | .call st =>
      let f := requestFrame z (w.target.nextID, w.target.request st)
      -- the context is looked at before the first byte
      if w.target.closed || (w.sent == 0 && (Target.usesContext st && w.target.cancelled)) || w.source.admin == .returned
          || f.length < w.sent + k then none
      else if w.sent + k = f.length then
        some (hear z { w with target := w.target.sent st, up := w.up.write (f.drop w.sent), sent := 0 })
      else some { w with up := w.up.write ((f.drop w.sent).take k), sent := w.sent + k }
    | _ => none
  | .pull k =>
    if w.target.closed || k == 0 || w.down.wire.length < k then none
    else
      match w.target.pc with
      | .wait _ _ => some ((w.read k).hear z)
      | .takeFD _ _ _ _ => if w.target.received.isEmpty then some (w.read k) else none
      | _ => none
  | .truncated k =>
    if w.target.closed || (w.down.pulled k).isEmpty then none
    else
      match w.target.pc with
      | .wait _ _ | .takeFD _ _ _ _ =>
        (w.target.step .fail).map fun t => { w with target := t, down := { w.down with wire := w.down.wire.drop k } }
      | _ => none
  | .turn e =>
    match w.target.pc, e with
    | .call st, .fail => some { w with target := w.target.unsent st (w.sent != 0), sent := 0 }
    | _, _ => (w.target.step e).map fun t => { w with target := t }

def step : WireEv → Option Wire
  | .loop n e =>
    ((w.source.sessions n).core.loopStep e).map fun c =>
      { w with source := w.source.set n { w.source.sessions n with core := c } }
  | .child n e =>
    ((w.source.sessions n).core.childStep e).map fun c =>
      { w with source := w.source.set n { w.source.sessions n with core := c } }
  | .opened n => (w.source.opens n).map fun source => { w with source := source }
  | .deleted n => (w.source.deletes n).map fun source => { w with source := source }
  | .source e => w.sourceStep z e
  | .target e => w.targetStep z e

end Wire

/-- The names of the hub are the keys of a map. -/
def wireMachine : Machine Wire WireEv where
  init w := ∃ sessions hub, (∀ n, Resting (sessions n)) ∧ hub.Nodup ∧
    w = ⟨(begun sessions hub).source, (begun sessions hub).target, [], .empty, 0, .empty, 0⟩
  step := Wire.step z

end Step

/-! ## What a step does -/

variable {z : Sizes} {w w' : Wire}

inductive WireMove (z : Sizes) (w : Wire) : Wire → Prop
  | loop {n : Nat} {e : LoopEv} {c : Core} : LoopMove (w.source.sessions n).core e c →
      WireMove z w { w with source := w.source.set n { w.source.sessions n with core := c } }
  | child {n : Nat} {e : Core.ChildEv} {c : Core} : (w.source.sessions n).core.childStep e = some c →
      WireMove z w { w with source := w.source.set n { w.source.sessions n with core := c } }
  | hub {source : Source} : HubMove w.source source → WireMove z w { w with source := source }
  | readFailed : w.source.admin = .idle → WireMove z w { w with source := w.source.goto (.leaving none) }
  | act {e : AdminEv} {source : Source} : Act w.source e source → (e = .listed → ∃ id, w.source.admin = .listing id) →
      WireMove z w { w with source := source, inventory := if e = .listed then w.source.hub else w.inventory }
  | pullUp {k : Nat} : WireMove z w { w with up := w.up.pull k }
  | parse {a rest : List (Piece (Nat × Request))} : w.source.admin = .idle → pop w.up.buf = some (a, rest) →
      WireMove z w { w with source := w.source.parses z a, up := { w.up with buf := rest } }
  | write {id k : Nat} {r : Reply} {a : After} : w.source.admin = .reply id r a →
      w.written + k < (replyFrame z (id, r)).length →
      WireMove z w { w with down := w.down.write (((replyFrame z (id, r)).drop w.written).take k), written := w.written + k }
  | wrote {id : Nat} {r : Reply} {a : After} {source : Source} : w.source.admin = .reply id r a →
      w.target.closed = false → w.source.wrote true = some source → WireMove z w
        { w with source := source, down := w.down.write ((replyFrame z (id, r)).drop w.written), written := 0 }
  | unwritten {source : Source} : w.source.wrote false = some source →
      WireMove z w { w with source := source, written := 0 }
  | send {st : Stage} {k : Nat} : w.target.pc = .call st →
      w.sent + k < (requestFrame z (w.target.nextID, w.target.request st)).length → WireMove z w { w with
        up := w.up.write (((requestFrame z (w.target.nextID, w.target.request st)).drop w.sent).take k), sent := w.sent + k }
  | sent {st : Stage} : w.target.pc = .call st → w.target.closed = false → WireMove z w (Wire.hear z { w with
        target := w.target.sent st,
        up := w.up.write ((requestFrame z (w.target.nextID, w.target.request st)).drop w.sent), sent := 0 })
  | pull {k id : Nat} {st : Stage} : w.target.pc = .wait st id → w.target.closed = false →
      WireMove z w ((w.read k).hear z)
  /-- The reply was there, and its descriptor was not. -/
  | pullFD {k n name : Nat} {rest : List Nat} {again : Option Nat} : w.target.pc = .takeFD n rest name again →
      w.target.received = [] → WireMove z w (w.read k)
  | truncated {k : Nat} {t : Target} : (∀ st, w.target.pc ≠ .call st) → Turn w.target .fail t →
      WireMove z w { w with target := t, down := { w.down with wire := w.down.wire.drop k } }
  | unsent {st : Stage} : w.target.pc = .call st →
      WireMove z w { w with target := w.target.unsent st (w.sent != 0), sent := 0 }
  | turn {e : TargetEv} {t : Target} : (∀ st, w.target.pc = .call st → e ≠ .fail) → Turn w.target e t →
      WireMove z w { w with target := t }

theorem wire_source {e : WireSourceEv} (h : w.sourceStep z e = some w') : WireMove z w w' := by
  revert h
  fun_cases Wire.sourceStep z w e
  all_goals intro h
  case case1 => cases h; exact .pullUp
  case case3 hp ha => cases h; exact .parse ha hp
  case case5 ha => cases h; exact .readFailed ha
  case case8 ha f hc _ =>
    obtain ⟨source, hx, rfl⟩ := Option.map_eq_some_iff.mp h
    rw [Bool.not_eq_true, Bool.or_eq_false_iff] at hc
    exact .wrote ha hc.1 hx
  case case9 ha f hc hne =>
    cases h
    rw [Bool.not_eq_true, Bool.or_eq_false_iff, decide_eq_false_iff_not] at hc
    refine .write ha ?_
    show _ < f.length
    omega
  case case11 =>
    obtain ⟨source, hx, rfl⟩ := Option.map_eq_some_iff.mp h
    exact .unwritten hx
  case case12 e =>
    obtain ⟨source, hx, rfl⟩ := Option.map_eq_some_iff.mp h
    refine .act (act_of_step hx) ?_
    rintro rfl
    exact step_listing hx
  all_goals cases h

theorem wire_target {e : WireTargetEv} (h : w.targetStep z e = some w') : WireMove z w w' := by
  revert h
  fun_cases Wire.targetStep z w e
  all_goals intro h
  case case2 hp f hc _ =>
    cases h
    simp only [Bool.or_eq_true, not_or, Bool.not_eq_true] at hc
    exact .sent hp hc.1.1.1
  case case3 hp f hc hne =>
    cases h
    simp only [Bool.or_eq_true, not_or, decide_eq_true_eq] at hc
    refine .send hp ?_
    show _ < f.length
    omega
  case case6 hc _ _ hp =>
    cases h
    simp only [Bool.or_eq_true, not_or, Bool.not_eq_true] at hc
    exact .pull hp hc.1.1
  case case7 hp hr => cases h; exact .pullFD hp (List.isEmpty_iff.mp hr)
  case case11 hp | case12 hp =>
    obtain ⟨t, hx, rfl⟩ := Option.map_eq_some_iff.mp h
    exact .truncated (by simp [hp]) (turn_of_step hx)
  case case14 hp => cases h; exact .unsent hp
  case case15 hne =>
    obtain ⟨t, hx, rfl⟩ := Option.map_eq_some_iff.mp h
    exact .turn hne (turn_of_step hx)
  all_goals cases h

theorem wire_move {e : WireEv} (h : w.step z e = some w') : WireMove z w w' := by
  cases e with
  | loop n e =>
    obtain ⟨c, hc, rfl⟩ := Option.map_eq_some_iff.mp h
    exact .loop (loopStep_move hc)
  | child n e =>
    obtain ⟨c, hc, rfl⟩ := Option.map_eq_some_iff.mp h
    exact .child hc
  | opened n =>
    obtain ⟨x, hx, rfl⟩ := Option.map_eq_some_iff.mp h
    exact .hub (opens_move hx)
  | deleted n =>
    obtain ⟨x, hx, rfl⟩ := Option.map_eq_some_iff.mp h
    exact .hub (deletes_move hx)
  | source e => exact wire_source h
  | target e => exact wire_target h

/-! ## A target that has failed -/

theorem hears_lost {t : Target} {st : Stage} {id : Nat} {q : Nat × Reply} (h : (t.goto (.call st)).lost = true) :
    (t.hears st id q).lost = true := by
  unfold Target.hears
  split
  · split
    · exact (failed_lost h).1
    · exact (answered_lost h).1
  · exact (failed_lost h).1

theorem hear_lost (h : w.target.lost = true) : (w.hear z).target.lost = true := by
  unfold Wire.hear
  split
  · rename_i st id a rest hp _
    rw [lost_waiting hp] at h
    simp only [Target.parses]
    split
    · exact hears_lost h
    · exact (failed_lost h).1
  · exact h

theorem sent_lost {t : Target} {st : Stage} (hp : t.pc = .call st) (h : t.lost = true) : (t.sent st).lost = true := by
  rw [lost_call hp, ← lost_wait st t.nextID] at h
  exact h

theorem move_lost (h : w.target.lost = true) (hm : WireMove z w w') : w'.target.lost = true := by
  cases hm with
  | sent hp _ => exact hear_lost (sent_lost hp h)
  | pull _ _ => exact hear_lost h
  | truncated _ ht | turn _ ht => exact (turn_lost ht h).1
  | unsent hp => exact (failed_lost (lost_call hp ▸ h)).1
  | _ => exact h

/-! ## In step -/

namespace Wire

variable (w : Wire) (owed : List Nat) (up : List (Nat × Request)) (down : List (Nat × Reply))

/-- The upgrade as its messages: those under way are `up` and `down`, and `owed` are the
    descriptors of the replies the target has heard. -/
def sys : Sys := ⟨w.source, { w.target with received := owed }, up, down, []⟩

def live : Live := ⟨w.sys owed up down, w.inventory⟩

end Wire

/-- Before the reply to its commit, and not at a second `adopt`. -/
def Pc.steady : Pc → Bool
  | .call st | .wait st _ =>
    match st with
    | .list | .adopt _ _ | .snapshot _ _ _ _ | .commit => true
    | _ => false
  | .takeFD _ _ _ again => again.isNone
  | .build _ _ _ _ => true
  | _ => false

/-- What is written of the target's next request. -/
inductive Sending (z : Sizes) (w : Wire) : List (Cell (Nat × Request) Nat) → Prop
  | none : w.sent = 0 → Sending z w []
  | part {st : Stage} : w.target.pc = .call st →
      w.sent < (requestFrame z (w.target.nextID, w.target.request st)).length →
      Sending z w ((requestFrame z (w.target.nextID, w.target.request st)).take w.sent)

/-- What is written of the source's next reply, or of the last one, which no other follows. -/
inductive Writing (z : Sizes) (w : Wire) (quiet : Prop) : List (Cell (Nat × Reply) Nat) → Prop
  | none : w.written = 0 → Writing z w quiet []
  | part {id : Nat} {r : Reply} {a : After} : w.source.admin = .reply id r a →
      w.written < (replyFrame z (id, r)).length → Writing z w quiet ((replyFrame z (id, r)).take w.written)
  | left {st : Stage} {id k : Nat} {r : Reply} : w.written = 0 → w.target.pc = .wait st id → quiet →
      k < (replyFrame z (id, r)).length → Writing z w quiet ((replyFrame z (id, r)).take k)

structure Clean (z : Sizes) (w : Wire) (owed : List Nat) (up : List (Nat × Request)) (down : List (Nat × Reply)) : Prop where
  live : LiveInv (w.live owed up down)
  steady : w.target.pc.steady = true
  skipped : w.target.skipped = []
  ups : ∃ fds tail, Feeds z.request (fun _ => none) w.up fds up tail ∧ Sending z w tail
  downs : ∃ fds tail, w.target.received = owed ++ fds ∧ Feeds z.reply (fun q => q.2.fd) w.down fds down tail ∧
    Writing z w (w.sys owed up down).Quiet tail

/-- After a failed `snapshot`: what is under way is as for `Stale`, byte by byte. -/
structure Doomed (w : Wire) (n id : Nat) : Prop where
  orderly : Orderly w.source
  pc : ∃ rest name, w.target.pc = .call (.retry n rest name) ∧ id = w.target.nextID ∨
    w.target.pc = .wait (.retry n rest name) id
  ups : w.up.Within fun q => (∃ m, q.2 = .snapshot m) ∧ q.1 ≠ id ∨ q.2 = .adopt n
  downs : w.down.Within fun q => q.1 = id → ∃ e, q.2 = .error e
  stale : Stale (w.sys [] [] []) n id

/-- After the reply to the commit. -/
structure Owned (w : Wire) : Prop where
  orderly : Orderly w.source
  pc : w.target.pc = .insert ∨ w.target.pc.owns = true ∧ w.target.hub = w.target.names
  exact : ∀ a ∈ w.target.prepared, Exact w.source a ∧ w.source.Gone a.name
  whole : w.target.names = w.inventory
  nodup : w.inventory.Nodup
  /-- The source is not asked to list once more. -/
  unlisted : ∀ i, w.source.admin ≠ .listing i
  ups : w.up.Within (·.2 ≠ .list)

inductive Fits (z : Sizes) (w : Wire) : Prop
  | lost : w.target.lost = true → Fits z w
  | clean {owed : List Nat} {up : List (Nat × Request)} {down : List (Nat × Reply)} : Clean z w owed up down → Fits z w
  | doomed (n id : Nat) : Doomed w n id → Fits z w
  | owned : Owned w → Fits z w

/-! ## After the commit -/

section Owned

/-- The source goes on. -/
theorem Owned.onward (h : Owned w) (ho : Orderly w'.source) (hon : Onward w.source w'.source)
    (hl : ∀ i, w'.source.admin ≠ .listing i) (ht : w'.target = w.target) (hi : w'.inventory = w.inventory)
    (hu : w'.up.Within (·.2 ≠ .list)) : Owned w' :=
  ⟨ho, ht ▸ h.pc, ht ▸ fun a ha => ⟨(h.exact a ha).1.mono hon, hon.gone _ (h.exact a ha).2⟩, ht ▸ hi ▸ h.whole, hi ▸ h.nodup,
    hl, hu⟩

/-- The target goes on with what it has. -/
theorem Owned.target (h : Owned w) (hp : w'.target.pc.owns = true) (hh : w'.target.hub = w'.target.names)
    (hr : w'.target.prepared = w.target.prepared) (hs : w'.source = w.source) (hi : w'.inventory = w.inventory)
    (hu : w'.up.Within (·.2 ≠ .list)) : Owned w' :=
  ⟨hs ▸ h.orderly, .inr ⟨hp, hh⟩, fun a ha => hs ▸ h.exact a (hr ▸ ha), by rw [hi, ← h.whole, Target.names, hr, Target.names],
    hi ▸ h.nodup, hs ▸ h.unlisted, hu⟩

theorem Owned.streams {w' : Wire} (h : Owned w) (hs : w'.source = w.source) (ht : w'.target = w.target)
    (hi : w'.inventory = w.inventory) (hu : w'.up.Within (·.2 ≠ .list)) : Owned w' :=
  h.onward (hs ▸ h.orderly) (hs ▸ .refl _) (hs ▸ h.unlisted) ht hi hu

theorem Owned.owns (h : Owned w) (hp : w.target.pc ≠ .insert) : w.target.pc.owns = true ∧ w.target.hub = w.target.names :=
  h.pc.resolve_left hp

theorem Owned.exit {st : Stage} (h : Owned w) (hp : w.target.pc = .call st ∨ ∃ id, w.target.pc = .wait st id) :
    st = .exit ∧ w.target.hub = w.target.names := by
  have owns := h.owns (by rcases hp with hp | ⟨_, hp⟩ <;> simp [hp])
  refine ⟨?_, owns.2⟩
  rcases hp with hp | ⟨_, hp⟩ <;> rw [hp] at owns <;> cases st <;> first | rfl | cases owns.1

theorem hears_exit {t : Target} {id : Nat} {q : Nat × Reply} : t.hears .exit id q = t.leave true := by
  unfold Target.hears
  cases q.2 <;> simp [Target.failed, Target.answered]

/-- Whatever the source says to `exit`, the target returns. -/
theorem Owned.hear (h : Owned w) : Owned (w.hear z) := by
  unfold Wire.hear
  split
  · rename_i st id a rest hp _
    obtain ⟨rfl, hh⟩ := h.exit (.inr ⟨_, hp⟩)
    have : w.target.parses z .exit id a = w.target.leave true := by
      unfold Target.parses
      split
      · exact hears_exit
      · rfl
    rw [this]
    exact h.target rfl hh rfl rfl rfl h.ups
  · exact h

theorem Owned.turn {e : TargetEv} {t : Target} (h : Owned w) (ht : Turn w.target e t) : Owned { w with target := t } := by
  cases ht with
  | cancel | cut _ => exact ⟨h.orderly, h.pc, h.exact, h.whole, h.nodup, h.unlisted, h.ups⟩
  | unsent hp _ =>
    obtain ⟨rfl, hh⟩ := h.exit (.inl hp)
    exact h.target rfl hh rfl rfl rfl h.ups
  | failed hp =>
    obtain ⟨rfl, hh⟩ := h.exit (.inr ⟨_, hp⟩)
    exact h.target rfl hh rfl rfl rfl h.ups
  | insert _ => exact h.target rfl rfl rfl rfl rfl h.ups
  | start hp _ | started hp _ =>
    obtain ⟨-, hh⟩ := h.owns (by simp [hp])
    exact h.target rfl hh rfl rfl rfl h.ups
  | noFD hp _ | takeFD hp _ | built hp | unbuilt hp | close hp _ | closed hp _ =>
    have := (h.owns (by simp [hp])).1
    rw [hp] at this
    cases this

/-- What the handler reads is of the bytes under way. -/
theorem parses_listing {s : Source} {a : List (Piece (Nat × Request))} (h : ∀ q i, .byte q i ∈ a → q.2 ≠ .list) (i : Nat) :
    (s.parses z a).admin ≠ .listing i := by
  unfold Source.parses
  split
  · next q hq => exact fun hl => h q 0 (decode_some hq) (handle_listed.2 i hl)
  · exact fun hl => by cases hl

theorem Orderly.parses {s : Source} (hi : Orderly s) (ha : s.admin = .idle) (a : List (Piece (Nat × Request))) :
    Orderly (s.parses z a) := by
  unfold Source.parses
  split
  · exact hi.handle ha _ _
  · exact hi.readFailed ha

theorem Onward.parses (s : Source) (a : List (Piece (Nat × Request))) : Onward s (s.parses z a) := by
  unfold Source.parses
  split
  · exact .handle s _ _
  · exact (Onward.refl s).goto

theorem Onward.wrote {s s' : Source} {ok : Bool} (h : s.wrote ok = some s') : Onward s s' := by
  obtain ⟨-, h1, h2, -, -⟩ := wrote_some h
  exact .of (fun n hn => h2 ▸ hn) (fun n hn => by rw [h1]; exact hn) fun n hn => by rw [h1]; exact hn

theorem wrote_unlisted {s s' : Source} {ok : Bool} (h : s.wrote ok = some s') (i : Nat) : s'.admin ≠ .listing i := by
  obtain ⟨-, -, -, -, ha | ha⟩ := wrote_some h <;> simp [ha]

theorem exit_request {t : Target} {id : Nat} : (id, t.request .exit).2 ≠ .list := by simp [Target.request]

theorem Owned.move (h : Owned w) (hm : WireMove z w w') : Owned w' := by
  cases hm with
  | loop hl => exact h.onward (h.orderly.loop hl) (.loop hl) h.unlisted rfl rfl h.ups
  | child hc => exact h.onward (h.orderly.child hc) (.child hc) h.unlisted rfl rfl h.ups
  | hub hh =>
    obtain ⟨-, -, -, ha, -⟩ := hh.same
    exact h.onward (h.orderly.hub hh) hh.onward (fun i => by rw [ha]; exact h.unlisted i) rfl rfl h.ups
  | readFailed ha => exact h.onward (h.orderly.readFailed ha) (Onward.refl _).goto (by simp [Source.goto]) rfl rfl h.ups
  | @act e source ha hk =>
    have he : e ≠ .listed := fun he => by
      obtain ⟨i, hl⟩ := hk he
      exact h.unlisted i hl
    exact h.onward (h.orderly.act ha) (.act h.orderly ha)
      (fun i hl => h.unlisted i ((act_listed h.orderly ha).2 i hl)) rfl (if_neg he) h.ups
  | pullUp => exact h.streams rfl rfl rfl (h.ups.pull _)
  | parse ha hp =>
    obtain ⟨hb, hu⟩ := h.ups.pop hp
    exact h.onward (h.orderly.parses ha _) (.parses _ _) (parses_listing hb) rfl rfl hu
  | write _ _ => exact h.streams rfl rfl rfl h.ups
  | wrote _ _ hx | unwritten hx =>
    exact h.onward (h.orderly.wrote hx) (.wrote hx) (wrote_unlisted hx) rfl rfl h.ups
  | send hp _ =>
    obtain ⟨rfl, -⟩ := h.exit (.inl hp)
    exact h.streams rfl rfl rfl (h.ups.write exit_request fun c hc => List.mem_of_mem_drop (List.mem_of_mem_take hc))
  | sent hp _ =>
    obtain ⟨rfl, hh⟩ := h.exit (.inl hp)
    refine Owned.hear (h.target rfl hh rfl rfl rfl ?_)
    exact h.ups.write exit_request fun c hc => List.mem_of_mem_drop hc
  | @pull k id st hp _ =>
    obtain ⟨rfl, hh⟩ := h.exit (.inr ⟨_, hp⟩)
    refine Owned.hear (h.target ?_ hh rfl rfl rfl h.ups)
    rw [show (w.read k).target.pc = _ from hp]
    rfl
  | pullFD hp _ =>
    have := (h.owns (by simp [hp])).1
    rw [hp] at this
    cases this
  | truncated _ ht => exact (h.turn ht).streams rfl rfl rfl h.ups
  | unsent hp =>
    obtain ⟨rfl, hh⟩ := h.exit (.inl hp)
    exact h.target rfl hh rfl rfl rfl h.ups
  | turn _ ht => exact h.turn ht

end Owned

/-! ## After a failed snapshot -/

section Doomed

variable {n id : Nat}

theorem Doomed.works (h : Doomed w n id) (ho : Orderly w'.source) (hw : Works w.source w'.source)
    (ht : w'.target = w.target) (hu : w'.up = w.up) (hd : w'.down = w.down) : Doomed w' n id :=
  have hs := h.stale.works hw
  ⟨ho, ht ▸ h.pc, hu ▸ h.ups, hd ▸ h.downs, hs.up, hs.admin, hs.down, hs.holds⟩

theorem failed_retry {t : Target} {rest : List Nat} {name : Nat} : (t.failed (.retry n rest name)).lost = true :=
  (skip_lost _ _ _).1

/-- Whatever the target hears, it is not a session. -/
theorem Doomed.hear (h : Doomed w n id) : Fits z (w.hear z) := by
  unfold Wire.hear
  split
  · rename_i st k a rest hp hb
    obtain ⟨r, name, ⟨hx, -⟩ | hx⟩ := h.pc <;> cases hp.symm.trans hx
    refine .lost ?_
    obtain ⟨ha, -⟩ := h.downs.pop hb
    simp only [Target.parses]
    split
    · next q hq =>
      unfold Target.hears
      split
      · next hid =>
        obtain ⟨e, he⟩ := ha q 0 (decode_some hq) hid
        rw [he]
        exact failed_retry
      · exact failed_retry
    · exact failed_retry
  · exact .doomed n id h

theorem Doomed.turn {e : TargetEv} {t : Target} (h : Doomed w n id) (ht : Turn w.target e t) :
    t.lost = true ∨ t.pc = w.target.pc ∧ t.nextID = w.target.nextID := by
  have no : ∀ {P : Prop}, (∀ rest name, w.target.pc = .call (.retry n rest name) → P) →
      (∀ rest name, w.target.pc = .wait (.retry n rest name) id → P) → P := fun h1 h2 => by
    obtain ⟨rest, name, ⟨hp, -⟩ | hp⟩ := h.pc
    · exact h1 rest name hp
    · exact h2 rest name hp
  cases ht with
  | cancel | cut _ => exact .inr ⟨rfl, rfl⟩
  | unsent hp _ =>
    refine no (fun _ _ hx => ?_) fun _ _ hx => ?_ <;> cases hp.symm.trans hx
    exact .inl failed_retry
  | failed hp =>
    refine no (fun _ _ hx => ?_) fun _ _ hx => ?_ <;> cases hp.symm.trans hx
    exact .inl failed_retry
  | noFD hp _ | takeFD hp _ | built hp | unbuilt hp | insert hp | start hp _ | started hp _ | close hp _ | closed hp _ =>
    exact no (fun _ _ hx => by cases hp.symm.trans hx) fun _ _ hx => by cases hp.symm.trans hx

theorem Stale.refuses {s : Sys} {i : Nat} {r : Reply} {a : After} (h : Stale s n id) (ha : s.source.admin = .reply i r a) :
    i = id → ∃ e, r = .error e := by
  rcases h.admin with hf | ⟨i', r', a', ha', he⟩
  · simp [ha, Admin.free] at hf
  · cases ha.symm.trans ha'
    exact he

theorem Doomed.retries {st : Stage} (h : Doomed w n id) (hp : w.target.pc = .call st) :
    ∃ rest name, st = .retry n rest name ∧ id = w.target.nextID := by
  obtain ⟨rest, name, ⟨hx, hid⟩ | hx⟩ := h.pc <;> cases hp.symm.trans hx
  exact ⟨rest, name, rfl, hid⟩

theorem Doomed.parse {a rest : List (Piece (Nat × Request))} (h : Doomed w n id) (ha : w.source.admin = .idle)
    (hp : pop w.up.buf = some (a, rest)) :
    Doomed { w with source := w.source.parses z a, up := { w.up with buf := rest } } n id := by
  obtain ⟨hb, hu⟩ := h.ups.pop hp
  refine ⟨h.orderly.parses ha a, h.pc, hu, h.downs, ?_⟩
  unfold Source.parses
  split
  · next q hq =>
    have hs : Stale (w.sys [] [q] []) n id := by
      refine ⟨fun x hx => ?_, h.stale.admin, h.stale.down, h.stale.holds⟩
      rw [List.mem_singleton.mp hx]
      exact hb q 0 (decode_some hq)
    exact hs.read rfl ha
  · exact h.stale.works (.readFailed ha)

theorem Doomed.move (h : Doomed w n id) (hm : WireMove z w w') : Fits z w' := by
  cases hm with
  | loop hl => exact .doomed n id (h.works (h.orderly.loop hl) (.set (.loop hl)) rfl rfl rfl)
  | child hc => exact .doomed n id (h.works (h.orderly.child hc) (.set (.child hc)) rfl rfl rfl)
  | hub hh => exact .doomed n id (h.works (h.orderly.hub hh) hh.works rfl rfl rfl)
  | readFailed ha => exact .doomed n id (h.works (h.orderly.readFailed ha) (.readFailed ha) rfl rfl rfl)
  | act ha _ => exact .doomed n id (h.works (h.orderly.act ha) (.act h.orderly ha) rfl rfl rfl)
  | pullUp => exact .doomed n id ⟨h.orderly, h.pc, h.ups.pull _, h.downs, h.stale⟩
  | parse ha hp => exact .doomed n id (h.parse ha hp)
  | @write i k r a ha _ =>
    refine .doomed n id ⟨h.orderly, h.pc, h.ups, ?_, h.stale⟩
    exact h.downs.write (m := (i, r)) (h.stale.refuses ha) fun c hc => List.mem_of_mem_drop (List.mem_of_mem_take hc)
  | @wrote i r a _ ha _ hx =>
    have hs := h.stale.write ha hx
    refine .doomed n id ⟨h.orderly.wrote hx, h.pc, h.ups, ?_, hs.up, hs.admin, by simp [Wire.sys], hs.holds⟩
    exact h.downs.write (m := (i, r)) (h.stale.refuses ha) fun c hc => List.mem_of_mem_drop hc
  | unwritten hx =>
    obtain ⟨⟨_, _, _, ha⟩, -⟩ := wrote_some hx
    exact .doomed n id ⟨h.orderly.wrote hx, h.pc, h.ups, h.downs, h.stale.write ha hx⟩
  | send hp _ =>
    obtain ⟨rest, name, rfl, rfl⟩ := h.retries hp
    refine .doomed n w.target.nextID ⟨h.orderly, h.pc, ?_, h.downs, h.stale⟩
    exact h.ups.write (.inr rfl) fun c hc => List.mem_of_mem_drop (List.mem_of_mem_take hc)
  | sent hp _ =>
    obtain ⟨rest, name, rfl, rfl⟩ := h.retries hp
    have hu := h.ups.write (m := (w.target.nextID, .adopt n)) (.inr rfl)
      fun c (hc : c ∈ (requestFrame z (w.target.nextID, .adopt n)).drop w.sent) => List.mem_of_mem_drop hc
    exact Doomed.hear ⟨h.orderly, ⟨rest, name, .inr rfl⟩, hu, h.downs, h.stale.retarget _⟩
  | pull hp _ => exact Doomed.hear ⟨h.orderly, h.pc, h.ups, h.downs.pull _, h.stale⟩
  | pullFD hp _ => obtain ⟨rest, name, ⟨hx, -⟩ | hx⟩ := h.pc <;> cases hp.symm.trans hx
  | truncated _ ht =>
    rcases h.turn ht with hl | ⟨hp, hn⟩
    · exact .lost hl
    · exact .doomed n id
        ⟨h.orderly, hp.symm ▸ hn.symm ▸ h.pc, h.ups, h.downs.drop _, h.stale.retarget _⟩
  | unsent hp =>
    obtain ⟨rest, name, rfl, -⟩ := h.retries hp
    exact .lost failed_retry
  | turn _ ht =>
    rcases h.turn ht with hl | ⟨hp, hn⟩
    · exact .lost hl
    · exact .doomed n id ⟨h.orderly, hp.symm ▸ hn.symm ▸ h.pc, h.ups, h.downs, h.stale.retarget _⟩

end Doomed

/-! ## Before the commit -/

section Clean

variable {owed : List Nat} {up : List (Nat × Request)} {down : List (Nat × Reply)} {st : Stage} {id : Nat}

theorem Sending.plain {tail : List (Cell (Nat × Request) Nat)} (h : Sending z w tail) : ∀ c ∈ tail, c.piece ≠ .newline := by
  cases h with
  | none _ => simp
  | part _ hl => exact frame_take_plain hl

theorem Writing.plain {quiet : Prop} {tail : List (Cell (Nat × Reply) Nat)} (h : Writing z w quiet tail) :
    ∀ c ∈ tail, c.piece ≠ .newline := by
  cases h with
  | none _ => simp
  | part _ hl | left _ _ _ hl => exact frame_take_plain hl

theorem Sending.keep {tail : List (Cell (Nat × Request) Nat)} (h : Sending z w tail) (hs : w'.sent = w.sent)
    (hp : w'.target.pc = w.target.pc) (hn : w'.target.nextID = w.target.nextID)
    (hr : w'.target.prepared = w.target.prepared) : Sending z w' tail := by
  cases h with
  | none h => exact .none (hs.trans h)
  | @part st hc hl =>
    have hq : w'.target.request st = w.target.request st := by cases st <;> simp [Target.request, Target.names, hr]
    rw [← hs, ← hn, ← hq] at hl ⊢
    exact .part (hp.trans hc) hl

/-- Away from a call nothing is being sent. -/
theorem Sending.over {tail : List (Cell (Nat × Request) Nat)} (h : Sending z w tail) (hp : ∀ st, w.target.pc ≠ .call st) :
    w.sent = 0 ∧ tail = [] := by
  cases h with
  | none h => exact ⟨h, rfl⟩
  | part hc _ => exact absurd hc (hp _)

theorem Works.refl (s : Source) : Works s s :=
  ⟨.refl s, fun h => ⟨h, fun _ => id⟩, fun _ _ _ h => ⟨h, rfl⟩, fun _ _ => id⟩

/-- The source works on. -/
theorem Writing.works {quiet quiet' : Prop} {tail : List (Cell (Nat × Reply) Nat)} (h : Writing z w quiet tail)
    (hw : Works w.source w'.source) (hn : w'.written = w.written) (ht : w'.target.pc = w.target.pc) (hq : quiet → quiet') :
    Writing z w' quiet' tail := by
  cases h with
  | none h => exact .none (hn.trans h)
  | part ha hl => exact hn ▸ .part (hw.reply _ _ _ ha).1 (hn.symm ▸ hl)
  | left h hp hx hl => exact .left (hn.trans h) (ht.trans hp) (hq hx) hl

theorem steady_lost {t : Target} (h : t.pc.steady = true) (hs : t.skipped = []) : t.lost = false ∧ t.pc.owns = false := by
  cases hp : t.pc with
  | call st | wait st _ => cases st <;> simp_all [Pc.steady, Target.lost, Pc.owns]
  | _ => simp_all [Pc.steady, Target.lost, Pc.owns]

/-- What the target has, as long as it has not failed and owns nothing. -/
theorem LiveInv.settled (hl : LiveInv (w.live owed up down)) (h1 : w.target.lost = false) (h2 : w.target.pc.owns = false) :
    (∀ a ∈ w.target.prepared, Exact w.source a) ∧ At (w.sys owed up down) w.target.pc := by
  cases hl.inv.phase with
  | lost h _ _ => exact absurd (h1.symm.trans h) (by decide)
  | given h _ _ _ => exact absurd (h2.symm.trans h) (by decide)
  | clean _ _ _ h4 h5 => exact ⟨h4, h5⟩

theorem Clean.here (h : Clean z w owed up down) : At (w.sys owed up down) w.target.pc :=
  have ⟨h1, h2⟩ := steady_lost h.steady h.skipped
  (h.live.settled h1 h2).2

theorem LiveInv.sys_move {l : Live} {e : Ev} {s : Sys} (hi : LiveInv l) (hm : Move l.sys e s)
    (he : e ≠ .source (.act .listed)) : LiveInv ⟨s, l.inventory⟩ := by
  have := hi.move (.sys hm fun h => absurd h he)
  rwa [if_neg he] at this

theorem Clean.works {source : Source} {inv : List Nat} (h : Clean z w owed up down) (hw : Works w.source source)
    (hl : LiveInv ({ w with source := source, inventory := inv }.live owed up down)) :
    Clean z { w with source := source, inventory := inv } owed up down := by
  obtain ⟨f1, t1, hf1, hs⟩ := h.ups
  obtain ⟨f2, t2, hr, hf2, hwr⟩ := h.downs
  exact ⟨hl, h.steady, h.skipped, ⟨f1, t1, hf1, hs.keep rfl rfl rfl rfl⟩,
    f2, t2, hr, hf2, hwr.works hw rfl rfl fun hq => hq.works hw⟩

/-! ### Where a call leads -/

theorem failed_steady (h : (Pc.call st).steady = true) :
    (∀ t : Target, (t.failed st).lost = true) ∨ ∃ n rest name master, st = .snapshot n rest name master := by
  cases st with
  | list => exact .inl fun t => rfl
  | adopt n rest => exact .inl fun t => (skip_lost _ _ _).1
  | snapshot n rest name master => exact .inr ⟨n, rest, name, master, rfl⟩
  | commit => exact .inl fun t => giveUp_lost.1
  | _ => cases h

/-- The reply leads on to `pc`, whatever has been received. -/
def Leads (t : Target) (st : Stage) (id : Nat) (q : Nat × Reply) (pc : Pc) : Prop :=
  (pc.steady = true ∨ pc = .insert ∨ ∃ n rest name, pc = .call (.retry n rest name)) ∧
    ∀ r, { t with received := r }.hears st id q = { t with received := r }.goto pc

theorem hears_failed {t : Target} {q : Nat × Reply} (h : (Pc.call st).steady = true)
    (hr : ∀ r, { t with received := r }.hears st id q = { t with received := r }.failed st) :
    (t.hears st id q).lost = true ∨ ∃ pc, Leads t st id q pc := by
  rcases failed_steady h with hf | ⟨n, rest, name, master, rfl⟩
  · left
    rw [show t.hears st id q = t.failed st from hr t.received]
    exact hf t
  · exact .inr ⟨.call (.retry n rest name), .inr (.inr ⟨n, rest, name, rfl⟩), hr⟩

theorem hears_steady {t : Target} (hs : t.skipped = []) (h : (Pc.call st).steady = true) (id : Nat) (q : Nat × Reply) :
    (t.hears st id q).lost = true ∨ ∃ pc, Leads t st id q pc := by
  by_cases hid : q.1 = id
  case neg => exact hears_failed h fun r => if_neg hid
  obtain ⟨i, r⟩ := q
  obtain rfl : i = id := hid
  cases st with
  | list =>
    cases r with
    | listed names =>
      cases names with
      | nil => exact .inr ⟨.call .commit, .inl rfl, fun r => by simp [Target.hears, Target.answered, Target.next, hs]⟩
      | cons n rest => exact .inr ⟨.call (.adopt n rest), .inl rfl, fun r => by simp [Target.hears, Target.answered, Target.next]⟩
    | _ => exact hears_failed h fun r => by simp [Target.hears, Target.answered]
  | adopt n rest =>
    cases r with
    | adopted name alive fd =>
      refine .inr ⟨if alive then .takeFD n rest name none else .call (.snapshot n rest name none), .inl ?_, fun r => ?_⟩
      · cases alive <;> rfl
      · simp [Target.hears, Target.answered]
    | _ => exact hears_failed h fun r => by simp [Target.hears, Target.answered]
  | snapshot n rest name master =>
    cases r with
    | snapshot => exact .inr ⟨.build n rest name master, .inl rfl, fun r => by simp [Target.hears, Target.answered]⟩
    | _ => exact hears_failed h fun r => by simp [Target.hears, Target.answered]
  | commit =>
    cases r with
    | resolved k =>
      by_cases hk : k = t.prepared.length
      · exact .inr ⟨.insert, .inr (.inl rfl), fun r => by simp [Target.hears, Target.answered, hk]⟩
      · exact hears_failed h fun r => by simp [Target.hears, Target.answered, hk, Target.failed]
    | _ => exact hears_failed h fun r => by simp [Target.hears, Target.answered]
  | _ => cases h

/-! ### Out of step -/

/-- The commit is answered. -/
theorem Owned.of (hl : LiveInv (w.live owed up down)) (hs : w.target.skipped = []) (hp : w.target.pc = .insert)
    (hu : w.up.Within (· ∈ up)) : Owned w := by
  have ⟨hx, hg⟩ := hl.settled (by simp [Target.lost, hp]) (by rw [hp]; rfl)
  rw [hp] at hg
  have asked : ¬ ((∃ i, w.source.admin = .listing i) ∨ ∃ i, (i, .list) ∈ up) := fun h => by
    rcases hl.whole.asked h with ⟨id, h⟩ | h <;> cases hp.symm.trans h
  refine ⟨hl.inv.orderly, .inl hp, fun a ha => ⟨hx a ha, hg a ha⟩, ?_, hl.inventory, fun i h => asked (.inl ⟨i, h⟩),
    hu.mono fun q hq hl => asked (.inr ⟨q.1, hl ▸ hq⟩)⟩
  have hc : w.target.names ++ [] = w.inventory :=
    hl.whole.covers [] (by rw [show (w.live owed up down).sys.target.pc = _ from hp]; rfl) hs
  rwa [List.append_nil] at hc

/-- A snapshot has failed. -/
theorem Doomed.of {n name : Nat} {rest : List Nat} (hl : LiveInv (w.live owed up down)) (hs : w.target.skipped = [])
    (hp : w.target.pc = .call (.retry n rest name))
    (hu : w.up.Within fun q => q ∈ up ∨ (∃ m, q.2 = .snapshot m) ∧ q.1 ≠ w.target.nextID)
    (hd : w.down.Within fun q => q ∈ down ∨ (∃ a, w.source.admin = .reply q.1 q.2 a) ∨ q.1 ≠ w.target.nextID) :
    Doomed w n w.target.nextID := by
  have ⟨_, hst⟩ := hl.settled (by simp [Target.lost, hp, hs]) (by rw [hp]; rfl)
  rw [hp] at hst
  have hst : Stale (w.sys owed up down) n w.target.nextID := hst
  refine ⟨hl.inv.orderly, ⟨rest, name, .inl ⟨hp, rfl⟩⟩, hu.mono fun q hq => hq.elim (hst.up q) .inl, hd.mono fun q hq hid => ?_,
    by simp [Wire.sys], hst.admin, by simp [Wire.sys], hst.holds⟩
  rcases hq with hq | ⟨a, ha⟩ | hne
  · exact hst.down q hq hid
  · exact hst.refuses ha hid
  · exact absurd hid hne

/-- While the target waits, at most a part of a reply to its own call follows the messages. -/
theorem Writing.within {p : Pipe (Nat × Reply) Nat} {fds : List Nat} {quiet : Prop} {tail : List (Cell (Nat × Reply) Nat)}
    (h : Writing z w quiet tail) (hp : w.target.pc = .wait st id)
    (hf : Feeds z.reply (fun q => q.2.fd) p fds down tail) :
    p.Within fun q => q ∈ down ∨ (∃ a, w.source.admin = .reply q.1 q.2 a) ∨ q.1 = id := by
  refine hf.within (fun _ hq => .inl hq) fun c hc => ?_
  cases h with
  | none _ => cases hc
  | @part i r a ha _ => exact ⟨(i, r), .inr (.inl ⟨a, ha⟩), List.mem_of_mem_take hc⟩
  | @left _ id' _ r _ hp' _ _ =>
    cases hp.symm.trans hp'
    exact ⟨(id, r), .inr (.inr rfl), List.mem_of_mem_take hc⟩

theorem Clean.requests (h : Clean z w owed up down) (hp : ∀ st, w.target.pc ≠ .call st) : w.up.Within (· ∈ up) := by
  obtain ⟨f1, t1, hf1, hs⟩ := h.ups
  obtain ⟨-, rfl⟩ := hs.over hp
  exact hf1.within (fun _ hq => hq) (by simp)

/-- The number of the call the target waits at. -/
theorem Clean.number (h : Clean z w owed up down) (hp : w.target.pc = .wait st id) : id < w.target.nextID := by
  have hst := h.steady
  have hx := h.here
  rw [hp] at hst hx
  cases st with
  | list | adopt _ _ | snapshot _ _ _ _ | commit => exact hx.2.2.1
  | _ => cases hst

theorem reply_fds {r : Reply} : r.fds = r.fd.toList := by cases r <;> rfl

/-- The call fails while the target waits, and with it the adoption, or a snapshot. -/
theorem Clean.failed {d : Pipe (Nat × Reply) Nat} (h : Clean z w owed up down) (hp : w.target.pc = .wait st id)
    (hd : ∀ P, w.down.Within P → d.Within P) : Fits z { w with target := w.target.failed st, down := d } := by
  have hst : (Pc.call st).steady = true := by have := h.steady; rw [hp] at this; exact this
  rcases failed_steady hst with hf | ⟨n, rest, name, master, rfl⟩
  · exact .lost (hf _)
  · have hl := h.live.sys_move (.target (.act (.failed (show (w.live owed up down).sys.target.pc = _ from hp)))) (by simp)
    obtain ⟨f2, t2, -, hf2, hwr⟩ := h.downs
    refine .doomed _ _ (Doomed.of (w := { w with target := w.target.failed (.snapshot n rest name master), down := d })
      hl h.skipped rfl ((h.requests (by simp [hp])).mono fun q => .inl) ((hd _ (hwr.within hp hf2)).mono fun q hq => ?_))
    exact hq.imp_right fun hq => hq.imp_right fun hq => by rw [hq]; exact Nat.ne_of_lt (h.number hp)

/-- Nothing is left to be heard of a failed reply. -/
theorem Writing.heard {q : Nat × Reply} {quiet : Prop} {tail : List (Cell (Nat × Reply) Nat)}
    (h : Writing z w (w.sys owed up (q :: down)).Quiet tail) (hs : w'.source = w.source) (hn : w'.written = w.written) :
    Writing z w' quiet tail := by
  cases h with
  | none h => exact .none (hn.trans h)
  | part ha hl => exact hn ▸ .part (hs ▸ ha) (hn.symm ▸ hl)
  | left _ _ hq _ => cases hq.2.1

theorem Clean.hear (h : Clean z w owed up down) (hc : w.target.closed = false) : Fits z (w.hear z) := by
  unfold Wire.hear
  split
  · rename_i st id a rest hp hb
    obtain ⟨f2, t2, hr, hf2, hwr⟩ := h.downs
    obtain ⟨q, down', fds, rfl, rfl, rfl, hf⟩ := hf2.pop hwr.plain hb
    have hst : (Pc.call st).steady = true := by have := h.steady; rw [hp] at this; exact this
    simp only [Target.parses, decode_bytes]
    rcases hears_steady h.skipped hst id q with hx | ⟨pc, hpc, hx⟩
    · exact .lost hx
    rw [show w.target.hears st id q = w.target.goto pc from hx w.target.received]
    have hl : LiveInv ⟨⟨w.source, { w.target with received := owed }.receives st id q, up, down', []⟩, w.inventory⟩ :=
      h.live.sys_move (.target (.recv (show (w.live owed up (q :: down')).sys.target.pc = _ from hp) rfl hc)) (by simp)
    have hrecv : ({ w.target with received := owed } : Target).receives st id q =
      { w.target with received := owed ++ q.2.fds }.goto pc := hx (owed ++ q.2.fds)
    rw [hrecv] at hl
    have hcall : ∀ st, w.target.pc ≠ .call st := by simp [hp]
    rcases hpc with hpc | rfl | ⟨n, r, name, rfl⟩
    · obtain ⟨f1, t1, hf1, hs⟩ := h.ups
      obtain ⟨hz, rfl⟩ := hs.over hcall
      have hclean : Clean z { w with target := w.target.goto pc, down := { w.down with buf := rest } } (owed ++ q.2.fds) up down' := by
        refine ⟨hl, hpc, h.skipped, ⟨f1, [], hf1, .none hz⟩, fds, t2, ?_, hf, hwr.heard rfl rfl⟩
        rw [show (w.target.goto pc).received = _ from hr, reply_fds, List.append_assoc]
      exact .clean hclean
    · exact .owned (Owned.of hl h.skipped rfl (h.requests hcall))
    · refine .doomed _ _ (Doomed.of (w := { w with target := w.target.goto (.call (.retry n r name)), down := { w.down with buf := rest } })
        hl h.skipped rfl ((h.requests hcall).mono fun q => .inl) ((hwr.within hp hf).mono fun q hq => ?_))
      exact hq.imp_right fun hq => hq.imp_right fun hq => by rw [hq]; exact Nat.ne_of_lt (h.number hp)
  · exact .clean h

/-! ### Steps -/

theorem Clean.parse {a rest : List (Piece (Nat × Request))} (h : Clean z w owed up down) (ha : w.source.admin = .idle)
    (hb : pop w.up.buf = some (a, rest)) :
    Fits z { w with source := w.source.parses z a, up := { w.up with buf := rest } } := by
  obtain ⟨f1, t1, hf1, hs⟩ := h.ups
  obtain ⟨f2, t2, hr, hf2, hwr⟩ := h.downs
  obtain ⟨q, up', fds, rfl, rfl, -, hf⟩ := hf1.pop hs.plain hb
  simp only [Source.parses, decode_bytes]
  have hl := h.live.sys_move (.read (show (w.live owed (q :: up') down).sys.source.admin = _ from ha) rfl) (by simp)
  have hwr' : Writing z { w with source := w.source.handle q.1 q.2, up := { w.up with buf := rest } }
      (Wire.sys { w with source := w.source.handle q.1 q.2, up := { w.up with buf := rest } } owed up' down).Quiet t2 := by
    cases hwr with
    | none hz => exact .none hz
    | part hx _ => cases ha.symm.trans hx
    | left _ _ hq _ => cases hq.1
  exact .clean ⟨hl, h.steady, h.skipped, ⟨fds, t1, hf, hs.keep rfl rfl rfl rfl⟩, f2, t2, hr, hf2, hwr'⟩

/-- The reply the source is at, as far as it is written. -/
theorem Writing.writes {i : Nat} {r : Reply} {a : After} {tail : List (Cell (Nat × Reply) Nat)}
    (h : Writing z w (w.sys owed up down).Quiet tail) (ha : w.source.admin = .reply i r a) :
    tail = (replyFrame z (i, r)).take w.written := by
  cases h with
  | none hz => rw [hz, List.take_zero]
  | part hx _ => cases ha.symm.trans hx; rfl
  | left _ _ hq _ =>
    have : w.source.admin.free = true := hq.2.2
    simp [ha, Admin.free] at this

theorem Clean.write {i k : Nat} {r : Reply} {a : After} (h : Clean z w owed up down) (ha : w.source.admin = .reply i r a)
    (hk : w.written + k < (replyFrame z (i, r)).length) : Clean z { w with
      down := w.down.write (((replyFrame z (i, r)).drop w.written).take k), written := w.written + k } owed up down := by
  obtain ⟨f2, t2, hr, hf2, hwr⟩ := h.downs
  obtain ⟨f1, t1, hf1, hs⟩ := h.ups
  refine ⟨h.live, h.steady, h.skipped, ⟨f1, t1, hf1, hs.keep rfl rfl rfl rfl⟩, f2, _, hr, hf2.write _, ?_⟩
  rw [hwr.writes ha, ← List.take_add]
  exact .part ha hk

theorem Clean.wrote {i : Nat} {r : Reply} {a : After} {source : Source} (h : Clean z w owed up down)
    (ha : w.source.admin = .reply i r a) (hc : w.target.closed = false) (hx : w.source.wrote true = some source) :
    Clean z { w with source := source, down := w.down.write ((replyFrame z (i, r)).drop w.written), written := 0 }
      owed up (down ++ [(i, r)]) := by
  obtain ⟨f2, t2, hr, hf2, hwr⟩ := h.downs
  obtain ⟨f1, t1, hf1, hs⟩ := h.ups
  have hl := h.live.sys_move (.write (show (w.live owed up down).sys.source.admin = _ from ha) hx fun _ => hc) (by simp)
  have hf := hf2.write ((replyFrame z (i, r)).drop w.written)
  rw [hwr.writes ha, List.take_append_drop] at hf
  exact ⟨hl, h.steady, h.skipped, ⟨f1, t1, hf1, hs.keep rfl rfl rfl rfl⟩, f2, [], hr, hf.whole, .none rfl⟩

/-- While the source is at a reply, the target waits for it. -/
theorem Clean.served {i : Nat} {r : Reply} {a : After} (h : Clean z w owed up down) (ha : w.source.admin = .reply i r a) :
    up = [] ∧ down = [] ∧ ∃ st, w.target.pc = .wait st i := by
  have busy : ¬ (w.sys owed up down).Quiet := fun hq => by
    have : w.source.admin.free = true := hq.2.2
    simp [ha, Admin.free] at this
  have hst := h.steady
  have hx := h.here
  have carried : ∀ id req, Carries (w.sys owed up down) id req → up = [] ∧ down = [] ∧ id = i := by
    intro id req hc
    cases hc with
    | up _ _ hf | down _ _ hf _ =>
      have : w.source.admin.free = true := hf
      simp [ha, Admin.free] at this
    | lost hq => exact absurd hq busy
    | source hu hd hs =>
      rw [show (w.sys owed up down).source = w.source from rfl] at hs
      simp only [Source.Serves, ha] at hs
      exact ⟨hu, hd, hs.1.symm⟩
  cases hp : w.target.pc with
  | call st =>
    rw [hp] at hst hx
    cases st with
    | list | adopt _ _ | snapshot _ _ _ _ | commit => exact absurd hx.2.2 busy
    | _ => cases hst
  | wait st id =>
    rw [hp] at hst hx
    cases st with
    | list | adopt _ _ | snapshot _ _ _ _ | commit =>
      obtain ⟨hu, hd, rfl⟩ := carried _ _ hx.2.2.2
      exact ⟨hu, hd, _, rfl⟩
    | _ => cases hst
  | takeFD n rest name again =>
    rw [hp] at hst hx
    cases again with
    | none => exact absurd hx.2.2.2 busy
    | some _ => cases hst
  | build n rest name master => rw [hp] at hx; exact absurd hx.2.2.2 busy
  | _ => rw [hp] at hst; cases hst

theorem Clean.unwritten {source : Source} (h : Clean z w owed up down) (hx : w.source.wrote false = some source) :
    Clean z { w with source := source, written := 0 } owed up down := by
  obtain ⟨f2, t2, hr, hf2, hwr⟩ := h.downs
  obtain ⟨f1, t1, hf1, hs⟩ := h.ups
  obtain ⟨⟨i, r, a, ha⟩, -, -, -, hidle⟩ := wrote_some hx
  have hl := h.live.sys_move (.write (show (w.live owed up down).sys.source.admin = _ from ha) hx (by simp)) (by simp)
  obtain ⟨rfl, rfl, st, hp⟩ := h.served ha
  refine ⟨hl, h.steady, h.skipped, ⟨f1, t1, hf1, hs.keep rfl rfl rfl rfl⟩, f2, t2, hr, hf2, ?_⟩
  cases hwr with
  | none _ => exact .none rfl
  | part hy hlt =>
    cases ha.symm.trans hy
    have hf : source.admin.free = true := by rcases hidle with hi | hi <;> rw [hi] <;> rfl
    exact .left rfl hp ⟨rfl, rfl, hf⟩ hlt
  | left hz hy hq hlt =>
    have : w.source.admin.free = true := hq.2.2
    simp [ha, Admin.free] at this

/-- The request the target is at, as far as it is written. -/
theorem Sending.sends {tail : List (Cell (Nat × Request) Nat)} (h : Sending z w tail) (hp : w.target.pc = .call st) :
    tail = (requestFrame z (w.target.nextID, w.target.request st)).take w.sent := by
  cases h with
  | none hz => rw [hz, List.take_zero]
  | part hx _ => cases hp.symm.trans hx; rfl

/-- Between two calls no reply is left half written. -/
theorem Writing.between {quiet quiet' : Prop} {tail : List (Cell (Nat × Reply) Nat)} (h : Writing z w quiet tail)
    (hp : ∀ st id, w.target.pc ≠ .wait st id) (hs : w'.source = w.source) (hn : w'.written = w.written) :
    Writing z w' quiet' tail := by
  cases h with
  | none h => exact .none (hn.trans h)
  | part ha hl => exact hn ▸ .part (hs ▸ ha) (hn.symm ▸ hl)
  | left _ hx _ _ => exact absurd hx (hp _ _)

theorem Clean.send {k : Nat} (h : Clean z w owed up down) (hp : w.target.pc = .call st)
    (hk : w.sent + k < (requestFrame z (w.target.nextID, w.target.request st)).length) : Clean z { w with
      up := w.up.write (((requestFrame z (w.target.nextID, w.target.request st)).drop w.sent).take k),
      sent := w.sent + k } owed up down := by
  obtain ⟨f2, t2, hr, hf2, hwr⟩ := h.downs
  obtain ⟨f1, t1, hf1, hs⟩ := h.ups
  refine ⟨h.live, h.steady, h.skipped, ⟨f1, _, hf1.write _, ?_⟩, f2, t2, hr, hf2, hwr.between (by simp [hp]) rfl rfl⟩
  rw [hs.sends hp, ← List.take_add]
  exact .part hp hk

theorem Clean.sent (h : Clean z w owed up down) (hp : w.target.pc = .call st) (hc : w.target.closed = false) :
    Clean z { w with
      target := w.target.sent st,
      up := w.up.write ((requestFrame z (w.target.nextID, w.target.request st)).drop w.sent), sent := 0 }
      owed (up ++ [(w.target.nextID, w.target.request st)]) down := by
  obtain ⟨f2, t2, hr, hf2, hwr⟩ := h.downs
  obtain ⟨f1, t1, hf1, hs⟩ := h.ups
  have hl := h.live.sys_move (.target (.send (show (w.live owed up down).sys.target.pc = _ from hp) hc)) (by simp)
  have hf := hf1.write ((requestFrame z (w.target.nextID, w.target.request st)).drop w.sent)
  rw [hs.sends hp, List.take_append_drop] at hf
  have hst := h.steady
  rw [hp] at hst
  exact ⟨hl, hst, h.skipped, ⟨f1, [], hf.whole, .none rfl⟩, f2, t2, hr, hf2, hwr.between (by simp [hp]) rfl rfl⟩

theorem Clean.pull (h : Clean z w owed up down) (k : Nat) : Clean z (w.read k) owed up down := by
  obtain ⟨f2, t2, hr, hf2, hwr⟩ := h.downs
  obtain ⟨f1, t1, hf1, hs⟩ := h.ups
  refine ⟨h.live, h.steady, h.skipped, ⟨f1, t1, hf1, hs.keep rfl rfl rfl rfl⟩, f2 ++ w.down.pulled k, t2, ?_, hf2.pull k, ?_⟩
  · rw [← List.append_assoc, ← hr]
    rfl
  · exact hwr.works (.refl _) rfl rfl id

/-- The descriptor is there when the target takes it. -/
theorem Clean.taken {n name : Nat} {rest : List Nat} {again : Option Nat} (h : Clean z w owed up down)
    (hp : w.target.pc = .takeFD n rest name again) : again = none ∧ name = n ∧ owed = [n] := by
  have hst := h.steady
  have hx := h.here
  rw [hp] at hst hx
  cases again with
  | none => exact ⟨rfl, hx.1, hx.2.2.1⟩
  | some _ => cases hst

theorem Clean.unsent (h : Clean z w owed up down) (hp : w.target.pc = .call st) :
    Fits z { w with target := w.target.unsent st (w.sent != 0), sent := 0 } := by
  have hst := h.steady
  have hx := h.here
  rw [hp] at hst hx
  rcases failed_steady hst with hf | ⟨n, rest, name, master, rfl⟩
  · exact .lost (hf _)
  obtain ⟨f2, t2, hr, hf2, hwr⟩ := h.downs
  obtain ⟨f1, t1, hf1, hs⟩ := h.ups
  have hle : w.target.nextID ≤ (w.target.unsent (.snapshot n rest name master) (w.sent != 0)).nextID := by
    simp only [Target.unsent, Target.failed, Target.goto]
    split <;> omega
  have hl := h.live.sys_move (.target (.act (.unsent (show (w.live owed up down).sys.target.pc = _ from hp) hle))) (by simp)
  refine .doomed _ _ (Doomed.of (w := { w with target := w.target.unsent (.snapshot n rest name master) (w.sent != 0), sent := 0 })
    hl h.skipped rfl ?_ ?_)
  · refine hf1.within (fun _ hq => .inl hq) fun c hc => ⟨(w.target.nextID, .snapshot name), .inr ⟨⟨name, rfl⟩, ?_⟩, ?_⟩
    · -- a request that was begun has its number
      have hz : w.sent ≠ 0 := fun hz => by rw [hs.sends hp, hz, List.take_zero] at hc; cases hc
      have : (w.target.unsent (.snapshot n rest name master) (w.sent != 0)).nextID = w.target.nextID + 1 := by
        simp [Target.unsent, Target.failed, Target.goto, hz]
      exact this ▸ Nat.ne_of_lt (Nat.lt_succ_self _)
    · rw [hs.sends hp] at hc
      exact List.mem_of_mem_take hc
  · refine hf2.within (fun _ hq => .inl hq) fun c hc => ?_
    cases hwr with
    | none _ => cases hc
    | @part i r a ha _ => exact ⟨(i, r), .inr (.inl ⟨a, ha⟩), List.mem_of_mem_take hc⟩
    | left _ hy _ _ => cases hp.symm.trans hy

theorem next_steady {t : Target} (hs : t.skipped = []) (rest : List Nat) :
    ∃ pc : Pc, pc.steady = true ∧ ∀ r, { t with received := r }.next rest = { t with received := r }.goto pc := by
  cases rest with
  | nil => exact ⟨.call .commit, rfl, fun r => by simp [Target.next, hs]⟩
  | cons n rest => exact ⟨.call (.adopt n rest), rfl, fun r => rfl⟩

theorem Clean.turn {e : TargetEv} {t : Target} (h : Clean z w owed up down) (hne : ∀ st, w.target.pc = .call st → e ≠ .fail)
    (ht : Turn w.target e t) : Fits z { w with target := t } := by
  obtain ⟨f2, t2, hr, hf2, hwr⟩ := h.downs
  obtain ⟨f1, t1, hf1, hs⟩ := h.ups
  have no : ∀ {P : Prop}, w.target.pc.steady = false → P := fun hx => absurd (h.steady.symm.trans hx) (by decide)
  cases ht with
  | cancel =>
    have hl := h.live.sys_move (.target (.act .cancel)) (by simp)
    exact .clean (w := { w with target := _ }) ⟨hl, h.steady, h.skipped, ⟨f1, t1, hf1, hs.keep rfl rfl rfl rfl⟩,
      f2, t2, hr, hf2, hwr.works (.refl _) rfl rfl id⟩
  | cut hx =>
    have hl := h.live.sys_move (.target (.act (.cut hx))) (by simp)
    exact .clean (w := { w with target := _ }) ⟨hl, h.steady, h.skipped, ⟨f1, t1, hf1, hs.keep rfl rfl rfl rfl⟩,
      f2, t2, hr, hf2, hwr.works (.refl _) rfl rfl id⟩
  | unsent hp _ => exact absurd rfl (hne _ hp)
  | failed hp => exact h.failed hp fun _ => id
  | noFD _ _ | unbuilt _ => exact .lost (skip_lost _ _ _).1
  | @takeFD n name fd rest received again hp hfd =>
    -- the descriptors come in the order of the replies
    obtain ⟨rfl, rfl, rfl⟩ := h.taken hp
    cases hfd.symm.trans hr
    obtain ⟨hz, rfl⟩ := hs.over (by simp [hp])
    have hl := h.live.sys_move (.target (.act (.takeFD (show (w.live [name] up down).sys.target.pc = _ from hp) rfl))) (by simp)
    exact .clean (w := { w with target := _ }) ⟨hl, rfl, h.skipped, ⟨f1, [], hf1, .none hz⟩, f2, t2, rfl, hf2,
      hwr.between (by simp [hp]) rfl rfl⟩
  | @built n name rest master hp =>
    obtain ⟨hz, rfl⟩ := hs.over (by simp [hp])
    obtain ⟨pc, hpc, hx⟩ := next_steady (t := w.target.prepare ⟨name, master, false⟩) h.skipped rest
    have hl : LiveInv ⟨⟨w.source, ({ w.target.prepare ⟨name, master, false⟩ with received := owed }).next rest, up, down, []⟩,
      w.inventory⟩ := h.live.sys_move (.target (.act (.built (show (w.live owed up down).sys.target.pc = _ from hp)))) (by simp)
    rw [hx owed] at hl
    rw [show (w.target.prepare ⟨name, master, false⟩).next rest = _ from hx w.target.received]
    exact .clean (w := { w with target := _ }) ⟨hl, hpc, h.skipped, ⟨f1, [], hf1, .none hz⟩, f2, t2, hr, hf2,
      hwr.between (by simp [hp]) rfl rfl⟩
  | insert hp | start hp _ | started hp _ | close hp _ | closed hp _ => exact no (by rw [hp]; rfl)

theorem Clean.move (h : Clean z w owed up down) (hm : WireMove z w w') : Fits z w' := by
  have ho := h.live.inv.orderly
  cases hm with
  | loop hl => exact .clean (h.works (.set (.loop hl)) (h.live.sys_move (.loop hl) (by simp)))
  | child hc => exact .clean (h.works (.set (.child hc)) (h.live.sys_move (.child hc) (by simp)))
  | hub hh => exact .clean (h.works hh.works (h.live.move (e := .opened 0) (.hub hh)))
  | readFailed ha => exact .clean (h.works (.readFailed ha) (h.live.sys_move (.readFailed ha) (by simp)))
  | act ha hk =>
    have hl := h.live.move (.sys (.act ha) fun he => hk (by simpa using he))
    simp only [Ev.source.injEq, SourceEv.act.injEq] at hl
    exact .clean (h.works (.act ho ha) hl)
  | pullUp =>
    obtain ⟨f1, t1, hf1, hs⟩ := h.ups
    obtain ⟨f2, t2, hr, hf2, hwr⟩ := h.downs
    exact .clean (w := { w with up := _ }) ⟨h.live, h.steady, h.skipped, ⟨_, t1, hf1.pull _, hs.keep rfl rfl rfl rfl⟩,
      f2, t2, hr, hf2, hwr.works (.refl _) rfl rfl id⟩
  | parse ha hb => exact h.parse ha hb
  | write ha hk => exact .clean (h.write ha hk)
  | wrote ha hc hx => exact .clean (h.wrote ha hc hx)
  | unwritten hx => exact .clean (h.unwritten hx)
  | send hp hk => exact .clean (h.send hp hk)
  | sent hp hc => exact (h.sent hp hc).hear hc
  | pull _ hc => exact (h.pull _).hear hc
  | pullFD hp hn =>
    obtain ⟨f2, t2, hr, -⟩ := h.downs
    obtain ⟨-, -, rfl⟩ := h.taken hp
    cases hn.symm.trans hr
  | truncated hne ht =>
    cases ht with
    | unsent hp _ => exact absurd hp (hne _)
    | failed hp => exact h.failed hp fun _ hw => hw.drop _
    | noFD _ _ => exact .lost (skip_lost _ _ _).1
  | unsent hp => exact h.unsent hp
  | turn hne ht => exact h.turn hne ht

end Clean

/-! ## Along a run -/

theorem Fits.move (h : Fits z w) (hm : WireMove z w w') : Fits z w' := by
  cases h with
  | lost h => exact .lost (move_lost h hm)
  | clean h => exact h.move hm
  | doomed n id h => exact h.move hm
  | owned h => exact .owned (h.move hm)

theorem Fits.init (h : (wireMachine z).init w) : Fits z w := by
  obtain ⟨sessions, hub, hrest, hn, rfl⟩ := h
  have hl : LiveInv ⟨begun sessions hub, []⟩ := .init ⟨sessions, hub, hrest, hn, rfl⟩
  have hw := hl.whole
  have hp : Phase (Wire.sys ⟨(begun sessions hub).source, (begun sessions hub).target, [], .empty, 0, .empty, 0⟩ [] [] []) :=
    .clean rfl rfl rfl (by simp [Wire.sys, begun]) ⟨trivial, rfl, rfl, rfl, rfl⟩
  exact .clean ⟨⟨⟨hl.inv.orderly, hp⟩, hn, hl.inventory, hw.covers, hw.fresh, hw.asked, hw.replies, hw.owned⟩, rfl, rfl,
    ⟨[], [], .nil, .none rfl⟩, [], [], rfl, .nil, .none rfl⟩

theorem Fits.reach {ok : Wire → WireEv → Bool} (h : (wireMachine z).Reach ok w) : Fits z w :=
  h.invariant (fun _ => .init) fun _ _ _ hi _ h => hi.move (wire_move h)

/-- What `adoptSessionsWithReport` returns when it returns no error. -/
def Target.adopted (t : Target) : Option Nat := if t.pc = .returned true then some t.prepared.length else none

/-- A target that succeeds has the sessions the source's hub held when it was listed, each
    once, and as many as it says. None of them is left in the source's hub, and each has the
    master that was sent with its own reply, or none because it had ended. -/
theorem adoption_is_complete {n : Nat} (h : (wireMachine z).Reach Machine.always w) (hn : w.target.adopted = some n) :
    w.target.hub = w.inventory ∧ w.inventory.Nodup ∧ n = w.inventory.length ∧ (∀ m ∈ w.inventory, m ∉ w.source.hub) ∧
      w.target.prepared.map Adoption.name = w.inventory ∧
      ∀ a ∈ w.target.prepared, a.master = some a.name ∨ a.master = none ∧ (w.source.sessions a.name).core.done = true := by
  obtain ⟨hp, hn⟩ := Option.ite_none_right_eq_some.mp hn
  cases Fits.reach h with
  | lost hl => simp [Target.lost, hp] at hl
  | clean hc => have := hc.steady; rw [hp] at this; cases this
  | doomed n id hd => obtain ⟨_, _, ⟨hx, -⟩ | hx⟩ := hd.pc <;> cases hp.symm.trans hx
  | owned ho =>
    have hh := (ho.owns (by simp [hp])).2
    refine ⟨hh.trans ho.whole, ho.nodup, ?_, fun m hm => ?_, ho.whole, fun a ha => (ho.exact a ha).1.2⟩
    · cases hn
      rw [← ho.whole, Target.names, List.length_map]
    · rw [← ho.whole] at hm
      obtain ⟨a, ha, rfl⟩ := List.mem_map.mp hm
      exact (ho.exact a ha).2.1

/-- A message of two bytes in one write or two, and read in two pieces. -/
def onWire : Ev → List WireEv
  | .loop n e => [.loop n e]
  | .child n e => [.child n e]
  | .source .read => [.source (.pull 1), .source (.pull 2), .source .parse]
  | .source .readFailed => [.source .readFailed]
  | .source (.write true) => [.source (.write 2), .source (.write 1)]
  | .source (.write false) => [.source .writeFailed]
  | .source (.act e) => [.source (.act e)]
  | .target .send => [.target (.send 3)]
  | .target .recv => [.target (.pull 2), .target (.pull 1)]
  | .target e => [.target (.turn e)]

def twoBytes : Sizes := ⟨fun _ => 1, fun _ => 1⟩

/-- Two sessions as in `twoSessions`. -/
def twoWired : Wire := ⟨twoSessions.source, twoSessions.target, [], .empty, 0, .empty, 0⟩

theorem twoWired_init : (wireMachine twoBytes).init twoWired := by
  obtain ⟨sessions, hub, hrest, he⟩ := twoSessions_init
  have hhub : hub = [0, 1] := by
    have := congrArg Sys.names he
    exact this.symm
  exact ⟨sessions, hub, hrest, by rw [hhub]; decide, by rw [twoWired, he]⟩

theorem adoption_is_complete_two : ∃ w : Wire, (wireMachine twoBytes).Reach Machine.always w ∧ w.target.adopted = some 2 ∧
    w.inventory = [0, 1] ∧ w.target.hub = [0, 1] ∧ 0 ∉ w.source.hub ∧ 1 ∉ w.source.hub := by
  obtain ⟨w, hw, hn, hi⟩ := (wireMachine twoBytes).exists_reach Machine.always twoWired_init
    ((preparedRun ++ committedRun ++ retiredRun).flatMap onWire)
    (P := fun w => w.target.adopted = some 2 ∧ w.inventory = [0, 1]) (by decide)
  obtain ⟨h1, -, -, h4, -⟩ := adoption_is_complete hw hn
  exact ⟨w, hw, hn, hi, h1.trans hi, h4 0 (by simp [hi]), h4 1 (by simp [hi])⟩

end Ghostline.Handoff
