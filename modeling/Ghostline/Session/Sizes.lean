/-
  Ghostline.Session.Sizes — the emulator's grid, the session's size and the last size mark.

  `Resize` changes the emulator first, so that the child's redraw meets the new grid, then
  the PTY, then `state.size` and the mark. When the PTY refuses, it returns with the
  emulator changed and the rest as before: a resize of a session whose child has exited,
  for one. From then on `AtomicState` reports a size its payload was not captured at
  (`the_sizes_come_apart`). So it does when the program itself has the emulator change its
  grid, of which the session learns nothing. When the PTY refuses only the size the session
  has already, output leaves the grid and the library resizes it when asked to, the three agree
  whenever `outputMu` is free, and a failed `Resize` leaves them as they were (`sizes_agree`).
-/

import Ghostline.Output.Marks
import Ghostline.Session.Living
import Ghostline.Session.Mutex

namespace Ghostline.Session

open Lib Lib.Gate Output

/-! ## Acts and sizes -/

variable {st : Store}

/-- The marks of the log, with the last one in force. -/
def Store.Marked (st : Store) : Prop := Output.Marked st.log st.wrote (lastMark st.log)

theorem validate_ne_zero {size : Size} (h : size.validate = .ok ()) : size ≠ 0 := by
  rintro rfl
  cases h

theorem marked_begun {log : OutputLog} (h : Output.Marked log (adopted log) none) (hk : Keeps log (adopted log))
    (hc : log.closed = false) {size : Size} (h0 : size ≠ 0) :
    Output.Marked (log.markSize size) (adopted log) (some size) := by
  simpa [hc] using h.markSize hk h0

/-- What an act does to the marks. -/
theorem marked_act (hk : Keeps st.log st.wrote) (hm : st.Marked) (act : Act) (h : ∀ size, act ≠ .markSize size)
    (hd : act ≠ .discard) : (st.act act).Marked ∧ lastMark (st.act act).log = lastMark st.log := by
  -- the newest mark is the one in force
  have key : ∀ {l w}, Output.Marked l w (lastMark st.log) → Output.Marked l w (lastMark l) ∧ lastMark l = lastMark st.log := by
    intro l w h
    have he : lastMark l = lastMark st.log := h.newest
    exact ⟨he ▸ h, he⟩
  cases act with
  | append chunk w => exact key (hm.append hk chunk w)
  | rotate fail => exact key (hm.rotate hk fail)
  | prune before order rm => exact key (hm.pruned hk (prune_spec st.log before order rm))
  | closeLog | close => exact key (hm.close none)
  | markSize size => exact absurd rfl (h size)
  | discard => exact absurd rfl hd
  | _ => exact key hm

theorem marked_mark (hk : Keeps st.log st.wrote) (hm : st.Marked) {size : Size} (h0 : size ≠ 0) :
    (st.act (.markSize size)).Marked ∧
      (st.log.closed = false → lastMark (st.act (.markSize size)).log = some size) := by
  have h := hm.markSize hk h0
  have he : lastMark (st.log.markSize size) = if st.log.closed then lastMark st.log else some size := h.newest
  refine ⟨?_, fun hc => he.trans (by simp [hc])⟩
  show Output.Marked (st.log.markSize size) st.wrote (lastMark (st.log.markSize size))
  rw [he]
  exact h

/-- Acts that leave the three sizes alone, if output does. -/
def Act.calm : Act → Bool
  | .resizeVt _ | .setSize _ | .markSize _ | .discard => false
  | _ => true

/-- The emulator keeps its size when it is given this output. -/
def Store.leaves (st : Store) (chunk : List Byte) : Bool := st.lib.fed st.vt chunk == st.vt.grid

/-- The grid is what the session takes it to be: output leaves it, and a resize succeeds. -/
def Store.obeys (st : Store) : Act → Bool
  | .feed chunk => st.leaves chunk
  | .resizeVt size => st.lib.resizes st.vt size
  | _ => true

theorem calm_sizes (hk : Keeps st.log st.wrote) (hm : st.Marked) {act : Act} (h : act.calm = true)
    (ho : st.obeys act = true) : (st.act act).sizes = st.sizes := by
  have hl := (marked_act hk hm act (by rintro size rfl; cases h) (by rintro rfl; cases h)).2
  have hs : (st.act act).vt.grid = st.vt.grid ∧ (st.act act).size = st.size := by
    cases act with
    | feed chunk =>
      have hfed : st.lib.fed st.vt chunk = st.vt.grid := beq_iff_eq.mp ho
      refine ⟨?_, rfl⟩
      simp only [Store.act, Vt.feed, hfed]
      split <;> rfl
    | resizeVt _ | setSize _ | markSize _ => cases h
    | _ => exact ⟨rfl, rfl⟩
  simp only [Store.sizes, hl, hs]

/-! ## What `outputMu` guards -/

def Agree (z : Sizes) (closed : Bool) : Prop := z.grid = z.size ∧ (closed = false → z.mark = some z.size)

/-- The sizes while a party is where it is: a resize has changed the grid from its PTY
    update on and the size from its mark on. -/
def Sized (z : Sizes) (closed : Bool) : Option Party → Prop
  | some (.op (.resizing size old r)) =>
    Agree old closed ∧ z = match r with
      | .pty | .size => { old with grid := size }
      | .mark => { old with grid := size, size := size }
      | _ => old
  | some (.op (.captured _ vt)) => Agree z closed ∧ vt.grid = z.size
  | _ => Agree z closed

theorem Agree.weaken {z : Sizes} {c c' : Bool} (h : Agree z c) (hc : c' = false → c = false) : Agree z c' :=
  ⟨h.1, fun h' => h.2 (hc h')⟩

theorem Sized.weaken {z : Sizes} {c c' : Bool} {o : Option Party} (h : Sized z c o) (hc : c' = false → c = false) :
    Sized z c' o := by
  unfold Sized at h ⊢
  split at h
  · exact ⟨h.1.weaken hc, h.2⟩
  · exact ⟨h.1.weaken hc, h.2⟩
  · exact Agree.weaken h hc

theorem sized_free {p : Party} (h : p.output = .free) {z : Sizes} {c : Bool} : Sized z c (some p) ↔ Agree z c := by
  cases p with
  | loop l => exact Iff.rfl
  | op pc => cases pc <;> first | exact Iff.rfl | cases h

/-! ## The steps -/

variable {s s' : Sys} {e : Ev} {a b : Party} {act : Act}

/-- The PTY refuses only the size the session has. -/
def ioctlAgrees (s : Sys) : Ev → Bool
  | .op i (.pty false) =>
    match s.ops[i]? with
    | some (.resizing size _ .pty) => size == s.store.size
    | _ => true
  | _ => true

/-- Output leaves the grid, and the library resizes it when asked to. -/
def gridObeys (s : Sys) : Ev → Bool
  | .loop _ _ =>
    match s.core.loop with
    | .feed chunk | .drainFeed _ _ chunk => s.store.leaves chunk
    | _ => true
  | .op i _ =>
    match s.ops[i]? with
    | some (.resizing _ _ (.feed _ chunk)) => s.store.leaves chunk
    | some (.resizing size _ .vt) => s.store.lib.resizes s.store.vt size
    | _ => true
  | _ => true

/-- Nobody ends the session, the PTY refuses only the size the session has, and the grid
    changes when the session asks for it and only then. -/
def resizesFit (s : Sys) (e : Ev) : Bool := survives s e && (ioctlAgrees s e && gridObeys s e)

/-- The size a call of `Resize` has found valid. -/
def Pc.asks : Pc → Option Size
  | .gate (.resize size) | .inside (.resize size) | .resizing size _ _ => some size
  | _ => none

/-- What a result says about the sizes: the size reported is the one captured at, and a
    failed resize left them. -/
def Result.sized : Result → Prop
  | .atomicState vt _ size => vt.grid = size
  | .resizeFailed old new => old = new
  | .checkpoint _ _ => True

structure SizedInv (s : Sys) : Prop extends Living s where
  marked : s.store.Marked
  valid : ∀ pc ∈ s.ops, ∀ size, pc.asks = some size → size.validate = .ok ()
  sized : Guarded Party.output s.parties (Sized s.store.sizes s.store.log.closed)
  results : ∀ r ∈ s.results, r.sized

theorem loopAct_calm (l : Loop) (w : OutputLog.Write) : (Sys.loopAct l w).calm = true := by
  cases l <;> rfl

/-- Outside a resize, and without an end, an act leaves the sizes. -/
theorem OpMove.calm {pc : Pc} {x : OpEv} {o : Sys.Out} (h : OpMove s pc x o) (hp : pc.ends = false)
    (hr : ∀ size old r, pc ≠ .resizing size old r) : o.act.calm = true := by
  cases h with
  | resize _ => exact absurd rfl (hr _ _ _)
  | discard => cases hp
  | _ => rfl

/-- A step does to the grid what the session takes it to do. -/
theorem PartyMove.obeys (h : PartyMove s e a b act) (hok : gridObeys s e = true) : s.store.obeys act = true := by
  cases h with
  | @loop x w c _ _ =>
    simp only [gridObeys] at hok
    cases hl : s.core.loop with
    | feed chunk | drainFeed _ _ chunk =>
      rw [hl] at hok
      exact hok
    | _ => rfl
  | @op i pc x o hp hm =>
    simp only [gridObeys, hp] at hok
    cases hm with
    | resize h =>
      cases h with
      | feed | vt => exact hok
      | _ => rfl
    | _ => rfl

/-- A resize keeps what it has changed apart from what it has not. -/
theorem ResizeMove.sized {size : Size} {old : Sizes} {r : Resize} {x : OpEv} {o : Sys.Out}
    (h : ResizeMove s size old r x o) (hi : SizedInv s) (hv : size.validate = .ok ()) (ho : s.store.obeys o.act = true)
    (hx : r = .pty → x = .pty false → size = s.store.size)
    (hz : Sized s.store.sizes s.store.log.closed (some (.op (.resizing size old r)))) :
    Sized (s.store.act o.act).sizes (s.store.act o.act).log.closed (some (.op o.pc)) := by
  obtain ⟨hold, hz⟩ := hz
  cases h with
  | drained | ready _ _ | got _ _ | readFailed | ptyOk _ => exact ⟨hold, hz⟩
  | stored _ | lost _ | feed =>
    exact ⟨hold.weaken closed_act, (calm_sizes hi.keeps hi.marked rfl ho).trans hz⟩
  | vt =>
    have hresizes : s.store.lib.resizes s.store.vt size = true := ho
    refine ⟨hold, ?_⟩
    simp only [Store.act, Store.sizes, Vt.resize, hi.alive, hv, hresizes] at hz ⊢
    simp [← hz]
  | ptyFailed =>
    -- the PTY refused the size the session has, and so had the grid
    refine ⟨hold, ?_⟩
    have hsize : size = old.grid := by
      have := hx rfl rfl
      rw [hold.1]
      simpa [Store.sizes] using this.trans (congrArg Sizes.size hz)
    rw [hsize] at hz
    exact hz
  | size =>
    have hg : s.store.vt.grid = size := congrArg Sizes.grid hz
    have hk : lastMark s.store.log = old.mark := congrArg Sizes.mark hz
    refine ⟨hold, ?_⟩
    show (⟨s.store.vt.grid, size, lastMark s.store.log⟩ : Sizes) = ⟨size, size, old.mark⟩
    rw [hg, hk]
  | mark =>
    have hm := (marked_mark hi.keeps hi.marked (validate_ne_zero hv)).2
    have hg : s.store.vt.grid = size := congrArg Sizes.grid hz
    have hs : s.store.size = size := congrArg Sizes.size hz
    refine ⟨hg.trans hs.symm, fun hc => ?_⟩
    exact (hm (closed_act hc)).trans (congrArg some hs.symm)
  | failed =>
    have : s.store.sizes = old := hz
    show Agree s.store.sizes s.store.log.closed
    rw [this]
    exact hold

/-- Every party's step keeps the sizes together, as far as they are at where it stands. -/
theorem PartyMove.sized (h : PartyMove s e a b act) (hi : SizedInv s) (hok : ioctlAgrees s e = true)
    (ho : s.store.obeys act = true)
    (ha : Sized s.store.sizes s.store.log.closed (some a)) :
    Sized (s.store.act act).sizes (s.store.act act).log.closed (some b) := by
  cases h with
  | @loop x w c _ hm =>
    have hc := calm_sizes hi.keeps hi.marked (loopAct_calm s.core.loop w) ho
    have ha : Agree s.store.sizes s.store.log.closed := ha
    show Agree _ _
    rw [hc]
    exact ha.weaken closed_act
  | @op i pc x o hp hm =>
    have hends := hi.stays pc (List.mem_of_getElem? hp)
    -- away from a resize the sizes agree before and after
    have agree : (∀ size old r, pc ≠ .resizing size old r) → Agree (s.store.act o.act).sizes (s.store.act o.act).log.closed := by
      intro hr
      have hpc : Agree s.store.sizes s.store.log.closed := by
        cases pc with
        | resizing size old r => exact absurd rfl (hr size old r)
        | captured _ _ => exact ha.1
        | _ => exact ha
      rw [calm_sizes hi.keeps hi.marked (hm.calm hends hr) ho]
      exact hpc.weaken closed_act
    cases hm with
    | @resize size old r x o hm =>
      refine hm.sized hi (hi.valid _ (List.mem_of_getElem? hp) size rfl) ho ?_ ha
      rintro rfl rfl
      simpa [ioctlAgrees, hp] using hok
    | capture _ _ => exact ⟨agree (by simp), (agree (by simp)).1⟩
    | lockResize _ => exact ⟨agree (by simp), rfl⟩
    | @check op =>
      refine (sized_free ?_).mpr (agree (by simp))
      simp [Party.output, Sys.out, enter_output op]
    | @close delete => cases hends
    | _ => exact agree (by simp)

/-- Without the lock nobody changes a size. -/
theorem PartyMove.calm (h : PartyMove s e a b act) (hi : SizedInv s) (ha : a.output = .free) : act.calm = true := by
  cases h with
  | @loop x w c _ hm => exact loopAct_calm s.core.loop w
  | @op i pc x o hp hm =>
    refine hm.calm (hi.stays pc (List.mem_of_getElem? hp)) ?_
    rintro size old r rfl
    cases ha

theorem SizedInv.guarded (h : s.step e = some s') (hok : ioctlAgrees s e = true) (hgrid : gridObeys s e = true)
    (hi : SizedInv s) :
    Guarded Party.output s'.parties (Sized s'.store.sizes s'.store.log.closed) := by
  refine step_guarded (R := fun st => Sized st.sizes st.log.closed) h hi.sized ?_ ?_ ?_ ?_
  · intro a b act hm ha _ o ho
    show Sized _ _ o
    rw [calm_sizes hi.keeps hi.marked (hm.calm hi ha) (hm.obeys hgrid)]
    exact Sized.weaken ho closed_act
  · intro a b act hm ha _ ho
    exact hm.sized hi hok (hm.obeys hgrid) ((sized_free ha).mpr ho)
  · intro a b act hm _ _ ho
    exact hm.sized hi hok (hm.obeys hgrid) ho
  · intro a b act hm _ hb ho
    exact (sized_free hb).mp (hm.sized hi hok (hm.obeys hgrid) ho)

theorem OpMove.marked {i : Nat} {pc : Pc} {x : OpEv} {o : Sys.Out} (h : OpMove s pc x o) (hi : SizedInv s)
    (hp : s.ops[i]? = some pc) : (s.store.act o.act).Marked := by
  have hmem := List.mem_of_getElem? hp
  have other : ∀ act, (∀ size, act ≠ .markSize size) → act ≠ .discard → (s.store.act act).Marked := fun act h1 h2 =>
    (marked_act hi.keeps hi.marked act h1 h2).1
  cases h with
  | resize h =>
    cases h with
    | mark => exact (marked_mark hi.keeps hi.marked (validate_ne_zero (hi.valid _ hmem _ rfl))).1
    | _ => exact other _ (by simp [Sys.out]) (by simp [Sys.out])
  | discard => cases hi.stays _ hmem
  | _ => exact other _ (by simp [Sys.out]) (by simp [Sys.out])

/-- A resize falls back on no size, so what it resolves is what it was asked for. -/
theorem resolve_valid {size y : Size} (h : size.resolve 0 = .ok y) : size.validate = .ok () := by
  simp only [Size.resolve] at h
  split at h
  · cases h
  · rename_i hv
    split at hv
    · exact absurd rfl (validate_ne_zero hv)
    · exact hv

theorem OpMove.asks {pc : Pc} {x : OpEv} {o : Sys.Out} (h : OpMove s pc x o) {size : Size}
    (ho : o.pc.asks = some size) : pc.asks = some size ∨ size.validate = .ok () := by
  cases h with
  | @check op =>
    right
    simp only [Sys.out] at ho
    cases op with
    | resize z =>
      simp only [Sys.enter] at ho
      split at ho
      · cases ho
      · rename_i y hy
        split at ho <;> cases ho
        exact resolve_valid hy
    | rotate | prune _ => cases ho
    | _ => simp only [Sys.enter] at ho; split at ho <;> cases ho
  | @share op _ => cases op <;> exact .inl ho
  | lockResize _ => exact .inl ho
  | lock _ hr => cases ho
  | close => simp only [Sys.out] at ho; split at ho <;> cases ho
  | resize h => left; cases h <;> first | exact ho | cases ho
  | _ => cases ho

theorem SizedInv.result {i : Nat} {pc : Pc} {x : OpEv} {o : Sys.Out} (hi : SizedInv s) (hp : s.ops[i]? = some pc)
    (h : OpMove s pc x o) {r : Result} (hr : o.result = some r) : r.sized := by
  have held : pc.output = true → Sized s.store.sizes s.store.log.closed (some (.op pc)) := fun ho =>
    hi.sized.held (i + 1) (.op pc) (by simp [Sys.parties, hp]) (Pc.output_iff.mpr ho)
  cases h with
  | @answer atomic vt =>
    have hv : vt.grid = s.store.size := (held rfl).2
    simp only [Sys.answer] at hr
    split at hr
    · cases atomic <;> cases hr
      · trivial
      · exact hv
    · cases hr
  | resize h =>
    cases h with
    | failed => cases hr; exact (held rfl).2.symm
    | _ => cases hr
  | _ => cases hr

theorem SizedInv.step (h : s.step e = some s') (hok : resizesFit s e = true) (hi : SizedInv s) : SizedInv s' := by
  obtain ⟨hsur, hio, hgrid⟩ : survives s e = true ∧ ioctlAgrees s e = true ∧ gridObeys s e = true := by
    simpa [resizesFit] using hok
  have living := hi.toLiving.step h hsur
  have sized := hi.guarded h hio hgrid
  cases step_move h with
  | @loop x w c _ _ =>
    have hc := loopAct_calm s.core.loop w
    have hm := marked_act hi.keeps hi.marked (Sys.loopAct s.core.loop w) (by rintro size hs; rw [hs] at hc; cases hc)
      (by intro hs; rw [hs] at hc; cases hc)
    exact ⟨living, hm.1, hi.valid, sized, hi.results⟩
  | @op i x pc o hp hm =>
    refine ⟨living, hm.marked hi hp, fun q hq size hs => ?_, sized, fun r hr => ?_⟩
    · rcases List.mem_or_eq_of_mem_set hq with hq | rfl
      · exact hi.valid q hq size hs
      · exact (hm.asks hs).elim (hi.valid pc (List.mem_of_getElem? hp) size) id
    · rcases List.mem_append.mp hr with hr | hr
      · exact hi.results r hr
      · exact hi.result hp hm (by simpa using hr)
  | call =>
    refine ⟨living, hi.marked, fun q hq size hs => ?_, sized, hi.results⟩
    rcases List.mem_append.mp hq with hq | hq
    · exact hi.valid q hq size hs
    · rw [List.mem_singleton.mp hq] at hs; cases hs
  | _ => exact ⟨living, hi.marked, hi.valid, sized, hi.results⟩

/-- The log a session begins with has no mark yet. -/
theorem unmarked_begun {files : Nat → List Byte} {linked : Nat → Bool} {generation : Nat} {log : OutputLog}
    (h : OutputLog.adoptOutputLog files linked generation = .ok log ∨ OutputLog.createOutputLog = .ok log) :
    Output.Marked log (adopted log) none ∧ log.closed = false := by
  have opened : ∀ {f l g c}, OutputLog.openOutputLog f l g c = .ok log →
      Output.Marked log (adopted log) none ∧ log.closed = false := fun h =>
    ⟨marked_open h, (openOutputLog_ok h).2.2.2.1⟩
  rcases h with h | h
  · unfold OutputLog.adoptOutputLog at h
    split at h
    · cases h
    · exact opened h
  · exact opened h

theorem close_ends (log : OutputLog) : (log.close none).closed = true := by
  unfold OutputLog.close
  split
  · assumption
  · rfl

theorem SizedInv.init (h : machine.init s) : SizedInv s := by
  have living := Living.init h
  -- a session with a loop marks its log with its size
  have begun : ∀ {log : OutputLog} {size : Size}, Keeps log (adopted log) → Output.Marked log (adopted log) none →
      log.closed = false → size.validate = .ok () →
      lastMark (log.markSize size) = some size ∧
        Output.Marked (log.markSize size) (adopted log) (lastMark (log.markSize size)) := by
    intro log size hk hm hc hv
    have hb := marked_begun hm hk hc (validate_ne_zero hv)
    have he : lastMark (log.markSize size) = some size := hb.newest
    exact ⟨he, he ▸ hb⟩
  rcases h with ⟨lib, log, size, hlog, hv, rfl⟩ | ⟨lib, _, _, _, log, vt, alive, hg, hlog, hv, -, rfl⟩
  · obtain ⟨hm, hc⟩ := @unmarked_begun (fun _ => []) (fun _ => false) 1 log (.inr hlog)
    obtain ⟨he, hb⟩ := begun (keeps_open (by decide) hlog) hm hc hv
    exact ⟨living, hb, by simp [startState], .single rfl ⟨rfl, fun _ => he⟩, by simp [startState]⟩
  · obtain ⟨hm, hc⟩ := unmarked_begun hlog
    cases alive with
    | true =>
      obtain ⟨he, hb⟩ := begun (keeps_begun hg hlog) hm hc hv
      exact ⟨living, hb, by simp [adoptStateWithTerminal], .single rfl ⟨rfl, fun _ => he⟩, by simp [adoptStateWithTerminal]⟩
    | false =>
      have hcl := hm.close none
      have he : lastMark (log.close none) = none := hcl.newest
      refine ⟨living, ?_, by simp [adoptStateWithTerminal], .single rfl ⟨rfl, fun hopen => ?_⟩, by simp [adoptStateWithTerminal]⟩
      · show Output.Marked (log.close none) (adopted log) (lastMark (log.close none))
        rw [he]; exact hcl
      · have : (log.close none).closed = false := hopen
        rw [close_ends] at this; cases this

/-- When the PTY refuses only the size the session has and the grid changes when it is asked to
    and only then, the emulator's grid, the session's size and, while the log is open, the last
    mark agree whenever `outputMu` is free; the size of every `AtomicState` is the one its
    payload was captured at, and a `Resize` that failed left the three as they were. -/
theorem sizes_agree (h : machine.Reach resizesFit s) :
    (s.outputFree = true → s.store.vt.grid = s.store.size ∧
      (s.store.log.closed = false → lastMark s.store.log = some s.store.size)) ∧ ∀ r ∈ s.results, r.sized := by
  have hi : SizedInv s := h.invariant (fun _ => .init) fun _ _ _ hi hok h => hi.step h hok
  exact ⟨fun hf => hi.sized.free (outputFree_iff.mp hf), hi.results⟩

/-- Call `i` is a resize, up to the answer of the PTY. -/
def resizes (i : Nat) (drained : OpEv) (ok : Bool) : List Ev :=
  .call (.resize ⟨100, 40⟩) :: goes i 4 ++ [.op i drained, .op i .go, .op i (.pty ok)]

/-- Output, a resize to a new size, and one the PTY refuses to the size the session has by then. -/
def resizedRun : List Ev :=
  copies [104] ++ resizes 0 .timeUp true ++ goes 0 2 ++ resizes 1 .timeUp false ++ goes 1 1

theorem sizes_agree_resized : ∃ s : Sys, machine.Reach resizesFit s ∧ s.store.size = ⟨100, 40⟩ ∧
    s.results.length = 1 ∧ s.store.vt.grid = s.store.size ∧ lastMark s.store.log = some s.store.size ∧
    ∀ r ∈ s.results, r.sized := by
  obtain ⟨s, hs, hf, hz, hc, hl⟩ := machine.exists_reach resizesFit (created_started .steady ⟨80, 24⟩ rfl) resizedRun
    (P := fun s => s.outputFree = true ∧ s.store.size = ⟨100, 40⟩ ∧ s.store.log.closed = false ∧ s.results.length = 1)
    (by decide)
  obtain ⟨h1, h2⟩ := sizes_agree hs
  exact ⟨s, hs, hz, hl, (h1 hf).1, (h1 hf).2 hc, h2⟩

/-- The child exits and the loop returns; then the session is resized and asked for its state. -/
def exitedRun : List Ev :=
  .loop .go .full :: .child .hangup :: .child .exit ::
    [LoopEv.readable, .go, .readable, .readFailed, .go, .reap false, .go, .go, .go, .go, .go].map (.loop · .full) ++
    resizes 0 .broken false ++ goes 0 1 ++ .call .atomicState :: goes 1 6

/-- A library in which output makes the grid 132 columns wide. -/
def widening : Library := ⟨fun v _ => ⟨132, v.grid.rows⟩, fun _ _ => true⟩

/-- The program writes, and the session is asked for its state. -/
def widenedRun : List Ev := copies [27] ++ .call .atomicState :: goes 0 6

/-- The resize of an exited session fails and leaves the emulator at the new size. And a program
    that makes the emulator wider leaves the session at the old one. -/
theorem the_sizes_come_apart :
    (∃ s : Sys, machine.Reach Machine.always s ∧ s.outputFree = true ∧
      s.store.vt.grid = ⟨100, 40⟩ ∧ s.store.size = ⟨80, 24⟩ ∧
      s.results = [.resizeFailed ⟨⟨80, 24⟩, ⟨80, 24⟩, some ⟨80, 24⟩⟩ ⟨⟨100, 40⟩, ⟨80, 24⟩, some ⟨80, 24⟩⟩,
        .atomicState ⟨[], ⟨100, 40⟩, false⟩ ⟨1, 0⟩ ⟨80, 24⟩]) ∧
    ∃ s : Sys, machine.Reach Machine.always s ∧ s.outputFree = true ∧
      s.store.vt.grid = ⟨132, 24⟩ ∧ s.store.size = ⟨80, 24⟩ ∧
      s.results = [.atomicState ⟨[27], ⟨132, 24⟩, false⟩ ⟨1, 1⟩ ⟨80, 24⟩] :=
  ⟨machine.exists_reach Machine.always (created_started .steady ⟨80, 24⟩ rfl) exitedRun (by decide),
    machine.exists_reach Machine.always (created_started widening ⟨80, 24⟩ rfl) widenedRun (by decide)⟩

end Ghostline.Session
