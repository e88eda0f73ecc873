/-
  Ghostline.Session.Checkpoint — the emulator against the output log.

  Four code paths read the PTY: the copy loop, a migration's drain and a resize's drain
  append what they read and then feed it, and do not feed what could not be appended. All
  of them do so with `outputMu` held. So whenever `outputMu` is free the emulator has been
  fed exactly what the log was given (`fed_is_appended`), and the cursor of a `Checkpoint`
  or `AtomicState` is the position behind the last byte its capture represents.
-/

import Ghostline.Lib.Segments
import Ghostline.Session.Living
import Ghostline.Session.Mutex

namespace Ghostline.Session

open Lib Lib.Gate Lib.Segments Output

/-! ## What the log was given -/

/-- The bytes of each generation, without the sizes they were appended under. -/
def bytes (wrote : Wrote) (g : Nat) : List Byte := (wrote g).map Prod.fst

def Store.appended (st : Store) : List Byte := upTo (bytes st.wrote) (st.log.generation + 1)

/-- `data` is what the log was given in front of the cursor. -/
structure Exact (st : Store) (c : Cursor) (data : List Byte) : Prop where
  issued : c.generation ≤ st.log.generation
  within : c.offset ≤ (bytes st.wrote c.generation).length
  before : before (bytes st.wrote) c.generation c.offset = data

variable {st : Store}

theorem generation_append (l : OutputLog) (data : List Byte) (w : OutputLog.Write) :
    (l.append data w).1.generation = l.generation := by
  rcases append_cases l data w with ⟨he, -⟩ | ⟨-, -, _, _, -, -, he⟩ | ⟨-, -, -, he⟩ <;> rw [he] <;> rfl

theorem bytes_extend (wrote : Wrote) (g : Nat) (data : List Byte) (size : Size) :
    bytes (extend wrote g data size) g = bytes wrote g ++ data := by
  simp [bytes, extend_self, Function.comp_def]

theorem bytes_extend_ne (wrote : Wrote) {g k : Nat} (data : List Byte) (size : Size) (h : k ≠ g) :
    bytes (extend wrote g data size) k = bytes wrote k := by
  simp [bytes, extend_ne data size h]

/-- A successful append adds its data. -/
theorem appended_stored {chunk : List Byte} {w : OutputLog.Write} (h : (st.log.append chunk w).2 = none) :
    (st.act (.append chunk w)).appended = st.appended ++ chunk := by
  simp only [Store.appended, Store.act, h, if_true, generation_append, upTo]
  rw [bytes_extend, ← List.append_assoc,
    upTo_congr fun k hk => bytes_extend_ne st.wrote chunk _ (Nat.ne_of_lt hk)]

theorem appended_lost {chunk : List Byte} {w : OutputLog.Write} (h : (st.log.append chunk w).2 ≠ none) :
    (st.act (.append chunk w)).appended = st.appended := by
  simp only [Store.appended, Store.act, h, if_false, generation_append]

/-- A new generation begins empty. -/
theorem appended_rotate (hk : Keeps st.log st.wrote) (fail : Option String) :
    (st.act (.rotate fail)).appended = st.appended := by
  simp only [Store.appended, Store.act]
  rcases rotate_cases hk.bound fail with he | ⟨-, -, -, he⟩
  · rw [he]
  · have hnew : bytes st.wrote (st.log.generation + 1) = [] := by
      simp [bytes, hk.future (st.log.generation + 1) (Nat.lt_succ_self _)]
    rw [he]
    simp only [OutputLog.signalLocked]
    rw [upTo, hnew, List.append_nil]

/-- What else is done to the log leaves the record and the generation. -/
theorem act_other (st : Store) {act : Act} (h1 : ∀ chunk w, act ≠ .append chunk w) (h2 : ∀ fail, act ≠ .rotate fail) :
    (st.act act).log.generation = st.log.generation ∧ (st.act act).wrote = st.wrote := by
  have hclose : (st.log.close none).generation = st.log.generation := by
    unfold OutputLog.close; split <;> rfl
  cases act with
  | append chunk w => exact absurd rfl (h1 chunk w)
  | rotate fail => exact absurd rfl (h2 fail)
  | prune before order rm => exact ⟨(prune_spec st.log before order rm).generation, rfl⟩
  | markSize size =>
    obtain ⟨sizes, changed, he⟩ := markSize_eq st.log size
    simp [Store.act, he]
  | closeLog | close | discard => exact ⟨hclose, rfl⟩
  | _ => exact ⟨rfl, rfl⟩

theorem appended_other (st : Store) {act : Act} (h1 : ∀ chunk w, act ≠ .append chunk w) (h2 : ∀ fail, act ≠ .rotate fail) :
    (st.act act).appended = st.appended := by
  obtain ⟨hg, hw⟩ := act_other st h1 h2
  simp only [Store.appended, hg, hw]

/-- The log only grows behind a cursor. -/
theorem Exact.act {c : Cursor} {data : List Byte} (h : Exact st c data) (hk : Keeps st.log st.wrote) (act : Act) :
    Exact (st.act act) c data := by
  have same : ∀ {u : Store}, st.log.generation ≤ u.log.generation → u.wrote = st.wrote → Exact u c data := by
    intro u hg hw
    exact ⟨Nat.le_trans h.issued hg, by rw [hw]; exact h.within, by rw [hw]; exact h.before⟩
  cases act with
  | append chunk w =>
    have hg := Nat.le_of_eq (generation_append st.log chunk w).symm
    by_cases hn : (st.log.append chunk w).2 = none
    · have hw : (st.act (.append chunk w)).wrote =
          extend st.wrote st.log.generation chunk ((lastMark st.log).getD 0) := by simp [Store.act, hn]
      -- the append lands in a generation at or behind the cursor's
      have grown : bytes st.wrote c.generation <+: bytes (st.act (.append chunk w)).wrote c.generation := by
        rw [hw]
        rcases eq_or_ne c.generation st.log.generation with he | he
        · rw [he, bytes_extend]; exact List.prefix_append _ _
        · rw [bytes_extend_ne _ _ _ he]
      have below : ∀ k < c.generation, bytes (st.act (.append chunk w)).wrote k = bytes st.wrote k := by
        intro k hlt
        have := h.issued
        rw [hw, bytes_extend_ne _ _ _ (by omega)]
      refine ⟨Nat.le_trans h.issued hg, Nat.le_trans h.within grown.length_le, ?_⟩
      rw [before_grown _ below grown h.within, h.before]
    · exact same hg (by simp [Store.act, hn])
  | rotate fail =>
    refine same ?_ rfl
    rcases rotate_cases hk.bound fail with he | ⟨-, -, -, he⟩ <;> simp only [Store.act, he]
    · exact Nat.le_refl _
    · exact Nat.le_succ _
  | _ =>
    refine same (Nat.le_of_eq (act_other st ?_ ?_).1.symm) (act_other st ?_ ?_).2 <;> simp

/-- The log's own cursor is behind everything it was given. -/
theorem cursor_exact (hk : Keeps st.log st.wrote) {c : Cursor} (h : st.log.cursor = .ok c) : Exact st c st.appended := by
  have hc : c = ⟨st.log.generation, (bytes st.wrote st.log.generation).length⟩ := by
    unfold OutputLog.cursor at h
    split at h
    · cases h
    · cases h
      simp [hk.size, bytes]
  subst hc
  exact ⟨Nat.le_refl _, Nat.le_refl _, by simp [before, Store.appended, upTo]⟩

/-! ## What `outputMu` guards -/

/-- What a party has appended and not fed yet. -/
def Party.unfed : Party → List Byte
  | .loop (.feed chunk) | .loop (.drainFeed _ _ chunk) | .op (.resizing _ _ (.feed _ chunk)) => chunk
  | _ => []

/-- A capture that is not answered yet is of the emulator as it is. -/
def Party.sees (vt : Vt) : Party → Prop
  | .op (.captured _ v) => v = vt
  | _ => True

def Fed (st : Store) : Option Party → Prop
  | none => st.appended = st.vt.fed
  | some p => st.appended = st.vt.fed ++ p.unfed ∧ p.sees st.vt

/-- The steps of a party, as far as they concern the log and the emulator. -/
inductive Handling (st : Store) : Party → Party → Act → Prop
  | quiet {a b : Party} {act : Act} : a.unfed = [] → b.unfed = [] → (st.act act).vt.fed = st.vt.fed →
      (st.act act).appended = st.appended → Handling st a b act
  | append {a b : Party} {chunk : List Byte} {w : OutputLog.Write} : a.unfed = [] →
      (st.log.append chunk w).2 = none → b.unfed = chunk → Handling st a b (.append chunk w)
  | feed {a b : Party} {chunk : List Byte} : a.unfed = chunk → b.unfed = [] → Handling st a b (.feed chunk)

theorem Handling.fed {a b : Party} {act : Act} (h : Handling st a b act) (hv : st.vt.closed = false)
    (ha : st.appended = st.vt.fed ++ a.unfed) : (st.act act).appended = (st.act act).vt.fed ++ b.unfed := by
  cases h with
  | quiet h1 h2 hf hp => rw [hp, hf, h2, ha, h1]
  | append h1 hn h2 => rw [appended_stored hn, ha, h1, h2, List.append_nil]; rfl
  | feed h1 h2 =>
    rw [appended_other st (by simp) (by simp), ha, h1, h2, List.append_nil]
    simp [Store.act, Vt.feed, hv]

variable {s s' : Sys} {e : Ev} {a b : Party} {act : Act}

theorem unfed_of_free (h : a.output = .free) : a.unfed = [] := by
  cases a with
  | loop l => cases l <;> first | rfl | cases h
  | op pc => cases pc <;> first | rfl | cases h

theorem LoopMove.handling {x : LoopEv} {w : OutputLog.Write} {c : Core} (hf : s.loopFits x w = true)
    (h : LoopMove s.core x c) : Handling s.store (.loop s.core.loop) (.loop c.loop) (Sys.loopAct s.core.loop w) := by
  have idle : ∀ {k l : Loop}, (Party.loop k).unfed = [] → (Party.loop l).unfed = [] → Sys.loopAct k w = .idle →
      Handling s.store (.loop k) (.loop l) (Sys.loopAct k w) := by
    intro k l hk hl ha
    rw [ha]
    exact .quiet hk hl rfl rfl
  cases h with
  | hop h =>
    simp only [Core.goto_loop]
    unfold Sys.loopFits at hf
    generalize s.core.loop = k at h hf
    cases h with
    | appended | drainAppended => exact .append rfl (by simpa using hf) rfl
    | lost | drainLost => exact .quiet rfl rfl rfl (appended_lost (by simpa [Option.isSome_iff_ne_none] using hf))
    | fed => exact .feed rfl rfl
    | drainFed => exact .feed rfl rfl
    | closeLog => exact .quiet rfl rfl rfl (appended_other _ (by simp [Sys.loopAct]) (by simp [Sys.loopAct]))
    | _ => exact idle rfl rfl rfl
  | stopped hl => rw [hl]; refine idle rfl ?_ rfl; simp only [Core.goto_loop]; split <;> rfl
  | killed hl _ => simp only [hl]; exact idle rfl rfl rfl
  | woken hl _ | got hl _ _ | drainGot hl _ _ | stable hl | receive hl _ | waitKilling hl _ _ | settleStable hl
  | settleChoose hl | settleStop hl | closeMaster hl _ | closeDone hl => rw [hl]; exact idle rfl rfl rfl

theorem ResizeMove.handling {size : Size} {old : Sizes} {r : Resize} {x : OpEv} {o : Sys.Out}
    (h : ResizeMove s size old r x o) : Handling s.store (.op (.resizing size old r)) (.op o.pc) o.act := by
  cases h with
  | stored hn => exact .append rfl hn rfl
  | lost hn => exact .quiet rfl rfl rfl (appended_lost hn)
  | feed => exact .feed rfl rfl
  | vt =>
    refine .quiet rfl rfl ?_ (appended_other _ (by simp) (by simp))
    simp only [Store.act, Vt.resize]
    repeat' split
    all_goals rfl
  | _ => exact .quiet rfl rfl rfl (appended_other _ (by simp [Sys.out]) (by simp [Sys.out]))

theorem OpMove.handling {pc : Pc} {x : OpEv} {o : Sys.Out} (hk : Keeps s.store.log s.store.wrote)
    (h : OpMove s pc x o) : Handling s.store (.op pc) (.op o.pc) o.act := by
  cases h with
  | resize h => exact h.handling
  | rotate => exact .quiet rfl rfl rfl (appended_rotate hk _)
  | @check op =>
    refine .quiet rfl (unfed_of_free ?_) rfl rfl
    simp [Party.output, Sys.out, enter_output op]
  | @close delete => cases delete <;> exact .quiet rfl rfl rfl (appended_other _ (by simp) (by simp))
  | _ => exact .quiet rfl rfl rfl (appended_other _ (by simp [Sys.out]) (by simp [Sys.out]))

theorem PartyMove.handling (hk : Keeps s.store.log s.store.wrote) (h : PartyMove s e a b act) :
    Handling s.store a b act := by
  cases h with
  | loop hf hm => exact hm.handling hf
  | op _ hm => exact hm.handling hk

/-- A capture is taken of the emulator as it is. -/
theorem PartyMove.sees (h : PartyMove s e a b act) : b.sees (s.store.act act).vt := by
  cases h with
  | loop _ _ => trivial
  | op _ hm =>
    cases hm with
    | capture _ _ => rfl
    | @check op => simp only [Sys.out]; cases op <;> simp only [Sys.enter] <;> (repeat' split) <;> trivial
    | @close delete => cases delete <;> trivial
    | resize h => cases h <;> trivial
    | _ => trivial

/-- Without the lock, the log may be closed or pruned; the emulator is left alone. -/
theorem PartyMove.outside (h : PartyMove s e a b act) (ha : a.output = .free) (he : ∀ pc ∈ s.ops, pc.ends = false) :
    (s.store.act act).vt = s.store.vt ∧ (s.store.act act).appended = s.store.appended := by
  cases h with
  | loop _ hm =>
    generalize s.core.loop = k at ha
    cases k with
    | closeLog => exact ⟨rfl, appended_other _ (by simp [Sys.loopAct]) (by simp [Sys.loopAct])⟩
    | _ => first | exact ⟨rfl, rfl⟩ | cases ha
  | @op i pc x o hi hm =>
    have hp := he pc (List.mem_of_getElem? hi)
    cases hm with
    | remove | take _ | close | discard => cases hp
    | prune _ => exact ⟨rfl, appended_other _ (by simp) (by simp)⟩
    | lock _ _ | lockResize _ => exact ⟨rfl, rfl⟩
    | leave | capture _ _ | rotate | answer | resize _ => cases ha
    | _ => exact ⟨rfl, rfl⟩

/-! ## Along a run -/

/-- What a recorded result says about its capture and its cursor. -/
def Result.exact (st : Store) : Result → Prop
  | .checkpoint vt c | .atomicState vt c _ => Exact st c vt.fed
  | .resizeFailed _ _ => True

structure FedInv (s : Sys) : Prop extends Living s where
  fed : Guarded Party.output s.parties (Fed s.store)
  results : ∀ r ∈ s.results, r.exact s.store

theorem Result.exact_act {r : Result} (h : r.exact st) (hk : Keeps st.log st.wrote) (act : Act) : r.exact (st.act act) := by
  cases r with
  | resizeFailed _ _ => trivial
  | _ => exact Exact.act h hk act

theorem FedInv.guarded (h : s.step e = some s') (hi : FedInv s) : Guarded Party.output s'.parties (Fed s'.store) := by
  refine step_guarded h hi.fed ?_ ?_ ?_ ?_
  · intro a b act hm ha _ o ho
    obtain ⟨hv, hp⟩ := hm.outside ha hi.stays
    cases o with
    | none => exact (hp.trans ho).trans (congrArg Vt.fed hv.symm)
    | some p => exact ⟨by rw [hp, hv]; exact ho.1, by rw [hv]; exact ho.2⟩
  · intro a b act hm ha _ ho
    refine ⟨(hm.handling hi.keeps).fed hi.alive ?_, hm.sees⟩
    rw [unfed_of_free ha, List.append_nil]
    exact ho
  · intro a b act hm _ _ ho
    exact ⟨(hm.handling hi.keeps).fed hi.alive ho.1, hm.sees⟩
  · intro a b act hm _ hb ho
    have := (hm.handling hi.keeps).fed hi.alive ho.1
    rwa [unfed_of_free hb, List.append_nil] at this

/-- The result of a call is its capture with the cursor behind it. -/
theorem FedInv.result {i : Nat} {pc : Pc} {x : OpEv} {o : Sys.Out} (hi : FedInv s) (hp : s.ops[i]? = some pc)
    (h : OpMove s pc x o) {r : Result} (hr : o.result = some r) : r.exact s.store := by
  cases h with
  | @answer atomic vt =>
    have hfed := hi.fed.held (i + 1) (.op (.captured atomic vt)) (by simp [Sys.parties, hp]) rfl
    obtain ⟨hfed, hv⟩ := hfed
    have hvt : s.store.appended = vt.fed := by
      rw [show vt = s.store.vt from hv]
      simpa [Party.unfed] using hfed
    simp only [Sys.answer] at hr
    split at hr
    · rename_i c hc
      have hx := cursor_exact hi.keeps hc
      rw [hvt] at hx
      cases atomic <;> cases hr <;> exact hx
    · cases hr
  | resize h => cases h <;> first | (cases hr; trivial) | cases hr
  | _ => cases hr

theorem FedInv.step (h : s.step e = some s') (hok : survives s e = true) (hi : FedInv s) : FedInv s' := by
  refine ⟨hi.toLiving.step h hok, hi.guarded h, ?_⟩
  cases step_move h with
  | loop _ _ => exact fun r hr => Result.exact_act (hi.results r hr) hi.keeps _
  | op hp hm =>
    intro r hr
    rcases List.mem_append.mp hr with hr | hr
    · exact Result.exact_act (hi.results r hr) hi.keeps _
    · exact Result.exact_act (hi.result hp hm (by simpa using hr)) hi.keeps _
  | _ => exact hi.results

/-- A log just created was given nothing. -/
theorem adopted_created : adopted created = fun _ => [] := by
  funext g
  have hf : created.files g = [] := by simp [created]
  simp [adopted, hf]

theorem upTo_nil (g : Nat) : upTo (bytes fun _ => []) g = [] := by
  induction g with
  | zero => rfl
  | succ g ih => rw [upTo, ih]; rfl

theorem FedInv.init (h : startedMachine.init s) : FedInv s := by
  have living := Living.init (.inl h)
  obtain ⟨lib, log, size, hlog, -, rfl⟩ := h
  obtain rfl : created = log := Except.ok.inj (created_eq.symm.trans hlog)
  have hfed : (startState lib created size).store.appended = [] := by
    simp only [startState, Store.appended, adopted_created, upTo_nil]
  exact ⟨living, .single rfl hfed, by simp [startState]⟩

/-- Whenever `outputMu` is free the emulator has been fed exactly what the output log was
    given, and the cursor of every `Checkpoint` and `AtomicState` is the position behind
    the last byte of its capture. -/
theorem fed_is_appended (h : startedMachine.Reach survives s) :
    (s.outputFree = true → s.store.vt.fed = s.store.appended) ∧ ∀ r ∈ s.results, r.exact s.store := by
  have hi : FedInv s := h.invariant (fun _ => .init) fun _ _ _ hi hok h => hi.step h hok
  exact ⟨fun hf => (hi.fed.free (outputFree_iff.mp hf)).symm, hi.results⟩

/-- Two bytes are copied, one in the loop and one in a resize's drain; the log is rotated
    and a checkpoint is taken. -/
def checkpointRun : List Ev :=
  copies [104, 105] ++ .call (.resize ⟨100, 40⟩) :: goes 0 4 ++
    [.op 0 .readable, .op 0 (.got 1), .op 0 (.stored .full), .op 0 .go, .op 0 .timeUp, .op 0 .go, .op 0 (.pty true)] ++
    goes 0 2 ++ .call .rotate :: goes 1 4 ++ [.op 1 (.rotate none), .call .checkpoint] ++ goes 2 6

theorem fed_is_appended_rotated : ∃ s : Sys, startedMachine.Reach survives s ∧
    s.results = [.checkpoint ⟨[104, 105], ⟨100, 40⟩, false⟩ ⟨2, 0⟩] ∧
    s.store.vt.fed = s.store.appended ∧ ∀ r ∈ s.results, r.exact s.store := by
  obtain ⟨s, hs, hf, hr⟩ := startedMachine.exists_reach survives
    (s := startState .steady created ⟨80, 24⟩) ⟨.steady, created, ⟨80, 24⟩, created_eq, rfl, rfl⟩ checkpointRun
    (P := fun s => s.outputFree = true ∧ s.results = [.checkpoint ⟨[104, 105], ⟨100, 40⟩, false⟩ ⟨2, 0⟩]) (by decide)
  obtain ⟨h1, h2⟩ := fed_is_appended hs
  exact ⟨s, hs, hr, h1 hf, h2⟩

end Ghostline.Session
