/-
  Ghostline.Session.Carry — what the parties of a session have in hand.

  Three of them read the PTY: the copy loop, the drain of a migration, and the drain of a
  `Resize`. Each keeps what it has read in hand until the log has taken it
  (`Party.hand`). No two of them have bytes in hand: a read is made with `outputMu` held,
  or by the loop at a ticket, and then the batch keeps every call out (`hand_alone`).
  `Carry` is a step of a party as far as it concerns these bytes.
-/

import Ghostline.Session.Checkpoint
import Ghostline.Session.Directory
import Ghostline.Session.Pause

namespace Ghostline.Session

open Lib Lib.Gate Output

/-! ## The store -/

/-- The log took everything it was given, and the emulator is not freed. -/
def Store.Healthy (st : Store) : Prop := st.log.err = none ∧ st.vt.closed = false

structure Store.Sound (st : Store) : Prop where
  keeps : Keeps st.log st.wrote
  opened : st.log.closed = false → st.Healthy
  whole : st.Healthy → st.log.files st.log.generation = bytes st.wrote st.log.generation

variable {st : Store} {a : Act}

/-- A closed log is left as it is. -/
theorem act_of_closed (hc : st.log.closed = true) (a : Act) :
    (st.act a).log.err = st.log.err ∧ (st.act a).log.files = st.log.files ∧
      (st.act a).log.generation = st.log.generation ∧ (st.act a).wrote = st.wrote := by
  cases a with
  | append chunk w =>
    simp only [Store.act, append_closed hc, true_and]
    split
    · rename_i hn
      by_cases hd : chunk = []
      · subst hd; exact extend_nil _ _
      · rw [append_closed_err hc hd] at hn; cases hn
    · rfl
  | _ => simp [Store.act, close_closed hc, rotate_closed hc, prune_closed hc, markSize_closed hc]

/-- The log is closed on request, or by a write that failed. -/
theorem act_closes (hc : st.log.closed = false) (h : (st.act a).log.closed = true) :
    (a = .closeLog ∨ a = .close ∨ a = .discard) ∨
      (∃ chunk w, a = .append chunk w) ∧ (st.act a).log.err ≠ none := by
  cases a with
  | closeLog | close | discard => simp
  | append chunk w =>
    refine .inr ⟨⟨chunk, w, rfl⟩, ?_⟩
    simp only [Store.act] at h ⊢
    rcases append_cases st.log chunk w with ⟨he, -⟩ | ⟨-, -, n, m, -, -, he⟩ | ⟨-, -, -, he⟩ <;> rw [he] at h ⊢
    · rw [hc] at h; cases h
    · simp [OutputLog.failLocked, OutputLog.signalLocked]
    · simp [OutputLog.signalLocked, hc] at h
  | rotate fail =>
    simp only [Store.act, OutputLog.rotate, hc, Bool.false_eq_true, if_false] at h
    repeat' split at h
    all_goals simp [OutputLog.signalLocked, hc] at h
  | prune before order rm => simp [Store.act, (prune_spec st.log before order rm).closed, hc] at h
  | markSize size =>
    obtain ⟨sizes, changed, he⟩ := markSize_eq st.log size
    simp [Store.act, he, hc] at h
  | _ => simp [Store.act, hc] at h

theorem err_act (h : (st.act a).log.closed = false) (hb : st.log.generation < 2 ^ 64) :
    (st.act a).log.err = st.log.err := by
  cases a with
  | append chunk w =>
    simp only [Store.act] at h ⊢
    rcases append_cases st.log chunk w with ⟨he, -⟩ | ⟨-, -, n, m, -, -, he⟩ | ⟨-, -, -, he⟩ <;> rw [he] at h ⊢
    · simp [OutputLog.failLocked, OutputLog.signalLocked] at h
    · rfl
  | rotate fail => rcases rotate_cases hb fail with he | ⟨-, -, -, he⟩ <;> simp [Store.act, he, OutputLog.signalLocked]
  | prune before order rm => exact (prune_spec st.log before order rm).err
  | markSize size =>
    obtain ⟨sizes, changed, he⟩ := markSize_eq st.log size
    simp [Store.act, he]
  | closeLog | close | discard =>
    simp only [Store.act, OutputLog.close] at h
    split at h <;> simp_all [OutputLog.signalLocked]
  | _ => rfl

theorem vt_closed_of_act (h : (st.act a).vt.closed = false) : st.vt.closed = false := by
  by_cases ha : a = .close
  · subst ha; cases h
  · exact vt_closed_act ha ▸ h

theorem Store.Sound.healthy (hs : st.Sound) (h : (st.act a).Healthy) : st.Healthy := by
  cases hc : st.log.closed with
  | false => exact hs.opened hc
  | true => exact ⟨(act_of_closed hc a).1 ▸ h.1, vt_closed_of_act h.2⟩

theorem Store.Sound.act (hs : st.Sound) (a : Act) : (st.act a).Sound := by
  have keeps := keeps_act hs.keeps a
  refine ⟨keeps, fun hc => ?_, fun hh => ?_⟩
  · have ho := hs.opened (closed_act hc)
    refine ⟨(err_act hc hs.keeps.bound).trans ho.1, ?_⟩
    by_cases ha : a = .close
    · subst ha
      simp only [Store.act, OutputLog.close] at hc
      split at hc <;> simp_all [OutputLog.signalLocked]
    · exact (vt_closed_act ha).trans ho.2
  · cases hc : st.log.closed with
    | true =>
      obtain ⟨-, hf, hg, hw⟩ := act_of_closed hc a
      rw [hf, hg, hw]
      exact hs.whole (hs.healthy hh)
    | false =>
      cases hc' : (st.act a).log.closed with
      | false => exact keeps.exact hc'
      | true =>
        -- closing leaves the files
        have closed : (st.log.close none).files = st.log.files ∧ (st.log.close none).generation = st.log.generation := by
          unfold OutputLog.close; split <;> exact ⟨rfl, rfl⟩
        rcases act_closes hc hc' with (rfl | rfl | rfl) | ⟨-, he⟩
        · simp only [Store.act, closed]; exact hs.keeps.exact hc
        · simp only [Store.act, closed]; exact hs.keeps.exact hc
        · simp only [Store.act, closed]; exact hs.keeps.exact hc
        · exact absurd hh.1 he

/-- An append is refused by a closed log, or closes it with an error. -/
theorem append_refused {chunk : List Byte} {w : OutputLog.Write} (h : (st.log.append chunk w).2 ≠ none) :
    chunk ≠ [] ∧ (st.log.closed = true ∨ (st.act (.append chunk w)).log.err ≠ none) := by
  refine ⟨by rintro rfl; exact h rfl, ?_⟩
  simp only [Store.act]
  rcases append_cases st.log chunk w with ⟨-, rfl | ⟨hc, -⟩⟩ | ⟨-, -, n, m, -, -, he⟩ | ⟨-, -, hn, -⟩
  · exact absurd rfl h
  · exact .inl hc
  · exact .inr (by rw [he]; simp [OutputLog.failLocked, OutputLog.signalLocked])
  · exact absurd hn h

theorem append_taken {chunk : List Byte} {w : OutputLog.Write} (h : (st.log.append chunk w).2 = none) :
    chunk = [] ∨ st.log.closed = false := by
  rcases append_cases st.log chunk w with ⟨-, hd | ⟨-, hn⟩⟩ | ⟨-, -, n, m, -, hn, -⟩ | ⟨hc, -, -, -⟩
  · exact .inl hd
  · exact absurd h hn
  · exact absurd h hn
  · exact .inr hc

/-! ## Bytes in hand -/

/-- What a party has read and the log has not taken yet. -/
def Party.hand : Party → List Byte
  | .loop (.append chunk) | .loop (.drainLock _ _ chunk) | .loop (.drainAppend _ _ chunk)
  | .op (.resizing _ _ (.append _ chunk)) => chunk
  | _ => []

/-- It is about to read. -/
def Party.reads : Party → Bool
  | .loop .read | .loop (.drainRead _ _) | .op (.resizing _ _ (.read _)) => true
  | _ => false

def Sys.hand (s : Sys) : List Byte := s.parties.flatMap Party.hand

/-- Where a `Resize` has found its master open. -/
def Pc.drains : Pc → Bool
  | .resizing _ _ (.read _) | .resizing _ _ (.append _ _) => true
  | _ => false

variable {s s' : Sys} {e : Ev} {p q : Party}

/-- It reads, or has bytes in hand. -/
def Party.Busy (p : Party) : Prop := p.reads = true ∨ p.hand ≠ []

theorem hand_of_reads (h : p.reads = true) : p.hand = [] := by
  cases p with
  | loop l => cases l <;> first | rfl | cases h
  | op pc =>
    cases pc with
    | resizing _ _ r => cases r <;> first | rfl | cases h
    | _ => rfl

theorem Party.Busy.loop {l : Loop} (h : (Party.loop l).Busy) : l.output = true ∨ ∃ t, l.ticket = some t := by
  cases l <;> simp_all [Party.Busy, Party.reads, Party.hand, Loop.output, Loop.ticket]

theorem Party.Busy.op {pc : Pc} (h : (Party.op pc).Busy) : pc.drains = true := by
  cases pc with
  | resizing _ _ r => cases r <;> simp_all [Party.Busy, Party.reads, Party.hand, Pc.drains]
  | _ => simp [Party.Busy, Party.reads, Party.hand] at h

theorem Pc.drains_spec {pc : Pc} (h : pc.drains = true) : pc.output = true ∧ pc.inBatch = true ∧ pc.checked = true := by
  cases pc with
  | resizing _ _ r => exact ⟨rfl, rfl, rfl⟩
  | _ => cases h

theorem parties_loop {i : Nat} {l : Loop} (h : s.parties[i]? = some (.loop l)) : i = 0 ∧ l = s.core.loop := by
  cases i with
  | zero => cases h; exact ⟨rfl, rfl⟩
  | succ i => simp [Sys.parties] at h

theorem parties_op {i : Nat} {pc : Pc} (h : s.parties[i]? = some (.op pc)) : pc ∈ s.ops := by
  cases i with
  | zero => cases h
  | succ i => exact List.mem_of_getElem? (by simpa [Sys.parties] using h)

/-- While the loop is at a ticket, no call is inside. -/
theorem ticket_apart {t : Nat} (hb : BatchInv s) (hp : Release.Paused s.mig) (hl : s.core.loop.ticket = some t) :
    ∀ pc ∈ s.ops, pc.inBatch = false := by
  refine hb.apart (hb.busy fun hh => ?_)
  have hk := (hp.at_ticket t hl).2
  rw [hh] at hk
  cases hk

theorem loop_op_apart {pc : Pc} {i j : Nat} (hb : BatchInv s) (hp : Release.Paused s.mig)
    (hx : Exclusive Party.output s.parties) (hi : s.parties[i]? = some (.loop s.core.loop))
    (hj : s.parties[j]? = some (.op pc)) (hl : (Party.loop s.core.loop).Busy) : ¬(Party.op pc).Busy := by
  intro ho
  obtain ⟨hout, hin, -⟩ := Pc.drains_spec ho.op
  rcases hl.loop with hl | ⟨t, hl⟩
  · have hne : i ≠ j := by rintro rfl; cases hi.symm.trans hj
    have := hx i j _ _ hne hi hj (Loop.output_iff.mpr hl)
    rw [Pc.output_iff.mpr hout] at this
    cases this
  · have := ticket_apart hb hp hl pc (parties_op hj)
    rw [hin] at this
    cases this

/-- At most one party reads or has bytes in hand. -/
theorem hand_alone {i j : Nat} (hb : BatchInv s) (hp : Release.Paused s.mig)
    (hx : Exclusive Party.output s.parties) (hne : i ≠ j) (hi : s.parties[i]? = some p) (hj : s.parties[j]? = some q)
    (hbusy : p.Busy) : q.hand = [] := by
  by_contra hq
  have hq : q.Busy := .inr hq
  cases p with
  | loop l =>
    obtain ⟨rfl, rfl⟩ := parties_loop hi
    cases q with
    | loop k => exact hne (parties_loop hj).1.symm
    | op pc => exact loop_op_apart hb hp hx hi hj hbusy hq
  | op pc =>
    cases q with
    | loop k =>
      obtain ⟨rfl, rfl⟩ := parties_loop hj
      exact loop_op_apart hb hp hx hj hi hq hbusy
    | op pc' =>
      have := hx i j _ _ hne hi hj (Pc.output_iff.mpr (Pc.drains_spec hbusy.op).1)
      rw [Pc.output_iff.mpr (Pc.drains_spec hq.op).1] at this
      cases this

theorem flatMap_alone {α β : Type} {f : α → List β} {l : List α} {i : Nat} {a : α} (h : l[i]? = some a)
    (ho : ∀ j b, i ≠ j → l[j]? = some b → f b = []) : l.flatMap f = f a := by
  induction l generalizing i with
  | nil => cases h
  | cons b l ih =>
    rw [List.flatMap_cons]
    cases i with
    | zero =>
      cases h
      have : l.flatMap f = [] := by
        rw [List.flatMap_eq_nil_iff]
        intro c hc
        obtain ⟨j, hj⟩ := List.mem_iff_getElem?.mp hc
        exact ho (j + 1) c (by simp) hj
      rw [this, List.append_nil]
    | succ i =>
      rw [ho 0 b (by simp) rfl, List.nil_append]
      exact ih h fun j c hne hj => ho (j + 1) c (by simpa using hne) hj

theorem flatMap_set {α β : Type} {f : α → List β} {l : List α} {i : Nat} {a b : α} (h : l[i]? = some a)
    (hf : f b = f a) : (l.set i b).flatMap f = l.flatMap f := by
  induction l generalizing i with
  | nil => cases h
  | cons c l ih =>
    cases i with
    | zero => cases h; simp [hf]
    | succ i => simp only [List.set_cons_succ, List.flatMap_cons]; rw [ih h]

/-! ## What a step does to the bytes -/

/-- The steps of a party, as far as they concern what it has in hand. -/
inductive Carry (c c' : Core) : Party → Party → Act → Prop
  | quiet {p q : Party} {act : Act} : q.hand = p.hand → c'.queue = c.queue → (∀ chunk w, act ≠ .append chunk w) →
      Carry c c' p q act
  | read {p q : Party} : p.reads = true → q.hand ≠ [] → c.queue = q.hand ++ c'.queue → Carry c c' p q .idle
  | store {p q : Party} {w : OutputLog.Write} : q.hand = [] → c'.queue = c.queue → Carry c c' p q (.append p.hand w)

theorem take_ne_nil {n : Nat} {l : List Byte} (h0 : 0 < n) (hn : n ≤ l.length) : l.take n ≠ [] := by
  rw [← List.length_pos_iff, List.length_take]
  omega

theorem LoopMove.carry {c c' : Core} {x : LoopEv} (h : LoopMove c x c') (w : OutputLog.Write) :
    Carry c c' (.loop c.loop) (.loop c'.loop) (Sys.loopAct c.loop w) := by
  have idle : ∀ {k l : Loop} {c' : Core}, (Party.loop l).hand = (Party.loop k).hand → c'.queue = c.queue →
      Sys.loopAct k w = .idle → Carry c c' (.loop k) (.loop l) (Sys.loopAct k w) := by
    intro k l c' hh hq ha
    rw [ha]
    exact .quiet hh hq (by simp)
  cases h with
  | hop h =>
    simp only [Core.goto_loop]
    generalize c.loop = k at h
    cases h with
    | appended | lost | drainAppended | drainLost => exact .store rfl rfl
    | fed | drainFed | closeLog => exact .quiet rfl rfl (by simp [Sys.loopAct])
    | _ => exact idle rfl rfl rfl
  | got hl h0 hn | drainGot hl h0 hn => rw [hl]; exact .read rfl (take_ne_nil h0 hn) (List.take_append_drop _ _).symm
  | stopped hl => rw [hl]; refine idle ?_ rfl rfl; simp only [Core.goto_loop]; split <;> rfl
  | killed hl _ => simp only [hl]; exact idle rfl rfl rfl
  | woken hl _ | stable hl | receive hl _ | waitKilling hl _ _ | settleStable hl | settleChoose hl | settleStop hl
  | closeMaster hl _ | closeDone hl => rw [hl]; exact idle rfl rfl rfl

theorem OpMove.carry {pc : Pc} {x : OpEv} {o : Sys.Out} (h : OpMove s pc x o) :
    Carry s.core o.core (.op pc) (.op o.pc) o.act := by
  cases h with
  | resize h =>
    cases h with
    | got h0 hn => exact .read rfl (take_ne_nil h0 hn) (List.take_append_drop _ _).symm
    | stored _ | lost _ => exact .store rfl rfl
    | _ => exact .quiet rfl rfl (by simp [Sys.out])
  | @check op =>
    have hh : (Party.op (s.enter op)).hand = [] := by
      have := enter_output (s := s) op
      generalize s.enter op = pc at this
      cases pc with
      | resizing _ _ _ => cases this
      | _ => rfl
    exact .quiet hh rfl (by simp [Sys.out])
  | @close delete => cases delete <;> exact .quiet rfl rfl (by simp)
  | _ => exact .quiet rfl rfl (by simp [Sys.out])

theorem handler_notChild {x : Release.Ev} (h : s.step (.handler x) = some s') : ∀ y, x ≠ .child y := by
  rintro y rfl
  simp [Sys.step, Sys.handlerStep] at h

theorem handler_pty {x : Release.Ev} (h : s.step (.handler x) = some s') :
    s'.core.queue = s.core.queue ∧ s'.core.hup = s.core.hup := by
  cases step_move h with
  | begin _ _ hm => exact Release.step_pty hm rfl (handler_notChild h)
  | handler hl hm _ _ => exact Release.step_pty hm hl (handler_notChild h)

/-- A step that is not the child's is one party's, or leaves the store and the PTY alone. -/
theorem step_carry (h : s.step e = some s') (hc : ∀ x, e ≠ .child x) :
    (∃ i p q act, s.parties[i]? = some p ∧ PartyMove s e p q act ∧ s'.parties = s.parties.set i q ∧
      s'.store = s.store.act act ∧ Carry s.core s'.core p q act) ∨
    s'.hand = s.hand ∧ s'.store = s.store ∧ s'.core.queue = s.core.queue ∧ s'.core.loop = s.core.loop := by
  have same : s'.core.loop = s.core.loop → s'.ops = s.ops → s'.hand = s.hand := by
    intro hl ho
    simp only [Sys.hand, Sys.parties, hl, ho]
  cases step_move h with
  | loop hf hm => exact .inl ⟨0, _, _, _, rfl, .loop hf hm, rfl, rfl, hm.carry _⟩
  | @op i x pc o hp hm =>
    refine .inl ⟨i + 1, .op pc, .op o.pc, o.act, by simp [Sys.parties, hp], .op hp hm, ?_, rfl, hm.carry⟩
    have hl : (s.after i o).core.loop = s.core.loop := hm.same.loop
    simp only [Sys.parties, hl]
    simp [Sys.after, List.map_set]
  | child _ => exact absurd rfl (hc _)
  | call => exact .inr ⟨by simp [Sys.hand, Sys.parties, Sys.core, Party.hand], rfl, rfl, rfl⟩
  | freeze _ _ | unfreeze _ | remove _ _ => exact .inr ⟨rfl, rfl, rfl, rfl⟩
  | begin _ _ hm =>
    have hl := Release.step_loop hm rfl
    exact .inr ⟨same hl rfl, rfl, (handler_pty h).1, hl⟩
  | handler hx hm _ _ =>
    have hl := Release.step_loop hm hx
    exact .inr ⟨same hl rfl, rfl, (handler_pty h).1, hl⟩

theorem step_hup (h : s.step e = some s') (hc : ∀ x, e ≠ .child x) : s'.core.hup = s.core.hup := by
  cases step_move h with
  | loop _ hm => cases hm <;> rfl
  | child _ => exact absurd rfl (hc _)
  | begin _ _ _ | handler _ _ _ _ => exact (handler_pty h).2
  | op _ hm =>
    cases hm with
    | resize hr => cases hr <;> rfl
    | _ => rfl
  | _ => rfl

end Ghostline.Session
