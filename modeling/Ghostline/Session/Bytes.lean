/-
  Ghostline.Session.Bytes — every byte read from the PTY is appended, once and in order.

  What the log was given and what the parties have in hand are the bytes read, in order,
  for as long as the log takes its writes and nobody terminates the session
  (`Flows.exact`).

  The loop closes the log when it returns. It returns when the PTY is at its end, and then
  a late drain finds nothing to read (`Flows.dry`). Here a poll reports an error only for
  a master that is not open (`polls`): POLLNVAL is what the source looks for, and a poll of
  one open descriptor does not fail otherwise.
-/

import Ghostline.Session.Carry

namespace Ghostline.Session

open Lib Lib.Gate Output

variable {s s' : Sys} {e : Ev} {p q : Party}

/-! ## The end of the loop -/

/-- The loop will not read again, or has an error to return with. -/
def Loop.over : Loop → Bool
  | .unlock failed | .drainUnlock _ _ failed | .stable _ failed | .parked _ failed => failed
  | .stopping _ failed commit => failed || commit
  | l => l.past

/-- Where the loop polls the master. -/
def Loop.polls : Loop → Bool
  | .poll | .recheck | .drain _ _ => true
  | _ => false

/-- How the loop comes to its end. -/
inductive Ending (c : Core) : LoopEv → Prop
  | broken : c.loop.polls = true → Ending c .broken
  | eof : (Party.loop c.loop).reads = true → c.queue = [] → c.hup = true → Ending c .readFailed
  | lost {chunk : List Byte} : (∀ w, Sys.loopAct c.loop w = .append chunk w) → Ending c (.stored false)
  | commit {t : Nat} : c.loop = .parked t false → (c.tickets t).decide = some true → Ending c .go

theorem LoopMove.over {c c' : Core} {x : LoopEv} (h : LoopMove c x c') (hn : c.loop.over = false)
    (ho : c'.loop.over = true) : Ending c x := by
  cases h with
  | hop h =>
    simp only [Core.goto_loop] at ho
    generalize hk : c.loop = k at h hn
    cases h with
    | pollBroken | recheckBroken | drainBroken => exact .broken (by rw [hk]; rfl)
    | readFailed hq hh | drainReadFailed hq hh => exact .eof (by rw [hk]; rfl) hq hh
    | lost | drainLost => exact .lost (by rw [hk]; exact fun _ => rfl)
    | _ => first | (cases ho; done) | cases hn
  | @receive t failed commit hl hd =>
    rw [hl] at hn
    obtain rfl : failed = false := hn
    obtain rfl : commit = true := ho
    exact .commit hl hd
  | stopped hl =>
    rw [hl] at hn
    have hn : (_ || _) = false := hn
    simp only [Core.goto_loop, hn] at ho
    cases ho
  | killed hl _ => rw [hl] at hn; cases hn
  | woken hl _ | got hl _ _ | drainGot hl _ _ => cases ho
  | stable hl => rw [hl] at hn; exact absurd (hn.symm.trans ho) (by simp)
  | waitKilling hl _ _ | settleStable hl | settleChoose hl | settleStop hl | closeMaster hl _ | closeDone hl =>
    rw [hl] at hn; cases hn

theorem LoopMove.over_stays {c c' : Core} {x : LoopEv} (h : LoopMove c x c') (ho : c.loop.over = true) :
    c'.loop.over = true := by
  cases h with
  | hop h =>
    simp only [Core.goto_loop]
    generalize c.loop = k at h ho
    cases h <;> first | rfl | cases ho
  | receive hl _ =>
    rw [hl] at ho
    obtain rfl : _ = true := ho
    rfl
  | stopped hl =>
    rw [hl] at ho
    have ho : (_ || _) = true := ho
    simp only [Core.goto_loop, ho]
    rfl
  | killed hl _ => rw [hl] at ho; simp only [hl]; rfl
  | woken hl _ | got hl _ _ | drainGot hl _ _ => rw [hl] at ho; cases ho
  | stable hl => rw [hl] at ho; exact ho
  | _ => rfl

/-- A committed session's loop does not poll. -/
theorem Release.Safe.polls {m : Release.Sys} (h : Release.Safe m) (hg : m.core.migrated = true) :
    m.core.loop.polls = false := by
  rcases h.sealed hg with ⟨t, hh⟩ | hp | ⟨t, failed, hl⟩ | ⟨t, failed, hl, -⟩
  · rcases (h.prepared t (by rw [hh]; rfl)).loop h.tidy with hl | hl <;> rw [hl] <;> rfl
  · cases hl : m.core.loop <;> simp_all [Loop.past, Loop.polls]
  · rw [hl]; rfl
  · rw [hl]; rfl

/-! ## The invariant -/

/-- A poll reports an error only for a master that is not open. -/
def polls (s : Sys) : Ev → Bool
  | .loop .broken _ => s.core.master != .opened
  | _ => true

/-- With `u` appended and not fed yet: since the session began, the emulator was fed what
    the log was given. -/
def Told (base past : List Byte) (st : Store) (u : List Byte) : Prop :=
  st.vt.closed = false → ∃ more, st.appended = base ++ more ∧ past ++ more = st.vt.fed ++ u

/-- Nobody can read any more. -/
def Sys.Dry (s : Sys) : Prop :=
  s.core.migrated = true ∨ s.core.master = .absent ∨ s.core.queue = [] ∧ s.core.hup = true

/-- A session that began with `base` in its log and `past` in its emulator, and has read
    `got` since. -/
structure Flows (base past got : List Byte) (s : Sys) : Prop where
  batch : BatchInv s
  paused : Release.Paused s.mig
  sound : s.store.Sound
  fed : Guarded Party.output s.parties fun o => Told base past s.store (o.elim [] Party.unfed)
  exact : s.store.Healthy → s.store.appended ++ s.hand = base ++ got
  pre : s.store.appended <+: base ++ got
  shut : s.store.log.closed = true → s.store.Healthy → s.core.loop = .closeDone ∨ s.core.loop = .gone
  dry : s.core.loop.over = true → s.store.Healthy → s.hand = [] ∧ s.Dry
  master : s.core.master = .closed → s.store.Healthy → s.core.loop.over = true ∨ s.core.migrated = true
  absent : s.core.master = .absent → s.core.loop = .gone ∧ ∀ pc ∈ s.ops, pc.drains = false
  discards : Pc.discarding ∈ s.ops → s.store.vt.closed = true

variable {base past got : List Byte}

theorem Flows.hand_of_busy {i : Nat} (hi : Flows base past got s) (hp : s.parties[i]? = some p) (hb : p.Busy) :
    s.hand = p.hand :=
  flatMap_alone hp fun _ _ hne hq => hand_alone hi.batch hi.paused hi.fed.alone hne hp hq hb

theorem Flows.hand_set {i : Nat} (hi : Flows base past got s) (hp : s.parties[i]? = some p) (hb : p.Busy)
    (hs : s'.parties = s.parties.set i q) : s'.hand = q.hand := by
  rw [Sys.hand, hs]
  have hlt := (List.getElem?_eq_some_iff.mp hp).1
  refine flatMap_alone (i := i) (by simp [hlt]) fun j r hne hr => ?_
  rcases set_getElem? hr with ⟨rfl, -⟩ | ⟨-, hr⟩
  · exact absurd rfl hne
  · exact hand_alone hi.batch hi.paused hi.fed.alone hne hp hr hb

/-- Who can read. -/
def Sys.Reader (s : Sys) : Prop := (Party.loop s.core.loop).reads = true ∨ ∃ pc ∈ s.ops, pc.drains = true

/-- What a step does to the bytes of the session. -/
inductive Passed (s s' : Sys) : Prop
  | quiet : s'.hand = s.hand → s'.core.queue = s.core.queue → s'.store.appended = s.store.appended → Passed s s'
  | read : s.Reader → s.hand = [] → s'.hand ≠ [] → s.core.queue = s'.hand ++ s'.core.queue → s'.store = s.store →
      Passed s s'
  | store {w : OutputLog.Write} : s'.hand = [] → s'.core.queue = s.core.queue →
      s'.store = s.store.act (.append s.hand w) → Passed s s'

theorem appended_quiet {st : Store} {a : Act} (hk : Keeps st.log st.wrote) (h : ∀ chunk w, a ≠ .append chunk w) :
    (st.act a).appended = st.appended := by
  by_cases hr : ∃ fail, a = .rotate fail
  · obtain ⟨fail, rfl⟩ := hr
    exact appended_rotate hk fail
  · exact appended_other st h fun fail ha => hr ⟨fail, ha⟩

theorem Flows.passed (hi : Flows base past got s) (h : s.step e = some s') (hc : ∀ x, e ≠ .child x) : Passed s s' := by
  rcases step_carry h hc with ⟨i, p, q, act, hp, hm, hs, hst, hcar⟩ | ⟨hh, hst, hq, -⟩
  · have same : q.hand = p.hand → s'.hand = s.hand := by
      intro hpq
      rw [Sys.hand, hs]
      exact flatMap_set hp hpq
    cases hcar with
    | quiet hpq hq ha => exact .quiet (same hpq) hq (by rw [hst]; exact appended_quiet hi.sound.keeps ha)
    | read hr hne hq =>
      have hb : p.Busy := .inl hr
      have hs' := hi.hand_set hp hb hs
      refine .read ?_ ((hi.hand_of_busy hp hb).trans (hand_of_reads hr)) (hs' ▸ hne) (hs' ▸ hq) hst
      cases p with
      | loop l => obtain ⟨-, rfl⟩ := parties_loop hp; exact .inl hr
      | op pc => exact .inr ⟨pc, parties_op hp, hb.op⟩
    | @store w hq hqu =>
      by_cases he : p.hand = []
      · refine .quiet (same (hq.trans he.symm)) hqu ?_
        rw [hst, he, appended_stored rfl, List.append_nil]
      · have hb : p.Busy := .inr he
        refine .store (w := w) ((hi.hand_set hp hb hs).trans hq) hqu ?_
        rw [hst, hi.hand_of_busy hp hb]
  · exact .quiet hh hq (by rw [hst])

/-! ### What is kept -/

theorem step_store (h : s.step e = some s') : ∃ act, s'.store = s.store.act act := by
  rcases step_party h with ⟨_, _, _, act, _, _, _, hs⟩ | ⟨_, hs⟩ | ⟨_, _, hs⟩
  · exact ⟨act, hs⟩
  · exact ⟨.idle, hs⟩
  · exact ⟨.idle, hs⟩

theorem Flows.healthy (hi : Flows base past got s) (h : s.step e = some s') (hh : s'.store.Healthy) :
    s.store.Healthy := by
  obtain ⟨act, hs⟩ := step_store h
  exact hi.sound.healthy (hs ▸ hh)

theorem paused_step (hi : Release.Paused s.mig) (h : s.step e = some s') : Release.Paused s'.mig := by
  cases step_move h with
  | loop _ hm => exact hi.loop hm
  | child hm => exact hi.same (.child hm)
  | begin _ _ hm | handler _ hm _ _ => exact hi.step hm
  | op _ hm => exact hi.same hm.same
  | _ => exact hi

theorem Handling.told {st : Store} {p q : Party} {act : Act} (h : Handling st p q act)
    (ht : Told base past st p.unfed) : Told base past (st.act act) q.unfed := by
  intro hv
  have hv' := vt_closed_of_act hv
  obtain ⟨more, ha, hf⟩ := ht hv'
  cases h with
  | quiet h1 h2 hfed happ => exact ⟨more, happ.trans ha, by rw [hfed, h2, ← h1]; exact hf⟩
  | @append chunk w h1 hn h2 =>
    refine ⟨more ++ chunk, by rw [appended_stored hn, ha, List.append_assoc], ?_⟩
    rw [h2, ← List.append_assoc, hf, h1, List.append_nil]
    rfl
  | @feed chunk h1 h2 =>
    refine ⟨more, (appended_other st (by simp) (by simp)).trans ha, ?_⟩
    rw [hf, h1, h2]
    simp [Store.act, Vt.feed, hv']

/-- A party without the lock changes neither what is appended nor what is fed. -/
theorem Handling.still {st : Store} {p q : Party} {act : Act} {u : List Byte} (h : Handling st p q act)
    (hp : p.unfed = []) (hq : q.unfed = []) (ht : Told base past st u) : Told base past (st.act act) u := by
  intro hv
  have hv' := vt_closed_of_act hv
  obtain ⟨more, ha, hf⟩ := ht hv'
  cases h with
  | quiet _ _ hfed happ => exact ⟨more, happ.trans ha, by rw [hfed]; exact hf⟩
  | append _ hn h2 =>
    obtain rfl := hq.symm.trans h2
    exact ⟨more, by rw [appended_stored hn, List.append_nil]; exact ha, hf⟩
  | feed h1 _ =>
    obtain rfl := hp.symm.trans h1
    exact ⟨more, (appended_other st (by simp) (by simp)).trans ha, by simpa [Store.act, Vt.feed, hv'] using hf⟩

theorem Flows.told (hi : Flows base past got s) (h : s.step e = some s') :
    Guarded Party.output s'.parties fun o => Told base past s'.store (o.elim [] Party.unfed) := by
  refine step_guarded (R := fun st o => Told base past st (o.elim [] Party.unfed)) h hi.fed ?_ ?_ ?_ ?_
  · intro p q act hm hp hq o ho
    exact (hm.handling hi.sound.keeps).still (unfed_of_free hp) (unfed_of_free hq) ho
  · intro p q act hm hp _ ho
    refine (hm.handling hi.sound.keeps).told ?_
    rw [unfed_of_free hp]
    exact ho
  · intro p q act hm _ _ ho
    exact (hm.handling hi.sound.keeps).told ho
  · intro p q act hm _ hq ho
    have := (hm.handling hi.sound.keeps).told ho
    rwa [unfed_of_free hq] at this

/-- A failed append of a healthy session leaves it so only with nothing to append. -/
theorem Flows.stored {w : OutputLog.Write} (hi : Flows base past got s) (hs : s'.store = s.store.act (.append s.hand w))
    (hh : s'.store.Healthy) : (s.store.log.append s.hand w).2 = none := by
  by_contra hn
  obtain ⟨hne, hc | he⟩ := append_refused hn
  · -- the loop closed the log, and left nothing in hand
    have hh' := hi.sound.healthy (hs ▸ hh)
    have ho : s.core.loop.over = true := by rcases hi.shut hc hh' with hl | hl <;> rw [hl] <;> rfl
    exact hne (hi.dry ho hh').1
  · exact he (hs ▸ hh).1

/-- The bytes a step reads. -/
def Core.taken (c c' : Core) : List Byte := c.queue.take (c.queue.length - c'.queue.length)

theorem Core.taken_same {c c' : Core} (h : c'.queue = c.queue) : c.taken c' = [] := by simp [Core.taken, h]

theorem Core.taken_read {c c' : Core} {chunk : List Byte} (h : c.queue = chunk ++ c'.queue) : c.taken c' = chunk := by
  simp [Core.taken, h]

theorem Flows.appended (hi : Flows base past got s) (h : s.step e = some s') (hc : ∀ x, e ≠ .child x) :
    (s'.store.Healthy → s'.store.appended ++ s'.hand = base ++ (got ++ s.core.taken s'.core)) ∧
      s'.store.appended <+: base ++ (got ++ s.core.taken s'.core) := by
  cases hi.passed h hc with
  | quiet hh hq ha =>
    rw [Core.taken_same hq, List.append_nil, ha, hh]
    exact ⟨fun hs => hi.exact (hi.healthy h hs), hi.pre⟩
  | read _ h0 _ hq hst =>
    rw [Core.taken_read hq, hst, ← List.append_assoc]
    refine ⟨fun hs => ?_, hi.pre.trans (List.prefix_append _ _)⟩
    have := hi.exact hs
    rw [h0, List.append_nil] at this
    rw [this]
  | @store w hh hq hst =>
    rw [Core.taken_same hq, List.append_nil]
    refine ⟨fun hs => ?_, ?_⟩
    · rw [hh, List.append_nil, hst, appended_stored (hi.stored hst hs)]
      exact hi.exact (hi.healthy h hs)
    · by_cases hn : (s.store.log.append s.hand w).2 = none
      · rw [hst, appended_stored hn]
        rcases append_taken hn with he | ho
        · rw [he, List.append_nil]; exact hi.pre
        · rw [hi.exact (hi.sound.opened ho)]
      · rw [hst, appended_lost hn]; exact hi.pre

/-- What the loop appends can only be refused with an error recorded. -/
theorem Flows.lost {chunk : List Byte} {w : OutputLog.Write} (hi : Flows base past got s)
    (ha : Sys.loopAct s.core.loop w = .append chunk w) (hn : (s.store.log.append chunk w).2 ≠ none)
    (hh : (s.store.act (.append chunk w)).Healthy) : False := by
  obtain ⟨-, hc | he⟩ := append_refused hn
  · rcases hi.shut hc (hi.sound.healthy hh) with hl | hl <;> rw [hl] at ha <;> cases ha
  · exact he hh.1

/-- While the loop is at a ticket and does not carry bytes itself, nobody does. -/
theorem Flows.hand_parked {t : Nat} (hi : Flows base past got s) (hl : s.core.loop.ticket = some t)
    (hh : (Party.loop s.core.loop).hand = []) : s.hand = [] := by
  rw [Sys.hand, List.flatMap_eq_nil_iff]
  intro p hp
  obtain ⟨i, hp⟩ := List.mem_iff_getElem?.mp hp
  cases p with
  | loop l => obtain ⟨-, rfl⟩ := parties_loop hp; exact hh
  | op pc =>
    by_contra hne
    obtain ⟨-, hin, -⟩ := Pc.drains_spec (Party.Busy.op (.inr hne))
    simp [ticket_apart hi.batch hi.paused hl pc (parties_op hp)] at hin

theorem Dry.step (h : s.step e = some s') (hc : ∀ x, e ≠ .child x) (hd : s.Dry) (hq : s'.core.queue = s.core.queue) :
    s'.Dry := by
  rcases hd with hg | ha | ⟨he, hu⟩
  · exact .inl (migrated_step h hg)
  · refine .inr (.inl ?_)
    rcases (step_closes h).master with hm | hm <;> rw [hm]
    · exact ha
    · simp [Core.dropMaster, ha]
  · exact .inr (.inr ⟨hq.trans he, (step_hup h hc).trans hu⟩)

/-- Once nobody can read, nobody does. -/
theorem Flows.unread (hi : Flows base past got s) (hd : s.Dry) (ho : s.core.loop.over = true) (hq : s.core.queue ≠ []) :
    ¬s.Reader := by
  rintro (hr | ⟨pc, hp, hpc⟩)
  · cases hl : s.core.loop <;> simp_all [Party.reads, Loop.over, Loop.past]
  · rcases hd with hg | ha | ⟨he, -⟩
    · have := hi.batch.unchecked hg pc hp
      simp [(Pc.drains_spec hpc).2.2] at this
    · have := (hi.absent ha).2 pc hp
      simp [hpc] at this
    · exact hq he

/-- The loop comes to its end with nothing left to read, or with an error recorded. -/
theorem Flows.ending {x : LoopEv} {w : OutputLog.Write} (hi : Flows base past got s) (hok : polls s (.loop x w) = true)
    (h : s.step (.loop x w) = some s') (he : Ending s.core x) (hn : s.core.loop.over = false)
    (hh : s'.store.Healthy) : s'.hand = [] ∧ s'.Dry := by
  have hc : ∀ y, Ev.loop x w ≠ .child y := by simp
  have hpass := hi.passed h hc
  cases he with
  | broken hp =>
    -- the master is open while the loop polls it
    exfalso
    have hm : s.core.master ≠ .opened := by simpa [polls] using hok
    cases hs : s.core.master with
    | opened => exact hm hs
    | absent => rw [(hi.absent hs).1] at hp; cases hp
    | closed =>
      rcases hi.master hs (hi.healthy h hh) with ho | hg
      · rw [hn] at ho; cases ho
      · exact absurd (hi.batch.safe.polls hg) (by simp [Sys.core] at hp; simp [hp])
  | eof hr hq hu =>
    have hd : s.Dry := .inr (.inr ⟨hq, hu⟩)
    have h0 : s.hand = [] := (hi.hand_of_busy (i := 0) rfl (.inl hr)).trans (hand_of_reads hr)
    cases hpass with
    | quiet hh' hq' _ => exact ⟨hh'.trans h0, Dry.step h hc hd hq'⟩
    | read _ _ hne hq' _ => rw [hq] at hq'; exact absurd (List.append_eq_nil_iff.mp hq'.symm).1 hne
    | store hh' hq' _ => exact ⟨hh', Dry.step h hc hd hq'⟩
  | lost ha =>
    exfalso
    cases step_move h with
    | loop hf _ =>
      have hact := ha w
      refine hi.lost hact ?_ (hact ▸ hh)
      have hs := hf
      unfold Sys.loopFits at hs
      cases hl : s.core.loop <;> rw [hl] at hact <;> cases hact <;> simp_all [Option.isSome_iff_ne_none]
  | @commit t hl hd =>
    have hdry : s'.Dry := .inl (migrated_step h (hi.paused.sent t hd))
    have h0 : s.hand = [] := hi.hand_parked (t := t) (by rw [hl]; rfl) (by rw [hl]; rfl)
    cases hpass with
    | quiet hh' _ _ => exact ⟨hh'.trans h0, hdry⟩
    | read hr _ _ _ _ =>
      exfalso
      rcases hr with hr | ⟨pc, hp, hpc⟩
      · rw [hl] at hr; cases hr
      · have := ticket_apart (t := t) hi.batch hi.paused (by rw [hl]; rfl) pc hp
        simp [(Pc.drains_spec hpc).2.1] at this
    | store hh' _ _ => exact ⟨hh', hdry⟩

/-- Only a step of the loop moves the loop. -/
theorem step_loop (h : s.step e = some s') :
    s'.core.loop = s.core.loop ∨ ∃ x w, e = .loop x w ∧ LoopMove s.core x s'.core := by
  cases step_move h with
  | loop _ hm => exact .inr ⟨_, _, rfl, hm⟩
  | child hm => exact .inl (SameTickets.child hm).loop
  | begin _ _ hm => exact .inl (Release.step_loop hm rfl)
  | handler hl hm _ _ => exact .inl (Release.step_loop hm hl)
  | op _ hm => exact .inl hm.same.loop
  | _ => exact .inl rfl

theorem Flows.dry_step (hi : Flows base past got s) (hok : polls s e = true) (h : s.step e = some s')
    (hc : ∀ x, e ≠ .child x) (ho : s'.core.loop.over = true) (hh : s'.store.Healthy) : s'.hand = [] ∧ s'.Dry := by
  cases hov : s.core.loop.over with
  | true =>
    obtain ⟨h0, hd⟩ := hi.dry hov (hi.healthy h hh)
    cases hi.passed h hc with
    | quiet hs hq _ => exact ⟨hs.trans h0, Dry.step h hc hd hq⟩
    | read hr _ hne hq _ =>
      refine absurd hr (hi.unread hd hov ?_)
      rw [hq]
      exact fun hnil => hne (List.append_eq_nil_iff.mp hnil).1
    | store hs hq _ => exact ⟨hs, Dry.step h hc hd hq⟩
  | false =>
    rcases step_loop h with hl | ⟨x, w, rfl, hm⟩
    · rw [hl, hov] at ho; cases ho
    · exact hi.ending hok h (hm.over hov ho) hov hh

theorem LoopMove.shut {c c' : Core} {x : LoopEv} (h : LoopMove c x c')
    (hl : c.loop = .closeLog ∨ c.loop = .closeDone ∨ c.loop = .gone) : c'.loop = .closeDone ∨ c'.loop = .gone := by
  cases h with
  | hop hh => rcases hl with hl | hl | hl <;> rw [hl] at hh <;> cases hh; exact .inl rfl
  | closeDone _ => exact .inr rfl
  | _ => rcases hl with hl | hl | hl <;> simp_all

/-- Who closes the log. -/
theorem loopAct_closes {l : Loop} {w : OutputLog.Write}
    (h : Sys.loopAct l w = .closeLog ∨ Sys.loopAct l w = .close ∨ Sys.loopAct l w = .discard) : l = .closeLog := by
  cases l <;> simp [Sys.loopAct] at h ⊢

theorem OpMove.closes {pc : Pc} {x : OpEv} {o : Sys.Out} (h : OpMove s pc x o)
    (ha : o.act = .closeLog ∨ o.act = .close ∨ o.act = .discard) : o.act = .close ∨ pc = .discarding := by
  cases h with
  | close => exact .inl rfl
  | discard => exact .inr rfl
  | resize h => cases h <;> simp [Sys.out] at ha
  | _ => simp [Sys.out] at ha

theorem Flows.shut_step (hi : Flows base past got s) (h : s.step e = some s') (hc : s'.store.log.closed = true)
    (hh : s'.store.Healthy) : s'.core.loop = .closeDone ∨ s'.core.loop = .gone := by
  cases hs : s.store.log.closed with
  | true =>
    have hl := hi.shut hs (hi.healthy h hh)
    rcases step_loop h with he | ⟨x, w, -, hm⟩
    · rwa [he]
    · exact hm.shut (.inr hl)
  | false =>
    cases step_move h with
    | loop _ hm =>
      rcases act_closes hs hc with ha | ⟨-, he⟩
      · exact hm.shut (.inl (loopAct_closes ha))
      · exact absurd hh.1 he
    | @op i x pc o hp hm =>
      exfalso
      have hh : (s.store.act o.act).Healthy := hh
      rcases act_closes hs hc with ha | ⟨-, he⟩
      · rcases hm.closes ha with ha | rfl
        · rw [ha] at hh; cases hh.2
        · have hv := hi.discards (List.mem_of_getElem? hp)
          rw [vt_closed_of_act hh.2] at hv
          cases hv
      · exact he hh.1
    | _ => exact absurd (hs.symm.trans hc) (by simp)

/-- The handler closes the master of a committed session only. -/
theorem Release.Paused.dropped {m m' : Release.Sys} {x : Release.Ev} (hi : Release.Paused m)
    (h : Release.step m x = some m') (hx : x.isLoop = false) (hc : ∀ y, x ≠ .child y) (ho : m.core.master ≠ .closed)
    (hm : m'.core.master = .closed) : m'.core.migrated = true := by
  cases Release.step_move h with
  | loop _ => cases hx
  | child _ => exact absurd rfl (hc _)
  | begin _ hb _ =>
    obtain ⟨-, hb⟩ := Option.ite_none_left_eq_some.mp hb
    cases hb
    exact absurd hm ho
  | turn _ => exact absurd hm ho
  | @finish t f f' c hf hfm =>
    cases hfm with
    | dropped => exact hi.marked t _ hf rfl
    | _ => exact absurd hm ho

theorem LoopMove.dropped {c c' : Core} {x : LoopEv} (h : LoopMove c x c') (ho : c.master ≠ .closed)
    (hm : c'.master = .closed) : c'.loop.over = true := by
  cases h with
  | waitKilling _ _ _ | closeMaster _ _ => rfl
  | _ => exact absurd hm ho

theorem Flows.master_step (hi : Flows base past got s) (h : s.step e = some s') (hc : ∀ x, e ≠ .child x)
    (hm : s'.core.master = .closed) (hh : s'.store.Healthy) : s'.core.loop.over = true ∨ s'.core.migrated = true := by
  by_cases ho : s.core.master = .closed
  · rcases hi.master ho (hi.healthy h hh) with hov | hg
    · rcases step_loop h with he | ⟨x, w, -, hl⟩
      · exact .inl (he ▸ hov)
      · exact .inl (hl.over_stays hov)
    · exact .inr (migrated_step h hg)
  · cases step_move h with
    | loop _ hl => exact .inl (hl.dropped ho hm)
    | child _ => exact absurd rfl (hc _)
    | begin _ _ hs => exact .inr (hi.paused.dropped hs rfl (fun x hx => by cases hx) ho hm)
    | handler hx hs _ _ => exact .inr (hi.paused.dropped hs hx (handler_notChild h) ho hm)
    | op _ ho' =>
      cases ho' with
      | close => cases hh.2
      | resize hr => cases hr <;> exact absurd hm ho
      | _ => exact absurd hm ho
    | _ => exact absurd hm ho

theorem LoopMove.not_gone {c c' : Core} {x : LoopEv} (h : LoopMove c x c') : c.loop ≠ .gone := by
  intro hl
  cases h with
  | hop hh => rw [hl] at hh; cases hh
  | _ => simp_all

/-- A `Resize` comes to its drain with an open master. -/
theorem OpMove.drains {pc : Pc} {x : OpEv} {o : Sys.Out} (h : OpMove s pc x o) (hd : o.pc.drains = true) :
    pc.drains = true ∨ s.core.master = .opened := by
  cases h with
  | resize h =>
    cases h with
    | ready ho _ => exact .inr ho
    | got _ _ => exact .inl rfl
    | _ => cases hd
  | @check op =>
    have hd : (s.enter op).drains = true := hd
    have := enter_output (s := s) op
    rw [(Pc.drains_spec hd).1] at this
    cases this
  | close => simp only [Sys.out] at hd; split at hd <;> cases hd
  | _ => cases hd

theorem Flows.absent_step (hi : Flows base past got s) (h : s.step e = some s') (hm : s'.core.master = .absent) :
    s'.core.loop = .gone ∧ ∀ pc ∈ s'.ops, pc.drains = false := by
  have ha : s.core.master = .absent := by
    rcases (step_closes h).master with he | he <;> rw [he] at hm
    · exact hm
    · simp only [Core.dropMaster] at hm
      split at hm
      · assumption
      · cases hm
  obtain ⟨hl, hp⟩ := hi.absent ha
  constructor
  · rcases step_loop h with he | ⟨x, w, -, hmove⟩
    · rw [he, hl]
    · exact absurd hl hmove.not_gone
  · cases step_move h with
    | call =>
      intro pc hpc
      rcases List.mem_append.mp hpc with hpc | hpc
      · exact hp pc hpc
      · rw [List.mem_singleton.mp hpc]; rfl
    | @op i x pc o hi' hmove =>
      intro q hq
      rcases List.mem_or_eq_of_mem_set hq with hq | rfl
      · exact hp q hq
      · by_contra hd
        rcases hmove.drains (by simpa using hd) with hd' | ho
        · simp [hp pc (List.mem_of_getElem? hi')] at hd'
        · rw [ha] at ho; cases ho
    | _ => exact hp

theorem Flows.discards_step (hi : Flows base past got s) (h : s.step e = some s') (hd : Pc.discarding ∈ s'.ops) :
    s'.store.vt.closed = true := by
  -- the emulator is not opened again
  have stays : Pc.discarding ∈ s.ops → s'.store.vt.closed = true := by
    intro hp
    obtain ⟨act, hs⟩ := step_store h
    by_contra hv
    have hv : s.store.vt.closed = false := vt_closed_of_act (a := act) (by rw [← hs]; simpa using hv)
    rw [hi.discards hp] at hv
    cases hv
  cases step_move h with
  | call =>
    rcases List.mem_append.mp hd with hp | hp
    · exact stays hp
    · cases List.mem_singleton.mp hp
  | @op i x pc o hp hm =>
    rcases List.mem_or_eq_of_mem_set hd with hq | hq
    · exact stays hq
    · cases hm with
      | close => rfl
      | @check op => cases op <;> simp only [Sys.out, Sys.enter] at hq <;> (repeat' split at hq) <;> cases hq
      | resize hr => cases hr <;> cases hq
      | _ => cases hq
  | _ => exact stays hd

/-- One step: what it reads is added to what was read. -/
theorem Flows.step (hi : Flows base past got s) (hok : polls s e = true) (h : s.step e = some s')
    (hc : ∀ x, e ≠ .child x) : Flows base past (got ++ s.core.taken s'.core) s' where
  batch := hi.batch.step h
  paused := paused_step hi.paused h
  sound := by
    obtain ⟨act, hs⟩ := step_store h
    rw [hs]
    exact hi.sound.act act
  fed := hi.told h
  exact := (hi.appended h hc).1
  pre := (hi.appended h hc).2
  shut := hi.shut_step h
  dry := hi.dry_step hok h hc
  master := hi.master_step h hc
  absent := hi.absent_step h
  discards := hi.discards_step h

/-! ## The PTY -/

/-- A session on the PTY as `c` has it. -/
def Sys.onPty (s : Sys) (c : Core) : Sys :=
  s.withCore { s.core with exited := c.exited, hup := c.hup, queue := c.queue }

theorem same_onPty (s : Sys) (c : Core) : SameTickets s.core (s.onPty c).core := ⟨rfl, rfl, rfl, rfl, rfl, rfl⟩

theorem Flows.onPty {c : Core} (hi : Flows base past got s)
    (hq : s.core.queue = [] → s.core.hup = true → c.queue = [] ∧ c.hup = true) : Flows base past got (s.onPty c) where
  batch := ⟨hi.batch.safe.same (same_onPty s c), hi.batch.apart, hi.batch.busy, hi.batch.out, hi.batch.unchecked⟩
  paused := hi.paused.same (same_onPty s c)
  sound := hi.sound
  fed := hi.fed
  exact := hi.exact
  pre := hi.pre
  shut := hi.shut
  dry ho hh := ⟨(hi.dry ho hh).1, (hi.dry ho hh).2.imp_right (Or.imp_right fun h => hq h.1 h.2)⟩
  master := hi.master
  absent := hi.absent
  discards := hi.discards

theorem childStep_onPty {x : Core.ChildEv} (h : s.step (.child x) = some s') :
    s' = s.onPty s'.core ∧ (s.core.queue = [] → s.core.hup = true → s'.core.queue = [] ∧ s'.core.hup = true) := by
  cases step_move h with
  | child hm =>
    cases childStep_move hm with
    | write hh => exact ⟨rfl, fun _ hu => absurd hu (by simp [hh])⟩
    | exit | hangup => exact ⟨rfl, fun hq hu => ⟨hq, by first | exact hu | rfl⟩⟩

theorem Flows.child {x : Core.ChildEv} (hi : Flows base past got s) (h : s.step (.child x) = some s') :
    Flows base past got s' := by
  obtain ⟨he, hq⟩ := childStep_onPty h
  rw [he]
  exact hi.onPty hq

/-! ## Where a session begins -/

theorem Store.Sound.begun {log : OutputLog} (hk : Keeps log (adopted log)) (hc : log.closed = false)
    (he : log.err = none) (vt : Vt) (hv : vt.closed = false) (size : Size) (alive : Bool) (lib : Library) :
    Store.Sound ⟨if alive then log.markSize size else log.close none, adopted log, vt, size, lib⟩ := by
  cases alive with
  | true =>
    obtain ⟨sizes, changed, hm⟩ := markSize_eq log size
    have keeps := hk.markSize size
    refine ⟨keeps, fun _ => ⟨?_, hv⟩, fun _ => keeps.exact ?_⟩ <;> simp [hm, he, hc]
  | false =>
    have keeps : Keeps (log.close none) (adopted log) := hk.close (by simp)
    have hclose : log.close none = OutputLog.signalLocked { log with err := none, closed := true } := by
      simp [OutputLog.close, hc]
    refine ⟨keeps, fun h => ?_, fun _ => ?_⟩
    · simp [hclose, OutputLog.signalLocked] at h
    · simp only [Bool.false_eq_true, if_false, hclose]
      exact hk.exact hc

theorem Release.Paused.fresh (owned : Bool) : Release.Paused ⟨Core.fresh owned, .idle⟩ :=
  .init (.fresh owned) (.inl rfl) rfl (fun _ => rfl) rfl

theorem Release.Paused.dead : Release.Paused ⟨Core.dead, .idle⟩ := .init .dead (.inr rfl) rfl (fun _ => rfl) rfl

theorem Flows.begun {c : Core} {st : Store} (hs : st.Sound) (hp : Release.Paused ⟨c, .idle⟩) (hg : c.migrated = false)
    (hc : c.loop = .check ∧ c.master = .opened ∧ st.log.closed = false ∨ c.loop = .gone ∧ c.master = .absent) :
    Flows st.appended st.vt.fed [] ⟨⟨c, .idle⟩, false, true, st, [], []⟩ where
  batch := ⟨hp.safe, by simp, by simp, by simp [Sys.core, hg], by simp⟩
  paused := hp
  sound := hs
  fed := by
    refine .single ?_ fun _ => ⟨[], by simp, by simp⟩
    rcases hc with ⟨hl, -, -⟩ | ⟨hl, -⟩ <;> simp [Sys.core, hl, Party.output, Loop.output]
  exact _ := by rcases hc with ⟨hl, -, -⟩ | ⟨hl, -⟩ <;> simp [Sys.hand, Sys.parties, Sys.core, hl, Party.hand]
  pre := by simp
  shut hcl _ := by
    rcases hc with ⟨-, -, ho⟩ | ⟨hl, -⟩
    · rw [show st.log.closed = true from hcl] at ho; cases ho
    · exact .inr hl
  dry ho _ := by
    rcases hc with ⟨hl, -, -⟩ | ⟨hl, hm⟩
    · rw [show Sys.core _ = c from rfl, hl] at ho; cases ho
    · exact ⟨by simp [Sys.hand, Sys.parties, Sys.core, hl, Party.hand], .inr (.inl hm)⟩
  master hm _ := by
    rcases hc with ⟨-, ho, -⟩ | ⟨-, ho⟩ <;> exact absurd (ho.symm.trans hm) (by simp)
  absent hm := by
    rcases hc with ⟨-, ho, -⟩ | ⟨hl, -⟩
    · exact absurd (ho.symm.trans hm) (by simp)
    · exact ⟨hl, by simp⟩
  discards h := by cases h

/-- A session adopted with the emulator it is handed. -/
theorem Flows.adopted {files : Nat → List Byte} {linked : Nat → Bool} {generation : Nat} {log : OutputLog} {vt : Vt}
    (hg : generation < 2 ^ 64)
    (h : OutputLog.adoptOutputLog files linked generation = .ok log ∨ OutputLog.createOutputLog = .ok log)
    (hv : vt.closed = false) (size : Size) (alive : Bool) (lib : Library) :
    Flows (adoptStateWithTerminal lib log vt size alive).store.appended vt.fed []
      (adoptStateWithTerminal lib log vt size alive) := by
  have hopen : log.closed = false ∧ log.err = none := by
    rcases h with h | h
    · unfold OutputLog.adoptOutputLog at h
      split at h
      · cases h
      · obtain ⟨-, -, -, hc, he, -⟩ := openOutputLog_ok h
        exact ⟨hc, he⟩
    · obtain ⟨-, -, -, hc, he, -⟩ := openOutputLog_ok h
      exact ⟨hc, he⟩
  have sound := Store.Sound.begun (keeps_begun hg h) hopen.1 hopen.2 vt hv size alive lib
  cases alive with
  | true =>
    refine .begun sound (.fresh false) rfl (.inl ⟨rfl, rfl, ?_⟩)
    obtain ⟨sizes, changed, hm⟩ := markSize_eq log size
    show (log.markSize size).closed = false
    simp [hm, hopen.1]
  | false => exact .begun sound .dead rfl (.inr ⟨rfl, rfl⟩)

theorem Flows.init (h : machine.init s) : Flows s.store.appended s.store.vt.fed [] s := by
  rcases h with ⟨lib, log, size, hlog, -, rfl⟩ | ⟨lib, _, _, _, log, vt, alive, hg, hlog, -, hv, rfl⟩
  · obtain ⟨-, -, -, hc, he, -⟩ := openOutputLog_ok hlog
    have keeps : Keeps log (Output.adopted log) := keeps_open (by decide) hlog
    have sound := Store.Sound.begun keeps hc he ⟨[], size, false⟩ rfl size true lib
    refine .begun sound (.fresh true) rfl (.inl ⟨rfl, rfl, ?_⟩)
    obtain ⟨sizes, changed, hm⟩ := markSize_eq log size
    show (log.markSize size).closed = false
    simp [hm, hc]
  · exact .adopted hg hlog hv vt.grid alive lib

end Ghostline.Session
