/-
  Ghostline.Handoff.Identity — names, creation times and the order of `List` across an
  adoption (hub.go: `List`, `sessionStates`).

  `List` sorts by creation time and then by name. A time that `time.Now` returned has a
  monotonic reading beside the wall clock, and two such times are compared by it; a time
  from the wire has none. Since the monotonic clock and the wall clock need not agree, the
  comparison need not be an order, and then `sort.Slice` may return anything (`Lib.Sorts`).

  The wire has whole seconds. What is below the second is lost, and with it the order of
  sessions that were created in the same one (`identity_survives_iff`).
-/

import Mathlib.Data.Prod.Lex
import Mathlib.Data.String.Basic
import Ghostline.Lib.Sorting
import Ghostline.Handoff.Meta

namespace Ghostline.Handoff

open Lib

/-! ## The listing -/

/-- A session of a hub, with the monotonic reading of its `createdAt`. -/
structure Member where
  state : SessionState
  mono : Option Int
  deriving DecidableEq, Repr

structure SessionInfo where
  name : String
  createdAt : Int
  deriving DecidableEq, Repr

namespace Member

def info (m : Member) : SessionInfo := ⟨m.state.name, m.state.createdAt⟩

/-- What `Time.Equal` and `Time.Before` compare. -/
def readings (left right : Member) : Int × Int :=
  match left.mono, right.mono with
  | some x, some y => (x, y)
  | _, _ => (left.state.createdAt, right.state.createdAt)

def equal (left right : Member) : Bool := (left.readings right).1 == (left.readings right).2

def before (left right : Member) : Bool := decide ((left.readings right).1 < (left.readings right).2)

/-- The comparison of `sessionStates`. -/
def less (left right : Member) : Bool :=
  if left.equal right then decide (left.state.name < right.state.name) else left.before right

end Member

/-- What `List` may return for the sessions in the map. -/
def Listing (sessions : List Member) (infos : List SessionInfo) : Prop :=
  ∃ out, Sorts Member.less sessions out ∧ infos = out.map Member.info

/-- `target` is `source` after its adoption. The session may have gone on in between, but
    its name and its creation time are those it was started with. -/
def Adopted (source target : Member) : Prop :=
  ∃ s meta_ directory generation scrollback, s.name = source.state.name ∧ s.createdAt = source.state.createdAt ∧
    sessionMetaLocked s = .ok meta_ ∧ target = ⟨adopt meta_ directory generation scrollback, none⟩

/-! ## Times on the wire -/

theorem Adopted.info {a b : Member} (h : Adopted a b) :
    b.info = ⟨a.state.name, a.state.createdAt / 10 ^ 9 * 10 ^ 9⟩ ∧ b.mono = none := by
  obtain ⟨s, m, directory, generation, scrollback, hname, htime, hm, rfl⟩ := h
  have hmeta : m.name = s.name ∧ m.createdAt = s.createdAt / 10 ^ 9 := by
    unfold sessionMetaLocked at hm
    split at hm
    · cases hm
    · obtain rfl := Except.ok.inj hm
      exact ⟨rfl, rfl⟩
  refine ⟨?_, rfl⟩
  simp [Member.info, adopt, adoptStateWithTerminal, hmeta, hname, htime]

/-- The creation time is a whole second. -/
def Member.Whole (a : Member) : Prop := a.state.createdAt % 10 ^ 9 = 0

theorem Adopted.info_eq_iff {a b : Member} (h : Adopted a b) : b.info = a.info ↔ a.Whole := by
  rw [h.info.1]
  simp only [Member.info, Member.Whole, SessionInfo.mk.injEq, true_and]
  omega

/-! ## The order -/

/-- By wall clock, then by name. -/
def SessionInfo.key (i : SessionInfo) : Int ×ₗ String := toLex (i.createdAt, i.name)

theorem key_injective : Function.Injective SessionInfo.key := by
  intro i k h
  have := toLex.injective h
  cases i
  cases k
  simp_all

namespace Member

variable {a b : Member}

theorem readings_swap (a b : Member) : b.readings a = (a.readings b).swap := by
  unfold readings
  cases a.mono <;> cases b.mono <;> rfl

theorem less_irrefl (a : Member) : a.less a = false := by
  have hself : (a.readings a).1 = (a.readings a).2 := congrArg Prod.fst (a.readings_swap a)
  simp [less, equal, hself]

theorem less_total (h : a.state.name ≠ b.state.name) : a.less b = true ∨ b.less a = true := by
  simp only [less, equal, before, a.readings_swap b, Prod.fst_swap, Prod.snd_swap]
  rcases lt_trichotomy (a.readings b).1 (a.readings b).2 with hlt | heq | hgt
  · simp [hlt, hlt.ne]
  · simpa [heq] using lt_or_gt_of_ne h
  · simp [hgt, hgt.ne]

/-- Without a monotonic reading the comparison is that of the wall clock. -/
theorem less_wall (h : a.mono = none) : a.less b = decide (a.info.key < b.info.key) := by
  have hread : a.readings b = (a.state.createdAt, b.state.createdAt) := by simp [readings, h]
  simp only [less, equal, before, hread, SessionInfo.key, info, Prod.Lex.toLex_lt_toLex]
  by_cases he : a.state.createdAt = b.state.createdAt
  · simp [he]
  · simp [he]

end Member

variable {source target : List Member}

theorem adopted_infos_iff (had : List.Forall₂ Adopted source target) :
    List.Forall₂ (fun a b => b.info = a.info) source target ↔ ∀ a ∈ source, a.Whole := by
  induction had with
  | nil => simp
  | @cons a b as bs h _ ih => rw [List.forall₂_cons, h.info_eq_iff, ih, List.forall_mem_cons]

theorem infos_eq (h : List.Forall₂ (fun a b => b.info = a.info) source target) :
    target.map Member.info = source.map Member.info := by
  induction h with
  | nil => rfl
  | cons h _ ih => rw [List.map_cons, List.map_cons, h, ih]

theorem adopted_mono (had : List.Forall₂ Adopted source target) : ∀ b ∈ target, b.mono = none := by
  induction had with
  | nil => simp
  | cons h _ ih => exact List.forall_mem_cons.mpr ⟨h.info.2, ih⟩

/-- Two lists of the same infos with the names in one order are the same list. -/
theorem infos_of_names {infos : List SessionInfo} (hnd : (infos.map SessionInfo.name).Nodup) {l l' : List SessionInfo}
    (hl : ∀ i ∈ l, i ∈ infos) (hl' : ∀ i ∈ l', i ∈ infos) (h : l'.map SessionInfo.name = l.map SessionInfo.name) :
    l' = l := by
  induction l generalizing l' with
  | nil => simpa using h
  | cons i l ih =>
    cases l' with
    | nil => simp at h
    | cons k l' =>
      obtain ⟨hname, hrest⟩ := List.cons.inj h
      obtain rfl := List.inj_on_of_nodup_map hnd (hl' k (.head _)) (hl i (.head _)) hname
      rw [ih (fun x hx => hl x (.tail _ hx)) (fun x hx => hl' x (.tail _ hx)) hrest]

theorem Listing.perm {sessions : List Member} {infos : List SessionInfo} (h : Listing sessions infos) :
    infos.Perm (sessions.map Member.info) := by
  obtain ⟨out, hs, rfl⟩ := h
  exact hs.perm.map _

/-- Names and creation times come through and the order of `List` is the same exactly when
    every creation time is a whole second and each two sessions compare by their wall
    clock as they compare on the source. -/
theorem identity_survives_iff (hnames : (source.map fun a => a.state.name).Nodup)
    (had : List.Forall₂ Adopted source target) :
    (List.Forall₂ (fun a b => b.info = a.info) source target ∧
      ∀ listed listed', Listing source listed → Listing target listed' →
        listed'.map SessionInfo.name = listed.map SessionInfo.name) ↔
    (∀ a ∈ source, a.Whole) ∧ ∀ a ∈ source, ∀ b ∈ source, a.less b = decide (a.info.key < b.info.key) := by
  rw [adopted_infos_iff had]
  refine and_congr_right fun hwhole => ?_
  have hinfos := infos_eq ((adopted_infos_iff had).mpr hwhole)
  have hnames' : ((source.map Member.info).map SessionInfo.name).Nodup := by
    rw [List.map_map]
    exact hnames
  have hkeys : (source.map fun a => a.info.key).Nodup := by
    simpa [Function.comp_def] using (List.Nodup.of_map _ hnames').map key_injective
  have hkeys' : (target.map fun a => a.info.key).Nodup := by
    have := congrArg (List.map SessionInfo.key) hinfos
    simp only [List.map_map, Function.comp_def] at this
    rw [this]
    exact hkeys
  -- the target has no monotonic readings, so that its listing is by wall clock
  have htarget : ∀ {listed}, Listing target listed → (listed.map SessionInfo.key).Pairwise (· < ·) := by
    rintro _ ⟨out, hs, rfl⟩
    simpa [Function.comp_def] using hs.sorted_key hkeys' fun a ha b _ => Member.less_wall (adopted_mono had a ha)
  have htotal : ∀ a ∈ source, ∀ b ∈ source, a ≠ b → a.less b = true ∨ b.less a = true :=
    fun a ha b hb hne => Member.less_total fun h => hne (List.inj_on_of_nodup_map hnames ha hb h)
  rw [← sorts_key_iff hkeys (fun a _ => a.less_irrefl) htotal]
  constructor
  · intro h out hs
    obtain ⟨out', hs'⟩ := exists_sorts Member.less target
    have hlist : Listing source (out.map Member.info) := ⟨out, hs, rfl⟩
    have hlist' : Listing target (out'.map Member.info) := ⟨out', hs', rfl⟩
    have hsame := infos_of_names hnames' (fun i => hlist.perm.mem_iff.mp) (fun i => hinfos ▸ hlist'.perm.mem_iff.mp)
      (h _ _ hlist hlist')
    have := htarget hlist'
    rw [hsame] at this
    simpa [Function.comp_def] using this
  · rintro h listed listed' ⟨out, hs, rfl⟩ hlist'
    have hlist : Listing source (out.map Member.info) := ⟨out, hs, rfl⟩
    have hsorted : ((out.map Member.info).map SessionInfo.key).Pairwise (· < ·) := by
      simpa [Function.comp_def] using h out hs
    have hperm : listed'.Perm (out.map Member.info) := hlist'.perm.trans (hinfos ▸ hlist.perm.symm)
    have heq : listed'.map SessionInfo.key = (out.map Member.info).map SessionInfo.key :=
      List.Perm.eq_of_pairwise (fun a b _ _ hab hba => absurd hba (lt_asymm hab)) (htarget hlist') hsorted
        (hperm.map _)
    simpa [SessionInfo.key, Function.comp_def] using congrArg (List.map fun k => (ofLex k).2) heq

/-! ## An instance -/

/-- A session that was started at a time, with its monotonic reading. -/
def started (name : String) (createdAt mono : Int) : Member :=
  ⟨⟨name, ⟨80, 24⟩, createdAt, 42, 0, ⟨"/out", 1, none⟩, false, .success⟩, some mono⟩

/-- What an adoption makes of it. -/
def arrived (name : String) (createdAt : Int) : Member :=
  ⟨⟨name, ⟨80, 24⟩, createdAt / 10 ^ 9 * 10 ^ 9, 42, 0, ⟨"/out", 1, none⟩, false, .success⟩, none⟩

theorem started_adopted (name : String) (createdAt mono : Int) :
    Adopted (started name createdAt mono) (arrived name createdAt) :=
  ⟨(started name createdAt mono).state, _, "/out", 1, 0, rfl, rfl, rfl, rfl⟩

theorem identity_survives_iff_seconds :
    List.Forall₂ (fun a b => b.info = a.info) [started "b" 1000000000 0, started "a" 2000000000 7]
      [arrived "b" 1000000000, arrived "a" 2000000000] := by
  refine ((identity_survives_iff (by decide) (.cons (started_adopted ..) (.cons (started_adopted ..) .nil))).mpr
    ⟨?_, ?_⟩).1
  · simp [Member.Whole, started]
  · simp [Member.less, Member.equal, Member.before, Member.readings, started, Member.info, SessionInfo.key,
      Prod.Lex.toLex_lt_toLex]

/-- Two sessions of one second: `b` was started before `a` and is listed before it, but not
    on the target. -/
theorem a_second_reorders_sessions :
    List.Forall₂ Adopted [started "b" 1100000000 0, started "a" 1200000000 100000000]
        [arrived "b" 1100000000, arrived "a" 1200000000] ∧
      Listing [started "b" 1100000000 0, started "a" 1200000000 100000000] [⟨"b", 1100000000⟩, ⟨"a", 1200000000⟩] ∧
      Listing [arrived "b" 1100000000, arrived "a" 1200000000] [⟨"a", 1000000000⟩, ⟨"b", 1000000000⟩] := by
  refine ⟨.cons (started_adopted ..) (.cons (started_adopted ..) .nil),
    ⟨_, ⟨.refl _, fun _ => ?_⟩, rfl⟩, [arrived "a" 1200000000, arrived "b" 1100000000], ⟨.swap _ _ _, fun _ => ?_⟩, rfl⟩
  · simp [Member.less, Member.equal, Member.before, Member.readings, started]
  · have hname : ¬ "b" < "a" := by decide
    refine List.pairwise_pair.mpr ((Member.less_wall rfl).trans (decide_eq_false ?_))
    simpa [Member.info, arrived, SessionInfo.key, Prod.Lex.toLex_lt_toLex] using hname

end Ghostline.Handoff
