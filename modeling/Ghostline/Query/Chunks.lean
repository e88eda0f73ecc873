/-
  Ghostline.Query.Chunks — queries cut by the end of a read.

  Every ESC starts afresh: it ends or breaks whatever was before it. So what a responder
  answers is a matter of each ESC and the bytes behind it (`replies`), and what it keeps is
  the last sequence, when that is open (`held`). `scan_eq` says that the loop of `feedLocked`
  computes these two.

  A sequence that is cut is kept and goes on with the next call, with one exception. The ESC of
  the terminator `ESC \` breaks an OSC sequence when the backslash is not in the buffer yet
  (`oscEnd`), so a colour query cut there gets no answer. `feeds_eq_iff` says that this is
  the only way in which the replies depend on how the output comes.
-/

import Mathlib.Data.List.Basic
import Mathlib.Data.List.TakeWhile
import Ghostline.Query.Responder

namespace Ghostline.Query

variable {r : Responder} {b : Byte} {t u v x : List Byte}

/-! ## Every ESC starts afresh -/

/-- The bytes behind an ESC are the beginning of a sequence that has not ended. -/
def unfinished : List Byte → Bool
  | [] => true
  | c :: body => (c == byte '[' && csiFinal body == .incomplete) || (c == byte ']' && oscEnd body == .incomplete)

/-- The reply to the sequence an ESC starts. -/
def Responder.reply (r : Responder) : List Byte → Option PendingReply
  | [] => none
  | c :: body =>
    if c = byte '[' then
      match csiFinal body with
      | .complete i => r.fixedReply (body.take (i + 1))
      | _ => none
    else if c = byte ']' then
      match oscEnd body with
      | .complete i => (oscColorQuery (body.take i)).map .color
      | _ => none
    else none

def Responder.replies (r : Responder) : List Byte → List PendingReply
  | [] => []
  | b :: t => if b = esc then (r.reply t).toList ++ r.replies t else r.replies t

/-- What is kept of a buffer, overlong or not. -/
def held : List Byte → List Byte
  | [] => []
  | b :: t => if b = esc ∧ unfinished t = true then b :: t else held t

section Kinds

variable (body : List Byte)

@[simp] theorem unfinished_csi : unfinished (byte '[' :: body) = (csiFinal body == .incomplete) := by
  simp [unfinished, show (byte '[' == byte ']') = false by decide]

@[simp] theorem unfinished_osc : unfinished (byte ']' :: body) = (oscEnd body == .incomplete) := by
  simp [unfinished, show (byte ']' == byte '[') = false by decide]

theorem unfinished_other {c : Byte} (h1 : c ≠ byte '[') (h2 : c ≠ byte ']') : unfinished (c :: body) = false := by
  simp [unfinished, h1, h2]

theorem reply_csi {i : Nat} (h : csiFinal body = .complete i) :
    r.reply (byte '[' :: body) = r.fixedReply (body.take (i + 1)) := by
  simp [Responder.reply, h]

theorem reply_osc {i : Nat} (h : oscEnd body = .complete i) :
    r.reply (byte ']' :: body) = (oscColorQuery (body.take i)).map .color := by
  simp [Responder.reply, h, show byte ']' ≠ byte '[' by decide]

end Kinds

/-! ## Scanning a sequence -/

theorem Scan.next_complete {a : Scan} {i : Nat} (h : a.next = .complete i) : ∃ j, a = .complete j ∧ i = j + 1 := by
  cases a <;> simp_all [Scan.next]

theorem Scan.next_incomplete {a : Scan} : a.next = .incomplete ↔ a = .incomplete := by
  cases a <;> simp [Scan.next]

/-- More bytes change nothing for a CSI sequence that has ended or broken off. -/
theorem csiFinal_append (h : csiFinal u ≠ .incomplete) : csiFinal (u ++ v) = csiFinal u := by
  induction u with
  | nil => exact absurd rfl h
  | cons b u ih =>
    simp only [csiFinal, List.cons_append] at h ⊢
    split
    · rfl
    · split
      · rfl
      · rename_i h1 h2
        simp only [h1, h2, if_false] at h
        rw [ih fun hn => h (by rw [hn]; rfl)]

/-- An OSC sequence may also have broken off at an ESC at the end of the buffer. -/
theorem oscEnd_append (h : oscEnd u ≠ .incomplete) :
    oscEnd (u ++ v) = oscEnd u ∨
      v.head? = some (byte '\\') ∧ ∃ body, u = body ++ [esc] ∧ esc ∉ body ∧ oscEnd u = .invalid body.length ∧
        oscEnd (u ++ v) = .complete body.length := by
  induction u with
  | nil => exact absurd rfl h
  | cons b u ih =>
    simp only [oscEnd, List.cons_append] at h ⊢
    split
    · exact .inl rfl
    · split
      · rename_i h1 h2
        cases u with
        | nil =>
          by_cases hv : v.head? = some (byte '\\')
          · exact .inr ⟨hv, [], by simp [h2], by simp, by simp, by simp [hv]⟩
          · exact .inl (by simp [hv])
        | cons c u => exact .inl rfl
      · split
        · exact .inl rfl
        · rename_i h1 h2 h3
          simp only [h1, h2, h3, if_false] at h
          rcases ih fun hn => h (by rw [hn]; rfl) with hu | ⟨hv, body, rfl, hb, hi, hu⟩
          · exact .inl (by rw [hu])
          · refine .inr ⟨hv, b :: body, rfl, ?_, by rw [hi]; rfl, by rw [hu]; rfl⟩
            simp only [List.mem_cons, not_or]
            exact ⟨fun he => h2 he.symm, hb⟩

theorem csiFinal_complete {i : Nat} (h : csiFinal u = .complete i) : i < u.length ∧ esc ∉ u.take (i + 1) := by
  induction u generalizing i with
  | nil => cases h
  | cons b u ih =>
    simp only [csiFinal] at h
    split at h
    · rename_i hb
      cases h
      have hne : esc ≠ b := by
        rintro rfl
        exact absurd hb.1 (by decide)
      exact ⟨by simp, by simpa using hne⟩
    · split at h
      · cases h
      · rename_i hb
        obtain ⟨j, hj, rfl⟩ := Scan.next_complete h
        have hne : esc ≠ b := by
          rintro rfl
          exact hb (.inl (by decide))
        obtain ⟨hlt, hu⟩ := ih hj
        simp only [List.take_succ_cons, List.mem_cons, not_or, List.length_cons]
        exact ⟨by omega, hne, hu⟩

theorem csiFinal_incomplete (h : csiFinal u = .incomplete) : esc ∉ u := by
  induction u with
  | nil => simp
  | cons b u ih =>
    simp only [csiFinal] at h
    split at h
    · cases h
    · split at h
      · cases h
      · rename_i hb
        have hne : esc ≠ b := by
          rintro rfl
          exact hb (.inl (by decide))
        simp [hne, ih (Scan.next_incomplete.mp h)]

theorem oscEnd_incomplete (h : oscEnd u = .incomplete) : esc ∉ u := by
  induction u with
  | nil => simp
  | cons b u ih =>
    simp only [oscEnd] at h
    split at h
    · cases h
    · split at h
      · split at h <;> cases h
      · split at h
        · cases h
        · rename_i hb _
          have hne : esc ≠ b := fun he => hb he.symm
          simp [hne, ih (Scan.next_incomplete.mp h)]

theorem oscEnd_complete {i : Nat} (h : oscEnd u = .complete i) : i < u.length ∧ esc ∉ u.take i := by
  induction u generalizing i with
  | nil => cases h
  | cons b u ih =>
    simp only [oscEnd] at h
    split at h
    · cases h; simp
    · split at h
      · split at h
        · cases h; simp
        · cases h
      · split at h
        · cases h
        · rename_i hb _
          obtain ⟨j, hj, rfl⟩ := Scan.next_complete h
          obtain ⟨hlt, hu⟩ := ih hj
          simp only [List.take_succ_cons, List.mem_cons, not_or, List.length_cons]
          exact ⟨by omega, fun he => hb he.symm, hu⟩

/-! ## The loop -/

theorem replies_skip (h : esc ∉ u) : r.replies (u ++ v) = r.replies v := by
  induction u with
  | nil => rfl
  | cons b u ih =>
    simp only [List.mem_cons, not_or] at h
    simp only [List.cons_append, Responder.replies, if_neg fun he : b = esc => h.1 he.symm]
    exact ih h.2

theorem held_skip (h : esc ∉ u) : held (u ++ v) = held v := by
  induction u with
  | nil => rfl
  | cons b u ih =>
    simp only [List.mem_cons, not_or] at h
    simp only [List.cons_append, held, if_neg fun he : b = esc ∧ _ => h.1 he.1.symm]
    exact ih h.2

/-- Up to the first ESC nothing counts. -/
theorem first_esc (p : List Byte) :
    (esc ∉ p ∧ p.dropWhile (· ≠ esc) = []) ∨
      ∃ w t, p = w ++ esc :: t ∧ esc ∉ w ∧ p.dropWhile (· ≠ esc) = esc :: t := by
  induction p with
  | nil => exact .inl ⟨by simp, rfl⟩
  | cons b p ih =>
    by_cases hb : b = esc
    · subst hb
      exact .inr ⟨[], p, rfl, by simp, by simp⟩
    · have hne : esc ≠ b := fun h => hb h.symm
      rcases ih with ⟨hp, hd⟩ | ⟨w, t, rfl, hw, hd⟩
      · exact .inl ⟨by simp [hne, hp], by simpa [hb] using hd⟩
      · exact .inr ⟨b :: w, t, rfl, by simp [hne, hw], by simpa [hb] using hd⟩

/-- One turn of the loop, as `replies` and `held` see it. -/
def Responder.Turns (r : Responder) (p : List Byte) : Step → Prop
  | .next q reply => q.length < p.length ∧ r.replies p = reply.toList ++ r.replies q ∧ held p = held q
  | .stop q => r.replies p = [] ∧ held p = q
  | .discard => r.replies p = []

theorem Responder.Turns.skip {a : Step} (hu : esc ∉ u) (h : r.Turns v a) : r.Turns (u ++ v) a := by
  cases a with
  | next q reply =>
    obtain ⟨h1, h2, h3⟩ := h
    exact ⟨by simp only [List.length_append]; omega, by rw [replies_skip hu, h2], by rw [held_skip hu, h3]⟩
  | stop q => exact ⟨by rw [replies_skip hu, h.1], by rw [held_skip hu, h.2]⟩
  | discard => exact (replies_skip hu).trans h

/-- The bytes of a sequence that has ended hold no ESC, and the scan goes on behind them. -/
theorem turns_complete {c : Byte} {body : List Byte} {k : Nat} (hc : esc ≠ c) (hf : unfinished (c :: body) = false)
    (hk : esc ∉ body.take k) : r.Turns (esc :: c :: body) (.next (body.drop k) (r.reply (c :: body))) := by
  have hskip : esc ∉ c :: body.take k := by simp [hc, hk]
  have hbody : c :: body = (c :: body.take k) ++ body.drop k := by simp
  refine ⟨by simp only [List.length_cons, List.length_drop]; omega, ?_, ?_⟩
  · show (r.reply (c :: body)).toList ++ r.replies (c :: body) = _
    conv => lhs; rhs; rw [hbody, replies_skip hskip]
  · have : held (esc :: c :: body) = held (c :: body) := by simp [held, hf]
    rw [this, hbody, held_skip hskip]

theorem turns_invalid {c : Byte} {body : List Byte} (hf : unfinished (c :: body) = false) (hr : r.reply (c :: body) = none) :
    r.Turns (esc :: c :: body) (.next (c :: body) none) := by
  refine ⟨by simp, ?_, by simp [held, hf]⟩
  show (r.reply (c :: body)).toList ++ r.replies (c :: body) = _
  rw [hr]

/-- No ESC is in a sequence that has not ended. -/
theorem unfinished_no_esc (h : unfinished t = true) : esc ∉ t := by
  cases t with
  | nil => simp
  | cons c body =>
    simp only [unfinished, Bool.or_eq_true, Bool.and_eq_true, beq_iff_eq] at h
    rcases h with ⟨rfl, h⟩ | ⟨rfl, h⟩
    · simp [csiFinal_incomplete h, show esc ≠ byte '[' by decide]
    · simp [oscEnd_incomplete h, show esc ≠ byte ']' by decide]

theorem unfinished_reply (h : unfinished t = true) : r.reply t = none := by
  cases t with
  | nil => rfl
  | cons c body =>
    simp only [unfinished, Bool.or_eq_true, Bool.and_eq_true, beq_iff_eq] at h
    rcases h with ⟨rfl, h⟩ | ⟨rfl, h⟩
    · simp [Responder.reply, h]
    · simp [Responder.reply, h, show byte ']' ≠ byte '[' by decide]

theorem turns_unfinished (hf : unfinished t = true) : r.replies (esc :: t) = [] ∧ held (esc :: t) = esc :: t := by
  refine ⟨?_, by simp [held, hf]⟩
  show (r.reply t).toList ++ r.replies t = []
  have := replies_skip (r := r) (v := []) (unfinished_no_esc hf)
  rw [List.append_nil] at this
  rw [unfinished_reply hf, this]
  rfl

theorem scanStep_turns (p : List Byte) : r.Turns p (r.scanStep p) := by
  rcases first_esc p with ⟨hp, hd⟩ | ⟨w, t, rfl, hw, hd⟩
  · have hr := replies_skip (r := r) (v := []) hp
    have hh := held_skip (v := []) hp
    rw [List.append_nil] at hr hh
    simp only [Responder.scanStep, hd]
    exact ⟨hr, hh⟩
  · refine .skip hw ?_
    simp only [Responder.scanStep, hd]
    cases t with
    | nil => exact ⟨rfl, rfl⟩
    | cons c body =>
      -- a sequence that has not ended is kept, or dropped when it is too long
      have stop : ∀ n, unfinished (c :: body) = true →
          r.Turns (esc :: c :: body) (if body.length + 2 > n then .discard else .stop (esc :: c :: body)) := fun n hf => by
        split
        · exact (turns_unfinished hf).1
        · exact turns_unfinished hf
      simp only
      split
      · rename_i hc
        subst hc
        split
        · rename_i i hi
          rw [← reply_csi body hi]
          exact turns_complete (by decide) (by simp [hi]) (csiFinal_complete hi).2
        · rename_i hi
          exact turns_invalid (by simp [hi]) (by simp [Responder.reply, hi])
        · rename_i hi
          exact stop 256 (by simp [hi])
      · split
        · rename_i hc
          subst hc
          split
          · rename_i i hi
            rw [← reply_osc (r := r) body hi]
            exact turns_complete (by decide) (by simp [hi]) (oscEnd_complete hi).2
          · rename_i hi
            exact turns_invalid (by simp [hi]) (by simp [Responder.reply, hi, show byte ']' ≠ byte '[' by decide])
          · rename_i hi
            exact stop 4096 (by simp [hi])
        · rename_i h1 h2
          exact turns_invalid (unfinished_other body h1 h2) (by simp [Responder.reply, h1, h2])

/-- The loop answers each sequence that has ended, and keeps the last one when it has not. -/
theorem scan_eq (fuel : Nat) (p : List Byte) (hf : p.length ≤ fuel) :
    (r.scan fuel p).1 = r.replies p ∧ ∀ q, (r.scan fuel p).2 = some q → q = held p := by
  induction fuel generalizing p with
  | zero =>
    obtain rfl : p = [] := List.length_eq_zero_iff.mp (by omega)
    exact ⟨rfl, fun q h => by cases h; rfl⟩
  | succ fuel ih =>
    have ht := scanStep_turns (r := r) p
    simp only [Responder.scan]
    cases hs : r.scanStep p with
    | next q reply =>
      rw [hs] at ht
      obtain ⟨hlen, hr, hh⟩ := ht
      obtain ⟨ih1, ih2⟩ := ih q (by omega)
      exact ⟨by simp only [ih1, hr], fun x hx => (ih2 x hx).trans hh.symm⟩
    | stop q =>
      rw [hs] at ht
      exact ⟨ht.1.symm, fun x hx => by cases hx; exact ht.2.symm⟩
    | discard =>
      rw [hs] at ht
      exact ⟨ht.symm, fun x hx => by cases hx⟩

/-! ## A cut -/

def ask : ColorQueryKind → List Byte
  | .foreground => bytes "10;?"
  | .background => bytes "11;?"

/-- A colour query up to the ESC of its terminator. -/
def query (kind : ColorQueryKind) : List Byte := esc :: (byte ']' :: ask kind ++ [esc])

/-- The query whose terminator is cut between `u` and `v`. -/
def lostQuery (u v : List Byte) : List PendingReply :=
  if v.head? = some (byte '\\') then
    if query .foreground <:+ u then [.color .foreground]
    else if query .background <:+ u then [.color .background]
    else []
  else []

/-- What has ended or broken off stays so. -/
theorem unfinished_append (h : unfinished (t ++ v) = true) : unfinished t = true := by
  cases t with
  | nil => rfl
  | cons c body =>
    simp only [List.cons_append, unfinished, Bool.or_eq_true, Bool.and_eq_true, beq_iff_eq] at h ⊢
    rcases h with ⟨hc, h⟩ | ⟨hc, h⟩
    · refine .inl ⟨hc, by_contra fun hn => hn ?_⟩
      rw [← csiFinal_append (v := v) hn, h]
    · refine .inr ⟨hc, by_contra fun hn => ?_⟩
      rcases oscEnd_append (v := v) hn with he | ⟨-, _, -, -, -, he⟩
      · exact hn (he.symm.trans h)
      · cases h.symm.trans he

/-- More bytes bring a reply to a sequence that has broken off only when they complete the
    terminator of an OSC sequence. -/
theorem reply_append (h : unfinished t = false) :
    r.reply (t ++ v) = r.reply t ∨
      v.head? = some (byte '\\') ∧ ∃ body, t = byte ']' :: body ++ [esc] ∧ esc ∉ body ∧ r.reply t = none ∧
        r.reply (t ++ v) = (oscColorQuery body).map .color := by
  cases t with
  | nil => cases h
  | cons c body =>
    by_cases h1 : c = byte '['
    · subst h1
      have hne : csiFinal body ≠ .incomplete := by simpa using h
      have ha := csiFinal_append (v := v) hne
      left
      cases hs : csiFinal body with
      | complete i =>
        rw [List.cons_append, reply_csi _ (ha.trans hs), reply_csi _ hs,
          List.take_append_of_le_length (csiFinal_complete hs).1]
      | invalid i => simp [Responder.reply, ha, hs]
      | incomplete => exact absurd hs hne
    · by_cases h2 : c = byte ']'
      · subst h2
        have hne : oscEnd body ≠ .incomplete := by simpa using h
        rcases oscEnd_append (v := v) hne with ha | ⟨hv, inner, rfl, hin, hi, ha⟩
        · left
          cases hs : oscEnd body with
          | complete i =>
            rw [List.cons_append, reply_osc _ (ha.trans hs), reply_osc _ hs,
              List.take_append_of_le_length (Nat.le_of_lt (oscEnd_complete hs).1)]
          | invalid i => simp [Responder.reply, ha, hs, h1]
          | incomplete => exact absurd hs hne
        · refine .inr ⟨hv, inner, rfl, hin, by simp [Responder.reply, hi, h1], ?_⟩
          rw [List.cons_append, reply_osc _ ha]
          simp
      · left
        simp [Responder.reply, h1, h2]

theorem held_append (u v : List Byte) : held (u ++ v) = held (held u ++ v) := by
  induction u with
  | nil => rfl
  | cons b u ih =>
    by_cases hb : b = esc ∧ unfinished u = true
    · have : held (b :: u) = b :: u := by simp only [held, hb, and_self, if_true]
      rw [this]
    · have h1 : held (b :: u) = held u := by simp only [held, hb, if_false]
      have h2 : held (b :: u ++ v) = held (u ++ v) := by
        have : ¬ (b = esc ∧ unfinished (u ++ v) = true) := fun h => hb ⟨h.1, unfinished_append h.2⟩
        simp only [List.cons_append, held, this, if_false]
      rw [h1, h2, ih]

/-- A query begins with an ESC, and ends with another. -/
theorem query_count (kind : ColorQueryKind) : (query kind).count esc = 2 := by
  cases kind <;> decide

theorem query_not_suffix {kind : ColorQueryKind} (h : u.count esc < 2) : ¬ query kind <:+ u := by
  intro hs
  have := hs.sublist.count_le esc
  rw [query_count] at this
  omega

theorem query_suffix_cons {kind : ColorQueryKind} (h : query kind ≠ b :: u) : query kind <:+ b :: u ↔ query kind <:+ u := by
  rw [List.suffix_cons_iff]
  exact ⟨fun hs => hs.resolve_left h, .inr⟩

theorem lostQuery_few (h : u.count esc < 2) : lostQuery u v = [] := by
  simp [lostQuery, query_not_suffix h]

theorem lostQuery_cons (h : ∀ kind, v.head? = some (byte '\\') → query kind ≠ b :: u) :
    lostQuery (b :: u) v = lostQuery u v := by
  unfold lostQuery
  split
  · rename_i hv
    simp only [query_suffix_cons (h _ hv)]
  · rfl

/-- The backslash answers a query. -/
theorem query_answered {kind : ColorQueryKind} (hv : v.head? = some (byte '\\')) (hq : query kind = esc :: u)
    (ha : r.reply (u ++ v) = r.reply u) : False := by
  obtain ⟨v', rfl⟩ : ∃ v', v = byte '\\' :: v' := by
    cases v <;> simp_all
  have hnone : r.reply (query kind).tail = none := by cases kind <;> rfl
  have hsome : r.reply ((query kind).tail ++ byte '\\' :: v') = some (.color kind) := by cases kind <;> rfl
  rw [hq, List.tail_cons] at hnone hsome
  cases hsome.symm.trans (ha.trans hnone)

/-- The query lost at a cut terminator is the one the sequence asks. -/
theorem lostQuery_cut {body : List Byte} (hv : v.head? = some (byte '\\'))
    (hc : (byte ']' :: body ++ [esc]).count esc = 1) :
    lostQuery (esc :: (byte ']' :: body ++ [esc])) v = ((oscColorQuery body).map PendingReply.color).toList := by
  have hiff : ∀ kind, query kind <:+ esc :: (byte ']' :: body ++ [esc]) ↔
      body = ask kind := fun kind => by
    rw [List.suffix_cons_iff, or_iff_left (query_not_suffix (by omega))]
    simp [query, eq_comm]
  simp only [lostQuery, hv, if_true, hiff, ask, oscColorQuery]
  split
  · rfl
  · split <;> rfl

/-- What a cut of the output changes in the replies: a query is lost when its terminator is cut. -/
theorem replies_append (u v : List Byte) :
    r.replies (u ++ v) = r.replies u ++ lostQuery u v ++ r.replies (held u ++ v) := by
  induction u with
  | nil => rw [lostQuery_few (by decide)]; rfl
  | cons b u ih =>
    by_cases hb : b = esc
    · subst hb
      cases hf : unfinished u with
      | true =>
        obtain ⟨h1, h2⟩ := turns_unfinished (r := r) hf
        have : (esc :: u).count esc = 1 := by simp [List.count_eq_zero_of_not_mem (unfinished_no_esc hf)]
        rw [h1, h2, lostQuery_few (by omega)]
        rfl
      | false =>
        have hh : held (esc :: u) = held u := by simp [held, hf]
        have hr : ∀ t, r.replies (esc :: t) = (r.reply t).toList ++ r.replies t := fun t => by simp [Responder.replies]
        rw [hh, List.cons_append, hr, hr, ih]
        rcases reply_append (r := r) (v := v) hf with ha | ⟨hv, body, rfl, hin, hn, ha⟩
        · rw [ha, lostQuery_cons fun kind hv hq => query_answered hv hq ha]
          simp
        · have hcount : (byte ']' :: body ++ [esc]).count esc = 1 := by
            simp [List.count_eq_zero_of_not_mem hin, show byte ']' ≠ esc by decide]
          have hskip : r.replies (byte ']' :: body ++ [esc]) = [] :=
            replies_skip (u := byte ']' :: body) (v := [esc]) (by simp [hin, show esc ≠ byte ']' by decide])
          rw [lostQuery_cut hv hcount, lostQuery_few (by omega), ha, hn, hskip]
          simp
    · have hh : held (b :: u) = held u := by simp [held, hb]
      have hr : ∀ t, r.replies (b :: t) = r.replies t := fun t => by simp [Responder.replies, hb]
      rw [hh, List.cons_append, hr, hr, ih, lostQuery_cons]
      intro kind _ hk
      cases hk
      exact hb rfl

/-! ## Successive calls -/

/-- A call with these bytes, after the output `seen`, goes on behind the cut terminator of a
    colour query that has an answer. -/
def Responder.cutsTerminator (r : Responder) (seen data : List Byte) : Prop :=
  data.head? = some (byte '\\') ∧ ∃ kind, (r.answer (.color kind)).isSome = true ∧ query kind <:+ seen

theorem lostQuery_eq {kind : ColorQueryKind} (hv : v.head? = some (byte '\\')) (hq : query kind <:+ u) :
    lostQuery u v = [.color kind] := by
  -- the two queries are as long as each other, so the output cannot end with both
  have hone : ∀ k, query k <:+ u → k = kind := fun k hk => by
    have := (List.suffix_of_suffix_length_le hk hq (by cases k <;> cases kind <;> decide)).eq_of_length
      (by cases k <;> cases kind <;> decide)
    cases k <;> cases kind <;> first | rfl | exact absurd this (by decide)
  unfold lostQuery
  split
  · split
    · rename_i h
      rw [hone _ h]
    · rename_i h
      split
      · rename_i h'
        rw [hone _ h']
      · cases kind <;> contradiction
  · contradiction

theorem lostQuery_some {a : PendingReply} (h : a ∈ lostQuery u v) :
    v.head? = some (byte '\\') ∧ ∃ kind, a = .color kind ∧ query kind <:+ u := by
  unfold lostQuery at h
  split at h
  · rename_i hv
    refine ⟨hv, ?_⟩
    split at h
    · exact ⟨.foreground, by simpa using h, by assumption⟩
    · split at h
      · exact ⟨.background, by simpa using h, by assumption⟩
      · simp at h
  · simp at h

theorem cutsTerminator_iff : r.cutsTerminator u v ↔ (lostQuery u v).filterMap r.answer ≠ [] := by
  constructor
  · rintro ⟨hv, kind, ha, hq⟩
    obtain ⟨reply, hr⟩ := Option.isSome_iff_exists.mp ha
    simp [lostQuery_eq hv hq, hr]
  · intro h
    obtain ⟨reply, hr⟩ := List.exists_mem_of_ne_nil _ h
    obtain ⟨a, ha, hans⟩ := List.mem_filterMap.mp hr
    obtain ⟨hv, kind, rfl, hq⟩ := lostQuery_some ha
    exact ⟨hv, kind, by rw [hans]; rfl, hq⟩

/-- The pending bytes are of no matter for a reply. -/
theorem replies_pending (p u : List Byte) : ({ r with pending := p } : Responder).replies u = r.replies u := by
  induction u with
  | nil => rfl
  | cons b u ih =>
    have : ({ r with pending := p } : Responder).reply u = r.reply u := rfl
    simp only [Responder.replies, this, ih]

theorem answer_pending (p : List Byte) : ({ r with pending := p } : Responder).answer = r.answer := by
  funext a
  cases a <;> rfl

theorem feed_replies (r : Responder) (u : List Byte) : (r.feed u).2 = (r.replies (r.pending ++ u)).filterMap r.answer := by
  simp only [Responder.feed, Responder.feedLocked]
  rw [(scan_eq (r := r) (r.pending ++ u).length (r.pending ++ u) (Nat.le_refl _)).1]

theorem feed_pending (h : r.discards u = false) : (r.feed u).1 = { r with pending := held (r.pending ++ u) } := by
  rw [Responder.discards, Option.isNone_eq_false_iff] at h
  obtain ⟨q, hq⟩ := Option.isSome_iff_exists.mp h
  have := (scan_eq (r := r) (r.pending ++ u).length (r.pending ++ u) (Nat.le_refl _)).2 q hq
  simp only [Responder.feed, Responder.feedLocked, hq, this, Option.getD_some]

theorem sublist_all_iff {α : Type} {l a f w : List α} (h : f.Sublist w) : a ++ f = l ++ (a ++ w) ↔ f = w ∧ l = [] := by
  refine ⟨fun he => ?_, fun ⟨hf, hl⟩ => by rw [hf, hl]; rfl⟩
  have hlen := congrArg List.length he
  simp only [List.length_append] at hlen
  have hle := h.length_le
  obtain rfl : l = [] := List.length_eq_zero_iff.mp (by omega)
  exact ⟨h.eq_of_length (by omega), rfl⟩

/-- The first call, and those behind it. -/
theorem cuts_cons_iff {data : List Byte} {rest : List (List Byte)} :
    (∀ before d after, data :: rest = before ++ d :: after → ¬ r.cutsTerminator (x ++ before.flatten) d) ↔
      (∀ before d after, rest = before ++ d :: after → ¬ r.cutsTerminator (x ++ data ++ before.flatten) d) ∧
        ¬ r.cutsTerminator x data := by
  constructor
  · intro h
    refine ⟨fun before d after he => ?_, ?_⟩
    · have := h (data :: before) d after (by rw [he]; rfl)
      rwa [List.flatten_cons, ← List.append_assoc] at this
    · simpa using h [] data rest rfl
  · rintro ⟨h1, h2⟩ before d after he
    cases before with
    | nil => cases he; simpa using h2
    | cons c before =>
      cases he
      rw [List.flatten_cons, ← List.append_assoc]
      exact h1 before d after rfl

/-- Calls after the output `x`: their replies are among those to the whole output, and they
    are all of these when no call goes on behind a cut terminator. -/
theorem feeds_spec (r : Responder) (chunks : List (List Byte)) (x : List Byte)
    (hk : ({ r with pending := held x } : Responder).keeps chunks = true) :
    ∃ w, r.replies (x ++ chunks.flatten) = r.replies x ++ w ∧
      (({ r with pending := held x } : Responder).feeds chunks).Sublist (w.filterMap r.answer) ∧
      (({ r with pending := held x } : Responder).feeds chunks = w.filterMap r.answer ↔
        ∀ before data after, chunks = before ++ data :: after → ¬ r.cutsTerminator (x ++ before.flatten) data) := by
  induction chunks generalizing x with
  | nil => exact ⟨[], by simp, by simp [Responder.feeds], by simp [Responder.feeds]⟩
  | cons data rest ih =>
    simp only [Responder.keeps, Bool.and_eq_true, Bool.not_eq_true'] at hk
    obtain ⟨hd, hk⟩ := hk
    rw [feed_pending hd] at hk
    simp only [← held_append] at hk
    obtain ⟨w, hw, hsub, hiff⟩ := ih (x ++ data) hk
    -- what the call answers, and what it misses
    have hcall : (({ r with pending := held x } : Responder).feed data).2 =
        (r.replies (held x ++ data)).filterMap r.answer := by
      rw [feed_replies, replies_pending, answer_pending]
    have hfeeds : ({ r with pending := held x } : Responder).feeds (data :: rest) =
        (r.replies (held x ++ data)).filterMap r.answer ++ ({ r with pending := held (x ++ data) } : Responder).feeds rest := by
      rw [Responder.feeds, hcall, feed_pending hd]
      simp only [← held_append]
    refine ⟨lostQuery x data ++ r.replies (held x ++ data) ++ w, ?_, ?_, ?_⟩
    · rw [List.flatten_cons, ← List.append_assoc, hw, replies_append x data]
      simp
    · rw [hfeeds, List.append_assoc, List.filterMap_append, List.filterMap_append]
      exact ((List.Sublist.refl _).append hsub).trans (List.sublist_append_right _ _)
    · rw [hfeeds, List.filterMap_append, List.filterMap_append, List.append_assoc, sublist_all_iff hsub, hiff,
        cuts_cons_iff, cutsTerminator_iff, not_not]

/-- The replies of successive calls are those of a single call with the whole output exactly
    when no call goes on behind the cut terminator of a colour query that has an answer. -/
theorem feeds_eq_iff (r : Responder) (chunks : List (List Byte)) (hp : r.pending = []) (hk : r.keeps chunks = true) :
    r.feeds chunks = (r.feed chunks.flatten).2 ↔
      ∀ before data after, chunks = before ++ data :: after → ¬ r.cutsTerminator before.flatten data := by
  have hr : ({ r with pending := held [] } : Responder) = r := by cases r; simp_all [held]
  obtain ⟨w, hw, -, hiff⟩ := feeds_spec r chunks [] (by rw [hr]; exact hk)
  rw [hr] at hiff
  have hwhole : (r.feed chunks.flatten).2 = w.filterMap r.answer := by
    rw [feed_replies, hp]
    exact congrArg (List.filterMap r.answer) hw
  rw [hwhole]
  exact hiff

/-- A colour callback that knows the foreground. -/
def white : Responder := .new (some fun kind => if kind = .foreground then some (bytes "#fff") else none)

theorem feeds_eq_iff_cut_before : white.keeps [bytes "\x1b]10", bytes ";?\x1b\\"] = true ∧
    white.feeds [bytes "\x1b]10", bytes ";?\x1b\\"] = (white.feed (bytes "\x1b]10;?\x1b\\")).2 := by
  refine ⟨by decide, (feeds_eq_iff white [bytes "\x1b]10", bytes ";?\x1b\\"] rfl (by decide)).mpr ?_⟩
  have hno : ∀ data ∈ [bytes "\x1b]10", bytes ";?\x1b\\"], data.head? ≠ some (byte '\\') := by decide
  rintro before data after he ⟨hd, -⟩
  exact hno data (by rw [he]; simp) hd

/-- The same query, cut between the two bytes of its terminator, gets no answer. -/
theorem a_cut_terminator_loses_the_query :
    white.keeps [bytes "\x1b]10;?\x1b", bytes "\\"] = true ∧
      white.feeds [bytes "\x1b]10;?\x1b", bytes "\\"] = [] ∧
      (white.feed (bytes "\x1b]10;?\x1b\\")).2 = [bytes "\x1b]10;rgb:ffff/ffff/ffff\x1b\\"] := by
  decide

end Ghostline.Query
