/-
  Ghostline.Query.Replies — what is written back into the PTY.

  A reply is input of the shell, and parts of it are not the responder's own: the mode of a
  DECRQM query comes from the output, and a colour from the callback. Neither can end the
  sequence it stands in. The bytes of a CSI sequence before its final byte are no control
  and no final bytes (`csiFinal_split`), and a colour is formatted only when it is made
  of hex digits (`formatOSCColor_form`).
-/

import Ghostline.Query.Buffer

namespace Ghostline.Query

variable {r : Responder} {reply : List Byte}

/-! ## Well-formed replies -/

/-- A byte of a CSI sequence before its final byte. -/
def Parameter (b : Byte) : Prop := ¬ (b < 0x20 ∨ b = 0x7f) ∧ ¬ (0x40 ≤ b ∧ b ≤ 0x7e)

def Final (b : Byte) : Prop := 0x40 ≤ b ∧ b ≤ 0x7e

def LowerHex (b : Byte) : Prop := byte '0' ≤ b ∧ b ≤ byte '9' ∨ byte 'a' ≤ b ∧ b ≤ byte 'f'

/-- One to four lower-case hex digits. -/
def Component (c : List Byte) : Prop := 1 ≤ c.length ∧ c.length ≤ 4 ∧ ∀ b ∈ c, LowerHex b

inductive WellFormed : List Byte → Prop
  | csi {parameters : List Byte} {final : Byte} (hp : ∀ b ∈ parameters, Parameter b) (hf : Final final) :
      WellFormed ([esc, byte '['] ++ parameters ++ [final])
  | osc (kind : ColorQueryKind) {red green blue : List Byte} (hr : Component red) (hg : Component green)
      (hb : Component blue) :
      WellFormed ([esc, byte ']'] ++ bytes (toString kind.code) ++ bytes ";rgb:" ++ red ++ [byte '/'] ++ green ++
        [byte '/'] ++ blue ++ [esc, byte '\\'])

instance (b : Byte) : Decidable (Parameter b) := by unfold Parameter; infer_instance
instance (b : Byte) : Decidable (Final b) := by unfold Final; infer_instance
instance (b : Byte) : Decidable (LowerHex b) := by unfold LowerHex; infer_instance

/-! ## CSI replies -/

/-- A sequence that has ended is parameters and a final byte. -/
theorem csiFinal_split {body : List Byte} {i : Nat} (h : csiFinal body = .complete i) :
    ∃ parameters final, body.take (i + 1) = parameters ++ [final] ∧ (∀ b ∈ parameters, Parameter b) ∧ Final final := by
  induction body generalizing i with
  | nil => cases h
  | cons b body ih =>
    simp only [csiFinal] at h
    split at h
    · rename_i hb
      obtain rfl := Scan.complete.inj h
      exact ⟨[], b, rfl, by simp, hb⟩
    · rename_i hfinal
      split at h
      · cases h
      · rename_i hcontrol
        obtain ⟨j, hj, rfl⟩ := Scan.next_complete h
        obtain ⟨parameters, final, he, hp, hf⟩ := ih hj
        refine ⟨b :: parameters, final, by rw [List.take_succ_cons, he]; rfl, ?_, hf⟩
        exact List.forall_mem_cons.mpr ⟨⟨hcontrol, hfinal⟩, hp⟩

theorem digit_parameter {c : Char} (h : c.isDigit = true) : Parameter (byte c) := by
  have h1 : 48 ≤ c.toNat ∧ c.toNat ≤ 57 := by
    simpa [Char.isDigit, UInt32.le_iff_toNat_le] using h
  have hall : ∀ n < 58, 48 ≤ n → Parameter n.toUInt8 := by decide
  exact hall c.toNat (by omega) h1.1

/-- A number is written with digits and a minus. -/
theorem number_parameters (n : Int) : ∀ b ∈ bytes (toString n), Parameter b := by
  have hnat : ∀ m : Nat, ∀ b ∈ bytes m.repr, Parameter b := by
    intro m b hb
    obtain ⟨c, hc, rfl⟩ := List.mem_map.mp hb
    rw [Nat.toList_repr] at hc
    exact digit_parameter (Nat.isDigit_of_mem_toDigits (by decide) (by decide) hc)
  cases n with
  | ofNat m => exact hnat m
  | negSucc m =>
    have he : bytes (toString (Int.negSucc m)) = byte '-' :: bytes m.succ.repr := by
      show bytes ("-" ++ m.succ.repr) = _
      simp [bytes]
    rw [he]
    exact List.forall_mem_cons.mpr ⟨by decide, hnat _⟩

theorem wellFormed_report {a : String} (ha : ∀ b ∈ bytes a, Parameter b) (x y : Int) :
    WellFormed (Responder.report a x y) := by
  have hsemi : Parameter (byte ';') := by decide
  have hp : ∀ b ∈ bytes a ++ bytes ";" ++ bytes (toString (x.bmod (2 ^ 64))) ++ bytes ";" ++
      bytes (toString (y.bmod (2 ^ 64))), Parameter b := by
    have hbytes : bytes ";" = [byte ';'] := rfl
    simp only [hbytes, List.mem_append, List.mem_singleton]
    rintro b ((((h | rfl) | h) | rfl) | h)
    · exact ha b h
    · exact hsemi
    · exact number_parameters _ b h
    · exact hsemi
    · exact number_parameters _ b h
  have he : Responder.report a x y = [esc, byte '['] ++ (bytes a ++ bytes ";" ++ bytes (toString (x.bmod (2 ^ 64))) ++
      bytes ";" ++ bytes (toString (y.bmod (2 ^ 64)))) ++ [byte 't'] := by
    simp [Responder.report, bytes]
  rw [he]
  exact .csi hp (by decide)

theorem parameters_of_all {l : List Byte} (h : (l.all fun b => decide (Parameter b)) = true) : ∀ b ∈ l, Parameter b :=
  fun b hb => of_decide_eq_true (List.all_eq_true.mp h b hb)

theorem wellFormed_fixed (parameters : List Byte) (final : Byte) (he : reply = [esc, byte '['] ++ parameters ++ [final])
    (hp : ∀ b ∈ parameters, Parameter b) (hf : Final final) : WellFormed reply := by
  rw [he]
  exact .csi hp hf

theorem wellFormed_csiReply {parameters : List Byte} {final : Byte} (hp : ∀ b ∈ parameters, Parameter b)
    (h : r.csiReply (parameters ++ [final]) ≠ []) : WellFormed (r.csiReply (parameters ++ [final])) := by
  unfold Responder.csiReply at h ⊢
  simp only [List.getLast?_append, List.getLast?_singleton, Option.some_or, List.dropLast_concat] at h ⊢
  split
  · split
    · exact wellFormed_fixed (bytes ">0;0;0") (byte 'c') (by decide) (parameters_of_all (by decide)) (by decide)
    · exact wellFormed_fixed (bytes "?62;") (byte 'c') (by decide) (parameters_of_all (by decide)) (by decide)
  split
  · split
    · exact wellFormed_fixed (bytes "0") (byte 'n') (by decide) (parameters_of_all (by decide)) (by decide)
    split
    · exact wellFormed_fixed (bytes "1;1") (byte 'R') (by decide) (parameters_of_all (by decide)) (by decide)
    · simp_all
  split
  · split
    · exact wellFormed_fixed (bytes "?") (byte 'u') (by decide) (parameters_of_all (by decide)) (by decide)
    · simp_all
  split
  · split
    · -- the mode is the query's own
      refine wellFormed_fixed (bytes "?" ++ parameters.tail.dropLast ++ bytes ";1$") (byte 'y') ?_ ?_ (by decide)
      · simp [bytes]
      · have hmode : ∀ b ∈ parameters.tail.dropLast, Parameter b := fun b hb =>
          hp b (List.mem_of_mem_tail (List.dropLast_sublist _ |>.subset hb))
        have hquestion : ∀ b ∈ bytes "?", Parameter b := parameters_of_all (by decide)
        have hset : ∀ b ∈ bytes ";1$", Parameter b := parameters_of_all (by decide)
        simp only [List.mem_append]
        rintro b ((hb | hb) | hb)
        · exact hquestion b hb
        · exact hmode b hb
        · exact hset b hb
    · simp_all
  split
  · split
    · exact wellFormed_report (parameters_of_all (by decide)) _ _
    split
    · exact wellFormed_report (parameters_of_all (by decide)) _ _
    split
    · exact wellFormed_report (parameters_of_all (by decide)) _ _
    · simp_all
  · simp_all

/-! ## Colours -/

theorem lowerHex_of_isHex {b : Byte} (h : isHex b = true) : LowerHex (lower b) := by
  have hall : ∀ n < 256, isHex n.toUInt8 = true → LowerHex (lower n.toUInt8) := by decide +kernel
  have := hall b.toNat b.toNat_lt
  rw [Nat.toUInt8_eq, UInt8.ofNat_toNat] at this
  exact this h

theorem component_of_hex {c : List Byte} (h1 : 1 ≤ c.length) (h4 : c.length ≤ 4) (h : ∀ b ∈ c, isHex b = true) :
    Component (c.map lower) := by
  refine ⟨by simpa using h1, by simpa using h4, fun b hb => ?_⟩
  obtain ⟨a, ha, rfl⟩ := List.mem_map.mp hb
  exact lowerHex_of_isHex (h a ha)

/-- Two of six digits, written twice. -/
theorem component_of_pair {hex : List Byte} (hlen : hex.length = 6) (hall : ∀ b ∈ hex, isHex b = true) {k : Nat}
    (hk : k ≤ 4) : Component (((hex.map lower).drop k).take 2 ++ ((hex.map lower).drop k).take 2) := by
  have he : ((hex.map lower).drop k).take 2 ++ ((hex.map lower).drop k).take 2 =
      ((hex.drop k).take 2 ++ (hex.drop k).take 2).map lower := by simp [List.map_take, List.map_drop]
  have htwo : ((hex.drop k).take 2).length = 2 := by
    rw [List.length_take, List.length_drop]
    omega
  rw [he]
  refine component_of_hex ?_ ?_ fun b hb => hall b ?_
  · rw [List.length_append]
    omega
  · rw [List.length_append]
    omega
  · have : b ∈ (hex.drop k).take 2 := by simpa using hb
    exact List.mem_of_mem_drop (List.mem_of_mem_take this)

theorem formatOSCColor_form {color value : List Byte} (h : formatOSCColor color = some value) :
    ∃ red green blue, Component red ∧ Component green ∧ Component blue ∧
      value = bytes "rgb:" ++ red ++ [byte '/'] ++ green ++ [byte '/'] ++ blue := by
  unfold formatOSCColor at h
  extract_lets color' components body hex at h
  split at h
  · split at h
    · rename_i hc
      obtain ⟨hlen, hall⟩ := hc
      obtain ⟨red, green, blue, he⟩ := List.length_eq_three.mp hlen
      rw [he] at hall h
      simp only [List.all_cons, List.all_nil, Bool.and_eq_true, decide_eq_true_eq, List.all_eq_true, and_true] at hall
      obtain ⟨⟨⟨hr0, hr⟩, hrh⟩, ⟨⟨hg0, hg⟩, hgh⟩, ⟨hb0, hb⟩, hbh⟩ := hall
      obtain rfl := Option.some.inj h
      refine ⟨red.map lower, green.map lower, blue.map lower, component_of_hex (List.length_pos_iff.mpr hr0) hr hrh,
        component_of_hex (List.length_pos_iff.mpr hg0) hg hgh,
        component_of_hex (List.length_pos_iff.mpr hb0) hb hbh, ?_⟩
      have hslash : lower (byte '/') = byte '/' := by decide
      simp [List.intercalate, List.intersperse, hslash]
    · cases h
  · split at h
    · rename_i hc
      obtain ⟨hlen, hall⟩ := hc
      obtain rfl := Option.some.inj h
      have hhex : ∀ b ∈ hex, isHex b = true := List.all_eq_true.mp hall
      exact ⟨_, _, _, component_of_pair hlen hhex (by omega), component_of_pair hlen hhex (by omega),
        component_of_pair hlen hhex (by omega), rfl⟩
    · cases h

/-! ## All replies -/

theorem mem_replies {p : List Byte} {a : PendingReply} (h : a ∈ r.replies p) : ∃ t, r.reply t = some a := by
  induction p with
  | nil => simp [Responder.replies] at h
  | cons b t ih =>
    simp only [Responder.replies] at h
    split at h
    · rcases List.mem_append.mp h with h | h
      · exact ⟨t, by simpa using h⟩
      · exact ih h
    · exact ih h

theorem wellFormed_of_reply {t : List Byte} (h : r.reply t = some (.fixed reply)) : WellFormed reply := by
  cases t with
  | nil => cases h
  | cons c body =>
    simp only [Responder.reply] at h
    split at h
    · split at h
      · rename_i i hi
        obtain ⟨parameters, final, he, hp, -⟩ := csiFinal_split hi
        rw [he, Responder.fixedReply] at h
        split at h
        · cases h
        · rename_i hne
          obtain rfl := PendingReply.fixed.inj (Option.some.inj h)
          exact wellFormed_csiReply hp hne
      · cases h
    · split at h
      · split at h
        · obtain ⟨kind, -, he⟩ := Option.map_eq_some_iff.mp h
          cases he
        · cases h
      · cases h

theorem wellFormed_of_color {kind : ColorQueryKind} (h : r.answer (.color kind) = some reply) : WellFormed reply := by
  simp only [Responder.answer, Option.bind_eq_bind, Option.bind_eq_some_iff, Option.some.injEq] at h
  obtain ⟨callback, -, color, -, value, hv, rfl⟩ := h
  obtain ⟨red, green, blue, hr, hg, hb, rfl⟩ := formatOSCColor_form hv
  have hform := WellFormed.osc kind hr hg hb
  simpa [bytes] using hform

theorem wellFormed_call {c : Call} (h : reply ∈ (r.call c).2) : WellFormed reply := by
  cases c with
  | feed data said =>
    obtain ⟨⟨a, i⟩, ha, hans⟩ := List.mem_filterMap.mp h
    have hmem : a ∈ (r.feedLocked data).2 := List.fst_mem_of_mem_zipIdx ha
    simp only [Responder.feedLocked] at hmem
    rw [(scan_eq (r := r) (r.pending ++ data).length (r.pending ++ data) (Nat.le_refl _)).1] at hmem
    obtain ⟨t, ht⟩ := mem_replies hmem
    cases a with
    | fixed bytes =>
      obtain rfl : bytes = reply := Option.some.inj hans
      exact wellFormed_of_reply ht
    | color kind => exact wellFormed_of_color hans
  | resize columns rows => cases h

/-- Whatever is fed to a responder, in whatever state and at whatever size it is, and
    whatever the callback says: every reply is one well-formed sequence. -/
theorem replies_are_well_formed (r : Responder) (calls : List Call) : ∀ reply ∈ r.replied calls, WellFormed reply := by
  induction calls generalizing r with
  | nil => simp [Responder.replied]
  | cons c rest ih =>
    intro reply h
    rcases List.mem_append.mp h with h | h
    · exact wellFormed_call h
    · exact ih _ reply h

/-- A colour with a callback that says three digits, in two pieces. -/
theorem replies_are_well_formed_color :
    bytes "\x1b]11;rgb:0000/8888/ffff\x1b\\" ∈
      (Responder.new (some fun _ => none)).replied
        [.feed (bytes "\x1b]11") fun _ _ => none, .feed (bytes ";?\x07") fun _ _ => some (bytes "#08f")] ∧
    WellFormed (bytes "\x1b]11;rgb:0000/8888/ffff\x1b\\") := by
  refine ⟨by decide, replies_are_well_formed (Responder.new (some fun _ => none))
    [.feed (bytes "\x1b]11") fun _ _ => none, .feed (bytes ";?\x07") fun _ _ => some (bytes "#08f")] _ (by decide)⟩

end Ghostline.Query
