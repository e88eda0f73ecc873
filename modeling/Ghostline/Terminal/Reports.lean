/-
  Ghostline.Terminal.Reports — directories that a shell reports with percent-encoding
  (pwd.go: `parseReportedPwd`).

  Every byte of the path but letters, digits, `-._~` and the slash is written as a percent
  sign and two digits (`Encoded`), behind a scheme and a host that is this one. Trimming
  white space does no harm then, and decoding gives the path back. But quotes are trimmed
  behind the decoding, so a path that ends with one loses it (`a_quote_at_the_end_is_lost`);
  and a host name with a slash in it is not told from the path. Everything else round-trips
  (`report_round_trip_iff`).
-/

import Ghostline.Terminal.Hosts

namespace Ghostline.Terminal

open Lib Query

/-! ## Reports -/

/-- Letters, digits, `-._~` and the slash. -/
def Literal (b : Byte) : Prop :=
  byte 'a' ≤ b ∧ b ≤ byte 'z' ∨ byte 'A' ≤ b ∧ b ≤ byte 'Z' ∨ byte '0' ≤ b ∧ b ≤ byte '9' ∨
    b = byte '-' ∨ b = byte '.' ∨ b = byte '_' ∨ b = byte '~' ∨ b = slash

instance (b : Byte) : Decidable (Literal b) := inferInstanceAs (Decidable (_ ∨ _))

/-- A path and its percent-encoding, with digits of either case. -/
inductive Encoded : List Byte → List Byte → Prop
  | nil : Encoded [] []
  | literal {b : Byte} {path report : List Byte} : Literal b → Encoded path report → Encoded (b :: path) (b :: report)
  | escaped {b h l high low : Byte} {path report : List Byte} : ¬ Literal b → hexValue h = some high →
      hexValue l = some low → high <<< 4 ||| low = b → Encoded path report →
      Encoded (b :: path) (byte '%' :: h :: l :: report)

/-- `EqualFold` on letters of ASCII. -/
structure Folding.Lawful (folding : Folding) : Prop where
  equalFold : ∀ s t : List Byte, (∀ b ∈ s, b < 0x80) → (∀ b ∈ t, b < 0x80) →
    folding.equalFold s t = (s.map lower == t.map lower)

theorem asciiFolding_lawful : asciiFolding.Lawful := ⟨fun _ _ _ _ => rfl⟩

def schemes : List (List Byte) := [bytes "file", bytes "kitty-shell-cwd"]

/-- The hosts a report of this machine may have. -/
def ReportsHere (hostname host : List Byte) : Prop :=
  host = [] ∨ host.map lower = bytes "localhost" ∨ host = hostname

variable {folding : Folding} {scheme hostname host path report : List Byte}

/-! ## White space -/

/-- Neither white space nor a quote, and in ASCII. -/
def graphic (b : Byte) : Bool := 0x23 ≤ b && b < 0x80

theorem strip_graphic {words : List (List Byte)} {b : Byte}
    (hwords : (words.all fun w => w.head?.any fun c => !graphic c) = true) (hb : graphic b = true)
    (n : Nat) (s : List Byte) : strip words n (b :: s) = b :: s := by
  cases n with
  | zero => rfl
  | succ n =>
    have hfind : words.find? (·.isPrefixOf (b :: s)) = none := by
      refine List.find?_eq_none.mpr fun w hw hpre => ?_
      have hhead := List.all_eq_true.mp hwords w hw
      cases w with
      | nil => cases hhead
      | cons c w =>
        obtain ⟨rfl, -⟩ := List.cons_prefix_cons.mp (List.isPrefixOf_iff_prefix.mp hpre)
        simp [hb] at hhead
    unfold strip
    rw [hfind]

theorem trimSpaceBytes_graphic {s : List Byte} (hhead : s.head?.any graphic = true)
    (hlast : s.getLast?.any graphic = true) : trimSpaceBytes s = s := by
  have hfront : strip spaces s.length s = s := by
    cases s with
    | nil => cases hhead
    | cons b s => exact strip_graphic (by decide) hhead _ s
  have hback : strip (spaces.map List.reverse) s.length s.reverse = s.reverse := by
    rw [List.getLast?_eq_head?_reverse] at hlast
    cases hs : s.reverse with
    | nil =>
      rw [hs] at hlast
      cases hlast
    | cons b t =>
      rw [hs] at hlast
      exact strip_graphic (by decide) hlast _ t
  simp only [trimSpaceBytes, hfront, hback, List.reverse_reverse]

/-! ## Encoded paths -/

theorem graphic_of_mem_range {a z b : Byte} (hrange : 0x23 ≤ a ∧ z < 0x80) (h : a ≤ b ∧ b ≤ z) :
    graphic b = true := by
  unfold graphic
  rw [Bool.and_eq_true, decide_eq_true_eq, decide_eq_true_eq]
  exact ⟨UInt8.le_trans hrange.1 h.1, UInt8.lt_of_le_of_lt h.2 hrange.2⟩

theorem Literal.graphic {b : Byte} (h : Literal b) : graphic b = true := by
  rcases h with h | h | h | rfl | rfl | rfl | rfl | rfl
  · exact graphic_of_mem_range (by decide) h
  · exact graphic_of_mem_range (by decide) h
  · exact graphic_of_mem_range (by decide) h
  all_goals decide

theorem graphic_of_hexValue {b v : Byte} (h : hexValue b = some v) : graphic b = true := by
  unfold hexValue at h
  split at h
  · rename_i hr
    exact graphic_of_mem_range (by decide) hr
  · split at h
    · rename_i hr
      exact graphic_of_mem_range (by decide) hr
    · split at h
      · rename_i hr
        exact graphic_of_mem_range (by decide) hr
      · cases h

theorem Encoded.graphic (h : Encoded path report) : ∀ b ∈ report, graphic b = true := by
  induction h with
  | nil => exact fun b hb => absurd hb List.not_mem_nil
  | literal hb _ ih => exact List.forall_mem_cons.mpr ⟨hb.graphic, ih⟩
  | escaped _ hh hl _ _ ih =>
    refine List.forall_mem_cons.mpr ⟨by decide, List.forall_mem_cons.mpr ⟨graphic_of_hexValue hh, ?_⟩⟩
    exact List.forall_mem_cons.mpr ⟨graphic_of_hexValue hl, ih⟩

theorem Encoded.getLast (h : Encoded path report) (hne : report ≠ []) : report.getLast?.any Terminal.graphic = true := by
  rw [List.getLast?_eq_some_getLast hne]
  exact h.graphic _ (List.getLast_mem hne)

theorem Literal.ne_percent {b : Byte} (h : Literal b) : b ≠ byte '%' := by
  rintro rfl
  exact absurd h (by decide)

theorem Encoded.spelled (h : Encoded path report) : Spelled path report := by
  induction h with
  | nil => exact .nil
  | literal hb _ ih => exact .literal hb.ne_percent ih
  | escaped _ hh hl hv _ ih =>
    rw [← hv]
    exact ih.escape hh hl

theorem Encoded.decode (h : Encoded path report) : percentDecode report = some path := h.spelled.decode

theorem Encoded.length_le (h : Encoded path report) : path.length ≤ report.length := by
  induction h with
  | nil => exact Nat.le_refl _
  | literal _ _ ih => exact Nat.succ_le_succ ih
  | escaped _ _ _ _ _ ih =>
    simp only [List.length_cons]
    omega

theorem Encoded.slash (h : Encoded (slash :: path) report) :
    ∃ rest, report = Terminal.slash :: rest ∧ Encoded path rest := by
  cases h with
  | literal _ h => exact ⟨_, rfl, h⟩
  | escaped hb => exact absurd (show Literal Terminal.slash by decide) hb

theorem TwoDigits.of_append_slash {rest t : List Byte} (h : TwoDigits (rest ++ slash :: t)) : TwoDigits rest := by
  have hslash : hexValue slash = none := by decide
  obtain ⟨h, l, tail, m, n, heq, hh, hl⟩ := h
  match rest with
  | [] =>
    injection heq with hhigh
    exact absurd (hhigh ▸ hh) (not_isHexDigit hslash m)
  | [_] =>
    injection heq with _ heq
    injection heq with hlow
    exact absurd (hlow ▸ hl) (not_isHexDigit hslash n)
  | _ :: _ :: rest =>
    injection heq with hhigh heq
    injection heq with hlow
    exact ⟨_, _, rest, m, n, rfl, hhigh ▸ hh, hlow ▸ hl⟩

/-- A slash ends what is decoded before it: it is no digit of an escape. -/
theorem percentDecode_append_slash (s t : List Byte) : percentDecode (s ++ slash :: t) =
    (percentDecode s).bind fun a => (percentDecode (slash :: t)).map (a ++ ·) := by
  rcases spelled_or_stuck s with ⟨a, hspelled⟩ | ⟨hnone, hstuck⟩
  · rw [hspelled.decode_append, hspelled.decode, Option.bind_some]
  · obtain ⟨before, rest, rfl, hdigits⟩ := stuck_iff.mp hstuck
    rw [hnone, Option.bind_none, percentDecode_eq_none_iff, stuck_iff]
    exact ⟨before, rest ++ slash :: t, by simp, fun h => hdigits h.of_append_slash⟩

/-! ## Parsing -/

theorem parseReportedPwd_scheme {rest : List Byte} (hscheme : scheme ∈ schemes)
    (hlast : rest.getLast?.any graphic = true) :
    parseReportedPwd folding hostname (scheme ++ bytes "://" ++ rest) = hostPath folding rest hostname := by
  obtain ⟨hhead, hcolon⟩ : scheme.head?.any graphic = true ∧ byte ':' ∉ scheme := by
    rcases List.mem_cons.mp hscheme with rfl | h
    · decide
    · rcases List.mem_singleton.mp h with rfl
      decide
  obtain ⟨b, scheme, rfl⟩ : ∃ b s, scheme = b :: s := by
    cases scheme with
    | nil => cases hhead
    | cons b s => exact ⟨b, s, rfl⟩
  have hrest : rest ≠ [] := by
    rintro rfl
    cases hlast
  have htrim : trimSpaceBytes (b :: scheme ++ bytes "://" ++ rest) = b :: scheme ++ bytes "://" ++ rest := by
    refine trimSpaceBytes_graphic hhead ?_
    rw [List.getLast?_append_of_ne_nil _ hrest]
    exact hlast
  have hindex : index (bytes "://") (b :: scheme ++ bytes "://" ++ rest) = some (scheme.length + 1) := by
    have hsep : bytes "://" = byte ':' :: bytes "//" := by decide
    rw [List.append_assoc, hsep]
    exact index_append hcolon (bytes "//") rest
  have hsplit : splitReportedScheme (b :: scheme ++ bytes "://" ++ rest) = some (b :: scheme, rest) := by
    unfold splitReportedScheme
    rw [hindex]
    have htake : (b :: scheme ++ bytes "://" ++ rest).take (scheme.length + 1) = b :: scheme := by
      rw [List.append_assoc]
      exact List.take_left' rfl
    have hdrop : (b :: scheme ++ bytes "://" ++ rest).drop (scheme.length + 1 + 3) = rest :=
      List.drop_left' (by rw [List.length_append]; rfl)
    simp only [htake, hdrop]
  unfold parseReportedPwd
  simp only [htrim, hsplit]
  exact if_neg (List.cons_ne_nil _ _)

theorem lower_lt {b : Byte} (h : lower b < 0x80) : b < 0x80 := by
  unfold lower at h
  split at h
  · rename_i hr
    exact UInt8.lt_of_le_of_lt hr.2 (by decide)
  · exact h

theorem ReportsHere.accepted (hfold : folding.Lawful) (h : ReportsHere hostname host) :
    host = [] ∨ isLocalHost folding host hostname = true := by
  rcases h with h | h | rfl
  · exact .inl h
  · have hlocal : (bytes "localhost").all (· < 0x80) = true := by decide
    have hascii : ∀ b ∈ host, b < 0x80 := by
      intro b hb
      refine lower_lt ?_
      have hmem : lower b ∈ bytes "localhost" := h ▸ List.mem_map_of_mem hb
      exact of_decide_eq_true (List.all_eq_true.mp hlocal _ hmem)
    refine .inr (isLocalHost_iff.mpr (.inl ?_))
    have hlower : (bytes "localhost").map lower = bytes "localhost" := by decide
    rw [hfold.equalFold host _ hascii fun b hb => of_decide_eq_true (List.all_eq_true.mp hlocal b hb), h, hlower]
    exact beq_self_eq_true _
  · by_cases hn : host = []
    · exact .inl hn
    · exact .inr (isLocalHost_iff.mpr (.inr ⟨hn, .inl rfl⟩))

/-! ## Round trips -/

theorem isQuote_eq_false_iff {b : Byte} : isQuote b = false ↔ b ≠ byte '"' := by
  unfold isQuote
  exact beq_eq_false_iff_ne

theorem rdropWhile_isQuote_iff {s : List Byte} : s.rdropWhile isQuote = s ↔ s.getLast? ≠ some (byte '"') := by
  rw [rdropWhile_eq_self_iff]
  simp only [isQuote_eq_false_iff]
  constructor
  · intro h hlast
    exact h _ hlast rfl
  · rintro h b hb rfl
    exact h hb

theorem unquoted_of_graphic {b : Byte} (h : graphic b = true) : b ≠ byte '"' := by
  rintro rfl
  exact absurd h (by decide)

theorem decodedPath_eq_path_iff (hreport : Encoded (slash :: path) report) :
    decodedPath report = slash :: path ↔ (slash :: path).getLast? ≠ some (byte '"') := by
  unfold decodedPath
  rw [hreport.decode, Option.getD_some, absolutePath_slash, List.cons_inj_right, rdropWhile_isQuote_iff]
  cases path with
  | nil => decide
  | cons b path => rw [List.getLast?_cons_cons]

/-- The part of a host behind a slash in it is taken for the beginning of the path. -/
theorem decodedPath_ne_path (hreport : Encoded (slash :: path) report) (part : List Byte) :
    decodedPath (slash :: (part ++ report)) ≠ slash :: path := by
  rw [decodedPath_slash, Ne, List.cons_inj_right]
  obtain ⟨rest, rfl, hrest⟩ := hreport.slash
  have hlen := hrest.length_le
  rw [percentDecode_append_slash, hreport.decode]
  intro heq
  cases hpart : percentDecode part with
  | none =>
    -- not decoded, and the end of an encoding is no quote
    have hkept : (part ++ slash :: rest).rdropWhile isQuote = part ++ slash :: rest := by
      rw [rdropWhile_isQuote_iff, List.getLast?_append_of_ne_nil _ (List.cons_ne_nil _ _)]
      intro hlast
      exact unquoted_of_graphic (hreport.graphic _ (List.mem_of_getLast? hlast)) rfl
    rw [hpart, Option.bind_none, Option.getD_none, hkept] at heq
    have := congrArg List.length heq
    simp only [List.length_append, List.length_cons] at this
    omega
  | some decoded =>
    rw [hpart, Option.bind_some, Option.map_some, Option.getD_some] at heq
    have hunquoted := List.rdropWhile_idempotent isQuote (decoded ++ slash :: path)
    have hinked : ¬ Blank isQuote (slash :: path) := fun h => slash_not_quote (h slash List.mem_cons_self)
    rw [heq] at hunquoted
    rw [rdropWhile_append_inked hinked, rdropWhile_slash, hunquoted] at heq
    have := congrArg List.length heq
    simp only [List.length_append, List.length_cons] at this
    omega

/-- The report of a directory is read back as that directory, unless the path ends with a quote
    or the host has a slash in it. -/
theorem report_round_trip_iff (hfold : folding.Lawful) (hscheme : scheme ∈ schemes)
    (hhost : ReportsHere hostname host) (hpath : path.head? = some slash) (hreport : Encoded path report) :
    parseReportedPwd folding hostname (scheme ++ bytes "://" ++ host ++ report) = path ↔
      path.getLast? ≠ some (byte '"') ∧ slash ∉ host := by
  obtain ⟨rest, rfl⟩ : ∃ rest, path = slash :: rest := ⟨path.tail, List.eq_cons_of_mem_head? hpath⟩
  obtain ⟨tail, htail, -⟩ := hreport.slash
  have hne : report ≠ [] := by
    rw [htail]
    exact List.cons_ne_nil _ _
  rw [List.append_assoc, parseReportedPwd_scheme hscheme (by
    rw [List.getLast?_append_of_ne_nil _ hne]
    exact hreport.getLast hne)]
  by_cases hslash : slash ∈ host
  · obtain ⟨before, part, rfl, hbefore⟩ := List.eq_append_cons_of_mem hslash
    rw [List.append_assoc, List.cons_append, hostPath_eq hbefore]
    refine iff_of_false ?_ fun h => h.2 hslash
    split
    · exact decodedPath_ne_path hreport part
    · exact (List.cons_ne_nil _ _).symm
  · have haccepted := hhost.accepted hfold
    rw [and_iff_left hslash, ← decodedPath_eq_path_iff hreport, htail, hostPath_eq hslash, if_pos haccepted]

theorem report_round_trip_iff_blank :
    parseReportedPwd asciiFolding (bytes "studio")
      (bytes "kitty-shell-cwd" ++ bytes "://" ++ bytes "LocalHost" ++ bytes "/a%20") = bytes "/a " := by
  have hencoded : Encoded (bytes "/a ") (bytes "/a%20") :=
    .literal (by decide) (.literal (by decide) (.escaped (by decide) rfl rfl (by decide) .nil))
  have hhost : ReportsHere (bytes "studio") (bytes "LocalHost") := .inr (.inl (by decide))
  exact (report_round_trip_iff asciiFolding_lawful (by decide) hhost rfl hencoded).mpr (by decide)

/-- The last byte of the path is trimmed once it is decoded. -/
theorem a_quote_at_the_end_is_lost :
    Encoded (bytes "/a\"") (bytes "/a%22") ∧
      parseReportedPwd asciiFolding (bytes "studio") (bytes "file:///a%22") = bytes "/a" := by
  refine ⟨.literal (by decide) (.literal (by decide) (.escaped (by decide) rfl rfl (by decide) .nil)), ?_⟩
  decide +kernel

end Ghostline.Terminal
