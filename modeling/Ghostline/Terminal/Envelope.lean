/-
  Ghostline.Terminal.Envelope — the envelope of a terminal's state (terminal.go:
  `wrapVTState`, `unwrapVTState`).

  An envelope is a magic text, the length of the state in eight bytes, its digest and the
  state. SHA-256 is a parameter: some function into 32 bytes. `none` is a slice out of
  bounds, which would be a panic.

  `envelope_iff`: what unwraps is what was wrapped, and nothing panics.
-/

import Ghostline.Lib.Slice
import Ghostline.Text

namespace Ghostline.Terminal

open Lib.Slice

/-- `sha256.Sum256` returns an array. -/
structure Digest where
  bytes : List Byte
  length : bytes.length = 32

def vtStateMagic : List Byte := utf8 "ghostline-vt-v1\x00"
def vtStateHeaderSize : Nat := vtStateMagic.length + 8 + 32

variable (sha256 : List Byte → Digest)

def wrapVTState (raw : List Byte) : Option (List Byte) := do
  let state := List.replicate (vtStateHeaderSize + raw.length) 0
  let state ← copyAt state 0 vtStateMagic
  let state ← putUint64 state vtStateMagic.length (raw.length % 2 ^ 64)
  let state ← copyAt state (vtStateMagic.length + 8) (sha256 raw).bytes
  copyAt state vtStateHeaderSize raw

def unwrapVTState (state : List Byte) : Option (Except String (List Byte)) := do
  if state.length < vtStateHeaderSize then return .error "invalid ghostline VT state envelope"
  if (← slice state 0 vtStateMagic.length) ≠ vtStateMagic then return .error "invalid ghostline VT state envelope"
  let raw ← sliceFrom state vtStateHeaderSize
  let length ← uint64 (← sliceFrom state vtStateMagic.length)
  if length ≠ raw.length % 2 ^ 64 then return .error "invalid ghostline VT state length"
  let want ← slice state (vtStateMagic.length + 8) vtStateHeaderSize
  if want ≠ (sha256 raw).bytes then return .error "invalid ghostline VT state checksum"
  if raw.length = 0 then return .error "ghostline VT state payload is empty"
  return .ok raw

/-! ## The layout -/

/-- The parts of an envelope, one behind the other. -/
def envelope (magic length digest raw : List Byte) : List Byte := magic ++ (length ++ (digest ++ raw))

theorem vtStateMagic_length : vtStateMagic.length = 16 := by decide

theorem vtStateHeaderSize_eq : vtStateHeaderSize = 56 := by decide

/-- Every text that is long enough has the four parts. -/
theorem exists_envelope {state : List Byte} (h : vtStateHeaderSize ≤ state.length) :
    ∃ magic length digest raw, state = envelope magic length digest raw ∧ magic.length = 16 ∧ length.length = 8 ∧
      digest.length = 32 := by
  rw [vtStateHeaderSize_eq] at h
  refine ⟨state.take 16, (state.drop 16).take 8, (state.drop 24).take 32, state.drop 56, ?_, ?_, ?_, ?_⟩
  · unfold envelope
    have h3 : (state.drop 24).take 32 ++ state.drop 56 = state.drop 24 := by
      rw [show state.drop 56 = (state.drop 24).drop 32 by rw [List.drop_drop], List.take_append_drop]
    have h2 : (state.drop 16).take 8 ++ state.drop 24 = state.drop 16 := by
      rw [show state.drop 24 = (state.drop 16).drop 8 by rw [List.drop_drop], List.take_append_drop]
    rw [h3, h2, List.take_append_drop]
  all_goals
    simp only [List.length_take, List.length_drop]
    omega

variable {magic length digest raw : List Byte}

theorem envelope_inj {magic' length' digest' raw' : List Byte} (hm : magic.length = magic'.length)
    (hl : length.length = length'.length) (hd : digest.length = digest'.length)
    (h : envelope magic length digest raw = envelope magic' length' digest' raw') :
    magic = magic' ∧ length = length' ∧ digest = digest' ∧ raw = raw' := by
  obtain ⟨h1, h⟩ := List.append_inj h hm
  obtain ⟨h2, h⟩ := List.append_inj h hl
  obtain ⟨h3, h4⟩ := List.append_inj h hd
  exact ⟨h1, h2, h3, h4⟩

/-! ## Writing one -/

theorem copyAt_magic (h : magic.length = 16) :
    copyAt (envelope magic length digest raw) 0 vtStateMagic = some (envelope vtStateMagic length digest raw) :=
  copyAt_part (a := []) (b := magic) rfl rfl (by rw [h, vtStateMagic_length])

theorem putUint64_length (h : length.length = 8) (n : Nat) :
    putUint64 (envelope vtStateMagic length digest raw) vtStateMagic.length n =
      some (envelope vtStateMagic (le 8 n) digest raw) := by
  unfold envelope
  rw [putUint64_part (List.append_assoc _ _ _).symm rfl h, List.append_assoc]

theorem copyAt_digest (hl : length.length = 8) {digest' : List Byte} (h : digest.length = digest'.length) :
    copyAt (envelope vtStateMagic length digest raw) (vtStateMagic.length + 8) digest' =
      some (envelope vtStateMagic length digest' raw) := by
  rw [copyAt_part (a := vtStateMagic ++ length) (b := digest) (c := raw) (by simp [envelope])
    (by rw [List.length_append, hl]) h]
  simp [envelope]

theorem copyAt_raw (hl : length.length = 8) (hd : digest.length = 32) {raw' : List Byte}
    (h : raw.length = raw'.length) :
    copyAt (envelope vtStateMagic length digest raw) vtStateHeaderSize raw' =
      some (envelope vtStateMagic length digest raw') := by
  rw [copyAt_part (a := vtStateMagic ++ length ++ digest) (b := raw) (c := []) (by simp [envelope])
    (by simp only [List.length_append, hl, hd, vtStateHeaderSize]) h]
  simp [envelope]

/-! ## The two functions on it -/

variable {sha256}

theorem wrapVTState_eq (raw : List Byte) :
    wrapVTState sha256 raw = some (envelope vtStateMagic (le 8 raw.length) (sha256 raw).bytes raw) := by
  have hblank : List.replicate (vtStateHeaderSize + raw.length) (0 : Byte) = envelope (List.replicate 16 0)
      (List.replicate 8 0) (List.replicate 32 0) (List.replicate raw.length 0) := by
    unfold envelope
    rw [← List.replicate_add, ← List.replicate_add, ← List.replicate_add, vtStateHeaderSize_eq]
    congr 1
    omega
  have hdigest : (List.replicate 32 (0 : Byte)).length = (sha256 raw).bytes.length := by
    rw [List.length_replicate, (sha256 raw).length]
  unfold wrapVTState
  simp only [hblank, copyAt_magic List.length_replicate, putUint64_length List.length_replicate,
    copyAt_digest (length_le 8 _) hdigest, copyAt_raw (length_le 8 _) (sha256 raw).length List.length_replicate,
    Option.bind_eq_bind, Option.bind_some]
  rw [show (2 : Nat) ^ 64 = 256 ^ 8 by decide, le_mod]

theorem unwrapVTState_eq (hm : magic.length = 16) (hl : length.length = 8) (hd : digest.length = 32) :
    unwrapVTState sha256 (envelope magic length digest raw) = some (
      if magic ≠ vtStateMagic then .error "invalid ghostline VT state envelope"
      else if ofLe length ≠ raw.length % 2 ^ 64 then .error "invalid ghostline VT state length"
      else if digest ≠ (sha256 raw).bytes then .error "invalid ghostline VT state checksum"
      else if raw.length = 0 then .error "ghostline VT state payload is empty"
      else .ok raw) := by
  have hlong : ¬ (envelope magic length digest raw).length < vtStateHeaderSize := by
    simp only [envelope, List.length_append, vtStateHeaderSize_eq]
    omega
  have hmagic : slice (envelope magic length digest raw) 0 vtStateMagic.length = some magic :=
    slice_part (a := []) rfl rfl (by rw [vtStateMagic_length, hm]; rfl)
  have hraw : sliceFrom (envelope magic length digest raw) vtStateHeaderSize = some raw :=
    sliceFrom_part (a := magic ++ length ++ digest) (by simp [envelope])
      (by simp only [List.length_append, hm, hl, hd, vtStateHeaderSize_eq])
  have hlength : sliceFrom (envelope magic length digest raw) vtStateMagic.length = some (length ++ (digest ++ raw)) :=
    sliceFrom_part rfl (by rw [vtStateMagic_length, hm])
  have hdigest : slice (envelope magic length digest raw) (vtStateMagic.length + 8) vtStateHeaderSize = some digest :=
    slice_part (a := magic ++ length) (c := raw) (by simp [envelope])
      (by simp only [List.length_append, hm, hl, vtStateMagic_length])
      (by simp only [List.length_append, hm, hl, hd, vtStateHeaderSize_eq])
  unfold unwrapVTState
  simp only [hlong, hmagic, hraw, hlength, hdigest, uint64_append hl, Option.bind_eq_bind, Option.bind_some, if_false]
  repeat' split
  all_goals rfl

theorem unwrapVTState_short {state : List Byte} (h : state.length < vtStateHeaderSize) :
    unwrapVTState sha256 state = some (.error "invalid ghostline VT state envelope") := by
  unfold unwrapVTState
  rw [if_pos h]
  rfl

theorem unwrapVTState_ok_iff (hm : magic.length = 16) (hl : length.length = 8) (hd : digest.length = 32)
    {got : List Byte} : unwrapVTState sha256 (envelope magic length digest raw) = some (.ok got) ↔
      magic = vtStateMagic ∧ length = le 8 raw.length ∧ digest = (sha256 raw).bytes ∧ raw ≠ [] ∧ got = raw := by
  have hlen : ofLe length = raw.length % 2 ^ 64 ↔ length = le 8 raw.length := by
    rw [show (2 : Nat) ^ 64 = 256 ^ 8 by decide, ← ofLe_le]
    constructor
    · intro h
      rw [← le_ofLe length, hl, h, ofLe_le, le_mod]
    · rintro rfl
      rfl
  rw [unwrapVTState_eq hm hl hd, Option.some.injEq]
  split
  · rename_i hmagic
    exact ⟨nofun, fun h => absurd h.1 hmagic⟩
  · rename_i hmagic
    split
    · rename_i hlength
      exact ⟨nofun, fun h => absurd (hlen.mpr h.2.1) hlength⟩
    · rename_i hlength
      split
      · rename_i hdigest
        exact ⟨nofun, fun h => absurd h.2.2.1 hdigest⟩
      · rename_i hdigest
        split
        · rename_i hempty
          exact ⟨nofun, fun h => absurd (List.length_eq_zero_iff.mp hempty) h.2.2.2.1⟩
        · rename_i hempty
          constructor
          · intro h
            exact ⟨not_not.mp hmagic, hlen.mp (not_not.mp hlength), not_not.mp hdigest,
              fun hraw => hempty (List.length_eq_zero_iff.mpr hraw), (Except.ok.inj h).symm⟩
          · rintro ⟨-, -, -, -, rfl⟩
            rfl

/-! ## Both -/

/-- Wrapping never panics and unwrapping neither; a state that is not empty is unwrapped from
    its envelope, and an envelope that unwraps is the one its state is wrapped in. -/
theorem envelope_iff (sha256 : List Byte → Digest) :
    (∀ raw, raw ≠ [] → ∃ state, wrapVTState sha256 raw = some state ∧ unwrapVTState sha256 state = some (.ok raw)) ∧
      (∀ state raw, unwrapVTState sha256 state = some (.ok raw) ↔ raw ≠ [] ∧ wrapVTState sha256 raw = some state) ∧
      (∀ raw, ∃ state, wrapVTState sha256 raw = some state ∧ state.length = 56 + raw.length) ∧
      ∀ state, unwrapVTState sha256 state ≠ none := by
  have hm := vtStateMagic_length
  have hiff : ∀ state raw, unwrapVTState sha256 state = some (.ok raw) ↔
      raw ≠ [] ∧ wrapVTState sha256 raw = some state := by
    intro state got
    rw [wrapVTState_eq, Option.some.injEq]
    by_cases hlong : state.length < vtStateHeaderSize
    · rw [unwrapVTState_short hlong]
      refine ⟨nofun, ?_⟩
      rintro ⟨-, rfl⟩
      simp only [envelope, List.length_append, length_le, hm, (sha256 got).length, vtStateHeaderSize_eq] at hlong
      omega
    · obtain ⟨magic, length, digest, raw, rfl, h16, h8, h32⟩ := exists_envelope (Nat.not_lt.mp hlong)
      rw [unwrapVTState_ok_iff h16 h8 h32]
      constructor
      · rintro ⟨rfl, rfl, rfl, hne, rfl⟩
        exact ⟨hne, rfl⟩
      · rintro ⟨hne, heq⟩
        obtain ⟨rfl, rfl, rfl, rfl⟩ := envelope_inj (by rw [hm, h16]) (by rw [length_le, h8])
          (by rw [(sha256 got).length, h32]) heq
        exact ⟨rfl, rfl, rfl, hne, rfl⟩
  refine ⟨?_, hiff, ?_, ?_⟩
  · intro raw hne
    exact ⟨_, wrapVTState_eq raw, (hiff _ raw).mpr ⟨hne, wrapVTState_eq raw⟩⟩
  · intro raw
    refine ⟨_, wrapVTState_eq raw, ?_⟩
    simp only [envelope, List.length_append, length_le, hm, (sha256 raw).length]
    omega
  · intro state
    by_cases hlong : state.length < vtStateHeaderSize
    · rw [unwrapVTState_short hlong]
      exact Option.some_ne_none _
    · obtain ⟨magic, length, digest, raw, rfl, h16, h8, h32⟩ := exists_envelope (Nat.not_lt.mp hlong)
      rw [unwrapVTState_eq h16 h8 h32]
      exact Option.some_ne_none _

end Ghostline.Terminal
