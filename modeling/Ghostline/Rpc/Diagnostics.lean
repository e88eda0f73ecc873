/-
  Ghostline.Rpc.Diagnostics — what a client keeps of the daemon's standard error while it
  starts (client.go: `diagnosticBuffer`).

  The buffer shifts its bytes down in place to make room, or is replaced by the end of a
  chunk that fills it. After every sequence of writes it holds the newest
  `maxDaemonDiagnostics` bytes of them (`diagnostics_keep_the_newest`).
-/

import Ghostline.Lib.Slice
import Ghostline.Types

namespace Ghostline.Rpc

open Lib.Slice

def maxDaemonDiagnostics : Nat := 64 * 2 ^ 10

structure DiagnosticBuffer where
  data : List Byte
  deriving DecidableEq, Repr

namespace DiagnosticBuffer

/-- The buffer behind a call of `Write` and the length that it reports; `none` is a slice out
    of bounds. `limit` is `maxDaemonDiagnostics`. -/
def write (limit : Nat) (b : DiagnosticBuffer) (data : List Byte) : Option (DiagnosticBuffer × Nat) := do
  let written := data.length
  if limit ≤ data.length then
    let tail ← sliceFrom data (data.length - limit)
    let empty ← slice b.data 0 0
    return (⟨empty ++ tail⟩, written)
  let overflow : Int := (b.data.length + data.length : Int) - limit
  if 0 < overflow then
    let rest ← sliceFrom b.data overflow.toNat
    let shifted ← copyAt b.data 0 rest
    let kept ← slice shifted 0 (shifted.length - overflow.toNat)
    return (⟨kept ++ data⟩, written)
  return (⟨b.data ++ data⟩, written)

/-- A sequence of writes, and what each of them reports. -/
def writes (limit : Nat) : DiagnosticBuffer → List (List Byte) → Option (DiagnosticBuffer × List Nat)
  | b, [] => some (b, [])
  | b, data :: rest => do
    let (b, written) ← b.write limit data
    let (b, reported) ← writes limit b rest
    return (b, written :: reported)

end DiagnosticBuffer

/-! ## One write -/

variable {limit : Nat} {b : DiagnosticBuffer} {data : List Byte}

theorem write_full (h : limit ≤ data.length) : b.write limit data = some (⟨newest limit data⟩, data.length) := by
  unfold DiagnosticBuffer.write
  rw [if_pos h, sliceFrom_eq (Nat.sub_le _ _), slice_zero_eq (Nat.zero_le _)]
  rfl

theorem write_fits (h : data.length < limit) (hfits : b.data.length + data.length ≤ limit) :
    b.write limit data = some (⟨b.data ++ data⟩, data.length) := by
  have hroom : ¬ (0 < (b.data.length + data.length : Int) - limit) := by omega
  unfold DiagnosticBuffer.write
  rw [if_neg (Nat.not_le.mpr h), if_neg hroom]
  rfl

/-- The bytes that are to stay are copied over the ones that go, and what is left at the end is
    cut off. -/
theorem write_shifts (h : data.length < limit) (hover : limit < b.data.length + data.length) :
    b.write limit data = some (⟨b.data.drop (b.data.length + data.length - limit) ++ data⟩, data.length) := by
  generalize hn : b.data.length + data.length - limit = n
  have hfits : n ≤ b.data.length := by omega
  have hover' : 0 < (b.data.length + data.length : Int) - limit := by omega
  have hn' : ((b.data.length + data.length : Int) - limit).toNat = n := by omega
  have hcopy : copyAt b.data 0 (b.data.drop n) = some (b.data.drop n ++ b.data.drop (b.data.drop n).length) := by
    unfold copyAt
    rw [if_pos (Nat.zero_le _), List.take_zero, List.nil_append, Nat.zero_add, List.take_of_length_le]
    simp
  have hlen : (b.data.drop n ++ b.data.drop (b.data.drop n).length).length - n = (b.data.drop n).length := by
    simp only [List.length_append, List.length_drop]
    omega
  have hcut : slice (b.data.drop n ++ b.data.drop (b.data.drop n).length) 0 (b.data.drop n).length =
      some (b.data.drop n) := slice_part (a := []) rfl rfl (Nat.zero_add _).symm
  unfold DiagnosticBuffer.write
  rw [if_neg (Nat.not_le.mpr h), if_pos hover', hn', sliceFrom_eq hfits]
  simp only [hcopy, hlen, hcut, Option.bind_eq_bind, Option.bind_some]
  rfl

/-- One write behind a stream whose newest bytes the buffer holds. -/
theorem write_newest (limit : Nat) (s data : List Byte) :
    (DiagnosticBuffer.mk (newest limit s)).write limit data =
      some (⟨newest limit (s ++ data)⟩, data.length) := by
  rcases Nat.lt_or_ge data.length limit with h | h
  · have happend := newest_append_of_lt (Nat.le_of_lt h) s
    rcases Nat.lt_or_ge limit ((newest limit s).length + data.length) with hover | hfits
    · rw [write_shifts (b := ⟨newest limit s⟩) h hover, happend]
    · rw [write_fits (b := ⟨newest limit s⟩) h hfits, happend, Nat.sub_eq_zero_of_le hfits, List.drop_zero]
  · rw [write_full h, newest_append_of_le h]

/-! ## All of them -/

theorem writes_newest (limit : Nat) (s : List Byte) (chunks : List (List Byte)) :
    (DiagnosticBuffer.mk (newest limit s)).writes limit chunks =
      some (⟨newest limit (s ++ chunks.flatten)⟩, chunks.map List.length) := by
  induction chunks generalizing s with
  | nil =>
    rw [List.flatten_nil, List.append_nil]
    rfl
  | cons data chunks ih =>
    simp only [DiagnosticBuffer.writes, write_newest, ih, Option.bind_eq_bind, Option.bind_some, List.flatten_cons,
      List.map_cons, List.append_assoc]
    rfl

/-- Whatever is written, in chunks of whatever size: no write panics, each reports its length,
    and the buffer holds the newest bytes of all of it. -/
theorem diagnostics_keep_the_newest (chunks : List (List Byte)) :
    ∃ b, (DiagnosticBuffer.mk []).writes maxDaemonDiagnostics chunks = some (b, chunks.map List.length) ∧
      b.data.length = min chunks.flatten.length maxDaemonDiagnostics ∧ b.data <:+ chunks.flatten := by
  -- The number is large: unfolded, it would be counted down one by one.
  generalize maxDaemonDiagnostics = limit
  have h := writes_newest limit [] chunks
  rw [show newest limit ([] : List Byte) = [] from List.drop_nil, List.nil_append] at h
  exact ⟨_, h, length_newest limit _, List.drop_suffix _ _⟩

end Ghostline.Rpc
