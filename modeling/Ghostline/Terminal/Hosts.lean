/-
  Ghostline.Terminal.Hosts — whose directory a report is about (pwd.go: `hostPath`,
  `isLocalHost`, `shortHostname`).

  A report `scheme://host/path` is about this machine if it names no host, localhost, or this
  machine by its short or its full name (`IsThisHost`). `isLocalHost` cuts both names at the
  first dot and compares what is left, so that it takes any two full names with the same first
  label for one host (`another_host_is_taken_for_this_one`). This is the only case in which a
  remote directory is taken for a local one (`local_path_iff`).
-/

import Ghostline.Lib.Trim
import Ghostline.Terminal.Percent

namespace Ghostline.Terminal

open Lib Query

def dot : Byte := byte '.'

/-- What is before the first dot. -/
def firstLabel (name : List Byte) : List Byte := name.takeWhile (· ≠ dot)

variable (folding : Folding) (host localHost : List Byte)

/-- No host, localhost, or this machine in its short or its fully-qualified form, without
    regard to case. -/
def IsThisHost : Prop :=
  host = [] ∨ folding.equalFold host (bytes "localhost") = true ∨
    folding.toLower host = folding.toLower localHost ∨
    folding.toLower host = firstLabel (folding.toLower localHost) ∨
    firstLabel (folding.toLower host) = folding.toLower localHost

/-- Two different fully-qualified names with the same first label, and not localhost. -/
structure SharesLabel : Prop where
  notEmpty : host ≠ [] ∧ localHost ≠ []
  notLoopback : folding.equalFold host (bytes "localhost") = false
  different : folding.toLower host ≠ folding.toLower localHost
  qualified : dot ∈ folding.toLower host ∧ dot ∈ folding.toLower localHost
  label : firstLabel (folding.toLower host) = firstLabel (folding.toLower localHost)
  named : firstLabel (folding.toLower host) ≠ []

instance : Decidable (IsThisHost folding host localHost) := inferInstanceAs (Decidable (_ ∨ _))

variable {folding host localHost} {path : List Byte}

/-! ## Paths -/

def isQuote (b : Byte) : Bool := b == byte '"'

theorem absolutePath_eq (value : List Byte) : absolutePath value =
    if (trim isQuote value).head? = some slash then trim isQuote value else [] := rfl

theorem slash_not_quote : ¬ isQuote slash = true := by decide

theorem rdropWhile_slash (s : List Byte) : (slash :: s).rdropWhile isQuote = slash :: s.rdropWhile isQuote := by
  by_cases hb : Blank isQuote s
  · have hslash : [slash].rdropWhile isQuote = [slash] :=
      List.rdropWhile_concat_neg isQuote [] slash slash_not_quote
    rw [List.rdropWhile_eq_nil_iff.mpr hb, ← hslash]
    exact rdropWhile_append_blank (s := [slash]) hb
  · exact rdropWhile_append_inked (s := [slash]) hb

/-- Of an absolute path only quotes at its end are cut off. -/
theorem absolutePath_slash (rest : List Byte) :
    absolutePath (slash :: rest) = slash :: rest.rdropWhile isQuote := by
  have htrim : trim isQuote (slash :: rest) = slash :: rest.rdropWhile isQuote := by
    unfold trim
    rw [List.dropWhile_cons_of_neg slash_not_quote, rdropWhile_slash]
  rw [absolutePath_eq, htrim, List.head?_cons, if_pos rfl]

/-- What is made of the part behind the host. -/
def decodedPath (path : List Byte) : List Byte := absolutePath ((percentDecode path).getD path)

theorem decodedPath_slash (rest : List Byte) : decodedPath (slash :: rest) =
    slash :: ((percentDecode rest).getD rest).rdropWhile isQuote := by
  unfold decodedPath
  rw [percentDecode_cons (by decide)]
  cases percentDecode rest with
  | none => exact absolutePath_slash rest
  | some decoded => exact absolutePath_slash decoded

theorem hostPath_eq (hhost : slash ∉ host) (path : List Byte) :
    hostPath folding (host ++ slash :: path) localHost =
      if host = [] ∨ isLocalHost folding host localHost = true then decodedPath (slash :: path) else [] := by
  unfold hostPath
  cases host with
  | nil => rfl
  | cons b host =>
    have hb : b ≠ slash := fun h => hhost (h ▸ List.mem_cons_self)
    have hhead : ¬ ((b :: host) ++ slash :: path).head? = some slash := by simpa using hb
    rw [if_neg hhead, index_singleton_append hhost]
    simp only [List.take_left, List.drop_left]
    by_cases hl : isLocalHost folding (b :: host) localHost = true
    · simp [hl, decodedPath]
    · simp [hl]

theorem hostPath_ne_nil_iff (hhost : slash ∉ host) (path : List Byte) :
    hostPath folding (host ++ slash :: path) localHost ≠ [] ↔
      host = [] ∨ isLocalHost folding host localHost = true := by
  rw [hostPath_eq hhost, decodedPath_slash]
  split
  · rename_i h
    simp [h]
  · rename_i h
    simp [h]

/-! ## Labels -/

theorem dot_not_mem_firstLabel (name : List Byte) : dot ∉ firstLabel name := by
  intro h
  have := List.mem_takeWhile_imp h
  simp at this

theorem firstLabel_of_not_mem {name : List Byte} (h : dot ∉ name) : firstLabel name = name := by
  refine List.takeWhile_eq_self_iff.mpr fun b hb => ?_
  rw [decide_eq_true_eq]
  rintro rfl
  exact h hb

theorem firstLabel_append {label : List Byte} (h : dot ∉ label) (rest : List Byte) :
    firstLabel (label ++ dot :: rest) = label := by
  have hlabel := firstLabel_of_not_mem h
  unfold firstLabel at hlabel ⊢
  rw [List.takeWhile_append, hlabel, if_pos rfl]
  simp

/-- A name that begins with a dot is not cut. -/
theorem shortHostname_eq (name : List Byte) :
    shortHostname name = if firstLabel name = [] then name else firstLabel name := by
  unfold shortHostname
  cases hi : index [byte '.'] name with
  | none =>
    have hdot : dot ∉ name := by
      intro hmem
      obtain ⟨s, t, rfl⟩ := List.append_of_mem hmem
      exact index_none hi s.length ⟨t, by rw [List.drop_left]; rfl⟩
    rw [firstLabel_of_not_mem hdot, ite_self]
  | some i =>
    obtain ⟨hnot, hcut⟩ := index_singleton_some hi
    have hlabel : firstLabel name = name.take i := by
      conv_lhs => rw [hcut]
      exact firstLabel_append hnot _
    rw [hlabel]
    cases i with
    | zero => exact (if_pos List.take_zero).symm
    | succ i =>
      have hne : name.take (i + 1) ≠ [] := by
        intro hnil
        rcases List.take_eq_nil_iff.mp hnil with h | h
        · cases h
        · rw [h] at hcut
          simp at hcut
      exact (if_neg hne).symm

/-- What it takes for two names to be the same once they are cut. -/
theorem short_eq_cases {a b : List Byte} (h : shortHostname a = shortHostname b) :
    a = b ∨ a = firstLabel b ∨ firstLabel a = b ∨
      (dot ∈ a ∧ dot ∈ b) ∧ firstLabel a = firstLabel b ∧ firstLabel a ≠ [] := by
  rw [shortHostname_eq, shortHostname_eq] at h
  split at h
  · split at h
    · exact .inl h
    · exact .inr (.inl h)
  · rename_i ha
    split at h
    · exact .inr (.inr (.inl h))
    · by_cases hda : dot ∈ a
      · by_cases hdb : dot ∈ b
        · exact .inr (.inr (.inr ⟨⟨hda, hdb⟩, h, ha⟩))
        · rw [firstLabel_of_not_mem hdb] at h
          exact .inr (.inr (.inl h))
      · rw [firstLabel_of_not_mem hda] at h
        exact .inr (.inl h)

theorem isLocalHost_iff : isLocalHost folding host localHost = true ↔
    folding.equalFold host (bytes "localhost") = true ∨ localHost ≠ [] ∧
      (folding.toLower host = folding.toLower localHost ∨
        shortHostname (folding.toLower host) = shortHostname (folding.toLower localHost)) := by
  unfold isLocalHost
  by_cases hf : folding.equalFold host (bytes "localhost") = true
  · simp [hf]
  · by_cases hl : localHost = []
    · simp [hf, hl]
    · simp [hf, hl]

/-! ## Local and remote -/

theorem SharesLabel.isLocalHost (h : SharesLabel folding host localHost) :
    isLocalHost folding host localHost = true := by
  refine isLocalHost_iff.mpr (.inr ⟨h.notEmpty.2, .inr ?_⟩)
  rw [shortHostname_eq, shortHostname_eq, ← h.label, if_neg h.named, if_neg h.named]

theorem SharesLabel.not_this (h : SharesLabel folding host localHost) : ¬ IsThisHost folding host localHost := by
  rintro (h0 | h0 | h0 | h0 | h0)
  · exact h.notEmpty.1 h0
  · rw [h.notLoopback] at h0
    cases h0
  · exact h.different h0
  · exact dot_not_mem_firstLabel _ (h0 ▸ h.qualified.1)
  · exact dot_not_mem_firstLabel _ (h0 ▸ h.qualified.2)

/-- A path is made of the report of this host only, unless it names another host by a full name
    that has its first label in common with this one's. -/
theorem local_path_iff (folding : Folding) {host : List Byte} (hhost : slash ∉ host) (path localHost : List Byte) :
    (hostPath folding (host ++ slash :: path) localHost ≠ [] → IsThisHost folding host localHost) ↔
      ¬ SharesLabel folding host localHost := by
  rw [hostPath_ne_nil_iff hhost]
  constructor
  · intro h hs
    exact hs.not_this (h (.inr hs.isLocalHost))
  · rintro hs (rfl | hl)
    · exact .inl rfl
    · by_contra hnot
      obtain ⟨hne, hloop, hdiff, -, -⟩ :
          host ≠ [] ∧ ¬ folding.equalFold host (bytes "localhost") = true ∧
            folding.toLower host ≠ folding.toLower localHost ∧
            folding.toLower host ≠ firstLabel (folding.toLower localHost) ∧
            firstLabel (folding.toLower host) ≠ folding.toLower localHost := by
        simpa only [IsThisHost, not_or] using hnot
      obtain ⟨hlocal, hsame⟩ := (isLocalHost_iff.mp hl).resolve_left hloop
      have hshort := hsame.resolve_left hdiff
      rcases short_eq_cases hshort with h | h | h | ⟨hq, hlabel, hnamed⟩
      · exact hdiff h
      · exact hnot (.inr (.inr (.inr (.inl h))))
      · exact hnot (.inr (.inr (.inr (.inr h))))
      · exact hs ⟨⟨hne, hlocal⟩, Bool.eq_false_iff.mpr hloop, hdiff, hq, hlabel, hnamed⟩

/-- Letters of ASCII only. -/
def asciiFolding : Folding := ⟨fun s t => s.map lower == t.map lower, fun s => s.map lower⟩

theorem local_path_iff_short : hostPath asciiFolding (bytes "Studio/home") (bytes "studio.local") = bytes "/home" ∧
    IsThisHost asciiFolding (bytes "Studio") (bytes "studio.local") := by
  have hhost : slash ∉ bytes "Studio" := by decide +kernel
  have hpath : hostPath asciiFolding (bytes "Studio" ++ slash :: bytes "home") (bytes "studio.local") = bytes "/home" := by
    decide +kernel
  refine ⟨hpath, (local_path_iff asciiFolding hhost (bytes "home") (bytes "studio.local")).mpr ?_ ?_⟩
  · exact fun h => absurd h.qualified.1 (by decide +kernel)
  · rw [hpath]
    decide +kernel

/-- `studio.example` is not `studio.local`. -/
theorem another_host_is_taken_for_this_one :
    hostPath asciiFolding (bytes "studio.example/home") (bytes "studio.local") = bytes "/home" ∧
      ¬ IsThisHost asciiFolding (bytes "studio.example") (bytes "studio.local") := by
  decide +kernel

end Ghostline.Terminal
