/-
  Ghostline.Session.Environment — the environment of the child (process.go:
  `ptyEnvironment`, `mergeTermDefault`, `nonEmptyEnv`, `mergeEnvironment`; util.go:
  `validateEnvironment`).

  An entry `KEY=value` has a key if something is before its first `=`. The merge keeps a map
  from keys to positions and sets or appends one override after the other; that is `upserts`
  (`mergeEnvironment_eq`). It is made a second time for TERM if none is set or it is empty.

  `child_environment` says what the result maps each key to and where the entries are.
  `none` is an index out of range, which would be a panic.
-/

import Ghostline.Lib.Keyed
import Ghostline.Lib.Search
import Ghostline.Text

namespace Ghostline.Session

open Lib Lib.Keyed

abbrev Entry := List Byte

def equals : Byte := 0x3d

def term : List Byte := utf8 "TERM"

def builtinTerm : List Byte := utf8 "xterm-256color"

/-- The error names the first entry that is not valid. -/
def validateEnvironment (environment : List Entry) : Except Entry Unit :=
  match environment.find? fun entry => (index [equals] entry).all (· = 0) || (index [0] entry).isSome with
  | some entry => .error entry
  | none => .ok ()

/-- `entry[:separator]`, if there is a separator and it is not the first byte. -/
def key (entry : Entry) : Option (List Byte) :=
  match index [equals] entry with
  | none | some 0 => none
  | some separator => some (entry.take separator)

/-- The positions of the keys. -/
def indices : List Entry → Nat → (List Byte → Option Nat) → (List Byte → Option Nat)
  | [], _, m => m
  | entry :: rest, i, m =>
    indices rest (i + 1) (match key entry with | some k => Function.update m k (some i) | none => m)

/-- The loop over the overrides. -/
def mergeOverrides : List Entry → (List Byte → Option Nat) → List Entry → Option (List Entry)
  | base, _, [] => some base
  | base, m, entry :: rest =>
    match Lib.index [equals] entry with
    | none => none
    | some separator =>
      let key := entry.take separator
      match m key with
      | some i => if i < base.length then mergeOverrides (base.set i entry) m rest else none
      | none => mergeOverrides (base ++ [entry]) (Function.update m key (some base.length)) rest

def mergeEnvironment (base overrides : List Entry) : Option (List Entry) :=
  if overrides.length = 0 then some base else mergeOverrides base (indices base 0 fun _ => none) overrides

def nonEmptyEnv (env : List Entry) (key : List Byte) : Bool :=
  let start := key ++ [equals]
  env.any fun entry => start.length < entry.length && start.isPrefixOf entry

def mergeTermDefault (env : List Entry) (defaultTerm : List Byte) : Option (List Entry) :=
  if nonEmptyEnv env term then some env
  else
    let defaultTerm := if defaultTerm = [] then builtinTerm else defaultTerm
    mergeEnvironment env [utf8 "TERM=" ++ defaultTerm]

/-- `base` is what `os.Environ` returns. -/
def ptyEnvironment (base overrides : List Entry) (defaultTerm : List Byte) : Option (List Entry) := do
  mergeTermDefault (← mergeEnvironment base overrides) defaultTerm

/-! ## Keys -/

/-- What an environment has for a key. -/
def value (k : List Byte) (env : List Entry) : Option (List Byte) :=
  (lookup key k env).map fun entry => entry.drop (k.length + 1)

theorem key_eq_some_iff {entry : Entry} {k : List Byte} :
    key entry = some k ↔ ∃ v, entry = k ++ equals :: v ∧ equals ∉ k ∧ k ≠ [] := by
  constructor
  · intro h
    unfold key at h
    split at h
    · cases h
    · cases h
    · rename_i i hne hi
      obtain rfl := Option.some.inj h
      obtain ⟨hnot, hcut⟩ := index_singleton_some hi
      refine ⟨_, hcut, hnot, ?_⟩
      intro hnil
      rcases List.take_eq_nil_iff.mp hnil with rfl | rfl
      · exact hne rfl
      · simp at hcut
  · rintro ⟨v, rfl, hnot, hne⟩
    unfold key
    rw [index_singleton_append hnot]
    have hlen : k.length ≠ 0 := fun h => hne (List.length_eq_zero_iff.mp h)
    split
    · rename_i h
      cases h
    · rename_i h
      exact absurd (Option.some.inj h) hlen
    · rename_i h
      rw [← Option.some.inj h, List.take_left]

/-- The separator of an entry with a key is behind its key. -/
theorem index_of_key {entry : Entry} {k : List Byte} (h : key entry = some k) :
    index [equals] entry = some k.length ∧ entry.take k.length = k := by
  obtain ⟨v, rfl, hnot, -⟩ := key_eq_some_iff.mp h
  exact ⟨index_singleton_append hnot v, List.take_left⟩

theorem key_ne_none_of_valid {overrides : List Entry} (h : validateEnvironment overrides = .ok ()) :
    ∀ entry ∈ overrides, key entry ≠ none := by
  intro entry hmem hkey
  unfold validateEnvironment at h
  split at h
  · cases h
  · rename_i hnone
    have hvalid := List.find?_eq_none.mp hnone entry hmem
    unfold key at hkey
    split at hkey
    · rename_i hi
      simp [hi] at hvalid
    · rename_i hi
      simp [hi] at hvalid
    · cases hkey

/-! ## The merge -/

theorem indices_indexed (rest : List Entry) : ∀ (before : List Entry) (m : List Byte → Option Nat), Indexed key m before →
    ((before ++ rest).filterMap key).Nodup → Indexed key (indices rest before.length m) (before ++ rest) := by
  induction rest with
  | nil =>
    intro before m h _
    rw [List.append_nil]
    exact h
  | cons entry rest ih =>
    intro before m h hnodup
    have hsplit : before ++ entry :: rest = before ++ [entry] ++ rest := by simp
    have hlen : (before ++ [entry]).length = before.length + 1 := by simp
    rw [hsplit] at hnodup ⊢
    unfold indices
    rw [← hlen]
    cases hkey : key entry with
    | none => exact ih _ m (h.skip hkey) hnodup
    | some k =>
      refine ih _ _ (h.append hkey ?_) hnodup
      -- The key is not there yet, or it would be there twice.
      cases hm : m k with
      | none => rfl
      | some i =>
        obtain ⟨a, ha, hka⟩ := (h k i).mp hm
        have hmem : k ∈ before.filterMap key := List.mem_filterMap.mpr ⟨a, List.mem_of_getElem? ha, hka⟩
        rw [List.append_assoc, List.filterMap_append, List.singleton_append, List.filterMap_cons_some hkey] at hnodup
        exact absurd rfl ((List.nodup_append.mp hnodup).2.2 k hmem k List.mem_cons_self)

/-- The merge upserts, and keeps each key once. -/
theorem mergeOverrides_eq (overrides : List Entry) : ∀ (base : List Entry) (m : List Byte → Option Nat),
    Indexed key m base → (∀ entry ∈ overrides, key entry ≠ none) →
    mergeOverrides base m overrides = some (upserts key base overrides) ∧
      ((upserts key base overrides).filterMap key).Nodup := by
  induction overrides with
  | nil => exact fun base m h _ => ⟨rfl, h.nodup⟩
  | cons entry rest ih =>
    intro base m h hkeys
    obtain ⟨hentry, hrest⟩ := List.forall_mem_cons.mp hkeys
    obtain ⟨k, hk⟩ := Option.ne_none_iff_exists'.mp hentry
    obtain ⟨hi, htake⟩ := index_of_key hk
    have hstep : upserts key base (entry :: rest) = upserts key (upsert key entry base) rest := rfl
    simp only [mergeOverrides, hi, htake, hstep]
    cases hm : m k with
    | none =>
      rw [h.upsert_append hk hm]
      exact ih _ _ (h.append hk hm) hrest
    | some i =>
      obtain ⟨a, ha, -⟩ := (h k i).mp hm
      simp only [(List.getElem?_eq_some_iff.mp ha).1, if_true]
      rw [h.upsert_set hk hm]
      exact ih _ _ (h.set hk hm) hrest

theorem mergeEnvironment_eq {base overrides : List Entry} (hbase : (base.filterMap key).Nodup)
    (hkeys : ∀ entry ∈ overrides, key entry ≠ none) :
    mergeEnvironment base overrides = some (upserts key base overrides) ∧
      ((upserts key base overrides).filterMap key).Nodup := by
  unfold mergeEnvironment
  split
  · rename_i hnil
    obtain rfl := List.length_eq_zero_iff.mp hnil
    exact ⟨rfl, hbase⟩
  · exact mergeOverrides_eq overrides base _ (indices_indexed base [] _ indexed_nil hbase) hkeys

theorem value_upserts (k : List Byte) (base overrides : List Entry) (hkeys : ∀ entry ∈ overrides, key entry ≠ none) :
    value k (upserts key base overrides) = (value k overrides.reverse).or (value k base) := by
  unfold value
  rw [lookup_upserts k base overrides hkeys]
  cases lookup key k overrides.reverse <;> rfl

/-! ## TERM -/

/-- What TERM is to be, for what is set. -/
def termFor (set : Option (List Byte)) (defaultTerm : List Byte) : List Byte :=
  match set with
  | some (b :: v) => b :: v
  | _ => if defaultTerm = [] then builtinTerm else defaultTerm

theorem key_append {k : List Byte} (hk : equals ∉ k) (hne : k ≠ []) (v : List Byte) : key (k ++ equals :: v) = some k :=
  key_eq_some_iff.mpr ⟨v, rfl, hk, hne⟩

/-- With each key once, the scan for a prefix finds the key's value. -/
theorem nonEmptyEnv_iff {env : List Entry} {k : List Byte} (hk : equals ∉ k) (hne : k ≠ [])
    (henv : (env.filterMap key).Nodup) : nonEmptyEnv env k = true ↔ ∃ b v, value k env = some (b :: v) := by
  unfold nonEmptyEnv
  rw [List.any_eq_true]
  constructor
  · rintro ⟨entry, hmem, hentry⟩
    obtain ⟨hlen, hstart⟩ := Bool.and_eq_true_iff.mp hentry
    obtain ⟨v, rfl⟩ := List.isPrefixOf_iff_prefix.mp hstart
    have hkey : key (k ++ [equals] ++ v) = some k := by
      rw [List.append_assoc]
      exact key_append hk hne v
    cases v with
    | nil => simp at hlen
    | cons b v =>
      refine ⟨b, v, ?_⟩
      unfold value
      rw [lookup_of_mem henv hmem hkey]
      simp
  · rintro ⟨b, v, hv⟩
    unfold value at hv
    obtain ⟨entry, hfound, hdrop⟩ := Option.map_eq_some_iff.mp hv
    have hmem := List.mem_of_find?_eq_some hfound
    have hkey : key entry = some k := by simpa using List.find?_some hfound
    obtain ⟨v', rfl, -, -⟩ := key_eq_some_iff.mp hkey
    have hv' : v' = b :: v := by
      rw [← hdrop]
      simp
    refine ⟨_, hmem, Bool.and_eq_true_iff.mpr ⟨?_, List.isPrefixOf_iff_prefix.mpr ⟨v', by simp⟩⟩⟩
    simp [hv']

theorem termFor_unset {set : Option (List Byte)} (h : ∀ b v, set ≠ some (b :: v)) (defaultTerm : List Byte) :
    termFor set defaultTerm = if defaultTerm = [] then builtinTerm else defaultTerm := by
  unfold termFor
  split
  · exact absurd rfl (h _ _)
  · rfl

/-- The second merge is one more override, or none. -/
theorem mergeTermDefault_eq {base overrides : List Entry} (defaultTerm : List Byte)
    (hkeys : ∀ entry ∈ overrides, key entry ≠ none) (henv : ((upserts key base overrides).filterMap key).Nodup) :
    ∃ more : List Entry, (∀ entry ∈ more, key entry = some term) ∧
      mergeTermDefault (upserts key base overrides) defaultTerm = some (upserts key base (overrides ++ more)) ∧
      ((upserts key base (overrides ++ more)).filterMap key).Nodup ∧
      value term (upserts key base (overrides ++ more)) =
        some (termFor ((value term overrides.reverse).or (value term base)) defaultTerm) := by
  have hterm : equals ∉ term := by decide
  have hne : term ≠ [] := by decide
  have hset := value_upserts term base overrides hkeys
  have hscan := nonEmptyEnv_iff hterm hne henv
  unfold mergeTermDefault
  by_cases h : nonEmptyEnv (upserts key base overrides) term = true
  · obtain ⟨b, v, hv⟩ := hscan.mp h
    refine ⟨[], fun _ hmem => absurd hmem List.not_mem_nil, ?_⟩
    rw [List.append_nil, if_pos h, ← hset, hv]
    exact ⟨rfl, henv, rfl⟩
  · generalize hd : (if defaultTerm = [] then builtinTerm else defaultTerm) = d
    have hkey : key (utf8 "TERM=" ++ d) = some term := key_append hterm hne d
    have hmore : ∀ entry ∈ [utf8 "TERM=" ++ d], key entry = some term := by simpa using hkey
    have hmore' : ∀ entry ∈ [utf8 "TERM=" ++ d], key entry ≠ none := by simp [hkey]
    have happend : upserts key base (overrides ++ [utf8 "TERM=" ++ d]) =
        upserts key (upserts key base overrides) [utf8 "TERM=" ++ d] := List.foldl_append
    have hvalue : value term [utf8 "TERM=" ++ d] = some d := by
      unfold value lookup
      rw [List.find?_cons_of_pos (by simpa using hkey)]
      rfl
    obtain ⟨hmerge, hnodup⟩ := mergeEnvironment_eq henv hmore'
    refine ⟨_, hmore, ?_⟩
    rw [if_neg h, happend, ← hset, value_upserts term _ _ hmore', List.reverse_singleton, hvalue, Option.some_or,
      termFor_unset (fun b v hv => h (hscan.mpr ⟨b, v, hv⟩)), hd]
    exact ⟨hmerge, hnodup, rfl⟩

/-! ## The child's environment -/

theorem value_append_other {k k' : List Byte} {more : List Entry} (h : ∀ entry ∈ more, key entry = some k) (hk : k' ≠ k)
    (env : List Entry) : value k' (more ++ env) = value k' env := by
  have hnone : more.find? (fun entry => key entry = some k') = none := by
    refine List.find?_eq_none.mpr fun entry hmem => ?_
    rw [h entry hmem, decide_eq_true_eq, Option.some.injEq]
    exact hk.symm
  unfold value lookup
  rw [List.find?_append, hnone, Option.none_or]

/-- Each key is there once, with its last override or else what the base has for it; TERM is
    never empty; and the entries of the base are in their places, those without a key unchanged. -/
theorem child_environment {base overrides : List Entry} (defaultTerm : List Byte) (hbase : (base.filterMap key).Nodup)
    (hvalid : validateEnvironment overrides = .ok ()) :
    ∃ env, ptyEnvironment base overrides defaultTerm = some env ∧ (env.filterMap key).Nodup ∧
      (∀ k, k ≠ term → value k env = (value k overrides.reverse).or (value k base)) ∧
      value term env = some (termFor ((value term overrides.reverse).or (value term base)) defaultTerm) ∧
      Extends key base env := by
  have hkeys := key_ne_none_of_valid hvalid
  obtain ⟨hmerge, henv⟩ := mergeEnvironment_eq hbase hkeys
  obtain ⟨more, hmore, hterm, hnodup, hvalue⟩ := mergeTermDefault_eq defaultTerm hkeys henv
  have hall : ∀ entry ∈ overrides ++ more, key entry ≠ none := by
    intro entry hmem
    rcases List.mem_append.mp hmem with hmem | hmem
    · exact hkeys entry hmem
    · rw [hmore entry hmem]
      exact Option.some_ne_none _
  refine ⟨_, ?_, hnodup, ?_, hvalue, extends_upserts base _ hall⟩
  · unfold ptyEnvironment
    rw [hmerge]
    exact hterm
  · intro k hk
    have hmore' : ∀ entry ∈ more.reverse, key entry = some term := fun entry hmem => hmore entry (List.mem_reverse.mp hmem)
    rw [value_upserts k base _ hall, List.reverse_append, value_append_other hmore' hk]

/-- A base with an entry without a key and an empty TERM, and a key that is overridden twice. -/
def inherited : List Entry := [utf8 "A=1", utf8 "=x", utf8 "TERM="]
def repeated : List Entry := [utf8 "B=2", utf8 "A=3", utf8 "B=4"]

theorem child_environment_repeated :
    ∃ env, ptyEnvironment inherited repeated [] = some env ∧ value (utf8 "A") env = some (utf8 "3") ∧
      value (utf8 "B") env = some (utf8 "4") ∧ value term env = some builtinTerm := by
  have hbase : (inherited.filterMap key).Nodup := by decide
  have hvalid : validateEnvironment repeated = .ok () := rfl
  obtain ⟨env, h, -, hvalue, hterm, -⟩ := child_environment [] hbase hvalid
  refine ⟨env, h, ?_, ?_, hterm⟩
  · rw [hvalue _ (by decide)]
    rfl
  · rw [hvalue _ (by decide)]
    rfl

end Ghostline.Session
