/-
  Ghostline.Output.Call — one whole call of `localOutputSource.read`.

  `read` is the source's loop as a function of what its turns meet: a `Look` is the log a
  turn finds under the lock, the one `openFile` finds and the one `ReadAt` finds, with
  what the operating system answers. The looks running out means that the call still
  waits. `call_read` connects it to the machine of the log with a reader: whatever a
  call returns there, `read` returns on the looks the call met.
-/

import Ghostline.Output.Turn

namespace Ghostline.Output

open LocalOutputSource

/-- What one turn of a call meets. -/
structure Look where
  log : OutputLog
  atOpen : OutputLog
  openFail : Option String
  atRead : OutputLog
  readFail : Option (Nat × String)

namespace LocalOutputSource

/-- The end of a turn that found something to deliver. -/
def fetch (r : LocalOutputSource) (k : Look) (len limit : Nat) (size : Size) : LocalOutputSource × Result :=
  match r.openFile k.atOpen k.openFail with
  | (r', some e) => (r', errorResult e)
  | (r', none) => r'.readAt k.atRead len limit size k.readFail

/-- The loop of `read`, for a buffer that is not empty. -/
def readLoop (len : Nat) (sized : Bool) : LocalOutputSource → List Look → Option (LocalOutputSource × Result)
  | _, [] => none
  | r, k :: rest =>
    match r.lockSection k.log sized with
    | (r', .expired) => some (r', errorResult (.sentinel .cursorExpired))
    | (r', .report size) => some (r', ⟨[], size, none⟩)
    | (r', .fetch limit size) => some (r'.fetch k len limit size)
    | (r', .advance) => readLoop len sized r' rest
    | (r', .ended e) => some (r', errorResult e)
    | (r', .wait _) => readLoop len sized r' rest

def read (r : LocalOutputSource) (len : Nat) (sized : Bool) (looks : List Look) : Option (LocalOutputSource × Result) :=
  if len = 0 then some (r, ⟨[], 0, none⟩) else readLoop len sized r looks

end LocalOutputSource

/-! ## Calls of the machine -/

/-- What the call in progress returns if its remaining turns meet `looks`. -/
def Sys.resume (s : Sys) (looks : List Look) : Option (LocalOutputSource × Result) :=
  match s.reader, s.pc with
  | .opened r, .top len sized => readLoop len sized r looks
  | .opened r, .waiting len sized _ => readLoop len sized r looks
  | .opened r, .opening len limit size => looks.head?.map fun k => r.fetch k len limit size
  | .opened r, .reading len limit size => looks.head?.map fun k => r.readAt k.atRead len limit size k.readFail
  | _, _ => none

/-- Steps of anyone that leave the call in progress until one makes it return. Nobody
    closes the reader or cancels its context (`stop`). -/
inductive Sys.Returns : Sys → LocalOutputSource → Result → Prop
  | now {s : Sys} {r' : LocalOutputSource} {c : Cursor} {x : Result} (e : Ev) : (∀ b, e ≠ .stop b) → s.pc ≠ .idle →
      s.step e = some (s.ret r' c x) → Returns s r' x
  | later {s s' : Sys} {r' : LocalOutputSource} {x : Result} (e : Ev) : (∀ b, e ≠ .stop b) → s.pc ≠ .idle →
      s.step e = some s' → s'.pc ≠ .idle → Returns s' r' x → Returns s r' x

/-- The log's own operations leave the call where it is. -/
theorem log_call {s s' : Sys} {e : Ev} (he : s.logStep e = some s') :
    s'.reader = s.reader ∧ s'.pc = s.pc ∧ s'.results = s.results := by
  cases logStep_inv he <;> exact ⟨rfl, rfl, rfl⟩

/-- How a step of a call in progress shows in what the call will return: it returns now,
    or what it returns later is what it would have returned from here. -/
def Sys.Resumes (s s' : Sys) : Prop :=
  (∃ r' c x, s' = s.ret r' c x ∧ ∃ looks, s.resume looks = some (r', x)) ∨
  (s'.pc ≠ .idle ∧ (∃ r', s'.reader = .opened r') ∧
    ∀ looks y, s'.resume looks = some y → ∃ looks', s.resume looks' = some y)

theorem resumes_of_same {s s' : Sys} {r : LocalOutputSource} (hr : s.reader = .opened r) (hp : s.pc ≠ .idle)
    (hr' : s'.reader = s.reader) (hp' : s'.pc = s.pc) : s.Resumes s' := by
  refine .inr ⟨by rw [hp']; exact hp, ⟨r, by rw [hr', hr]⟩, fun looks y hy => ⟨looks, ?_⟩⟩
  unfold Sys.resume at hy ⊢
  rwa [hr', hp'] at hy

/-- A turn, whichever way it ends. -/
theorem turn_resumes {s : Sys} {r : LocalOutputSource} {len : Nat} {sized : Bool} (hr : s.reader = .opened r)
    (hp : s.pc = .top len sized) : s.Resumes (s.turn r len sized) := by
  have hloop : ∀ looks, s.resume looks = readLoop len sized r looks := by
    intro looks
    simp only [Sys.resume, hr, hp]
  unfold Sys.turn
  generalize ht : r.lockSection s.log sized = q
  obtain ⟨r', t⟩ := q
  -- what the turn itself meets; what it meets of the file is up to later steps
  let k : Look := ⟨s.log, s.log, none, s.log, none⟩
  cases t with
  | expired | report size | ended err => exact .inl ⟨_, _, _, rfl, [k], by rw [hloop]; simp [readLoop, k, ht]⟩
  | fetch limit size =>
    refine .inr ⟨by simp, ⟨_, rfl⟩, fun looks y hy => ?_⟩
    simp only [Sys.resume, Option.map_eq_some_iff] at hy
    obtain ⟨k', -, rfl⟩ := hy
    exact ⟨[{ k' with log := s.log }], by rw [hloop]; simp [readLoop, ht, LocalOutputSource.fetch]⟩
  | advance | wait changed =>
    refine .inr ⟨by simp, ⟨_, rfl⟩, fun looks y hy => ⟨k :: looks, ?_⟩⟩
    simp only [Sys.resume] at hy
    rw [hloop]
    simpa [readLoop, k, ht] using hy

theorem step_resumes {s s' : Sys} {e : Ev} {r : LocalOutputSource} (hr : s.reader = .opened r) (hp : s.pc ≠ .idle)
    (hstop : ∀ b, e ≠ .stop b) (he : s.step e = some s') : s.Resumes s' := by
  rcases step_split he with hl | he
  · obtain ⟨h1, h2, -⟩ := log_call hl
    exact resumes_of_same hr hp h1 h2
  · cases readerStep_cases he with
    | resolve hr0 | notPinned hr0 | pinned hr0 => cases hr.symm.trans hr0
    | empty _ hpc | call _ hpc | closeIdle _ hpc => exact absurd hpc hp
    | turn hr0 hpc => exact turn_resumes hr0 hpc
    | notOpened fail hr0 hpc ho =>
      refine .inl ⟨_, _, _, rfl, [⟨s.log, s.log, fail, s.log, none⟩], ?_⟩
      simp [Sys.resume, hr0, hpc, LocalOutputSource.fetch, ho]
    | opened fail hr0 hpc ho =>
      refine .inr ⟨by simp, ⟨_, rfl⟩, fun looks y hy => ?_⟩
      simp only [Sys.resume, Option.map_eq_some_iff] at hy
      obtain ⟨k', -, rfl⟩ := hy
      refine ⟨[{ k' with atOpen := s.log, openFail := fail }], ?_⟩
      simp [Sys.resume, hr0, hpc, LocalOutputSource.fetch, ho]
    | read fail hr0 hpc =>
      refine .inl ⟨_, _, _, rfl, [⟨s.log, s.log, none, s.log, fail⟩], ?_⟩
      simp [Sys.resume, hr0, hpc]
    | wake hpc =>
      refine .inr ⟨by simp, ⟨r, hr⟩, fun looks y hy => ⟨looks, ?_⟩⟩
      simpa only [Sys.resume, hr, hpc] using hy
    | stopClosed | stopCanceled => exact absurd rfl (hstop _)
    | closeBusy | cancel => exact resumes_of_same hr hp rfl rfl

/-- Whatever a call of the machine returns, `read` returns on what the call met. -/
theorem call_read {s : Sys} {r r' : LocalOutputSource} {x : Result} (hr : s.reader = .opened r)
    (h : s.Returns r' x) : ∃ looks, s.resume looks = some (r', x) := by
  induction h generalizing r with
  | now e hstop hp he =>
    rcases step_resumes hr hp hstop he with ⟨r1, c1, x1, heq, hlooks⟩ | ⟨hne, -⟩
    · simp only [Sys.ret, Sys.mk.injEq, Handle.opened.injEq, List.append_cancel_left_eq, List.cons.injEq,
        Returned.mk.injEq, true_and, and_true] at heq
      obtain ⟨rfl, rfl, -⟩ := heq
      exact hlooks
    · exact absurd rfl hne
  | later e hstop hp he hp' _ ih =>
    rcases step_resumes hr hp hstop he with ⟨r1, c1, x1, rfl, -⟩ | ⟨-, ⟨r1, hr1⟩, hback⟩
    · exact absurd rfl hp'
    · obtain ⟨looks, hlooks⟩ := ih hr1
      exact hback looks _ hlooks

end Ghostline.Output
