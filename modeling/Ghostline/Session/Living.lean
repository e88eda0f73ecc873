/-
  Ghostline.Session.Living — a session nobody terminates or deletes.

  `survives` rules out calls of `Terminate` and `Delete`. Then the emulator is never
  freed, and the output log keeps its record (`Living`).
-/

import Ghostline.Session.State

namespace Ghostline.Session

open Lib Output

variable {st : Store} {s s' : Sys} {e : Ev}

/-- Calls of `Terminate` and `Delete`, which free the emulator. -/
def Op.ends : Op → Bool
  | .terminate | .delete => true
  | _ => false

def Pc.ends : Pc → Bool
  | .start op | .entered op => op.ends
  | .removing | .termGate _ | .terminating _ | .discarding => true
  | _ => false

def survives (_ : Sys) : Ev → Bool
  | .call op => !op.ends
  | _ => true

theorem OpMove.ends {pc : Pc} {x : OpEv} {o : Sys.Out} (h : OpMove s pc x o) (hp : pc.ends = false) : o.pc.ends = false := by
  cases h with
  | enter _ => exact hp
  | @check op => cases op <;> simp only [Sys.out, Sys.enter] <;> (repeat' split) <;> first | rfl | exact hp
  | remove | take _ | close | discard => cases hp
  | resize h => cases h <;> rfl
  | _ => rfl

theorem keeps_act (hk : Keeps st.log st.wrote) (act : Act) : Keeps (st.act act).log (st.act act).wrote := by
  have hclose : Keeps (st.log.close none) st.wrote := hk.close (by simp)
  cases act with
  | append chunk w => exact hk.append chunk w _
  | rotate fail => exact hk.rotate fail
  | prune before order rm => exact hk.pruned (prune_spec st.log before order rm)
  | markSize size => exact hk.markSize size
  | closeLog | close => exact hclose
  | discard =>
    exact ⟨hclose.index, hclose.active, hclose.future, hclose.content, hclose.exact, by simp [Store.act], hclose.bound,
      hclose.notEof⟩
  | _ => exact hk

theorem vt_closed_act {act : Act} (h : act ≠ .close) : (st.act act).vt.closed = st.vt.closed := by
  cases act with
  | feed chunk => simp only [Store.act, Vt.feed]; split <;> rfl
  | resizeVt size =>
    simp only [Store.act, Vt.resize]
    repeat' split
    all_goals rfl
  | close => exact absurd rfl h
  | _ => rfl

/-- The log is not opened again. -/
theorem closed_act {act : Act} (h : (st.act act).log.closed = false) : st.log.closed = false := by
  by_contra hc
  have hc : st.log.closed = true := by simpa using hc
  cases act <;> simp_all [Store.act, append_closed, close_closed, rotate_closed, prune_closed, markSize_closed]

theorem loopAct_ne_close (l : Loop) (w : OutputLog.Write) : Sys.loopAct l w ≠ .close := by
  cases l <;> simp [Sys.loopAct]

theorem OpMove.ne_close {pc : Pc} {x : OpEv} {o : Sys.Out} (h : OpMove s pc x o) (hp : pc.ends = false) :
    o.act ≠ .close := by
  cases h with
  | close => cases hp
  | resize h => cases h <;> simp [Sys.out]
  | _ => simp [Sys.out]

structure Living (s : Sys) : Prop where
  keeps : Keeps s.store.log s.store.wrote
  alive : s.store.vt.closed = false
  stays : ∀ pc ∈ s.ops, pc.ends = false

theorem Living.step (h : s.step e = some s') (hok : survives s e = true) (hi : Living s) : Living s' := by
  cases step_move h with
  | loop _ _ => exact ⟨keeps_act hi.keeps _, (vt_closed_act (loopAct_ne_close _ _)).trans hi.alive, hi.stays⟩
  | @op i x pc o hp hm =>
    have hpc := hi.stays pc (List.mem_of_getElem? hp)
    refine ⟨keeps_act hi.keeps _, (vt_closed_act (hm.ne_close hpc)).trans hi.alive, fun q hq => ?_⟩
    rcases List.mem_or_eq_of_mem_set hq with hq | rfl
    · exact hi.stays q hq
    · exact hm.ends hpc
  | call =>
    refine ⟨hi.keeps, hi.alive, fun q hq => ?_⟩
    rcases List.mem_append.mp hq with hq | hq
    · exact hi.stays q hq
    · rw [List.mem_singleton.mp hq]
      simpa [survives, Pc.ends] using hok
  | _ => exact ⟨hi.keeps, hi.alive, hi.stays⟩

/-- The log a session begins with was opened by this process. -/
theorem keeps_begun {files : Nat → List Byte} {linked : Nat → Bool} {generation : Nat} {log : OutputLog}
    (hg : generation < 2 ^ 64)
    (h : OutputLog.adoptOutputLog files linked generation = .ok log ∨ OutputLog.createOutputLog = .ok log) :
    Keeps log (adopted log) := by
  rcases h with h | h
  · unfold OutputLog.adoptOutputLog at h
    split at h
    · cases h
    · exact keeps_open hg h
  · exact keeps_open (by decide) h

theorem Living.init (h : machine.init s) : Living s := by
  rcases h with ⟨lib, log, size, hlog, -, rfl⟩ | ⟨lib, _, _, _, log, vt, alive, hg, hlog, -, hv, rfl⟩
  · have hk : Keeps log (adopted log) := keeps_open (by decide) hlog
    exact ⟨hk.markSize size, rfl, by simp [startState]⟩
  · have hk := keeps_begun hg hlog
    refine ⟨?_, hv, by simp [adoptStateWithTerminal]⟩
    cases alive
    · exact hk.close (by simp)
    · exact hk.markSize vt.grid

end Ghostline.Session
