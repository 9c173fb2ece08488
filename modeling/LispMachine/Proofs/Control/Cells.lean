import LispMachine.Proofs.Control.Protocol

/-! # The stack keeps its size

Whatever the machine does, and however it ends, its stack has as many cells as before.
-/

namespace LispMachine.Machine

variable {α : Type}

def SameCapacity (m m' : Machine) : Prop := m'.capacity = m.capacity

instance : ControlBlind SameCapacity where
  refl _ := rfl
  trans _ _ _ h h' := h'.trans h
  cells _ _ h := h
  frame _ _ := rfl
  continuation _ _ := rfl
  registers _ _ _ _ _ := rfl
  work h := h.capacity
  control _ h := h

theorem preserves_enterContinuation {R : Machine → Machine → Prop} [ControlBlind R]
    (r : Ref .continuation) : Preserves R (enterContinuation r) := by
  rw [enterContinuation_eq]
  exact (preserves_handOver r).bind fun _ => preserves_ret

instance : StoragePreserves SameCapacity where
  registers _ _ := rfl
  push v := (maintains_push v).toPreserves
  pushAll vs := (maintains_pushAll vs).toPreserves
  pop := maintains_pop.toPreserves
  top := maintains_top.toPreserves
  writeSlot depth index v := (maintains_writeSlot depth index v).toPreserves
  pushFrame taken extra := (maintains_pushFrame taken extra).toPreserves
  reuseFrame n := (maintains_reuseFrame n).toPreserves
  promoteCurrent := maintains_promoteCurrent.toPreserves
  pushReturnPoint offset := (maintains_pushReturnPoint offset).toPreserves
  ret := preserves_ret
  capture := maintains_capture.toPreserves
  enterContinuation := preserves_enterContinuation
  beginCall := preserves_beginCall
  endCall := preserves_endCall

abbrev KeepsCells (x : Exec α) : Prop := Preserves SameCapacity x

end LispMachine.Machine
