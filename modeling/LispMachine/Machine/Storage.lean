import LispMachine.Machine.Registers

/-! # What instructions need

Instructions, calls and whole runs are defined once for every machine that offers these operations
on its operands, frames and return points.
-/

namespace LispMachine

class Storage (σ : Type) extends HasRegisters σ where
  push : Value → EStateM Stop σ Unit
  pushAll : List Value → EStateM Stop σ Unit
  pop : EStateM Stop σ Value
  top : EStateM Stop σ Value
  /-- Slot `index` of the frame that is `depth` frames out. -/
  readSlot : σ → (depth index : Nat) → Except Stop Value
  writeSlot (depth index : Nat) : Value → EStateM Stop σ Unit
  /-- Builds a frame from the `taken` values on top and `extra` unbound slots. -/
  pushFrame (taken extra : Nat) : EStateM Stop σ Unit
  /-- Leaves the current frame for a call that ends the procedure, with the `n` values on top. -/
  reuseFrame (n : Nat) : EStateM Stop σ Unit
  /-- The current environment, in a form that outlives the activation. -/
  promoteCurrent : EStateM Stop σ Env
  /-- Leaves a return point that goes on `offset` bytes from here. -/
  pushReturnPoint (offset : Int) : EStateM Stop σ Unit
  ret : EStateM Stop σ Unit
  /-- Makes the current continuation an object. -/
  capture : EStateM Stop σ (Ref .continuation)
  /-- Hands the one argument to a continuation. -/
  enterContinuation : Ref .continuation → EStateM Stop σ Unit
  /-- Begins a call from the host and gives its number. -/
  beginCall : EStateM Stop σ Nat
  /-- What has to be known of the operands when a call ends. -/
  mark : σ → Nat
  /-- Ends a host call, which goes back to where it was begun. -/
  endCall (outermost : Bool) (id ip argc mark : Nat) : Except Fault Unit → EStateM Stop σ Value

end LispMachine
