import LispMachine.Text.Digits

/-! # Faults

What can go wrong in the machine, and how it is put into words.
-/

namespace LispMachine

inductive Fault
  | invalidInstruction (opcode : UInt8) (ip : Nat)
  | codeOverrun (ip : Nat)
  | invalidJump (ip : Nat) (offset : Int)
  | tooFewArguments (required passed : Nat)
  | tooManyArguments (allowed passed : Nat)
  | depthExceeded
  | stackSlotIndex (index count : Nat)
  | heapSlotIndex (index count : Nat)
  | invalidEnvironment
  | invalidContinuation
  | stackOverflow
  | continuationOverflow
  | stackUnderflow
  | typeError (operation typeName : String)
  | wrongArgumentType (operation expected typeName : String)
  | divisionByZero
  | indexOutOfRange (index : Int)
  | badLiteral (index : Int)
  | unboundSymbol (name : String)
  | notRunnable
  /-- A host call ends because an outer loop goes on in its place. -/
  | unwound
  deriving DecidableEq, Repr

def Fault.message : Fault → String
  | invalidInstruction opcode ip =>
    "invalid instruction 0x" ++ Text.hex 2 opcode.toNat ++ " at IP=" ++ Text.hex 8 ip
  | codeOverrun ip => "code overrun at IP=" ++ Text.hex 8 ip
  | invalidJump ip offset => "invalid jump from IP=" ++ Text.hex 8 ip ++ " by " ++ toString offset
  | tooFewArguments required passed =>
    s!"too few arguments, at least {required} required, {passed} passed"
  | tooManyArguments allowed passed =>
    s!"too many arguments, at most {allowed} allowed, {passed} passed"
  | depthExceeded => "environment depth exceeded"
  | stackSlotIndex _ _ => "stack environment index exceeded"
  | heapSlotIndex _ _ => "heap environment index exceeded"
  | invalidEnvironment => "invalid environment"
  | invalidContinuation => "invalid continuation"
  | stackOverflow => "stack overflow"
  | continuationOverflow => "stack overflow while creating continuation"
  | stackUnderflow => "stack underflow"
  | typeError operation typeName => s!"Can't {operation} {typeName}"
  | wrongArgumentType operation expected typeName =>
    s!"Wrong argument type, {operation} expected a {expected}, got {typeName}"
  | divisionByZero => "division by zero"
  | indexOutOfRange index => s!"index {index} too large for list"
  | badLiteral index => s!"literal index {index} out of range"
  | unboundSymbol name => s!"Unbound symbol {name}"
  | notRunnable => "machine is not runnable"
  | unwound => "unwound to an outer dispatch loop"

/-- Why an operation ends without a result. A fault is part of the machine's behaviour. The other
two are not: `unfinished` means that the allotted number of steps was too small or that a walk would
never end, `stuck` that a cell, object, frame or difference was asked for that cannot be. -/
inductive Stop
  | fault (f : Fault)
  | unfinished
  | stuck
  deriving DecidableEq, Repr

def present {α : Type} : Option α → Except Stop α
  | some a => .ok a
  | none => .error .stuck

/-- The value, or the fault that stands for its absence. -/
def orFault {α : Type} (f : Fault) : Option α → Except Stop α
  | some a => .ok a
  | none => .error (.fault f)

end LispMachine
