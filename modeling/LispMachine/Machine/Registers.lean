import LispMachine.Heap.Lists
import LispMachine.Instruction.Item
import LispMachine.Machine.HostCalls
import LispMachine.Number.Arithmetic
import Std.Data.TreeMap

/-! # Registers

A machine has registers, a loaded program, global names and a heap, whatever it keeps its operands,
frames and return points in. Operations on the registers are the same for every kind of machine.
They keep the effects that they had before a fault.
-/

namespace LispMachine

/-- The instruction that was begun last is the one at `current`. -/
structure Registers where
  ip : Nat := 0
  current : Nat := 0
  acc : Value := .nil
  argc : Nat := 0
  env : Env := .empty
  cont : Cont := .empty
  runnable : Bool := true
  hosts : HostCalls := {}
  code : Code := #[]
  literals : Array Value := #[]
  globals : Std.TreeMap String Value := ∅
  heap : Heap := {}

class HasRegisters (σ : Type) where
  registers : σ → Registers
  withRegisters : σ → Registers → σ

namespace Registers

def global? (r : Registers) (name : String) : Option Value := r.globals[name]?

def globalNames (r : Registers) : List String := r.globals.keys

def literal (r : Registers) (index : Int) : Except Stop Value :=
  orFault (.badLiteral index) (if index < 0 then none else r.literals[index.toNat]?)

/-- The global name that a literal stands for. -/
def literalName (r : Registers) (index : Int) : Except Stop String := do
  match ← r.literal index with
  | .symbol name => return name
  | v => .error (.fault (.typeError "use as a global name" v.typeName))

/-- The position that lies `offset` bytes from here. It is reckoned in words of 64 bits with a sign,
and one below zero does not exist. -/
def relative (r : Registers) (offset : Int) : Except Stop Nat :=
  let target := wrap (r.ip + offset)
  if target < 0 then .error (.fault (.invalidJump r.ip offset)) else .ok target.toNat

end Registers

namespace Machine

variable {σ α : Type}

def raise (f : Fault) : EStateM Stop σ α := throw (.fault f)

def query (f : σ → Except Stop α) : EStateM Stop σ α := fun s =>
  match f s with
  | .ok a => .ok a s
  | .error e => .error e s

/-- Goes on after a fault, handing it back. -/
def attempt (x : EStateM Stop σ α) : EStateM Stop σ (Except Fault α) := fun s =>
  match x s with
  | .ok a s => .ok (.ok a) s
  | .error (.fault f) s => .ok (.error f) s
  | .error e s => .error e s

/-- The difference of two positions, of which the second must not lie above the first. -/
def distance (hi lo : Nat) : Except Stop Nat :=
  if lo ≤ hi then .ok (hi - lo) else .error .stuck

variable [HasRegisters σ]

open HasRegisters

def adjust (f : Registers → Registers) : EStateM Stop σ Unit :=
  modify fun s => withRegisters s (f (registers s))

def halt : EStateM Stop σ Unit := adjust ({ · with runnable := false })

def setAcc (v : Value) : EStateM Stop σ Unit := adjust ({ · with acc := v })

def setArgc (n : Nat) : EStateM Stop σ Unit := adjust ({ · with argc := n })

def setIp (ip : Nat) : EStateM Stop σ Unit := adjust ({ · with ip })

def checkArgc (least most : Nat) : EStateM Stop σ Unit := do
  let argc := (registers (← get)).argc
  if argc < least then raise (.tooFewArguments least argc)
  else if most < argc then raise (.tooManyArguments most argc)

def stopWith (f : Fault) : EStateM Stop σ α := do
  adjust fun r => { r with runnable := false, hosts.escape := none }
  raise f

/-! ## Objects -/

def allocate (add : Heap → α × Heap) : EStateM Stop σ α := modifyGet fun s =>
  let (a, heap) := add (registers s).heap
  (a, withRegisters s { registers s with heap })

def newPair (p : Pair) : EStateM Stop σ (Ref .pair) := allocate (·.addPair p)

def newVector (items : List Value) : EStateM Stop σ (Ref .vector) := allocate (·.addVector items)

def newClosure (c : Closure) : EStateM Stop σ (Ref .closure) := allocate (·.addClosure c)

def newProcedure (p : Procedure) : EStateM Stop σ (Ref .procedure) := allocate (·.addProcedure p)

def newFrame (f : Frame) : EStateM Stop σ (Ref .frame) := allocate (·.addFrame f)

def newContinuation (k : Continuation) : EStateM Stop σ (Ref .continuation) :=
  allocate (·.addContinuation k)

def cons (car cdr : Value) : EStateM Stop σ Value := do return .pair (← newPair ⟨car, cdr⟩)

def setCar (cell v : Value) : EStateM Stop σ Unit := do
  match cell with
  | .pair p =>
    let _ ← query fun s : σ => (registers s).heap.pair p
    adjust fun r => { r with heap := r.heap.setCar p v }
  | other => raise (.typeError "set car of" other.typeName)

def setCdr (cell v : Value) : EStateM Stop σ Unit := do
  match cell with
  | .pair p =>
    let _ ← query fun s : σ => (registers s).heap.pair p
    adjust fun r => { r with heap := r.heap.setCdr p v }
  | other => raise (.typeError "set cdr of" other.typeName)

def setVector (r : Ref .vector) (items : List Value) : EStateM Stop σ Unit := do
  let _ ← query fun s : σ => (registers s).heap.vector r
  adjust fun regs => { regs with heap := regs.heap.setVector r items }

def chain (items : List Value) (tail : Value) : EStateM Stop σ Value :=
  allocate (·.chain items tail)

/-- A new chain of the items of `list` that ends in `tail`. -/
def splice (list tail : Value) : EStateM Stop σ Value := do
  chain (← query fun s => (registers s).heap.items list) tail

/-- Binds a global name. The names of constants cannot be bound. -/
def define (name : String) (v : Value) : EStateM Stop σ Unit :=
  match Value.ofName name with
  | .symbol s => adjust fun r => { r with globals := r.globals.insert s v }
  | _ => pure ()

end Machine

end LispMachine
