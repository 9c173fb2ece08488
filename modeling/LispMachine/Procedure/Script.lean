import LispMachine.Value
import LispMachine.Fault

/-! # Procedures of the host

The body of a host procedure is a script: it asks the machine for what it needs, one request after
the other, and sees the fault if a request failed. A script is plain data, so a machine can be
reasoned about together with every procedure that may be installed in it.
-/

namespace LispMachine

/-- The parameters of a procedure. Extra slots hold what the procedure keeps for itself; a variadic
procedure gets the arguments beyond the optional ones as a list. -/
structure Arity where
  required : Nat
  optional : Nat := 0
  extra : Nat := 0
  variadic : Bool := false
  deriving DecidableEq, Repr

namespace Arity

def fixed (required : Nat) : Arity := { required }

def atLeast (required : Nat) : Arity := { required, variadic := true }

def slots (a : Arity) : Nat := a.required + a.optional + a.extra + a.variadic.toNat

/-- A frame with this many slots is too large for its bytes to be counted. -/
def slotLimit : Nat := 0x800000000000000

end Arity

/-- How a procedure ends: with a value, or by calling another procedure in its place. -/
inductive Outcome
  | value (v : Value)
  | tailCall (callee : Value) (args : List Value)
  deriving DecidableEq

inductive Request
  /-- Slot `index` of the frame that is `depth` frames out. The procedure's own frame is at depth
  0. -/
  | slot (depth index : Nat)
  | setSlot (depth index : Nat) (v : Value)
  /-- The value of a global name, if it is bound. -/
  | global (name : String)
  | define (name : String) (v : Value)
  /-- The result of calling a procedure, waited for. -/
  | call (callee : Value) (args : List Value)
  /-- The continuation of the procedure. -/
  | capture
  /-- The items of a proper list. -/
  | items (list : Value)
  | car (v : Value)
  | cdr (v : Value)
  | setCar (cell v : Value)
  | setCdr (cell v : Value)
  /-- A new pair. -/
  | pair (car cdr : Value)
  /-- What a vector holds. -/
  | elements (r : Ref .vector)
  | setElements (r : Ref .vector) (items : List Value)
  /-- A new vector. -/
  | vector (items : List Value)
  deriving DecidableEq

abbrev Request.Reply : Request → Type
  | items _ | elements _ => List Value
  | global _ => Option Value
  | setSlot .. | define .. | setCar .. | setCdr .. | setElements .. => Unit
  | _ => Value

inductive Script (α : Type) : Type
  | done (a : α)
  | fail (f : Fault)
  | ask (q : Request) (next : Except Fault q.Reply → Script α)

namespace Script

variable {α β : Type}

protected def bind : Script α → (α → Script β) → Script β
  | done a, f => f a
  | fail e, _ => fail e
  | ask q next, f => ask q fun r => (next r).bind f

instance : Monad Script where
  pure := done
  bind := Script.bind

def ofExcept : Except Fault α → Script α
  | .ok a => done a
  | .error f => fail f

/-- Asks and fails if the request does. -/
def request (q : Request) : Script q.Reply := ask q ofExcept

/-- Asks and hands back the fault if there is one. -/
def attempt (q : Request) : Script (Except Fault q.Reply) := ask q done

def argument (index : Nat) : Script Value := request (.slot 0 index)

def call (callee : Value) (args : List Value) : Script Value := request (.call callee args)

def items (list : Value) : Script (List Value) := request (.items list)

def list (items : List Value) : Script Value :=
  items.foldrM (fun item rest => request (.pair item rest)) .nil

end Script

/-- A procedure of the host, whose frames are not too large. -/
structure Procedure where
  name : String
  arity : Arity
  body : Script Outcome
  slots_lt : arity.slots < Arity.slotLimit := by decide

end LispMachine
