/-! # Values

Numbers, names and texts are values in themselves. Everything that can be shared or changed lives on
the heap and is named by a reference; frames and continuations that are still on the stack are named
by their position there.
-/

namespace LispMachine

inductive Kind
  | pair | vector | closure | procedure | frame | continuation
  deriving DecidableEq, Repr

/-- The name of a heap object. Two references are equal exactly if they name the same object. -/
structure Ref (kind : Kind) where
  index : Nat
  deriving DecidableEq, Repr

/-- A fixnum is an integer of 64 bits with a sign. `unbound` fills slots that were never set. The
last two are links that the machine writes into its own stack. -/
inductive Value
  | nil
  | t
  | unbound
  | fixnum (n : Int)
  | flonum (x : Float)
  | symbol (name : String)
  | string (text : String)
  | vector (r : Ref .vector)
  | pair (r : Ref .pair)
  | closure (r : Ref .closure)
  | procedure (r : Ref .procedure)
  | continuation (r : Ref .continuation)
  | frame (r : Ref .frame)
  | stackFrame (pos : Nat)
  | stackReturn (pos : Nat)
  deriving DecidableEq, Inhabited

namespace Value

def truth (b : Bool) : Value := if b then t else nil

/-- The value that a name stands for: `t` and `nil` are constants, any other name is a symbol. -/
def ofName (name : String) : Value :=
  if name = "t" then t else if name = "nil" then nil else symbol name

def isNil : Value → Bool
  | nil => true
  | _ => false

def isUnbound : Value → Bool
  | unbound => true
  | _ => false

def typeName : Value → String
  | nil | t | symbol _ => "sym"
  | unbound => "unbound"
  | fixnum _ => "fixnum"
  | flonum _ => "flonum"
  | string _ => "string"
  | vector _ => "vector"
  | pair _ => "cons"
  | closure _ => "closure"
  | procedure _ => "fn"
  | continuation _ => "continuation"
  | frame _ => "environment"
  | stackFrame _ | stackReturn _ => "frame"

/-- Floats compare as numbers, so a NaN differs from itself and the two zeros agree. All else is the
same only as itself; a number is never the same as one of the other kind. -/
def same : Value → Value → Bool
  | flonum x, flonum y => x == y
  | v, w => v = w

end Value

/-- A handle of an environment: none, a frame on the stack, or a frame on the heap. -/
inductive Env
  | empty
  | onStack (pos : Nat)
  | onHeap (r : Ref .frame)
  deriving DecidableEq, Repr, Inhabited

/-- A handle of a continuation: nothing left to do, a return point on the stack, or a continuation
on the heap. -/
inductive Cont
  | empty
  | onStack (pos : Nat)
  | onHeap (r : Ref .continuation)
  deriving DecidableEq, Repr, Inhabited

def Env.toValue : Env → Value
  | empty => .nil
  | onStack pos => .stackFrame pos
  | onHeap r => .frame r

def Env.ofValue? : Value → Option Env
  | .nil => some empty
  | .stackFrame pos => some (onStack pos)
  | .frame r => some (onHeap r)
  | _ => none

def Cont.toValue : Cont → Value
  | empty => .nil
  | onStack pos => .stackReturn pos
  | onHeap r => .continuation r

def Cont.ofValue? : Value → Option Cont
  | .nil => some empty
  | .stackReturn pos => some (onStack pos)
  | .continuation r => some (onHeap r)
  | _ => none

@[simp] theorem Env.ofValue?_toValue (env : Env) : ofValue? env.toValue = some env := by
  cases env <;> rfl

@[simp] theorem Cont.ofValue?_toValue (cont : Cont) : ofValue? cont.toValue = some cont := by
  cases cont <;> rfl

end LispMachine
