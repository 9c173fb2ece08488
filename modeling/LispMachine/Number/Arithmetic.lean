import LispMachine.Value
import LispMachine.Fault

/-! # Arithmetic

Two fixnums give a fixnum: the exact result, brought back into 64 bits. A float on either side makes
the operation inexact.
-/

namespace LispMachine

/-- The integer of 64 bits with a sign that agrees with `n` modulo `2 ^ 64`. -/
def wrap (n : Int) : Int := Int.bmod n 0x10000000000000000

theorem wrap_eq_self {n : Int} (lo : -0x8000000000000000 ≤ n) (hi : n < 0x8000000000000000) :
    wrap n = n :=
  Int.bmod_eq_of_le (by omega) (by omega)

def inexact (n : Int) : Float := (Int64.ofInt n).toFloat

/-- Two numbers of one kind. -/
inductive Operands
  | exact (a b : Int)
  | inexact (x y : Float)

namespace Value

/-- The operands of the arithmetic operation called `name`; of two that are no numbers the left one
is to blame. -/
def operands (name : String) : Value → Value → Except Fault Operands
  | fixnum a, fixnum b => .ok (.exact a b)
  | fixnum a, flonum y => .ok (.inexact (inexact a) y)
  | flonum x, fixnum b => .ok (.inexact x (inexact b))
  | flonum x, flonum y => .ok (.inexact x y)
  | fixnum _, v | flonum _, v => .error (.typeError name v.typeName)
  | v, _ => .error (.typeError name v.typeName)

def add (a b : Value) : Except Fault Value := do
  match ← operands "add" a b with
  | .exact m n => return fixnum (wrap (m + n))
  | .inexact x y => return flonum (x + y)

def negate : Value → Except Fault Value
  | fixnum n => .ok (fixnum (wrap (-n)))
  | flonum x => .ok (flonum (-x))
  | v => .error (.typeError "negate" v.typeName)

def sub (a b : Value) : Except Fault Value := do a.add (← b.negate)

def mul (a b : Value) : Except Fault Value := do
  match ← operands "multiply" a b with
  | .exact m n => return fixnum (wrap (m * n))
  | .inexact x y => return flonum (x * y)

/-- The quotient of two fixnums is cut off toward zero. -/
def div (a b : Value) : Except Fault Value := do
  match ← operands "divide" a b with
  | .exact m n => if n = 0 then .error .divisionByZero else return fixnum (wrap (m.tdiv n))
  | .inexact x y => return flonum (x / y)

end Value

end LispMachine
