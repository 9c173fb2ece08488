import LispMachine.Number.Arithmetic
import LispMachine.Procedure.Script

/-! # The standard procedures

Control, arithmetic on any number of arguments, and lists.
-/

namespace LispMachine.Standard

open Script

/-- Combines the items from the left. -/
def fold (op : Value → Value → Except Fault Value) (start : Value) (items : List Value) :
    Script Value :=
  ofExcept (items.foldlM op start)

def callWithContinuation : Script Outcome := do
  let receiver ← argument 0
  let k ← request .capture
  return .tailCall receiver [k]

/-- Calls the first argument with the others, of which the last is a list of further ones. -/
def apply : Script Outcome := do
  let callee ← argument 0
  let args ← items (← argument 1)
  let spread ← match args.getLast? with
    | some last => items last
    | none => pure []
  return .tailCall callee (args.dropLast ++ spread)

def map : Script Outcome := do
  let f ← argument 0
  let results ← (← items (← argument 1)).mapM fun item => call f [item]
  return .value (← list results)

def sum : Script Outcome := do
  return .value (← fold Value.add (.fixnum 0) (← items (← argument 0)))

def product : Script Outcome := do
  return .value (← fold Value.mul (.fixnum 1) (← items (← argument 0)))

def difference : Script Outcome := do
  let first ← argument 0
  match ← items (← argument 1) with
  | [] => return .value (← ofExcept first.negate)
  | rest => return .value (← fold Value.sub first rest)

def quotient : Script Outcome := do
  let first ← argument 0
  match ← items (← argument 1) with
  | [] => return .value (← ofExcept (Value.div (.fixnum 1) first))
  | rest => return .value (← fold Value.div first rest)

def procedures : List Procedure :=
  [ .mk "ccc" (.fixed 1) callWithContinuation,
    .mk "+" (.atLeast 0) sum,
    .mk "-" (.atLeast 1) difference,
    .mk "*" (.atLeast 0) product,
    .mk "/" (.atLeast 1) quotient,
    .mk "list" (.atLeast 0) (do return .value (← argument 0)),
    .mk "car" (.fixed 1) (do return .value (← request (.car (← argument 0)))),
    .mk "cdr" (.fixed 1) (do return .value (← request (.cdr (← argument 0)))),
    .mk "cons" (.fixed 2) (do return .value (← request (.pair (← argument 0) (← argument 1)))),
    .mk "is" (.fixed 2) (do return .value (.truth ((← argument 0).same (← argument 1)))),
    .mk "apply" (.atLeast 1) apply,
    .mk "map" (.fixed 2) map ]

end LispMachine.Standard
