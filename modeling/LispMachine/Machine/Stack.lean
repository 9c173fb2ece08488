import LispMachine.Machine.Continuation

/-! # The stack

When the stack is full, everything that the registers name moves to the heap. What is still needed
then is the current activation, and it slides down to the first cell.
-/

namespace LispMachine.Machine

/-- Makes room by moving frames and return points to the heap. It is no fault to gain nothing. -/
def reclaim : Exec Unit := do
  let top := match (← get).cont with
    | .onStack c => c
    | _ => 0
  let env ← promoteEnv (← get).env
  modify ({ · with env })
  let cont ← promoteCont (← get).cont
  modify ({ · with cont })
  match env, cont with
  | .onStack _, _ | _, .onStack _ => raise .invalidContinuation
  | _, _ =>
    let sp := (← get).sp
    let base := min (max (← get).bp top) sp
    if base ≠ 0 then
      slideCells 0 base (sp - base)
      modify fun m => { m with sp := sp - base, bp := min (m.bp - base) (sp - base) }

/-- Sees to it that `n` more cells fit, or ends with `overflow`. -/
def makeRoom (n : Nat) (overflow : Fault) : Exec Unit := do
  let m ← get
  if m.capacity < m.sp + n then
    reclaim
    let m ← get
    if m.capacity < m.sp + n then raise overflow

def push (v : Value) : Exec Unit := do
  makeRoom 1 .stackOverflow
  let sp := (← get).sp
  writeCell sp v
  modify ({ · with sp := sp + 1 })

def pushAll (vs : List Value) : Exec Unit := vs.forM push

/-- Takes the top value off and empties its cell. -/
def pop : Exec Value := do
  match (← get).sp with
  | 0 => raise .stackUnderflow
  | sp + 1 =>
    let v ← query (·.cell sp)
    writeCell sp .nil
    modify ({ · with sp })
    return v

def top : Exec Value := do
  match (← get).sp with
  | 0 => raise .stackUnderflow
  | sp + 1 => query (·.cell sp)

end LispMachine.Machine
