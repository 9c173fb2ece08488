import LispMachine.Machine.Environment

/-! # Continuations

A return point on the stack is named by the position above its four cells: where to go on in the
code, the first cell of the caller's activation, its environment and its own continuation. The
caller's pending values lie between its first cell and those four. A continuation on the heap holds
the same, with the pending values copied.
-/

namespace LispMachine

structure ReturnPoint where
  ip : Nat
  bp : Nat
  env : Env
  prev : Cont
  deriving DecidableEq, Repr

def Continuation.halting : Continuation :=
  { saved := #[], prev := .empty, env := .empty, resume := .halt, owner := none }

/-- The continuation that ends the host call `id`. -/
def Continuation.marker (id : Nat) (prev : Cont) (env : Env) : Continuation :=
  { saved := #[], prev, env, resume := .host id, owner := some id }

namespace Machine

def returnPoint (m : Machine) (c : Nat) : Except Stop ReturnPoint :=
  if c < 4 ∨ m.sp < c then .error (.fault .invalidContinuation)
  else do
    let ip ← orFault .invalidContinuation (m.position? (c - 4))
    let bp ← orFault .invalidContinuation (m.position? (c - 3))
    let env ← orFault .invalidContinuation (Env.ofValue? (← m.cell (c - 2)))
    let prev ← orFault .invalidContinuation (Cont.ofValue? (← m.cell (c - 1)))
    if c < bp + 4 then .error (.fault .invalidContinuation) else return { ip, bp, env, prev }

/-- The return points of a continuation with their positions, innermost first, and the handle with
which it leaves the stack. At most `n` return points are followed. -/
def returnPoints (m : Machine) : Nat → Cont → Except Stop (List (Nat × ReturnPoint) × Cont)
  | 0, .onStack c => do
    let _ ← m.returnPoint c
    .error .unfinished
  | n + 1, .onStack c => do
    let p ← m.returnPoint c
    let (points, base) ← m.returnPoints n p.prev
    return ((c, p) :: points, base)
  | _, cont => .ok ([], cont)

def ownerOf (m : Machine) : Cont → Except Stop (Option Nat)
  | .onHeap r => do return (← m.heap.continuation r).owner
  | _ => .ok none

def newCodeContinuation (saved : Array Value) (prev : Cont) (env : Env) (ip : Nat) :
    Exec (Ref .continuation) := do
  let owner ← query (·.ownerOf prev)
  newContinuation { saved, prev, env, resume := .code ip, owner }

def promoteReturnPoint (point : Nat × ReturnPoint) (prev : Cont) : Exec Cont := do
  let (c, p) := point
  let env ← promoteEnv p.env
  let base ← query fun _ => distance c 4
  let saved ← query (·.cells p.bp base)
  return .onHeap (← newCodeContinuation saved prev env p.ip)

/-- Moves a continuation to the heap, from its outermost return point inward. -/
def promoteCont (cont : Cont) : Exec Cont := do
  let (points, base) ← query fun m => m.returnPoints m.capacity cont
  points.foldrM promoteReturnPoint base

def capture : Exec (Ref .continuation) := do
  let r ← match ← promoteCont (← get).cont with
    | .onHeap r => pure r
    | .empty => newContinuation .halting
    | .onStack _ => raise .invalidContinuation
  modify ({ · with cont := .onHeap r })
  return r

end Machine

end LispMachine
