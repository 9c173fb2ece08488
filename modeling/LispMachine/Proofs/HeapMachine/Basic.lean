import LispMachine.Machine.Run

/-! # A machine without a stack

The registers, but no cells: every frame is an object on the heap, the continuation is a chain of
such objects, and the operands of the current activation are an array of their own. Nothing is ever
moved and nothing overflows. Instructions, calls and runs are those of every machine. Along the way
it is counted how many cells a stack would have to have.

The machine is stuck where a program asks for too much: an operand that its activation does not
have, leaving a frame that a younger continuation still needs, or pushing anything after a frame was
left and before the next one is entered.
-/

namespace LispMachine

/-! ## What is counted -/

/-- What a continuation starts from: the frames that there are already, and the cells that may lie
between the base of its activation and the operands that it saves. -/
structure Birth where
  frames : Nat
  base : Nat

/-- What a program has asked of a stack. At most `base` cells lie between the base of the current
activation and its operands, and a collection gives all but `slack` of them back. No stack with less
than `least` cells will do, and `enough` cells will always do. -/
structure Demand where
  base : Nat := 0
  slack : Nat := 0
  least : Nat := 0
  enough : Nat := 0

namespace Demand

def raise (d : Demand) (least enough : Nat) : Demand :=
  { d with least := max d.least least, enough := max d.enough enough }

/-- There have to be `n` operands at once. -/
def ask (d : Demand) (n : Nat) : Demand := d.raise n (d.slack + n)

/-- A return point was left, which takes up `n` cells with the operands below it. As long as it is
pending, a collection moves all of them. -/
def nest (d : Demand) (n : Nat) : Demand := { d with base := d.base + n, slack := 0 }

/-- The pending continuation was put on the heap, while all that is below the operands stays. -/
def expose (d : Demand) : Demand := { d with slack := d.base }

/-- The first `n` operands were dropped, but may stay where they are. -/
def bury (d : Demand) (n : Nat) : Demand := { d with base := d.base + n, slack := d.slack + n }

/-- The base is set so that there is at most this much between it and the operands. -/
def rebase (d : Demand) (base : Nat) : Demand := { d with base, slack := base }

end Demand

/-! ## The machine -/

/-- The last operand is the top one. `leaving` holds from leaving a frame until the next one is
entered, and `born` tells of each continuation what it started from. -/
structure HeapMachine extends Registers where
  operands : Array Value := #[]
  leaving : Bool := false
  born : Array Birth := #[]
  demand : Demand := {}

instance : HasRegisters HeapMachine where
  registers := HeapMachine.toRegisters
  withRegisters r registers := { r with toRegisters := registers }

abbrev HeapExec := EStateM Stop HeapMachine

namespace HeapMachine

open Machine

/-! ## Operands -/

def push (v : Value) : HeapExec Unit := fun r =>
  if r.leaving then .error .stuck r
  else .ok () { r with operands := r.operands.push v, demand := r.demand.ask (r.operands.size + 1) }

def pushAll (vs : List Value) : HeapExec Unit := vs.forM push

def pop : HeapExec Value := fun r =>
  match r.operands.back? with
  | some v => .ok v { r with operands := r.operands.pop }
  | none => .error .stuck r

def top : HeapExec Value := query fun r => present r.operands.back?

def lastOperands (r : HeapMachine) (n : Nat) : Array Value :=
  r.operands.extract (r.operands.size - n) r.operands.size

/-! ## Frames -/

/-- Builds a frame from the last `taken` operands and `extra` unbound slots. All other operands are
dropped. -/
def pushFrame (taken extra : Nat) : HeapExec Unit := fun r =>
  if r.operands.size < taken then .error .stuck r
  else
    let slots := r.lastOperands taken ++ Array.replicate extra .unbound
    let (f, heap) := r.heap.addFrame ⟨slots, r.env⟩
    .ok () { r with
      operands := #[], leaving := false, demand := r.demand.rebase 0, env := .onHeap f, heap }

def frameAt (h : Heap) : Env → Nat → Except Stop (Ref .frame × Frame)
  | .empty, _ => .error (.fault .depthExceeded)
  | .onHeap f, 0 => do return (f, ← h.frame f)
  | .onHeap f, depth + 1 => do frameAt h (← h.frame f).parent depth
  | .onStack _, _ => .error .stuck

def readSlot (r : HeapMachine) (depth index : Nat) : Except Stop Value := do
  let (_, f) ← frameAt r.heap r.env depth
  orFault (.heapSlotIndex index f.slots.size) f.slots[index]?

def writeSlot (depth index : Nat) (v : Value) : HeapExec Unit := do
  let (f, frame) ← query fun r => frameAt r.heap r.env depth
  if index < frame.slots.size then
    modify fun r =>
      { r with heap.frames := r.heap.frames.modify f.index fun frame =>
          { frame with slots := frame.slots.setIfInBounds index v } }
  else raise (.heapSlotIndex index frame.slots.size)

/-- A continuation is pending that was made after frame `f`. The innermost one is the youngest of
those that are pending. -/
def isNeeded (r : HeapMachine) (f : Ref .frame) : Bool :=
  match r.cont with
  | .onHeap k => f.index < (r.born[k.index]?).elim 0 Birth.frames
  | _ => false

def leaveFor (env : Env) (n : Nat) (r : HeapMachine) : HeapMachine :=
  { r with
    operands := r.lastOperands n
    leaving := true
    demand := r.demand.bury (r.operands.size - n)
    env }

def reuseFrame (n : Nat) : HeapExec Unit := do
  let r ← get
  if r.operands.size < n then throw .stuck
  else match r.env with
    | .empty => modify (leaveFor .empty n)
    | .onHeap f =>
      if r.isNeeded f then throw .stuck
      else do
        let frame ← query (·.heap.frame f)
        modify (leaveFor frame.parent n)
    | .onStack _ => throw .stuck

/-! ## Continuations -/

def newContinuation (k : Continuation) (born : Birth) : HeapExec (Ref .continuation) :=
  modifyGet fun r =>
    let (k, heap) := r.heap.addContinuation k
    (k, { r with heap, born := r.born.push born })

def ownerOf (h : Heap) : Cont → Except Stop (Option Nat)
  | .onHeap k => do return (← h.continuation k).owner
  | .empty => .ok none
  | .onStack _ => .error .stuck

def pushReturnPoint (offset : Int) : HeapExec Unit := do
  let target ← query (·.relative offset)
  let r ← get
  if r.leaving then throw .stuck
  else do
    let owner ← query fun r => ownerOf r.heap r.cont
    let k ← newContinuation
      { saved := r.operands, prev := r.cont, env := r.env, resume := .code target, owner }
      ⟨r.heap.frames.size, r.demand.base⟩
    let cells := r.operands.size + 4
    modify ({ · with
      operands := #[], demand := (r.demand.ask cells).nest cells, cont := .onHeap k })

/-- The demand when `saved` operands of a continuation come back, to lie above the current ones. If
a frame was left, these may be gone already. What lay below the saved operands may come back too. -/
def restoring (r : HeapMachine) (k : Ref .continuation) (saved : Nat) : Demand :=
  let base := (r.born[k.index]?).elim 0 Birth.base
  let operands := if r.leaving then 0 else r.operands.size
  let most := r.demand.slack + r.operands.size + (saved + base)
  (r.demand.raise (operands + saved) most).rebase base

def resume (k : Ref .continuation) : HeapExec Unit := do
  let c ← query (·.heap.continuation k)
  match c.resume with
  | .halt => halt
  | .host id =>
    if id ∈ (← get).hosts.active then
      modify fun r => { r with env := c.env, cont := c.prev, hosts.returned := some id }
    else raise .invalidContinuation
  | .code ip =>
    modify fun r => { r with
      operands := c.saved
      leaving := false
      demand := r.restoring k c.saved.size
      ip
      env := c.env
      cont := c.prev }

def ret : HeapExec Unit := do
  match (← get).cont with
  | .empty => halt
  | .onHeap k => resume k
  | .onStack _ => throw .stuck

/-- The current continuation is an object already, unless there is none. -/
def capture : HeapExec (Ref .continuation) := do
  modify fun r => { r with demand := r.demand.expose }
  match (← get).cont with
  | .onHeap k => return k
  | .empty =>
    let k ← newContinuation .halting ⟨0, 0⟩
    modify ({ · with cont := .onHeap k })
    return k
  | .onStack _ => throw .stuck

def enterContinuation (k : Ref .continuation) : HeapExec Unit := do
  checkArgc 1 1
  setAcc (← pop)
  let owner := (← query (·.heap.continuation k)).owner
  modify fun r => { r with
    demand := r.demand.expose, hosts := r.hosts.noteEntry owner, cont := .onHeap k }
  ret

/-! ## Host calls -/

/-- Nothing has to move before a host call. -/
def beginCall : HeapExec Nat := do
  let r ← get
  let k ← newContinuation (.marker r.hosts.next r.cont r.env) ⟨r.heap.frames.size, 0⟩
  modify fun r => { r with
    demand := r.demand.expose, cont := .onHeap k, hosts := r.hosts.enter }
  return r.hosts.next

def endCall (outermost : Bool) (id ip argc _mark : Nat) (outcome : Except Fault Unit) :
    HeapExec Value := do
  modify fun r => { r with hosts := r.hosts.leave id }
  match outcome with
  | .ok () =>
    modify fun r => { r with
      ip, argc, operands := #[], leaving := false, demand := r.demand.rebase 0 }
    return (← get).acc
  | .error f =>
    if outermost then
      if f = .unwound ∧ !(← get).runnable then
        modify ({ · with hosts.returned := none })
        return (← get).acc
      else stopWith f
    else raise f

/-! ## Setting up -/

/-- A machine with a program, in front of a heap and global names. -/
def load (p : Program) (heap : Heap) (globals : Std.TreeMap String Value) : HeapMachine :=
  { ip := p.entry
    current := p.entry
    code := p.code
    literals := p.literals
    globals
    heap
    born := Array.replicate heap.continuations.size ⟨0, 0⟩ }

end HeapMachine

instance : Storage HeapMachine where
  push := HeapMachine.push
  pushAll := HeapMachine.pushAll
  pop := HeapMachine.pop
  top := HeapMachine.top
  readSlot := HeapMachine.readSlot
  writeSlot := HeapMachine.writeSlot
  pushFrame := HeapMachine.pushFrame
  reuseFrame := HeapMachine.reuseFrame
  promoteCurrent := do return (← get).env
  pushReturnPoint := HeapMachine.pushReturnPoint
  ret := HeapMachine.ret
  capture := HeapMachine.capture
  enterContinuation := HeapMachine.enterContinuation
  beginCall := HeapMachine.beginCall
  mark _ := 0
  endCall := HeapMachine.endCall

end LispMachine
