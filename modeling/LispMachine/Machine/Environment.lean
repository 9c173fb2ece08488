import LispMachine.Machine.Basic

/-! # Environments

A frame on the stack is a run of slots and, above them at the position that names the frame, a
descriptor of three cells: where the slots start, how many there are, and the environment around the
frame. When a frame moves to the heap, the first cell of its descriptor is overwritten with the new
frame, so that every handle of the old one finds it.
-/

namespace LispMachine

/-- What stands at the position of a frame on the stack. -/
inductive Descriptor
  | moved (r : Ref .frame)
  | live (start count : Nat) (parent : Env)
  deriving DecidableEq, Repr

/-- A frame whose slots are on the stack. -/
structure LiveFrame where
  pos : Nat
  start : Nat
  count : Nat
  deriving DecidableEq, Repr

inductive Slots
  | onStack (start count : Nat)
  | onHeap (r : Ref .frame)
  deriving DecidableEq, Repr

namespace Machine

/-- The number that a bookkeeping cell holds. -/
def position? (m : Machine) (i : Nat) : Option Nat :=
  match m.stack[i]? with
  | some (.fixnum n) => if 0 ≤ n then some n.toNat else none
  | _ => none

def descriptor? (m : Machine) (e : Nat) : Option Descriptor :=
  match m.stack[e]? with
  | some (.frame r) => some (.moved r)
  | _ => do
    let start ← m.position? e
    let count ← m.position? (e + 1)
    let parent ← m.stack[e + 2]? >>= Env.ofValue?
    if start + count ≤ e then some (.live start count parent) else none

def descriptor (m : Machine) (e : Nat) : Except Stop Descriptor :=
  orFault .invalidEnvironment (m.descriptor? e)

def resolve (m : Machine) : Env → Except Stop Env
  | .onStack e => do
    match ← m.descriptor e with
    | .moved r => return .onHeap r
    | .live .. => return .onStack e
  | env => .ok env

/-! ## Moving to the heap -/

/-- The live frames of an environment, innermost first, and the handle with which the environment
leaves the stack. At most `n` frames are followed. -/
def liveFrames (m : Machine) : Nat → Env → Except Stop (List LiveFrame × Env)
  | 0, .onStack e => do
    match ← m.descriptor e with
    | .moved r => return ([], .onHeap r)
    | .live .. => .error .unfinished
  | n + 1, .onStack e => do
    match ← m.descriptor e with
    | .moved r => return ([], .onHeap r)
    | .live start count parent =>
      let (frames, base) ← m.liveFrames n parent
      return (⟨e, start, count⟩ :: frames, base)
  | _, env => .ok ([], env)

/-- Moves one frame to the heap. -/
def promoteFrame (f : LiveFrame) (parent : Env) : Exec Env := do
  let slots ← query (·.cells f.start (f.start + f.count))
  let r ← newFrame ⟨slots, parent⟩
  writeCell f.pos (.frame r)
  return .onHeap r

/-- Moves an environment to the heap, from its outermost live frame inward. -/
def promoteEnv (env : Env) : Exec Env := do
  let (frames, base) ← query fun m => m.liveFrames m.capacity env
  frames.foldrM promoteFrame base

def promoteCurrent : Exec Env := do
  let env ← promoteEnv (← get).env
  modify ({ · with env })
  return env

/-! ## Slots -/

/-- The slots of the innermost frame of an environment, and the environment around it. -/
def innermost (m : Machine) : Env → Except Stop (Slots × Env)
  | .empty => .error (.fault .depthExceeded)
  | .onHeap r => do return (.onHeap r, (← m.heap.frame r).parent)
  | .onStack e => do
    match ← m.descriptor e with
    | .moved r => return (.onHeap r, (← m.heap.frame r).parent)
    | .live start count parent => return (.onStack start count, parent)

def slotsAt (m : Machine) (env : Env) : Nat → Except Stop Slots
  | 0 => do return (← m.innermost env).1
  | depth + 1 => do m.slotsAt (← m.innermost env).2 depth

def readHeapSlot (m : Machine) (r : Ref .frame) (index : Nat) : Except Stop Value := do
  let f ← m.heap.frame r
  orFault (.heapSlotIndex index f.slots.size) f.slots[index]?

def readSlot (m : Machine) (depth index : Nat) : Except Stop Value := do
  match ← m.slotsAt m.env depth with
  | .onStack start count =>
    if index < count then m.cell (start + index)
    else .error (.fault (.stackSlotIndex index count))
  | .onHeap r => m.readHeapSlot r index

def writeHeapSlot (r : Ref .frame) (index : Nat) (v : Value) : Exec Unit := do
  let count := (← query (·.heap.frame r)).slots.size
  if index < count then
    modify fun m =>
      { m with heap.frames := m.heap.frames.modify r.index fun f =>
          { f with slots := f.slots.setIfInBounds index v } }
  else raise (.heapSlotIndex index count)

def writeSlot (depth index : Nat) (v : Value) : Exec Unit := do
  match ← query fun m => m.slotsAt m.env depth with
  | .onStack start count =>
    if index < count then writeCell (start + index) v else raise (.stackSlotIndex index count)
  | .onHeap r => writeHeapSlot r index v

end Machine

end LispMachine
