import LispMachine.Machine.Cells
import LispMachine.Machine.Registers
import LispMachine.Procedure.Standard

/-! # The machine

A machine whose operands, frames and return points are cells of a bounded stack.
-/

namespace LispMachine

structure Program where
  code : Code
  literals : Array Value := #[]
  entry : Nat := 0

/-- The cells below `sp` are in use, those from `bp` on belong to the current activation. -/
structure Machine extends Registers where
  stack : Array Value
  sp : Nat := 0
  bp : Nat := 0

instance : HasRegisters Machine where
  registers := Machine.toRegisters
  withRegisters m r := { m with toRegisters := r }

abbrev Exec := EStateM Stop Machine

namespace Machine

def capacity (m : Machine) : Nat := m.stack.size

/-! ## Cells -/

def cell (m : Machine) (i : Nat) : Except Stop Value := present m.stack[i]?

def cells (m : Machine) (lo hi : Nat) : Except Stop (Array Value) :=
  if lo ≤ hi ∧ hi ≤ m.capacity then .ok (m.stack.extract lo hi) else .error .stuck

def writeCell (i : Nat) (v : Value) : Exec Unit := fun m =>
  if i < m.capacity then .ok () { m with stack := m.stack.setIfInBounds i v } else .error .stuck m

/-- Empties the cells from `lo` up to `hi`, which must exist. -/
def clearCells (lo hi : Nat) : Exec Unit := fun m =>
  if lo ≤ hi ∧ hi ≤ m.capacity then
    .ok () { m with stack := Cells.clear m.stack lo (hi - lo) }
  else .error .stuck m

/-- Moves `n` cells, which must exist, from `source` down to `target`. -/
def slideCells (target source n : Nat) : Exec Unit := fun m =>
  if target ≤ source ∧ source + n ≤ m.capacity then
    .ok () { m with stack := Cells.slide m.stack target source n }
  else .error .stuck m

/-! ## Setting up -/

/-- Binds the names of the standard procedures to new objects. -/
def installStandard : Exec Unit :=
  Standard.procedures.forM fun p => do define p.name (.procedure (← newProcedure p))

def new (capacity : Nat) : Machine := { stack := Array.replicate capacity .nil }

/-- Installs a program and resets all but the globals and the heap. -/
def load (p : Program) : Exec Unit := modify fun m =>
  { stack := Array.replicate m.capacity .nil
    ip := p.entry
    current := p.entry
    code := p.code
    literals := p.literals
    globals := m.globals
    heap := m.heap }

/-- The value in cell `i`, if the cell is in use. -/
def inUse? (m : Machine) (i : Nat) : Option Value := if i < m.sp then m.stack[i]? else none

end Machine

end LispMachine
