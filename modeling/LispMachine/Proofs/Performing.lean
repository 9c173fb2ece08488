import LispMachine.Instruction.Item
import LispMachine.Machine.Run

/-! # Performing instructions

The machine fetches the operands of an instruction while it executes it. That is the same as to
fetch the operands first and then to do what the instruction says.
-/

namespace LispMachine

namespace Opcode

/-- The opcode may set the instruction pointer. -/
def isControl : Opcode → Bool
  | jump | jumpTrue | jumpFalse | jumpBound | ret | apply => true
  | _ => false

def isJump : Opcode → Bool
  | jump | jumpTrue | jumpFalse | jumpBound => true
  | _ => false

/-- The target of the instruction matters when the accumulator is `acc`. -/
def usesTarget (op : Opcode) (acc : Value) : Bool :=
  match op with
  | jumpTrue => !acc.isNil
  | jumpFalse => acc.isNil
  | jumpBound => !acc.isUnbound
  | op => op.isRelative

end Opcode

namespace Machine

variable {apply : Exec Unit}

def fetchOperand : Layout → Exec Operand
  | .none => pure .none
  | .word => do return .word (← fetchWord)
  | .byte => do return .byte (← fetchByte)
  | .pair => do
    let a ← fetchByte
    return .pair a (← fetchByte)
  | .triple => do
    let a ← fetchByte
    let b ← fetchByte
    return .triple a b (← fetchByte)

/-- Goes on `offset` bytes from here if the accumulator is as wanted. -/
def branch (wanted : Value → Bool) (offset : Int) : Exec Unit := do
  if wanted (← get).acc then setIp (← query (·.relative offset))

def performWord (n : Int) : Opcode → Exec Unit
  | .loadLiteral => do setAcc (← query (·.literal n))
  | .loadInteger => setAcc (.fixnum n)
  | .loadGlobal => do
    let name ← query (·.literalName n)
    setAcc (← query fun m => orFault (.unboundSymbol name) (m.global? name))
  | .storeGlobal => do
    let name ← query (·.literalName n)
    modify fun m => { m with globals := m.globals.insert name m.acc }
  | .closure => do
    let entry ← query (·.relative n)
    let env ← promoteCurrent
    setAcc (.closure (← newClosure { env, entry }))
  | .returnPoint => pushReturnPoint n
  | op => branch op.usesTarget n

def performByte (apply : Exec Unit) (n : Nat) : Opcode → Exec Unit
  | .apply => do
    setArgc n
    apply
  | .reuseFrame => reuseFrame n
  | .loadLocal => do setAcc (← query (·.readSlot 0 n))
  | _ => do writeSlot 0 n (← get).acc

def performPair (depth index : Nat) : Opcode → Exec Unit
  | .loadOuter => do setAcc (← query (·.readSlot depth index))
  | _ => do writeSlot depth index (← get).acc

/-- Does what an instruction with these operands says. Its bytes have been fetched. -/
def perform (apply : Exec Unit) (i : Instruction) : Exec Unit :=
  match i.operand with
  | .none => execute apply i.op
  | .word n => performWord n i.op
  | .byte a => performByte apply a.toNat i.op
  | .pair a b => performPair a.toNat b.toNat i.op
  | .triple a b c =>
    enterFrame
      { required := a.toNat, extra := b.toNat, optional := c.toNat, variadic := i.op == .frameRest }

/-- Executing an opcode fetches its operand first. Where the operand stands does not matter. -/
theorem execute_eq (pos : Nat) (op : Opcode) :
    execute apply op = fetchOperand op.layout >>= fun operand =>
      perform apply ⟨pos, op, operand⟩ := by
  cases op with
  | jump | jumpTrue | jumpFalse | jumpBound =>
    simp only [execute, jumpIf, Opcode.layout, Opcode.encoding, fetchOperand, perform,
      performWord, branch, bind_assoc, pure_bind]
    rfl
  | loadInteger | apply =>
    simp only [execute, Opcode.layout, Opcode.encoding, fetchOperand, fetchNat, perform,
      performWord, performByte, bind_assoc, pure_bind]
  | loadLiteral | loadGlobal | storeGlobal | closure | reuseFrame | loadLocal | storeLocal
  | loadOuter | storeOuter | returnPoint | frame | frameRest =>
    simp only [execute, Opcode.layout, Opcode.encoding, fetchOperand, fetchNat, perform,
      performWord, performByte, performPair, bind_assoc, pure_bind]
    rfl
  | _ => simp only [execute, Opcode.layout, Opcode.encoding, fetchOperand, perform, pure_bind]

variable {op : Opcode}

theorem execute_word (h : op.layout = .word) :
    execute apply op = fetchWord >>= fun n => performWord n op := by
  rw [execute_eq 0 op, h]
  simp only [fetchOperand, perform, bind_assoc, pure_bind]

theorem execute_byte (h : op.layout = .byte) :
    execute apply op = fetchByte >>= fun a => performByte apply a.toNat op := by
  rw [execute_eq 0 op, h]
  simp only [fetchOperand, perform, bind_assoc, pure_bind]

theorem execute_pair (h : op.layout = .pair) :
    execute apply op = (do
      let a ← fetchByte
      let b ← fetchByte
      performPair a.toNat b.toNat op) := by
  rw [execute_eq 0 op, h]
  simp only [fetchOperand, perform, bind_assoc, pure_bind]

theorem execute_triple (h : op.layout = .triple) :
    execute apply op = (do
      let a ← fetchByte
      let b ← fetchByte
      let c ← fetchByte
      enterFrame
        { required := a.toNat, extra := b.toNat, optional := c.toNat
          variadic := op == .frameRest }) := by
  rw [execute_eq 0 op, h]
  simp only [fetchOperand, perform, bind_assoc, pure_bind]

end Machine

end LispMachine
