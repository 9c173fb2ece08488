/-! # The instruction set

Every instruction is one opcode byte followed by its operands. A byte outside the table is no
instruction.
-/

namespace LispMachine

/-- What follows the opcode byte. A pair is a frame depth and a slot, a triple the required, extra
and optional slots of a frame. -/
inductive Layout
  | none | word | byte | pair | triple
  deriving DecidableEq, Repr

def Layout.width : Layout → Nat
  | .none => 0
  | .word => 4
  | .byte => 1
  | .pair => 2
  | .triple => 3

inductive Opcode
  | nop | push | pop | ret | not | loadTrue | loadNil | halt
  | add | sub | mul | div
  | cons | car | cdr | setCar | setCdr | same | dup | consReversed | partCar | partCdr | splice
  | loadLiteral | loadInteger | loadGlobal | storeGlobal
  | apply | closure | jump | jumpTrue | jumpFalse | jumpBound
  | reuseFrame | loadLocal | storeLocal | loadOuter | storeOuter
  | returnPoint | frame | frameRest
  deriving DecidableEq, Repr

namespace Opcode

structure Encoding where
  byte : UInt8
  mnemonic : String
  layout : Layout := .none

def encoding : Opcode → Encoding
  | nop => ⟨0x00, "nop", .none⟩
  | push => ⟨0x01, "push", .none⟩
  | pop => ⟨0x02, "pop", .none⟩
  | ret => ⟨0x0d, "ret", .none⟩
  | not => ⟨0x11, "no", .none⟩
  | loadTrue => ⟨0x12, "true", .none⟩
  | loadNil => ⟨0x13, "nil", .none⟩
  | halt => ⟨0x14, "hlt", .none⟩
  | add => ⟨0x15, "add", .none⟩
  | sub => ⟨0x16, "sub", .none⟩
  | mul => ⟨0x17, "mul", .none⟩
  | div => ⟨0x18, "div", .none⟩
  | cons => ⟨0x19, "cons", .none⟩
  | car => ⟨0x1a, "car", .none⟩
  | cdr => ⟨0x1b, "cdr", .none⟩
  | setCar => ⟨0x1c, "scar", .none⟩
  | setCdr => ⟨0x1d, "scdr", .none⟩
  | same => ⟨0x1f, "is", .none⟩
  | dup => ⟨0x22, "dup", .none⟩
  | consReversed => ⟨0x24, "consr", .none⟩
  | partCar => ⟨0x26, "dcar", .none⟩
  | partCdr => ⟨0x27, "dcdr", .none⟩
  | splice => ⟨0x28, "spl", .none⟩
  | loadLiteral => ⟨0x43, "ldl", .word⟩
  | loadInteger => ⟨0x44, "ldi", .word⟩
  | loadGlobal => ⟨0x45, "ldg", .word⟩
  | storeGlobal => ⟨0x46, "stg", .word⟩
  | apply => ⟨0x4c, "apply", .byte⟩
  | closure => ⟨0x4d, "cls", .word⟩
  | jump => ⟨0x4e, "jmp", .word⟩
  | jumpTrue => ⟨0x4f, "jt", .word⟩
  | jumpFalse => ⟨0x50, "jf", .word⟩
  | jumpBound => ⟨0x51, "jbnd", .word⟩
  | reuseFrame => ⟨0x65, "menv", .byte⟩
  | loadLocal => ⟨0x69, "lde0", .byte⟩
  | storeLocal => ⟨0x6a, "ste0", .byte⟩
  | loadOuter => ⟨0x87, "lde", .pair⟩
  | storeOuter => ⟨0x88, "ste", .pair⟩
  | returnPoint => ⟨0x89, "cont", .word⟩
  | frame => ⟨0xca, "env", .triple⟩
  | frameRest => ⟨0xcb, "envr", .triple⟩

def byte (op : Opcode) : UInt8 := op.encoding.byte

def mnemonic (op : Opcode) : String := op.encoding.mnemonic

def layout (op : Opcode) : Layout := op.encoding.layout

def length (op : Opcode) : Nat := 1 + op.layout.width

/-- The word operand is counted from the end of the instruction. -/
def isRelative : Opcode → Bool
  | closure | jump | jumpTrue | jumpFalse | jumpBound | returnPoint => true
  | _ => false

def all : List Opcode :=
  [nop, push, pop, ret, not, loadTrue, loadNil, halt, add, sub, mul, div, cons, car, cdr, setCar,
    setCdr, same, dup, consReversed, partCar, partCdr, splice, loadLiteral, loadInteger,
    loadGlobal, storeGlobal, apply, closure, jump, jumpTrue, jumpFalse, jumpBound, reuseFrame,
    loadLocal, storeLocal, loadOuter, storeOuter, returnPoint, frame, frameRest]

def ofByte? (b : UInt8) : Option Opcode := all.find? fun op => op.byte == b

def ofMnemonic? (name : String) : Option Opcode := all.find? fun op => op.mnemonic == name

@[simp] theorem ofByte?_byte (op : Opcode) : ofByte? op.byte = some op := by cases op <;> rfl

end Opcode

end LispMachine
