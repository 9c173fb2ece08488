import LispMachine.Instruction.Opcode
import LispMachine.Instruction.Word
import LispMachine.Text.Digits

/-! # Disassembly

Code falls into items: instructions, bytes that are none, and at the end an instruction that lacks
operand bytes. The items of a program tile it from the first byte to the last.
-/

namespace LispMachine

abbrev Code := Array UInt8

inductive Operand
  | none
  | word (n : Int)
  | byte (a : UInt8)
  | pair (a b : UInt8)
  | triple (a b c : UInt8)
  deriving DecidableEq, Repr

namespace Operand

def values : Operand → List Int
  | none => []
  | word n => [n]
  | byte a => [a.toNat]
  | pair a b => [a.toNat, b.toNat]
  | triple a b c => [a.toNat, b.toNat, c.toNat]

def bytes : Operand → List UInt8
  | none => []
  | word n => Word.encode n
  | byte a => [a]
  | pair a b => [a, b]
  | triple a b c => [a, b, c]

def read? (layout : Layout) (code : Code) (pos : Nat) : Option Operand :=
  match layout with
  | .none => some .none
  | .word => do
      let a ← code[pos]?
      let b ← code[pos + 1]?
      let c ← code[pos + 2]?
      let d ← code[pos + 3]?
      some (.word (Word.decode a b c d))
  | .byte => do
      let a ← code[pos]?
      some (.byte a)
  | .pair => do
      let a ← code[pos]?
      let b ← code[pos + 1]?
      some (.pair a b)
  | .triple => do
      let a ← code[pos]?
      let b ← code[pos + 1]?
      let c ← code[pos + 2]?
      some (.triple a b c)

end Operand

structure Instruction where
  pos : Nat
  op : Opcode
  operand : Operand
  deriving DecidableEq, Repr

namespace Instruction

/-- Where a relative operand points. Below zero there is no code. -/
def target? (i : Instruction) : Option Int :=
  match i.operand with
  | .word offset => if i.op.isRelative then some (i.pos + i.op.length + offset) else none
  | _ => none

def text (i : Instruction) : String :=
  let operands := i.operand.values.map fun n => " " ++ toString n
  let arrow := i.target?.elim "" fun t => " ; -> " ++ Text.hex 4 (t % 0x10000000000000000).toNat
  i.op.mnemonic ++ String.join operands ++ arrow

end Instruction

inductive Item
  | instruction (i : Instruction)
  | invalid (pos : Nat) (byte : UInt8)
  | truncated (pos : Nat) (op : Opcode)
  deriving DecidableEq, Repr

namespace Item

/-- The item that starts at `pos`, if that is inside the code. -/
def decode? (code : Code) (pos : Nat) : Option Item :=
  code[pos]?.map fun byte =>
    match Opcode.ofByte? byte with
    | none => .invalid pos byte
    | some op =>
      match Operand.read? op.layout code (pos + 1) with
      | none => .truncated pos op
      | some operand => .instruction ⟨pos, op, operand⟩

def pos : Item → Nat
  | instruction i => i.pos
  | invalid pos _ => pos
  | truncated pos _ => pos

def length (size : Nat) : Item → Nat
  | instruction i => i.op.length
  | invalid _ _ => 1
  | truncated pos _ => size - pos

def text : Item → String
  | instruction i => i.text
  | invalid _ byte => "<invalid 0x" ++ Text.hex 2 byte.toNat ++ ">"
  | truncated _ op => op.mnemonic ++ " <truncated>"

/-- Address, bytes and text of an item. -/
def line (code : Code) (item : Item) : String :=
  let bytes := code.extract item.pos (item.pos + item.length code.size)
  let column := " ".intercalate (bytes.toList.map fun b => Text.hex 2 b.toNat)
  Text.hex 4 item.pos ++ "  " ++ Text.padRight 14 column ++ " " ++ item.text

theorem lt_size_of_decode? {code : Code} {pos : Nat} {item : Item}
    (h : decode? code pos = some item) : pos < code.size := by
  obtain ⟨byte, hb, _⟩ := Option.map_eq_some_iff.1 h
  exact (Array.getElem?_eq_some_iff.1 hb).1

theorem length_pos_of_decode? {code : Code} {pos : Nat} {item : Item}
    (h : decode? code pos = some item) : 0 < item.length code.size := by
  have hlt := lt_size_of_decode? h
  obtain ⟨byte, _, rfl⟩ := Option.map_eq_some_iff.1 h
  split
  · exact Nat.one_pos
  · split
    · exact Nat.sub_pos_of_lt hlt
    · exact Nat.lt_of_lt_of_le Nat.one_pos (Nat.le_add_right 1 _)

end Item

def disassembleFrom (code : Code) (pos : Nat) : List Item :=
  match _h : Item.decode? code pos with
  | none => []
  | some item => item :: disassembleFrom code (pos + item.length code.size)
termination_by code.size - pos
decreasing_by
  have := Item.lt_size_of_decode? _h
  have := Item.length_pos_of_decode? _h
  omega

def disassemble (code : Code) : List Item := disassembleFrom code 0

def listing (code : Code) : String := "\n".intercalate ((disassemble code).map (·.line code))

end LispMachine
