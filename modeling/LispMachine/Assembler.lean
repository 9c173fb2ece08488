import LispMachine.Instruction.Item

/-! # Assembling with named labels

Statements append to a growing program. Relative operands name labels, which may be defined before
or after their use; the offsets are filled in when the program is finished.
-/

namespace LispMachine

inductive Statement
  | label (name : String)
  | raw (bytes : List UInt8)
  | instruction (op : Opcode) (operand : Operand)
  | branch (op : Opcode) (label : String)
  deriving DecidableEq, Repr

inductive AssemblyError
  | undefinedLabel (name : String)
  | duplicateLabel (name : String)
  | offsetOutOfRange (name : String)
  deriving DecidableEq, Repr

def AssemblyError.message : AssemblyError → String
  | undefinedLabel name => s!"undefined label {name}"
  | duplicateLabel name => s!"label {name} defined twice"
  | offsetOutOfRange name => s!"offset to {name} does not fit in a 31-bit operand"

structure Assembly where
  code : Code
  labels : List (String × Nat)

def Assembly.position? (a : Assembly) (name : String) : Option Nat := a.labels.lookup name

/-- A word operand at `pos` that waits for its label. -/
structure LabelUse where
  pos : Nat
  label : String
  deriving DecidableEq, Repr

/-- A program under construction. The latest definition of a label stands first, the latest use
last. -/
structure Assembler where
  code : Code := #[]
  labels : List (String × Nat) := []
  uses : List LabelUse := []
  duplicate : Option String := none

namespace Assembler

variable (a : Assembler)

def here : Nat := a.code.size

def append (bytes : List UInt8) : Assembler := { a with code := a.code ++ bytes }

def add : Statement → Assembler
  | .label name =>
    { a with
      labels := (name, a.here) :: a.labels
      duplicate := a.duplicate <|> if (a.labels.lookup name).isSome then some name else none }
  | .raw bytes => a.append bytes
  | .instruction op operand => a.append (op.byte :: operand.bytes)
  | .branch op label =>
    let a' := a.append [op.byte]
    { a'.append [0, 0, 0, 0] with uses := a.uses ++ [⟨a'.here, label⟩] }

def addAll (statements : List Statement) : Assembler := statements.foldl add a

def overwrite (code : Code) (pos : Nat) : List UInt8 → Code
  | [] => code
  | b :: bs => overwrite (code.setIfInBounds pos b) (pos + 1) bs

/-- Fills in the offset from the end of the operand to its label. -/
def resolve (labels : List (String × Nat)) (code : Code) (use : LabelUse) :
    Except AssemblyError Code :=
  match labels.lookup use.label with
  | none => .error (.undefinedLabel use.label)
  | some target =>
    let offset : Int := target - (use.pos + 4)
    if -0x40000000 ≤ offset ∧ offset < 0x40000000 then
      .ok (overwrite code use.pos (Word.encode offset))
    else .error (.offsetOutOfRange use.label)

/-- Fills in all offsets. A label that was defined twice is reported once and changes nothing else.
Otherwise the code and the pending uses are handed over or dropped, and the labels stay only if one
could not be filled in. -/
def finish : Except AssemblyError Assembly × Assembler :=
  match a.duplicate with
  | some name => (.error (.duplicateLabel name), { a with duplicate := none })
  | none =>
    match a.uses.foldlM (resolve a.labels) a.code with
    | .error e => (.error e, { a with code := #[], uses := [] })
    | .ok code => (.ok ⟨code, a.labels⟩, {})

end Assembler

def assemble (statements : List Statement) : Except AssemblyError Assembly :=
  (Assembler.addAll {} statements).finish.1

end LispMachine
