import LispMachine.Assembler
import LispMachine.Heap.Printer
import LispMachine.Machine.Run

/-! # Sample programs

Each begins by building its frame, so it is started with its arguments on the stack, and halts with
the result in the accumulator.
-/

namespace LispMachine

/-- A program text. In a recursive one literal 0 is the program itself as a procedure. -/
structure Sample where
  body : List Statement
  recursive : Bool := false

namespace Sample

def code (s : Sample) : Except AssemblyError Code := do return (← assemble s.body).code

def start (s : Sample) (code : Code) (args : List Value) : Exec Unit := do
  let literals ← if s.recursive then
      pure #[.closure (← Machine.newClosure { env := .empty, entry := 0 })]
    else pure #[]
  Machine.load { code, literals }
  Machine.pushAll args
  Machine.setArgc args.length

/-! ## Texts -/

def plain (op : Opcode) : Statement := .instruction op .none

def number (op : Opcode) (n : Int) : Statement := .instruction op (.word n)

def count (op : Opcode) (n : UInt8) : Statement := .instruction op (.byte n)

def frame (required : UInt8) : Statement := .instruction .frame (.triple required 0 0)

/-- From `x` up to `y`, adding one to `t` each time, in tail calls that use up no stack. -/
def countingLoop : Sample where
  recursive := true
  body :=
    [ frame 3,
      count .loadLocal 0, plain .push, count .loadLocal 1, plain .push, number .loadInteger 1,
      plain .add, plain .same, .branch .jumpFalse "loop",
      count .loadLocal 2, plain .ret,
      .label "loop",
      count .loadLocal 0, plain .push, number .loadInteger 1, plain .add, plain .push,
      count .loadLocal 1, plain .push,
      count .loadLocal 2, plain .push, number .loadInteger 1, plain .add, plain .push,
      number .loadLiteral 0, count .reuseFrame 3, count .apply 3 ]

/-- The Fibonacci numbers from 1, 1 on, by double recursion. -/
def fibonacci : Sample where
  recursive := true
  body :=
    [ frame 1,
      count .loadLocal 0, plain .push, number .loadInteger 0, plain .same,
      .branch .jumpTrue "one",
      count .loadLocal 0, plain .push, number .loadInteger 1, plain .same,
      .branch .jumpTrue "one",
      .branch .returnPoint "first",
      count .loadLocal 0, plain .push, number .loadInteger 1, plain .sub, plain .push,
      number .loadLiteral 0, count .apply 1,
      .label "first", plain .push,
      .branch .returnPoint "second",
      count .loadLocal 0, plain .push, number .loadInteger 2, plain .sub, plain .push,
      number .loadLiteral 0, count .apply 1,
      .label "second", plain .add, plain .ret,
      .label "one", number .loadInteger 1, plain .ret ]

def nestedAdder : Sample where
  body :=
    [ frame 1,
      number .loadInteger 2, plain .push,
      .branch .closure "inner", count .reuseFrame 1, count .apply 1,
      .label "inner", frame 1,
      .instruction .loadOuter (.pair 1 0), plain .push, count .loadLocal 0, plain .add,
      plain .ret ]

end Sample

def Heap.fixnum (h : Heap) : Value → Except String Int
  | .fixnum n => .ok n
  | v => .error ("expected fixnum, got " ++ v.typeName ++ " " ++ h.text v)

end LispMachine
