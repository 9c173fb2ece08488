import LispMachine.Config
import LispMachine.Heap.Printer
import LispMachine.Machine.Run
import LispMachine.Report

/-! # The command line

What the commands do with the contents of a file, apart from reading it and from printing.
-/

namespace LispMachine

structure Output where
  exit : UInt32
  out : String := ""
  err : String := ""
  deriving DecidableEq, Repr

inductive Command
  | run (path : String)
  | disassemble (path : String)
  deriving DecidableEq, Repr

namespace Command

/-- The command that the arguments spell. Arguments after the path are ignored. -/
def parse? : List String → Option Command
  | "run" :: path :: _ => some (run path)
  | "disasm" :: path :: _ => some (disassemble path)
  | _ => none

def usage : Output :=
  { exit := 2, err := "usage: basalt run <file>\n       basalt disasm <file>\n" }

def path : Command → String
  | run path | disassemble path => path

def setting : String := "BASALT_STACK_SIZE"

/-- The circumstances of a command: what reading its file gave, the setting for the stack size, and
whether faults are reported in colours. -/
structure Context where
  file : Except String Code
  stackSize : Option String := none
  colored : Bool := false

def runCode (n : Nat) (ctx : Context) (path : String) (code : Code) : Option Output :=
  match (Machine.load { code } *> Machine.run n) (.ofConfig (.ofSetting ctx.stackSize)) with
  | .ok _ m => some { exit := 0, out := m.heap.text m.acc ++ "\n" }
  | .error (.fault f) m =>
    let style : Report.Style := { colored := ctx.colored, file := some path }
    some { exit := 1, err := Report.fault style f m.code m.current m.globalNames }
  | .error _ _ => none

def execute (n : Nat) (ctx : Context) (c : Command) : Option Output :=
  match ctx.file with
  | .error reason =>
    some { exit := 1, err := "Error reading " ++ c.path ++ ": " ++ reason ++ "\n" }
  | .ok code =>
    match c with
    | run path => runCode n ctx path code
    | disassemble _ => some { exit := 0, out := listing code ++ "\n" }

end Command

end LispMachine
