import LispMachine.Fault
import LispMachine.Instruction.Item
import LispMachine.Text.EditDistance

/-! # Reports of faults

A report names the place, says what went wrong, shows the code that led there, and suggests names
that are near to an unknown one.
-/

namespace LispMachine.Report

inductive Color
  | red | cyan | bold

def Color.code : Color → String
  | red => "31"
  | cyan => "36"
  | bold => "1"

structure Style where
  colored : Bool := false
  file : Option String := none

variable (s : Style)

def paint (c : Color) (text : String) : String :=
  if s.colored then "\x1b[" ++ c.code ++ "m" ++ text ++ "\x1b[0m" else text

/-- A rule of 60 bytes that begins with a title. -/
def header (title : String) : String :=
  let dashes := String.ofList (List.replicate (60 - (title.utf8ByteSize + 4)) '-')
  paint s .cyan ("-- " ++ title ++ " " ++ dashes)

/-- The item at `ip` and up to two before it. There is nothing to show if none starts there. -/
def excerpt (code : Code) (ip : Nat) : String :=
  let items := disassemble code
  match items.findIdx? (·.pos == ip) with
  | none => ""
  | some i =>
    let shown := (items.take (i + 1)).drop (i - 2)
    "\n".intercalate (shown.map fun item =>
      if item.pos == ip then paint s .red ("> " ++ item.line code) else "  " ++ item.line code)

def suggestion (f : Fault) (globals : List String) : String :=
  match f with
  | .unboundSymbol name =>
    match Text.similar name globals 2 with
    | [] => ""
    | names => "\nDid you mean " ++ ", ".intercalate (names.map (paint s .bold)) ++ "?\n"
  | _ => ""

def fault (f : Fault) (code : Code) (ip : Nat) (globals : List String) : String :=
  let place := s.file.getD "<code>" ++ ":" ++ Text.hex 4 ip
  let shown := excerpt s code ip
  header s "VM FAULT" ++ "\n" ++ paint s .bold place ++ "\n\n" ++ f.message ++ "\n" ++
    (if shown.isEmpty then "" else "\n" ++ shown ++ "\n") ++ suggestion s f globals

end LispMachine.Report
