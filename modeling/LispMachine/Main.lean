import LispMachine.Command

/-! # The program -/

namespace LispMachine

/-- Why a file could not be read, with the system's number for it, which may come negated. -/
def readFailure (e : IO.Error) : String :=
  let describe := fun (code : UInt32) (details : String) =>
    details.capitalize ++ s!" (os error {min code (-code)})"
  match e with
  | .noFileOrDirectory _ code details => describe code details
  | .permissionDenied _ code details => describe code details
  | .inappropriateType _ code details => describe code details
  | e => e.toString

def readCode (path : String) : IO (Except String Code) := do
  try
    return .ok (← IO.FS.readBinFile path).data
  catch e => return .error (readFailure e)

def emit (o : Output) : IO UInt32 := do
  IO.print o.out
  IO.eprint o.err
  return o.exit

end LispMachine

open LispMachine in
def main (args : List String) : IO UInt32 := do
  match Command.parse? args with
  | none => emit Command.usage
  | some c =>
    let ctx : Command.Context :=
      { file := ← readCode c.path
        stackSize := ← IO.getEnv Command.setting
        colored := ← (← IO.getStderr).isTty }
    match c.execute 0x4000000000000000 ctx with
    | some o => emit o
    | none => return 1
