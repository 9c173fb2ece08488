import LispMachine.Machine.Basic
import LispMachine.Text.CharClass

/-! # Configuration

The size of the stack and whether the standard procedures are bound.
-/

namespace LispMachine

structure Config where
  stackSize : Nat := 1024
  standard : Bool := true
  deriving DecidableEq, Repr

namespace Config

/-- A decimal numeral of ASCII digits, perhaps with a plus sign and blanks around it, of a positive
number below `2 ^ 64`. -/
def size? (text : String) : Option Nat :=
  let chars := (Text.trim text).toList
  let digits := if chars.head? = some '+' then chars.tail else chars
  if digits ≠ [] ∧ digits.all Char.isDigit then
    let n := digits.foldl (fun n c => 10 * n + (c.toNat - '0'.toNat)) 0
    if 0 < n ∧ n < 0x10000000000000000 then some n else none
  else none

/-- The configuration with the stack size that a setting asks for. A setting that is no size is
ignored. -/
def ofSetting (setting : Option String) : Config :=
  match setting.bind size? with
  | some stackSize => { stackSize }
  | none => {}

end Config

def Machine.ofConfig (c : Config) : Machine :=
  let m := new c.stackSize
  if c.standard then
    match installStandard m with
    | .ok _ m => m
    | .error _ m => m
  else m

end LispMachine
