/-! # Digits and columns

Hexadecimal numerals padded to a least width, and columns padded to a fixed one.
-/

namespace LispMachine.Text

/-- The base-16 numeral of `n`, in lower case, with zeros in front up to `width` digits. -/
def hex (width n : Nat) : String :=
  let digits := Nat.toDigits 16 n
  String.ofList (List.replicate (width - digits.length) '0' ++ digits)

/-- Puts blanks behind `text` up to `width` characters. -/
def padRight (width : Nat) (text : String) : String :=
  text ++ String.ofList (List.replicate (width - text.length) ' ')

end LispMachine.Text
