import LispMachine.Text.Digits
import LispMachine.Text.Extending
import LispMachine.Text.Unprintable

/-! # Quoted texts

A text between double quotes, in which quotes, backslashes and everything that would not show are
escaped.
-/

namespace LispMachine.Text

def escapeChar (c : Char) : String :=
  match c with
  | '"' => "\\\""
  | '\\' => "\\\\"
  | '\t' => "\\t"
  | '\n' => "\\n"
  | '\r' => "\\r"
  | '\x00' => "\\0"
  | c =>
    if ' ' ≤ c && c ≤ '~' then c.toString
    else if isUnprintable c || isExtending c then "\\u\x7b" ++ hex 1 c.toNat ++ "\x7d"
    else c.toString

def quote (text : String) : String := "\"" ++ String.join (text.toList.map escapeChar) ++ "\""

end LispMachine.Text
