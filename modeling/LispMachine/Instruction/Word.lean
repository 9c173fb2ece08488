/-! # Word operands

A word is written as four bytes, least first. It is read as a number of 31 bits with a sign, so the
top bit of the fourth byte is lost.
-/

namespace LispMachine.Word

def encode (n : Int) : List UInt8 :=
  let bits := (n % 0x100000000).toNat
  [UInt8.ofNat bits, UInt8.ofNat (bits / 0x100), UInt8.ofNat (bits / 0x10000),
    UInt8.ofNat (bits / 0x1000000)]

def decode (a b c d : UInt8) : Int :=
  let bits := a.toNat + b.toNat * 0x100 + c.toNat * 0x10000 + d.toNat * 0x1000000
  Int.bmod bits 0x80000000

end LispMachine.Word
