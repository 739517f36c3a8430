import Mathlib

/-! # Bytes and C strings

A C string is represented by the bytes before its terminating NUL.
-/

namespace SuBinary

abbrev Byte := UInt8

/-- The bytes of a C string, without the terminating NUL. -/
abbrev CString := List Byte

def ascii (text : String) : CString := text.toList.map Char.toUInt8

def isSpace (byte : Byte) : Bool := byte == 32 || (9 ≤ byte && byte ≤ 13)

def isDigit (byte : Byte) : Bool := 48 ≤ byte && byte ≤ 57

/-- What `strtoul` leaves: its value, the text at `endptr`, and whether it set
`errno` to `ERANGE`. -/
structure Conversion where
  value : Nat
  endptr : CString
  erange : Bool
deriving DecidableEq

/-- `strtoul` in base ten, where `limit` is `ULONG_MAX`. -/
def strtoul (limit : Nat) (text : CString) : Conversion :=
  let afterSpace := text.dropWhile isSpace
  let negative := afterSpace.head? == some 45
  let unsigned :=
    if negative || afterSpace.head? == some 43 then afterSpace.drop 1 else afterSpace
  let digits := unsigned.takeWhile isDigit
  let magnitude := digits.foldl (fun value digit => 10 * value + (digit.toNat - 48)) 0
  if digits = [] then { value := 0, endptr := text, erange := false }
  else if limit < magnitude then
    { value := limit, endptr := unsigned.drop digits.length, erange := true }
  else
    { value := if negative then (limit + 1 - magnitude) % (limit + 1) else magnitude
      endptr := unsigned.drop digits.length
      erange := false }

def pathMax : Nat := 4096

end SuBinary
