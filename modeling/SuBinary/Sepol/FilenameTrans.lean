import SuBinary.Foundation.CString
import SuBinary.Foundation.PointerTable

/-! # The table of named type transitions

`filename_trans` of `policydb.c`. A loaded table owns its keys; what it is given
later is up to the caller.
-/

namespace SuBinary.Sepol

open SuBinary

structure FilenameTrans where
  stype : Nat
  ttype : Nat
  tclass : Nat
  name : CString
deriving DecidableEq

def partialNameHash (c prevhash : UInt32) : UInt32 :=
  let high : UInt32 := c <<< 4
  let low : UInt32 := c >>> 4
  (prevhash + high + low) * 11

/-- The table has 1024 slots, so the width of `unsigned long` does not matter. -/
def filenametrHash (ft : FilenameTrans) : Nat :=
  let hash := UInt32.ofNat ft.stype ^^^ UInt32.ofNat ft.ttype ^^^ UInt32.ofNat ft.tclass
  let hash := ft.name.foldl (fun hash focus => partialNameHash focus.toUInt32 hash) hash
  (hash &&& 1023).toNat

/-- A difference of two `uint32_t` in an `int`. -/
def intDifference (first second : Nat) : Int :=
  ((first : Int) - second).bmod (2 ^ 32)

def strcmp (first second : CString) : Int :=
  if first < second then -1 else if first = second then 0 else 1

def filenametrCmp (ft1 ft2 : FilenameTrans) : Int :=
  if intDifference ft1.stype ft2.stype ≠ 0 then intDifference ft1.stype ft2.stype
  else if intDifference ft1.ttype ft2.ttype ≠ 0 then intDifference ft1.ttype ft2.ttype
  else if intDifference ft1.tclass ft2.tclass ≠ 0 then intDifference ft1.tclass ft2.tclass
  else strcmp ft1.name ft2.name

/-- The datum is the default type. -/
abbrev FilenameTransTable := PointerTable FilenameTrans Nat filenametrHash filenametrCmp

end SuBinary.Sepol
