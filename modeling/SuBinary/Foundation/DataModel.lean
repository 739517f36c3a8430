import Mathlib

/-! # Data models

The widths of the integer types in which the program is built.
-/

namespace SuBinary

inductive DataModel
  | ilp32
  | lp64

def DataModel.sizeBits : DataModel → Nat
  | .ilp32 => 32
  | .lp64 => 64

def DataModel.toSize (model : DataModel) (value : Int) : Nat :=
  (value % 2 ^ model.sizeBits).toNat

theorem DataModel.toSize_of_lt (model : DataModel) {value : Nat}
    (fits : value < 2 ^ model.sizeBits) : model.toSize value = value := by
  have fitsInt : (value : Int) < 2 ^ model.sizeBits := by exact_mod_cast fits
  rw [DataModel.toSize, Int.emod_eq_of_lt (Int.natCast_nonneg value) fitsInt, Int.toNat_natCast]

theorem DataModel.toSize_of_small (model : DataModel) {value : Nat} (small : value < 2 ^ 32) :
    model.toSize value = value := by
  apply model.toSize_of_lt
  cases model with
  | ilp32 => exact small
  | lp64 => exact lt_trans small (by decide)

end SuBinary
