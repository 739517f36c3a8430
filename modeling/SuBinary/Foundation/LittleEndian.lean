import SuBinary.Foundation.CString

/-! # Little-endian numbers -/

namespace SuBinary

def leBytes : (count value : Nat) → List Byte
  | 0, _ => []
  | count + 1, value => UInt8.ofNat value :: leBytes count (value / 256)

def leValue (bytes : List Byte) : Nat := Nat.ofDigits 256 (bytes.map UInt8.toNat)

@[simp] theorem length_leBytes (count value : Nat) : (leBytes count value).length = count := by
  induction count generalizing value with
  | zero => rfl
  | succ count induction => rw [leBytes, List.length_cons, induction]

theorem leValue_cons (byte : Byte) (rest : List Byte) :
    leValue (byte :: rest) = byte.toNat + 256 * leValue rest := by
  rw [leValue, List.map_cons, Nat.ofDigits_cons, leValue]

theorem leValue_lt (bytes : List Byte) : leValue bytes < 256 ^ bytes.length := by
  induction bytes with
  | nil => exact Nat.one_pos
  | cons byte rest induction =>
      have first := byte.toNat_lt
      rw [leValue_cons, List.length_cons, Nat.pow_succ]
      omega

theorem leValue_leBytes {count value : Nat} (fits : value < 256 ^ count) :
    leValue (leBytes count value) = value := by
  induction count generalizing value with
  | zero => exact (Nat.lt_one_iff.mp fits).symm
  | succ count induction =>
      have fitsRest : value / 256 < 256 ^ count := by
        apply Nat.div_lt_of_lt_mul
        rwa [Nat.pow_succ, Nat.mul_comm] at fits
      rw [leBytes, leValue_cons, induction fitsRest, UInt8.toNat_ofNat']
      exact Nat.mod_add_div value 256

theorem leBytes_leValue (bytes : List Byte) : leBytes bytes.length (leValue bytes) = bytes := by
  induction bytes with
  | nil => rfl
  | cons byte rest induction =>
      have first := byte.toNat_lt
      rw [leValue_cons, List.length_cons, leBytes]
      congr 1
      · apply UInt8.toNat_inj.mp
        rw [UInt8.toNat_ofNat']
        omega
      · rw [show (byte.toNat + 256 * leValue rest) / 256 = leValue rest by omega]
        exact induction

theorem leBytes_of_length {count : Nat} {bytes : List Byte} (isLength : bytes.length = count) :
    leBytes count (leValue bytes) = bytes :=
  isLength ▸ leBytes_leValue bytes

end SuBinary
