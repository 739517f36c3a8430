import SuBinary.Foundation.Decoder
import SuBinary.Foundation.LittleEndian

/-! # Policy files

A policy file in memory is the bytes that are still to be read. Errors are the negative
results of the functions that read it.
-/

namespace SuBinary.Sepol

open SuBinary Decoder

abbrev PolicyReader := Decoder Int (List Byte)

def nextEntry (bytes : Nat) : PolicyReader (List Byte) := fun data =>
  if data.length < bytes then .error (-1) else .ok (data.take bytes, data.drop bytes)

def nextNumber (bytes : Nat) : PolicyReader Nat := leValue <$> nextEntry bytes

theorem decodes_nextEntry (items : List Byte) :
    Decodes id (nextEntry items.length) items items := by
  intro rest
  have enough : ¬(items ++ rest).length < items.length := by
    rw [List.length_append]
    omega
  rw [nextEntry, id, if_neg enough, List.take_left, List.drop_left]
  rfl

theorem decodes_nextNumber {count value : Nat} (fits : value < 256 ^ count) :
    Decodes id (nextNumber count) (leBytes count value) value := by
  have decodes := (decodes_nextEntry (leBytes count value)).map leValue
  rwa [length_leBytes, leValue_leBytes fits] at decodes

theorem accepts_nextEntry (bytes : Nat) :
    Accepts (nextEntry bytes) fun value items => items = value ∧ value.length = bytes := by
  intro supply value rest accepted
  rw [nextEntry] at accepted
  split at accepted
  · cases accepted
  · rename_i enough
    cases accepted
    refine ⟨supply.take bytes, (List.take_append_drop bytes supply).symm, rfl, ?_⟩
    rw [List.length_take]
    omega

theorem accepts_nextNumber (bytes : Nat) :
    Accepts (nextNumber bytes) fun value items =>
      value < 256 ^ bytes ∧ items = leBytes bytes value := by
  intro supply value rest accepted
  change (nextEntry bytes supply).map (fun pair => (leValue pair.1, pair.2)) = _ at accepted
  cases ran : nextEntry bytes supply with
  | error rc =>
      rw [ran] at accepted
      cases accepted
  | ok pair =>
      rw [ran] at accepted
      cases accepted
      rcases accepts_nextEntry bytes supply pair.1 pair.2 ran with ⟨items, split, rfl, isLength⟩
      refine ⟨pair.1, split, ?_, (leBytes_of_length isLength).symm⟩
      rw [← isLength]
      exact leValue_lt pair.1

end SuBinary.Sepol
