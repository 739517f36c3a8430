import Mathlib

/-! # Arrays from values to names

Tables whose entries are numbered from one keep an array that leads from a
number back to the entry. The array is filled in one pass over the table.
-/

namespace SuBinary

/-- Enter each name at its number. A number outside of the array and one that
is taken end the pass; the flag says that it reached the end. -/
def fillIndex : List (Name × Nat) → List (Option Name) → List (Option Name) × Bool
  | [], array => (array, true)
  | (_, 0) :: _, array => (array, false)
  | (name, position + 1) :: rest, array =>
      match array[position]? with
      | some none => fillIndex rest (array.set position (some name))
      | _ => (array, false)

def buildIndex (count : Nat) (numbered : List (Name × Nat)) : List (Option Name) × Bool :=
  fillIndex numbered (List.replicate count none)

def Indexes (array : List (Option Name)) (numbered : List (Name × Nat)) : Prop :=
  ∀ position name, array[position]? = some (some name) ↔ (name, position + 1) ∈ numbered

/-! ## One pass -/

theorem getElem?_set_free {array : List (Option Name)} {position : Nat}
    (free : array[position]? = some none) (name : Name) (other : Nat) :
    (array.set position (some name))[other]? = some none ↔
      other ≠ position ∧ array[other]? = some none := by
  rw [List.getElem?_set]
  by_cases same : position = other
  · have inside : position < array.length := (List.getElem?_eq_some_iff.mp free).1
    subst same
    simp [inside]
  · simp [same, Ne.symm same]

/-- The pass reaches the end when all numbers are free and no number comes
twice. -/
theorem fillIndex_succeeds_iff (numbered : List (Name × Nat)) (array : List (Option Name)) :
    (fillIndex numbered array).2 = true ↔
      (∀ entry, entry ∈ numbered → ∃ position, entry.2 = position + 1 ∧
        array[position]? = some none) ∧ (numbered.map Prod.snd).Nodup := by
  fun_induction fillIndex numbered array with
  | case1 array => simp
  | case2 name rest array => simp
  | case3 name position rest array free induction =>
      rw [induction]
      simp only [getElem?_set_free free, List.mem_cons, forall_eq_or_imp, List.map_cons,
        List.nodup_cons, List.mem_map, not_exists]
      constructor
      · rintro ⟨others, distinct⟩
        refine ⟨⟨⟨position, rfl, free⟩, fun entry member => ?_⟩, fun entry both => ?_, distinct⟩
        · rcases others entry member with ⟨other, number, -, otherFree⟩
          exact ⟨other, number, otherFree⟩
        · rcases others entry both.1 with ⟨other, number, different, -⟩
          exact different (Nat.succ.inj (number.symm.trans both.2))
      · rintro ⟨⟨-, others⟩, fresh, distinct⟩
        refine ⟨fun entry member => ?_, distinct⟩
        rcases others entry member with ⟨other, number, otherFree⟩
        refine ⟨other, number, fun same => ?_, otherFree⟩
        exact fresh entry ⟨member, by rw [number, same]⟩
  | case4 name position rest array taken =>
      simp only [Bool.false_eq_true, false_iff, List.mem_cons, forall_eq_or_imp]
      rintro ⟨⟨⟨other, number, free⟩, -⟩, -⟩
      cases number
      exact taken free

theorem getElem?_fillIndex (numbered : List (Name × Nat)) (array : List (Option Name))
    (succeeds : (fillIndex numbered array).2 = true) (position : Nat) (name : Name) :
    (fillIndex numbered array).1[position]? = some (some name) ↔
      array[position]? = some (some name) ∨ (name, position + 1) ∈ numbered := by
  fun_induction fillIndex numbered array with
  | case1 array => simp
  | case2 name rest array => cases succeeds
  | case3 first entered rest array free induction =>
      rw [induction succeeds, List.getElem?_set]
      by_cases same : entered = position
      · have inside : entered < array.length := (List.getElem?_eq_some_iff.mp free).1
        subst same
        rw [free]
        simp [inside, eq_comm]
      · simp [same, Ne.symm same]
  | case4 first entered rest array taken => cases succeeds

/-! ## The array -/

theorem buildIndex_succeeds_iff (count : Nat) (numbered : List (Name × Nat)) :
    (buildIndex count numbered).2 = true ↔
      (∀ entry, entry ∈ numbered → 1 ≤ entry.2 ∧ entry.2 ≤ count) ∧
        (numbered.map Prod.snd).Nodup := by
  rw [buildIndex, fillIndex_succeeds_iff]
  apply and_congr_left
  intro distinct
  apply forall₂_congr
  intro entry member
  simp only [List.getElem?_replicate]
  constructor
  · rintro ⟨position, number, free⟩
    by_cases inside : position < count
    · omega
    · simp [inside] at free
  · rintro ⟨positive, inside⟩
    exact ⟨entry.2 - 1, by omega, if_pos (by omega)⟩

theorem indexes_buildIndex {count : Nat} {numbered : List (Name × Nat)}
    (succeeds : (buildIndex count numbered).2 = true) :
    Indexes (buildIndex count numbered).1 numbered := by
  intro position name
  rw [buildIndex, getElem?_fillIndex _ _ succeeds, List.getElem?_replicate]
  by_cases inside : position < count
  · simp [inside]
  · simp [inside]

end SuBinary
