import SuBinary.Foundation.Fault

/-! # Blocks of memory

A heap of blocks whose slots hold nothing defined before they are written. An access
outside of a block is a fault.
-/

namespace SuBinary

variable {Value : Type}

/-- A slot that has not been written is `none`. -/
abbrev Block (Value : Type) : Type := List (Option Value)

structure Blocks (Value : Type) where
  block : Nat → Option (Block Value)
  fresh : Nat
  unused : ∀ id, fresh ≤ id → block id = none

/-- A pointer that stands for no block, such as `NULL`, is `none`. -/
abbrev BlockPointer : Type := Option Nat

/-- The computations on blocks; `none` is a fault. -/
abbrev BlockM (Value : Type) := FaultM (Blocks Value)

namespace Blocks

def slots (heap : Blocks Value) (pointer : BlockPointer) : Option (Block Value) :=
  pointer.bind heap.block

def put (heap : Blocks Value) (id : Nat) (slots : Block Value) : Blocks Value where
  block := fun other =>
    if other = id then (heap.block id).map fun _ => slots else heap.block other
  fresh := heap.fresh
  unused := by
    intro other outside
    by_cases same : other = id
    · rw [if_pos same, ← same, heap.unused other outside, Option.map_none]
    · rw [if_neg same]
      exact heap.unused other outside

def add (heap : Blocks Value) (slots : Block Value) : Blocks Value where
  block := fun other => if other = heap.fresh then some slots else heap.block other
  fresh := heap.fresh + 1
  unused := by
    intro other outside
    rw [if_neg (by omega)]
    exact heap.unused other (by omega)

def remove (heap : Blocks Value) (id : Nat) : Blocks Value where
  block := fun other => if other = id then none else heap.block other
  fresh := heap.fresh
  unused := by
    intro other outside
    split
    · rfl
    · exact heap.unused other outside

end Blocks

/-! ## Operations -/

def malloc (count : Nat) : BlockM Value BlockPointer := fun heap =>
  some (some heap.fresh, heap.add (List.replicate count none))

def free (pointer : BlockPointer) : BlockM Value Unit := fun heap =>
  match pointer with
  | none => some ((), heap)
  | some id => (heap.block id).map fun _ => ((), heap.remove id)

/-- The block moves; its slots are kept as far as there is room. -/
def realloc (pointer : BlockPointer) (count : Nat) : BlockM Value BlockPointer := fun heap =>
  match pointer with
  | none => malloc count heap
  | some id =>
      (heap.block id).map fun slots =>
        (some heap.fresh,
          (heap.remove id).add (slots.take count ++ List.replicate (count - slots.length) none))

def readSlot (pointer : BlockPointer) (index : Nat) : BlockM Value (Option Value) := fun heap =>
  (heap.slots pointer).bind fun slots => slots[index]?.map fun value => (value, heap)

def writeSlot (pointer : BlockPointer) (index : Nat) (value : Option Value) :
    BlockM Value Unit := fun heap =>
  match pointer with
  | none => none
  | some id =>
      (heap.block id).bind fun slots =>
        if index < slots.length then some ((), heap.put id (slots.set index value)) else none

def memcpy (target source : BlockPointer) (count : Nat) : BlockM Value Unit := fun heap =>
  match target with
  | none => none
  | some id =>
      (heap.block id).bind fun old => (heap.slots source).bind fun slots =>
        if count ≤ old.length ∧ count ≤ slots.length then
          some ((), heap.put id (slots.take count ++ old.drop count))
        else none

/-! ## What they do -/

section Effects

variable {heap : Blocks Value} {id : Nat} {slots : Block Value}

@[simp] theorem Blocks.slots_some (heap : Blocks Value) (id : Nat) :
    heap.slots (some id) = heap.block id := rfl

@[simp] theorem Blocks.slots_none (heap : Blocks Value) : heap.slots none = none := rfl

@[simp] theorem Blocks.block_add (heap : Blocks Value) (slots : Block Value) :
    (heap.add slots).block heap.fresh = some slots := if_pos rfl

theorem Blocks.block_put (here : heap.block id = some slots) (changed : Block Value) :
    (heap.put id changed).block id = some changed := by
  simp [Blocks.put, here]

theorem Blocks.block_put_of_ne {other : Nat} (different : other ≠ id) (changed : Block Value) :
    (heap.put id changed).block other = heap.block other := if_neg different

@[simp] theorem Blocks.fresh_remove (heap : Blocks Value) (id : Nat) :
    (heap.remove id).fresh = heap.fresh := rfl

theorem realloc_eq (here : heap.block id = some slots) (count : Nat) :
    realloc (some id) count heap =
      some (some heap.fresh,
        (heap.remove id).add
          (slots.take count ++ List.replicate (count - slots.length) none)) := by
  simp [realloc, here]

theorem writeSlot_eq (here : heap.block id = some slots) {index : Nat}
    (inside : index < slots.length) (value : Option Value) :
    writeSlot (some id) index value heap = some ((), heap.put id (slots.set index value)) := by
  simp [writeSlot, here, inside]

theorem readSlot_eq (here : heap.block id = some slots) {index : Nat} {value : Option Value}
    (isValue : slots[index]? = some value) :
    readSlot (some id) index heap = some (value, heap) := by
  simp [readSlot, here, isValue]

theorem memcpy_some {target source : BlockPointer} {count : Nat} {result : Unit}
    {after : Blocks Value} (ran : memcpy target source count heap = some (result, after)) :
    ∃ id old slots, target = some id ∧ heap.block id = some old ∧
      heap.slots source = some slots ∧ count ≤ slots.length ∧
      after = heap.put id (slots.take count ++ old.drop count) := by
  rw [memcpy.eq_def] at ran
  cases target with
  | none => cases ran
  | some id =>
      rcases Option.bind_eq_some_iff.mp ran with ⟨old, isOld, ran⟩
      rcases Option.bind_eq_some_iff.mp ran with ⟨slots, isSource, ran⟩
      split at ran
      · rename_i room
        cases ran
        exact ⟨id, old, slots, rfl, isOld, isSource, room.2, rfl⟩
      · cases ran

end Effects

end SuBinary
