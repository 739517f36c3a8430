import SuBinary.Foundation.Blocks
import SuBinary.Foundation.DataModel
import SuBinary.Foundation.Loop
import SuBinary.Foundation.Runs

/-! # Vectors

`vector.h` and `vector.c`: a growing array of pointers, the loops over its elements, and
its copy.
-/

namespace SuBinary.Utils

open SuBinary

variable {Element : Type}

/-! ## Operations -/

structure Vec where
  size : Nat
  cap : Nat
  data : BlockPointer
deriving DecidableEq

def vecInit : BlockM Element Vec := do
  let data ← malloc 1
  return { size := 0, cap := 1, data }

/-- The growth of a full vector at the start of `vec_push_back`. -/
def vecReserve (v : Vec) : BlockM Element Vec :=
  if v.size = v.cap then do
    let data ← realloc v.data (v.cap * 2)
    return { v with cap := v.cap * 2, data }
  else return v

def vecPushBack (v : Vec) (p : Element) : BlockM Element Vec := do
  let v ← vecReserve v
  writeSlot v.data v.size (some p)
  return { v with size := v.size + 1 }

/-- The results are the element and the vector. -/
def vecPopBack (v : Vec) : BlockM Element (Option Element × Vec) := do
  let ret ← readSlot v.data (v.size - 1)
  return (ret, { v with size := v.size - 1 })

def vecDestroy (v : Vec) : BlockM Element Vec := do
  free v.data
  return { size := 0, cap := 0, data := none }

/-- The results are the copy and the vector itself. `garbage` is what stands in the
`data` of the new structure, to which nothing is assigned before `memcpy` follows it. -/
def vecDup (garbage : BlockPointer) (v : Vec) : BlockM Element (Vec × Vec) := do
  let ret := { size := v.size, cap := v.cap, data := garbage : Vec }
  let data ← malloc ret.cap
  let v := { v with data }
  memcpy ret.data v.data ret.cap
  return (ret, v)

/-! ## Runs -/

inductive VecOp (Element : Type)
  | push (p : Element)
  | pop

structure VecState (Element : Type) where
  vec : Vec
  heap : Blocks Element

/-- A pop is for a vector that is not empty. -/
def VecOp.step : VecOp Element → VecState Element → Option (VecState Element)
  | .push p, state =>
      (vecPushBack state.vec p state.heap).map fun result => ⟨result.1, result.2⟩
  | .pop, state =>
      if state.vec.size = 0 then none
      else (vecPopBack state.vec state.heap).map fun result => ⟨result.1.2, result.2⟩

def VecOp.apply : VecOp Element → List Element → List Element
  | .push p, elements => elements ++ [p]
  | .pop, elements => elements.dropLast

def VecState.start (heap : Blocks Element) : Option (VecState Element) :=
  (vecInit heap).map fun result => ⟨result.1, result.2⟩

/-- A vector that has come from `vec_init` by these operations, in memory that held
anything at the start. -/
def Reached (ops : List (VecOp Element)) (state : VecState Element) : Prop :=
  ∃ heap first, VecState.start heap = some first ∧ runSteps VecOp.step ops first = some state

def elementsAfter (ops : List (VecOp Element)) : List Element :=
  ops.foldl (fun elements op => op.apply elements) []

/-- The vector has its slots, and the first of them hold the elements. -/
structure Holds (vec : Vec) (heap : Blocks Element) (elements : List Element) : Prop where
  size : vec.size = elements.length
  room : vec.size ≤ vec.cap
  someRoom : 0 < vec.cap
  slots : ∃ id slots, vec.data = some id ∧ heap.block id = some slots ∧ slots.length = vec.cap ∧
    slots.take vec.size = elements.map some

section Operations

variable {vec : Vec} {heap : Blocks Element} {elements : List Element}

theorem holds_init (heap : Blocks Element) :
    ∃ vec after, vecInit heap = some (vec, after) ∧ Holds vec after [] := by
  refine ⟨_, _, rfl, ⟨rfl, Nat.zero_le _, Nat.one_pos, heap.fresh, [none], rfl, ?_, rfl, rfl⟩⟩
  exact Blocks.block_add heap [none]

theorem Holds.reserve (holds : Holds vec heap elements) :
    ∃ next after, vecReserve vec heap = some (next, after) ∧ Holds next after elements ∧
      next.size < next.cap := by
  rcases holds.slots with ⟨id, slots, isData, here, isCap, front⟩
  by_cases full : vec.size = vec.cap
  · have someRoom := holds.someRoom
    have kept : slots.take (vec.cap * 2) ++ List.replicate (vec.cap * 2 - slots.length) none =
        slots ++ List.replicate vec.cap none := by
      rw [List.take_of_length_le (by omega), isCap, Nat.mul_two, Nat.add_sub_cancel]
    have grows : realloc vec.data (vec.cap * 2) heap =
        some (some heap.fresh,
          (heap.remove id).add (slots ++ List.replicate vec.cap none)) := by
      rw [isData, realloc_eq here, kept]
    refine ⟨{ vec with cap := vec.cap * 2, data := some heap.fresh },
      (heap.remove id).add (slots ++ List.replicate vec.cap none), ?_,
      ⟨holds.size, ?_, ?_, heap.fresh, _, rfl, Blocks.block_add (heap.remove id) _, ?_, ?_⟩, ?_⟩
    · rw [vecReserve, if_pos full, FaultM.run_bind grows]
      rfl
    · dsimp only
      omega
    · dsimp only
      omega
    · rw [List.length_append, List.length_replicate, isCap, Nat.mul_two]
    · rw [List.take_append_of_le_length (isCap ▸ holds.room)]
      exact front
    · dsimp only
      omega
  · refine ⟨vec, heap, ?_, holds, Nat.lt_of_le_of_ne holds.room full⟩
    rw [vecReserve, if_neg full]
    rfl

theorem Holds.push (holds : Holds vec heap elements) (p : Element) :
    ∃ next after, vecPushBack vec p heap = some (next, after) ∧
      Holds next after (elements ++ [p]) := by
  rcases holds.reserve with ⟨grown, middle, reserves, kept, room⟩
  rcases kept.slots with ⟨id, slots, isData, here, isCap, front⟩
  have inside : grown.size < slots.length := isCap ▸ room
  refine ⟨{ grown with size := grown.size + 1 }, middle.put id (slots.set grown.size (some p)), ?_,
    ⟨?_, room, kept.someRoom, id, _, isData, Blocks.block_put here _, ?_, ?_⟩⟩
  · rw [vecPushBack, FaultM.run_bind reserves, isData, FaultM.run_bind (writeSlot_eq here inside _)]
    rfl
  · rw [List.length_append, List.length_singleton, ← kept.size]
  · rw [List.length_set, isCap]
  · rw [List.take_add_one, List.take_set_of_le (Nat.le_refl _), front,
      List.getElem?_set_self inside, List.map_append]
    rfl

theorem Holds.pop (holds : Holds vec heap elements) (nonempty : vec.size ≠ 0) :
    ∃ next, vecPopBack vec heap = some ((elements.getLast?, next), heap) ∧
      Holds next heap elements.dropLast := by
  rcases holds.slots with ⟨id, slots, isData, here, isCap, front⟩
  have isSize := holds.size
  have last : slots[vec.size - 1]? = some elements.getLast? := by
    rw [← List.getElem?_take_of_lt (by omega : vec.size - 1 < vec.size), front, List.getElem?_map,
      isSize, ← List.getLast?_eq_getElem?]
    have someElement : elements ≠ [] := by
      rintro rfl
      exact nonempty isSize
    rw [List.getLast?_eq_some_getLast someElement]
    rfl
  refine ⟨{ vec with size := vec.size - 1 }, ?_,
    ⟨?_, le_trans (Nat.sub_le _ _) holds.room, holds.someRoom, id, slots, isData, here, isCap, ?_⟩⟩
  · rw [vecPopBack, isData, FaultM.run_bind (readSlot_eq here last)]
    rfl
  · rw [List.length_dropLast, isSize]
  · have shorter : slots.take (vec.size - 1) = (slots.take vec.size).take (vec.size - 1) := by
      rw [List.take_take, min_eq_left (Nat.sub_le _ _)]
    rw [shorter, front, ← List.map_take, List.dropLast_eq_take, isSize]

end Operations

theorem holds_step {state next : VecState Element} {elements : List Element}
    (holds : Holds state.vec state.heap elements) {op : VecOp Element}
    (stepped : op.step state = some next) : Holds next.vec next.heap (op.apply elements) := by
  cases op with
  | push p =>
      rcases holds.push p with ⟨vec, heap, pushed, holdsNext⟩
      rw [VecOp.step, pushed] at stepped
      cases stepped
      exact holdsNext
  | pop =>
      rw [VecOp.step] at stepped
      split at stepped
      · cases stepped
      · rename_i nonempty
        rcases holds.pop nonempty with ⟨vec, popped, holdsNext⟩
        rw [popped] at stepped
        cases stepped
        exact holdsNext

theorem holds_run {ops : List (VecOp Element)} {state last : VecState Element}
    {elements : List Element} (holds : Holds state.vec state.heap elements)
    (ran : runSteps VecOp.step ops state = some last) :
    Holds last.vec last.heap (ops.foldl (fun elements op => op.apply elements) elements) := by
  induction ops generalizing state elements with
  | nil =>
      cases ran
      exact holds
  | cons op rest induction =>
      rcases (runSteps_cons op rest state last).mp ran with ⟨next, stepped, later⟩
      exact induction (holds_step holds stepped) later

theorem Reached.holds {ops : List (VecOp Element)} {state : VecState Element}
    (reached : Reached ops state) : Holds state.vec state.heap (elementsAfter ops) := by
  rcases reached with ⟨heap, first, starts, ran⟩
  rcases holds_init heap with ⟨vec, after, inits, holdsFirst⟩
  rw [VecState.start, inits] at starts
  cases starts
  exact holds_run holdsFirst ran

/-! ## Iteration -/

/-- What a loop over a vector has done: the indices at which it has read `data`, and the
elements for which its body has run. A slot that does not belong to the vector holds
anything. -/
structure Iteration (Element : Type) where
  reads : List Nat
  bodies : List (Option Element)

structure Cursor (Element : Type) where
  index : Nat
  e : Option Element
  done : Iteration Element

/-- Run the body and read the element for its next round. -/
def Cursor.advance (memory : Nat → Option Element) (index read : Nat) (cursor : Cursor Element) :
    Cursor Element where
  index := index
  e := memory read
  done :=
    { reads := cursor.done.reads ++ [read]
      bodies := cursor.done.bodies ++ [cursor.e] }

/-- `for (size_t _ = 0; v && _ < (v)->size; ++_, e = (v)->data[_])` -/
def forEachLoop (memory : Nat → Option Element) (size : Nat) :
    Loop (Cursor Element) (Iteration Element) where
  body := fun cursor =>
    if cursor.index < size then
      .again (cursor.advance memory (cursor.index + 1) (cursor.index + 1))
    else .finish cursor.done
  rank := fun cursor => size - cursor.index
  decreases := by
    intro cursor next turned
    split at turned
    · cases turned
      simp only [Cursor.advance]
      omega
    · cases turned

/-- `e = v ? (v)->data[0] : NULL;` and the loop. `memory` is what stands at `data`. -/
def vecForEach (memory : Nat → Option Element) (v : Vec) : Iteration Element :=
  (forEachLoop memory v.size).run
    { index := 0, e := memory 0, done := { reads := [0], bodies := [] } }

/-- `for (size_t _ = (v)->size; v && _ > 0; --_, e = (v)->data[_ - 1])` -/
def forEachRLoop (model : DataModel) (memory : Nat → Option Element) :
    Loop (Cursor Element) (Iteration Element) where
  body := fun cursor =>
    if 0 < cursor.index then
      .again (cursor.advance memory (cursor.index - 1)
        (model.toSize ((cursor.index - 1 : Nat) - 1)))
    else .finish cursor.done
  rank := fun cursor => cursor.index
  decreases := by
    intro cursor next turned
    split at turned
    · cases turned
      simp only [Cursor.advance]
      omega
    · cases turned

/-- `e = v ? (v)->data[(v)->size - 1] : NULL;` and the loop. -/
def vecForEachR (model : DataModel) (memory : Nat → Option Element) (v : Vec) :
    Iteration Element :=
  let last := model.toSize (v.size - 1)
  (forEachRLoop model memory).run
    { index := v.size, e := memory last, done := { reads := [last], bodies := [] } }

/-- The body frees the elements. -/
def vecDeepDestroy (memory : Nat → Option Element) (v : Vec) :
    BlockM Element (Iteration Element × Vec) := do
  let freed := vecForEach memory v
  let v ← vecDestroy v
  return (freed, v)

def Sees (memory : Nat → Option Element) (vec : Vec) (heap : Blocks Element) : Prop :=
  ∀ slots, heap.slots vec.data = some slots → ∀ index value, slots[index]? = some value →
    memory index = value

/-- The body runs once for each element in their order, and only slots of elements are
read. -/
structure IteratesInside (iteration : Iteration Element) (size : Nat)
    (elements : List Element) : Prop where
  bodies : iteration.bodies = elements.map some
  reads : ∀ index, index ∈ iteration.reads → index < size

structure StaysInside (model : DataModel) (state : VecState Element)
    (elements : List Element) : Prop where
  holds : Holds state.vec state.heap elements
  forEach : ∀ memory, Sees memory state.vec state.heap →
    IteratesInside (vecForEach memory state.vec) state.vec.size elements
  forEachR : ∀ memory, Sees memory state.vec state.heap →
    IteratesInside (vecForEachR model memory state.vec) state.vec.size elements.reverse
  deepDestroy : ∀ memory, Sees memory state.vec state.heap →
    ∃ freed vec heap, vecDeepDestroy memory state.vec state.heap = some ((freed, vec), heap) ∧
      IteratesInside freed state.vec.size elements

section Iterations

variable {memory : Nat → Option Element} {vec : Vec} {heap : Blocks Element}
  {elements : List Element}

theorem forEachLoop_run (memory : Nat → Option Element) (size left : Nat) :
    ∀ (index : Nat) (done : Iteration Element), index + left = size →
      (forEachLoop memory size).run { index, e := memory index, done } =
        { reads := done.reads ++ List.range' (index + 1) left
          bodies := done.bodies ++ (List.range' index left).map memory } := by
  induction left with
  | zero =>
      rintro index done rfl
      rw [Loop.run_of_finish _ (if_neg (Nat.lt_irrefl _))]
      simp
  | succ left induction =>
      intro index done isSize
      have goesOn : (forEachLoop memory size).body { index, e := memory index, done } =
          .again
            { index := index + 1
              e := memory (index + 1)
              done :=
                { reads := done.reads ++ [index + 1]
                  bodies := done.bodies ++ [memory index] } } :=
        if_pos (by dsimp only; omega)
      rw [Loop.run_of_again _ goesOn, induction _ _ (by omega)]
      simp [List.range'_succ]

/-- The loop reads the slot behind the last element as well. -/
theorem vecForEach_eq (memory : Nat → Option Element) (vec : Vec) :
    vecForEach memory vec =
      { reads := List.range (vec.size + 1)
        bodies := (List.range vec.size).map memory } := by
  rw [vecForEach, forEachLoop_run memory vec.size vec.size 0 _ (Nat.zero_add _)]
  simp [List.range_eq_range', List.range'_succ]

theorem Holds.memory_eq (holds : Holds vec heap elements) (sees : Sees memory vec heap) :
    (List.range vec.size).map memory = elements.map some := by
  rcases holds.slots with ⟨id, slots, isData, here, isCap, front⟩
  have room := holds.room
  rw [← front]
  apply List.ext_getElem
  · simp only [List.length_map, List.length_range, List.length_take]
    omega
  · intro index inside insideToo
    rw [List.getElem_map, List.getElem_range, List.getElem_take]
    have early : index < slots.length := by
      rw [List.length_map, List.length_range] at inside
      omega
    refine sees slots ?_ index _ (List.getElem?_eq_getElem early)
    rw [isData, Blocks.slots_some, here]

/-- The body of `vec_for_each` runs for the elements in order. -/
theorem Holds.forEach_bodies (holds : Holds vec heap elements) (sees : Sees memory vec heap) :
    (vecForEach memory vec).bodies = elements.map some := by
  rw [vecForEach_eq]
  exact holds.memory_eq sees

/-- `vec_for_each` reads past the allocated slots exactly when the vector is full. -/
theorem Holds.forEach_leaves_iff (holds : Holds vec heap elements) :
    (∃ index, index ∈ (vecForEach memory vec).reads ∧ vec.cap ≤ index) ↔ vec.size = vec.cap := by
  have room := holds.room
  simp only [vecForEach_eq, List.mem_range]
  constructor
  · rintro ⟨index, early, late⟩
    omega
  · intro full
    exact ⟨vec.size, Nat.lt_succ_self _, full.ge⟩

theorem forEachRLoop_run (model : DataModel) (memory : Nat → Option Element) (index : Nat) :
    ∀ (e : Option Element) (done : Iteration Element), index ≤ 2 ^ model.sizeBits →
      (0 < index → e = memory (index - 1)) →
      (forEachRLoop model memory).run { index, e, done } =
        { reads := done.reads ++
            (List.range index).reverse.map fun other : Nat => model.toSize ((other : Int) - 1)
          bodies := done.bodies ++ (List.range index).reverse.map memory } := by
  induction index with
  | zero =>
      intro e done small isElement
      have ends : (forEachRLoop model memory).body { index := 0, e, done } = .finish done := by
        simp [forEachRLoop]
      rw [Loop.run_of_finish _ ends]
      simp
  | succ index induction =>
      intro e done small isElement
      have goesOn : (forEachRLoop model memory).body { index := index + 1, e, done } =
          .again
            { index := index
              e := memory (model.toSize ((index : Int) - 1))
              done :=
                { reads := done.reads ++ [model.toSize ((index : Int) - 1)]
                  bodies := done.bodies ++ [e] } } := by
        simp [forEachRLoop, Cursor.advance]
      have nextElement : 0 < index → memory (model.toSize ((index : Int) - 1)) =
          memory (index - 1) := by
        intro positive
        have before : (index : Int) - 1 = (index - 1 : Nat) := by omega
        rw [before, model.toSize_of_lt (by omega)]
      rw [Loop.run_of_again _ goesOn, induction _ _ (by omega) nextElement,
        isElement (Nat.succ_pos index)]
      simp [List.range_succ]

/-- The body of `vec_for_each_r` runs for the elements from the last to the first. -/
theorem Holds.forEachR_bodies (model : DataModel) (holds : Holds vec heap elements)
    (small : vec.size ≤ 2 ^ model.sizeBits) (sees : Sees memory vec heap) :
    (vecForEachR model memory vec).bodies = elements.reverse.map some := by
  have lastElement : 0 < vec.size → memory (model.toSize ((vec.size : Int) - 1)) =
      memory (vec.size - 1) := by
    intro positive
    have before : (vec.size : Int) - 1 = (vec.size - 1 : Nat) := by omega
    rw [before, model.toSize_of_lt (by omega)]
  rw [vecForEachR, forEachRLoop_run model memory vec.size _ _ small lastElement]
  dsimp only
  rw [List.nil_append, List.map_reverse, holds.memory_eq sees, List.map_reverse]

end Iterations

/-- Whatever has been pushed and popped, the loop reads the slot behind the elements. -/
theorem iteration_leaves_elements (model : DataModel) {ops : List (VecOp Element)}
    {state : VecState Element} (reached : Reached ops state) :
    ¬StaysInside model state (elementsAfter ops) := by
  intro inside
  rcases reached.holds.slots with ⟨id, slots, isData, here, -, -⟩
  let memory : Nat → Option Element := fun index => (slots[index]?).join
  have sees : Sees memory state.vec state.heap := by
    intro found isFound index value isValue
    rw [isData, Blocks.slots_some, here, Option.some.injEq] at isFound
    subst isFound
    simp only [memory, isValue, Option.join_some]
  have readsInside := (inside.forEach memory sees).reads
  rw [vecForEach_eq] at readsInside
  exact absurd (readsInside state.vec.size (List.mem_range.mpr (Nat.lt_succ_self _)))
    (Nat.lt_irrefl _)

def oneElement : VecState Nat where
  vec := { size := 1, cap := 1, data := some 0 }
  heap :=
    (Blocks.add { block := fun _ => none, fresh := 0, unused := fun _ _ => rfl } [none]).put 0
      [some 7]

theorem oneElement_reached : Reached [.push 7] oneElement :=
  ⟨{ block := fun _ => none, fresh := 0, unused := fun _ _ => rfl }, _, rfl, rfl⟩

theorem oneElement_leaves : ¬StaysInside .lp64 oneElement [7] :=
  iteration_leaves_elements .lp64 oneElement_reached

/-- The second slot of a vector with one slot is read. -/
theorem oneElement_reads : oneElement.vec.cap = 1 ∧
    (vecForEach (fun index => if index = 0 then some 7 else none) oneElement.vec).reads = [0, 1] ∧
    ¬StaysInside .lp64 oneElement [7] := by
  have reads : (vecForEach (fun index => if index = 0 then some 7 else none)
      oneElement.vec).reads = [0, 1] := by decide
  refine ⟨rfl, reads, fun inside => ?_⟩
  have sees : Sees (fun index => if index = 0 then some 7 else none) oneElement.vec
      oneElement.heap := by
    intro slots isSlots index value isValue
    cases isSlots
    match index with
    | 0 => exact Option.some.inj isValue
    | index + 1 => cases isValue
  have readsInside := (inside.forEach _ sees).reads
  rw [reads] at readsInside
  exact absurd (readsInside 1 (by decide)) (by decide)

/-! ## Copies -/

inductive PairOp (Element : Type)
  | original (op : VecOp Element)
  | copy (op : VecOp Element)

structure PairState (Element : Type) where
  original : Vec
  copy : Vec
  heap : Blocks Element

def PairOp.step : PairOp Element → PairState Element → Option (PairState Element)
  | .original op, state =>
      (op.step ⟨state.original, state.heap⟩).map fun next => ⟨next.vec, state.copy, next.heap⟩
  | .copy op, state =>
      (op.step ⟨state.copy, state.heap⟩).map fun next => ⟨state.original, next.vec, next.heap⟩

def VecOp.listStep : VecOp Element → List Element → Option (List Element)
  | .push p, elements => some (elements ++ [p])
  | .pop, elements => if elements = [] then none else some elements.dropLast

def PairOp.listStep : PairOp Element → List Element × List Element →
    Option (List Element × List Element)
  | .original op, lists => (op.listStep lists.1).map fun next => (next, lists.2)
  | .copy op, lists => (op.listStep lists.2).map fun next => (lists.1, next)

/-- What `vec_dup` is for, given what stands in the `data` of the new structure: the copy
and the vector hold the elements, and from then on they are two lists. -/
structure Duplicates (garbage : BlockPointer) (state : VecState Element)
    (elements : List Element) (pair : PairState Element) : Prop where
  ran : vecDup garbage state.vec state.heap = some ((pair.copy, pair.original), pair.heap)
  copy : Holds pair.copy pair.heap elements
  original : Holds pair.original pair.heap elements
  sameSize : pair.original.size = state.vec.size
  sameCap : pair.original.cap = state.vec.cap
  independent : ∀ ops lists, runSteps PairOp.listStep ops (elements, elements) = some lists →
    ∃ last, runSteps PairOp.step ops pair = some last ∧ Holds last.original last.heap lists.1 ∧
      Holds last.copy last.heap lists.2

/-- The copy is right, whatever the memory holds that `malloc` returns. -/
def DupCorrect (state : VecState Element) (elements : List Element) : Prop :=
  ∀ garbage, ∃ pair, Duplicates garbage state elements pair

section Copies

variable {ops : List (VecOp Element)} {state : VecState Element} {pair : PairState Element}
  {garbage : BlockPointer} {elements : List Element}

/-- A vector with elements has lost them after `vec_dup`, wherever the copy points. -/
theorem Holds.dup_loses (holds : Holds state.vec state.heap elements) (someElement : elements ≠ [])
    (ran : vecDup garbage state.vec state.heap = some ((pair.copy, pair.original), pair.heap)) :
    ¬Holds pair.original pair.heap elements := by
  rcases FaultM.bind_some.mp ran with ⟨data, allocated, allocates, ran⟩
  cases allocates
  rcases FaultM.bind_some.mp ran with ⟨_, copied, copies, ran⟩
  rcases memcpy_some copies with ⟨target, old, slots, isTarget, isOld, isSource, room, isCopied⟩
  have isSlots : slots = List.replicate state.vec.cap none := by
    rw [Blocks.slots_some, Blocks.block_add, Option.some.injEq] at isSource
    exact isSource.symm
  have undefined : copied.block state.heap.fresh =
      some (List.replicate state.vec.cap none) := by
    rw [isCopied]
    by_cases same : target = state.heap.fresh
    · rw [same, Blocks.block_add, Option.some.injEq] at isOld
      rw [same, Blocks.block_put (Blocks.block_add _ _), isSlots, ← isOld]
      simp
    · rw [Blocks.block_put_of_ne (Ne.symm same), Blocks.block_add]
  have results := FaultM.pure_some.mp ran
  rw [Prod.mk.injEq, Prod.mk.injEq] at results
  rcases results with ⟨⟨-, isOriginal⟩, isHeap⟩
  intro kept
  rw [isOriginal, isHeap] at kept
  rcases kept.slots with ⟨id, found, isData, here, -, front⟩
  obtain rfl : state.heap.fresh = id := Option.some.inj isData
  rw [undefined, Option.some.injEq] at here
  rw [← here, List.take_replicate] at front
  rcases List.exists_cons_of_ne_nil someElement with ⟨first, others, rfl⟩
  have member : some first ∈ List.replicate (min state.vec.size state.vec.cap) none :=
    front ▸ List.mem_cons_self
  cases List.eq_of_mem_replicate member

/-- No vector is copied: `vec_dup` assigns the new block to the vector itself, and copies
to where the new structure happens to point. A vector with elements is lost wherever that
is. -/
theorem dup_never_correct (reached : Reached ops state) :
    ¬DupCorrect state (elementsAfter ops) ∧
      (elementsAfter ops ≠ [] → ∀ garbage pair,
        ¬Duplicates garbage state (elementsAfter ops) pair) := by
  constructor
  · intro correct
    rcases correct none with ⟨pair, duplicates⟩
    rcases FaultM.bind_some.mp duplicates.ran with ⟨data, allocated, -, ran⟩
    rcases FaultM.bind_some.mp ran with ⟨_, copied, copies, -⟩
    cases copies
  · intro someElement garbage pair duplicates
    exact reached.holds.dup_loses someElement duplicates.ran duplicates.original

end Copies

theorem oneElement_dup_never_correct : ¬DupCorrect oneElement [7] ∧
    ∀ garbage pair, ¬Duplicates garbage oneElement [7] pair := by
  have never := dup_never_correct oneElement_reached
  exact ⟨never.1, never.2 (by decide)⟩

/-- With an address that belongs to no block in the new structure, `memcpy` faults. -/
theorem oneElement_dup_faults : vecDup none oneElement.vec oneElement.heap = none ∧
    ¬DupCorrect oneElement [7] := by
  have faults : vecDup none oneElement.vec oneElement.heap = none := rfl
  refine ⟨faults, fun correct => ?_⟩
  rcases correct none with ⟨pair, duplicates⟩
  cases faults.symm.trans duplicates.ran

end SuBinary.Utils
