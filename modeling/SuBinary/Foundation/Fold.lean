import Mathlib

/-! # Rules for loops over lists -/

namespace SuBinary

/-- A property that each step can only add to holds at the end of a fold when
it held at the start or some step added it. -/
theorem foldl_iff_exists {State Item : Type} (Holds : State → Prop)
    {step : State → Item → State} {Adds : Item → Prop} (items : List Item)
    (stepIff : ∀ state item, item ∈ items →
      (Holds (step state item) ↔ Holds state ∨ Adds item)) (state : State) :
    Holds (items.foldl step state) ↔ Holds state ∨ ∃ item, item ∈ items ∧ Adds item := by
  induction items generalizing state with
  | nil => simp
  | cons head tail induction =>
      have tailIff := fun state item member => stepIff state item (List.mem_cons_of_mem head member)
      rw [List.foldl_cons, induction tailIff, stepIff state head List.mem_cons_self]
      simp only [List.mem_cons, exists_eq_or_imp]
      tauto

theorem foldl_keeps {State Item Value : Type} (value : State → Value)
    {step : State → Item → State} (items : List Item)
    (kept : ∀ state item, item ∈ items → value (step state item) = value state)
    (state : State) : value (items.foldl step state) = value state := by
  induction items generalizing state with
  | nil => rfl
  | cons head tail induction =>
      have tailKept := fun state item member => kept state item (List.mem_cons_of_mem head member)
      rw [List.foldl_cons, induction tailKept, kept state head List.mem_cons_self]

theorem foldl_stays {State Item : Type} {step : State → Item → State} (items : List Item)
    {state : State} (stays : ∀ item, item ∈ items → step state item = state) :
    items.foldl step state = state := by
  induction items with
  | nil => rfl
  | cons head tail induction =>
      rw [List.foldl_cons, stays head List.mem_cons_self]
      exact induction fun item member => stays item (List.mem_cons_of_mem head member)

/-- One idempotent find-or-insert at every key of a list: repetitions in the
list and the order of its keys make no difference. -/
theorem foldl_upsert {Table Key Datum : Type} [DecidableEq Key]
    (data : Table → Key → List Datum) (step : Table → Key → Table)
    {initial : Datum} {change : Datum → Datum}
    (idempotent : ∀ datum, change (change datum) = change datum)
    (upserts : ∀ table key other, data (step table key) other =
      if key = other then
        change ((data table other).headD initial) :: (data table other).tail
      else data table other)
    (keys : List Key) (table : Table) (key : Key) :
    data (keys.foldl step table) key =
      if key ∈ keys then change ((data table key).headD initial) :: (data table key).tail
      else data table key := by
  induction keys generalizing table with
  | nil => simp
  | cons head rest induction =>
      rw [List.foldl_cons, induction, upserts]
      by_cases atHead : head = key
      · by_cases later : key ∈ rest
        · simp [atHead, later, idempotent]
        · simp [atHead, later]
      · simp [atHead, Ne.symm atHead]

/-! ## Accumulation -/

/-- A way of adding items to a state for which neither the order of the items
nor their repetition makes a difference. -/
structure Accumulates {State Item : Type} (add : State → Item → State) : Prop where
  commutes : ∀ state first second, add (add state first) second = add (add state second) first
  idempotent : ∀ state item, add (add state item) item = add state item

namespace Accumulates

variable {State Item : Type} {add : State → Item → State} (accumulates : Accumulates add)

include accumulates

theorem foldl_add (items : List Item) (state : State) (item : Item) :
    add (items.foldl add state) item = items.foldl add (add state item) := by
  induction items generalizing state with
  | nil => rfl
  | cons head tail induction =>
      rw [List.foldl_cons, List.foldl_cons, induction, accumulates.commutes]

theorem add_of_mem {items : List Item} {item : Item} (member : item ∈ items) (state : State) :
    add (items.foldl add state) item = items.foldl add state := by
  rcases List.append_of_mem member with ⟨front, back, rfl⟩
  rw [List.foldl_append, List.foldl_cons, accumulates.foldl_add, accumulates.idempotent]

theorem foldl_perm {first second : List Item} (permuted : first.Perm second) (state : State) :
    first.foldl add state = second.foldl add state :=
  permuted.foldl_eq' (fun a _ b _ state => accumulates.commutes state a b) state

theorem foldl_absorbs {items others : List Item} (members : ∀ item, item ∈ others → item ∈ items)
    (state : State) : others.foldl add (items.foldl add state) = items.foldl add state :=
  foldl_stays others fun item member => accumulates.add_of_mem (members item member) state

theorem foldl_eq_of_same_members {first second : List Item}
    (sameMembers : ∀ item, item ∈ first ↔ item ∈ second) (state : State) :
    first.foldl add state = second.foldl add state := by
  calc
    first.foldl add state = (first ++ second).foldl add state := by
      rw [List.foldl_append, accumulates.foldl_absorbs fun item => (sameMembers item).mpr]
    _ = (second ++ first).foldl add state := accumulates.foldl_perm List.perm_append_comm state
    _ = second.foldl add state := by
      rw [List.foldl_append, accumulates.foldl_absorbs fun item => (sameMembers item).mp]

theorem comap {Source : Type} (item : Source → Item) :
    Accumulates fun state source => add state (item source) where
  commutes state first second := accumulates.commutes state (item first) (item second)
  idempotent state source := accumulates.idempotent state (item source)

theorem lists : Accumulates fun state (items : List Item) => items.foldl add state where
  commutes state first second := by
    rw [← List.foldl_append, ← List.foldl_append]
    exact accumulates.foldl_perm List.perm_append_comm state
  idempotent state items := accumulates.foldl_absorbs (fun _ member => member) state

end Accumulates

/-! ## Overwriting -/

/-- A way of changing a state for which an item makes no difference where it comes
again later. -/
structure Overwrites {State Item : Type} (step : State → Item → State) : Prop where
  idempotent : ∀ state item, step (step state item) item = step state item
  absorbs : ∀ state item later,
    step (step (step state item) later) item = step (step state later) item

theorem Accumulates.overwrites {State Item : Type} {add : State → Item → State}
    (accumulates : Accumulates add) : Overwrites add where
  idempotent := accumulates.idempotent
  absorbs state item later := by
    rw [accumulates.commutes state item later, accumulates.idempotent]

namespace Overwrites

variable {State Item : Type} {step : State → Item → State} (overwrites : Overwrites step)

include overwrites

theorem step_absorbs (items : List Item) (state : State) (item : Item) :
    step (items.foldl step (step state item)) item = step (items.foldl step state) item := by
  induction items using List.reverseRecOn with
  | nil => exact overwrites.idempotent state item
  | append_singleton items last induction =>
      simp only [List.foldl_append, List.foldl_cons, List.foldl_nil]
      rw [← overwrites.absorbs (items.foldl step (step state item)) item last, induction,
        overwrites.absorbs]

theorem foldl_absorbs {items later : List Item} (members : ∀ item, item ∈ items → item ∈ later)
    (state : State) : later.foldl step (items.foldl step state) = later.foldl step state := by
  induction items generalizing state with
  | nil => rfl
  | cons head rest induction =>
      rw [List.foldl_cons,
        induction fun item member => members item (List.mem_cons_of_mem _ member)]
      rcases List.append_of_mem (members head List.mem_cons_self) with ⟨front, back, rfl⟩
      simp only [List.foldl_append, List.foldl_cons]
      rw [overwrites.step_absorbs]

theorem foldl_idempotent (items : List Item) (state : State) :
    items.foldl step (items.foldl step state) = items.foldl step state :=
  overwrites.foldl_absorbs (fun _ member => member) state

theorem comap {Source : Type} (item : Source → Item) :
    Overwrites fun state source => step state (item source) where
  idempotent state source := overwrites.idempotent state (item source)
  absorbs state source later := overwrites.absorbs state (item source) (item later)

theorem lists : Overwrites fun state (items : List Item) => items.foldl step state where
  idempotent state items := overwrites.foldl_idempotent items state
  absorbs state items later := by
    have members : ∀ item, item ∈ items → item ∈ later ++ items :=
      fun item member => List.mem_append_right later member
    simpa only [List.foldl_append] using overwrites.foldl_absorbs members state

end Overwrites

end SuBinary
