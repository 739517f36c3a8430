import Mathlib

/-! # Runs of a machine

A machine takes one operation after the other; an operation can also end it.
-/

namespace SuBinary

variable {Op State : Type} (step : Op → State → Option State)

def runSteps (ops : List Op) (state : State) : Option State :=
  ops.foldlM (fun state op => step op state) state

def Along (Cond : Op → State → Prop) : List Op → State → Prop
  | [], _ => True
  | op :: rest, state =>
      Cond op state ∧ ∀ next, step op state = some next → Along Cond rest next

def Throughout (Holds : State → Prop) : List Op → State → Prop
  | [], state => Holds state
  | op :: rest, state =>
      Holds state ∧ ∀ next, step op state = some next → Throughout Holds rest next

variable {step}

theorem runSteps_cons (op : Op) (rest : List Op) (state last : State) :
    runSteps step (op :: rest) state = some last ↔
      ∃ next, step op state = some next ∧ runSteps step rest next = some last := by
  rw [runSteps, List.foldlM_cons]
  exact Option.bind_eq_some_iff

theorem runSteps_append (first second : List Op) (state : State) :
    runSteps step (first ++ second) state =
      (runSteps step first state).bind (runSteps step second) := by
  rw [runSteps, List.foldlM_append]
  rfl

theorem runSteps_concat (ops : List Op) (op : Op) (state : State) :
    runSteps step (ops ++ [op]) state = (runSteps step ops state).bind (step op) := by
  rw [runSteps_append]
  congr 1
  funext next
  rw [runSteps, List.foldlM_cons]
  exact bind_pure _

theorem runSteps_map {Source : Type} (op : Source → Op) (sources : List Source) (state : State) :
    runSteps step (sources.map op) state = runSteps (fun source => step (op source)) sources state :=
  List.foldlM_map

theorem runSteps_congr {other : Op → State → Option State} {ops : List Op}
    (same : ∀ op, op ∈ ops → ∀ state, step op state = other op state) {state : State} :
    runSteps step ops state = runSteps other ops state := by
  induction ops generalizing state with
  | nil => rfl
  | cons op rest induction =>
      rw [runSteps, runSteps, List.foldlM_cons, List.foldlM_cons,
        same op List.mem_cons_self state]
      apply bind_congr
      intro next
      exact induction fun later member => same later (List.mem_cons_of_mem op member)

theorem along_of_forall {Cond : Op → State → Prop} {ops : List Op}
    (allowed : ∀ op, op ∈ ops → ∀ state, Cond op state) (state : State) :
    Along step Cond ops state := by
  induction ops generalizing state with
  | nil => trivial
  | cons op rest induction =>
      refine ⟨allowed op List.mem_cons_self state, fun next _ => ?_⟩
      exact induction (fun later member => allowed later (List.mem_cons_of_mem op member)) next

theorem runSteps_invariant {Inv : State → Prop} {Cond : Op → State → Prop}
    (preserved : ∀ op state next, Inv state → Cond op state → step op state = some next →
      Inv next)
    (ops : List Op) {state last : State} (holds : Inv state) (along : Along step Cond ops state)
    (ran : runSteps step ops state = some last) : Inv last := by
  induction ops generalizing state with
  | nil =>
      cases ran
      exact holds
  | cons op rest induction =>
      rcases (runSteps_cons op rest state last).mp ran with ⟨next, stepped, later⟩
      exact induction (preserved op state next holds along.1 stepped) (along.2 next stepped) later

/-- A property that an operation preserves exactly under a condition holds
throughout a run exactly when each operation meets the condition. -/
theorem throughout_iff_along {Inv : State → Prop} {Cond : Op → State → Prop}
    (preservedIff : ∀ op state, Inv state →
      ((∀ next, step op state = some next → Inv next) ↔ Cond op state))
    (ops : List Op) {state : State} (holds : Inv state) :
    Throughout step Inv ops state ↔ Along step Cond ops state := by
  induction ops generalizing state with
  | nil => exact iff_of_true holds trivial
  | cons op rest induction =>
      have first : ∀ next, Throughout step Inv rest next → Inv next := by
        intro next throughout
        cases rest with
        | nil => exact throughout
        | cons second later => exact throughout.1
      constructor
      · rintro ⟨-, later⟩
        have kept : ∀ next, step op state = some next → Inv next :=
          fun next stepped => first next (later next stepped)
        exact ⟨(preservedIff op state holds).mp kept,
          fun next stepped => (induction (kept next stepped)).mp (later next stepped)⟩
      · rintro ⟨allowed, later⟩
        have kept := (preservedIff op state holds).mpr allowed
        exact ⟨holds, fun next stepped => (induction (kept next stepped)).mpr (later next stepped)⟩

/-- What each operation preserves under a condition, and what follows for good
from an operation that does not meet it. -/
theorem runSteps_dichotomy {Inv Lost : State → Prop} {Cond : Op → State → Prop}
    (preserved : ∀ op state next, Inv state → Cond op state → step op state = some next →
      Inv next)
    (loses : ∀ op state next, Inv state → ¬Cond op state → step op state = some next → Lost next)
    (stays : ∀ op state next, Lost state → step op state = some next → Lost next)
    (ops : List Op) {state last : State} (holds : Inv state)
    (ran : runSteps step ops state = some last) :
    (Along step Cond ops state → Inv last) ∧ (¬Along step Cond ops state → Lost last) := by
  have staysLost : ∀ rest next, Lost next → runSteps step rest next = some last → Lost last :=
    fun rest next lost later => runSteps_invariant
      (fun op state next lost _ stepped => stays op state next lost stepped) rest lost
      (along_of_forall (fun _ _ _ => trivial) next) later
  induction ops generalizing state with
  | nil =>
      cases ran
      exact ⟨fun _ => holds, fun violated => absurd trivial violated⟩
  | cons op rest induction =>
      rcases (runSteps_cons op rest state last).mp ran with ⟨next, stepped, later⟩
      by_cases meets : Cond op state
      · have fromNext := induction (preserved op state next holds meets stepped) later
        refine ⟨fun along => fromNext.1 (along.2 next stepped), fun violated => ?_⟩
        apply fromNext.2
        intro along
        apply violated
        refine ⟨meets, fun other otherStepped => ?_⟩
        cases stepped.symm.trans otherStepped
        exact along
      · exact ⟨fun along => absurd along.1 meets,
          fun _ => staysLost rest next (loses op state next holds meets stepped) later⟩

theorem runSteps_simulates {Abstract : Type} {Follows : State → Abstract → Prop}
    {act : Abstract → Op → Abstract}
    (steps : ∀ op state abstract, Follows state abstract →
      ∃ next, step op state = some next ∧ Follows next (act abstract op))
    (ops : List Op) {state : State} {abstract : Abstract} (follows : Follows state abstract) :
    ∃ last, runSteps step ops state = some last ∧ Follows last (ops.foldl act abstract) := by
  induction ops generalizing state abstract with
  | nil => exact ⟨state, rfl, follows⟩
  | cons op rest induction =>
      rcases steps op state abstract follows with ⟨next, stepped, followsNext⟩
      rcases induction followsNext with ⟨last, ran, followsLast⟩
      exact ⟨last, (runSteps_cons op rest state last).mpr ⟨next, stepped, ran⟩, followsLast⟩

/-- A run seen through a view that each operation acts on, unless it ends the
machine. -/
theorem runSteps_view {View : Type} {Ends : Op → Prop} (Inv : State → Prop) (view : State → View)
    (act : View → Op → View) (ops : List Op)
    (ends : ∀ op, op ∈ ops → Ends op → ∀ state, Inv state → step op state = none)
    (acts : ∀ op, op ∈ ops → ¬Ends op → ∀ state, Inv state →
      ∃ next, step op state = some next ∧ Inv next ∧ view next = act (view state) op)
    {state : State} (holds : Inv state) :
    ((∃ op, op ∈ ops ∧ Ends op) → runSteps step ops state = none) ∧
      ((∀ op, op ∈ ops → ¬Ends op) → ∃ last, runSteps step ops state = some last ∧ Inv last ∧
        view last = ops.foldl act (view state)) := by
  induction ops generalizing state with
  | nil =>
      refine ⟨?_, fun _ => ⟨state, rfl, holds, rfl⟩⟩
      rintro ⟨op, member, -⟩
      cases member
  | cons op rest induction =>
      have endsLater := fun other member => ends other (List.mem_cons_of_mem op member)
      have actsLater := fun other member => acts other (List.mem_cons_of_mem op member)
      by_cases ending : Ends op
      · have stopped : runSteps step (op :: rest) state = none := by
          rw [runSteps, List.foldlM_cons, ends op List.mem_cons_self ending state holds]
          rfl
        exact ⟨fun _ => stopped, fun noEnd => absurd ending (noEnd op List.mem_cons_self)⟩
      · rcases acts op List.mem_cons_self ending state holds with ⟨next, stepped, kept, viewed⟩
        have unfolded : runSteps step (op :: rest) state = runSteps step rest next := by
          rw [runSteps, List.foldlM_cons, stepped]
          rfl
        rw [unfolded, List.foldl_cons, ← viewed]
        constructor
        · rintro ⟨other, member, endsOther⟩
          rcases List.mem_cons.mp member with rfl | inRest
          · exact absurd endsOther ending
          · exact (induction endsLater actsLater kept).1 ⟨other, inRest, endsOther⟩
        · intro noEnd
          exact (induction endsLater actsLater kept).2
            fun other member => noEnd other (List.mem_cons_of_mem op member)

theorem runSteps_lastWrite {Value : Type} {Inv : State → Prop} {value : State → Value}
    {writes : Op → Option Value} {ops : List Op}
    (steps : ∀ op, op ∈ ops → ∀ state next, Inv state → step op state = some next →
      Inv next ∧ value next = (writes op).getD (value state))
    {state last : State} (holds : Inv state) (ran : runSteps step ops state = some last) :
    Inv last ∧ value last = (ops.filterMap writes).getLast?.getD (value state) := by
  induction ops generalizing state with
  | nil =>
      cases ran
      exact ⟨holds, rfl⟩
  | cons op rest induction =>
      rcases (runSteps_cons op rest state last).mp ran with ⟨next, stepped, later⟩
      rcases steps op List.mem_cons_self state next holds stepped with ⟨kept, written⟩
      rcases induction (fun other member => steps other (List.mem_cons_of_mem op member)) kept
        later with ⟨holdsLast, isLast⟩
      refine ⟨holdsLast, ?_⟩
      rw [isLast, written]
      cases isWrite : writes op with
      | none => rw [List.filterMap_cons_none isWrite, Option.getD_none]
      | some written =>
          rw [List.filterMap_cons_some isWrite, List.getLast?_cons, Option.getD_some,
            Option.getD_some]

end SuBinary
