import Mathlib

/-! # Loops

A `while` loop as its body together with the reason why it ends, so that
running it needs no bound.
-/

namespace SuBinary

inductive Turn (State Result : Type)
  | again (state : State)
  | finish (result : Result)

structure Loop (State Result : Type) where
  body : State → Turn State Result
  rank : State → Nat
  decreases : ∀ state next, body state = .again next → rank next < rank state

namespace Loop

variable {State Result : Type} (loop : Loop State Result)

def runFrom : (fuel : Nat) → (state : State) → loop.rank state < fuel → Result
  | 0, _, enough => absurd enough (Nat.not_lt_zero _)
  | fuel + 1, state, enough =>
      match turn : loop.body state with
      | .finish result => result
      | .again next =>
          runFrom fuel next
            (Nat.lt_of_lt_of_le (loop.decreases state next turn) (Nat.le_of_lt_succ enough))

def run (state : State) : Result :=
  loop.runFrom (loop.rank state + 1) state (Nat.lt_succ_self _)

theorem runFrom_eq_runFrom (fuel : Nat) : ∀ (state : State) (enough : loop.rank state < fuel)
    (other : Nat) (enoughToo : loop.rank state < other),
    loop.runFrom fuel state enough = loop.runFrom other state enoughToo := by
  induction fuel with
  | zero => exact fun state enough => absurd enough (Nat.not_lt_zero _)
  | succ fuel induction =>
      intro state enough other enoughToo
      cases other with
      | zero => exact absurd enoughToo (Nat.not_lt_zero _)
      | succ other =>
          simp only [runFrom]
          split
          · rfl
          · exact induction _ _ _ _

theorem run_of_finish {state : State} {result : Result}
    (turn : loop.body state = .finish result) : loop.run state = result := by
  simp only [run, runFrom]
  split
  · rename_i turned
    rw [turn] at turned
    cases turned
    rfl
  · rename_i turned
    rw [turn] at turned
    cases turned

theorem run_of_again {state next : State} (turn : loop.body state = .again next) :
    loop.run state = loop.run next := by
  conv_lhs => simp only [run, runFrom]
  split
  · rename_i turned
    rw [turn] at turned
    cases turned
  · rename_i turned
    rw [turn] at turned
    cases turned
    exact loop.runFrom_eq_runFrom _ _ _ _ _

theorem run_congr {state other : State} (alike : loop.body state = loop.body other) :
    loop.run state = loop.run other := by
  cases turn : loop.body other with
  | finish result => rw [loop.run_of_finish turn, loop.run_of_finish (alike.trans turn)]
  | again next => rw [loop.run_of_again turn, loop.run_of_again (alike.trans turn)]

/-- Induction along a run: what holds where the loop ends and passes backwards
through its body holds of every state. -/
theorem run_induction {Motive : State → Prop}
    (finish : ∀ state result, loop.body state = .finish result → Motive state)
    (again : ∀ state next, loop.body state = .again next → Motive next → Motive state)
    (state : State) : Motive state := by
  induction bound : loop.rank state using Nat.strongRecOn generalizing state with
  | _ rank induction =>
      subst bound
      cases turn : loop.body state with
      | finish result => exact finish state result turn
      | again next =>
          exact again state next turn
            (induction _ (loop.decreases state next turn) next rfl)

theorem run_invariant {Invariant : State → Prop} {Post : Result → Prop}
    (again : ∀ state next, Invariant state → loop.body state = .again next →
      Invariant next)
    (finish : ∀ state result, Invariant state → loop.body state = .finish result →
      Post result)
    (state : State) (holds : Invariant state) : Post (loop.run state) := by
  induction state using loop.run_induction with
  | finish state result turn =>
      rw [loop.run_of_finish turn]
      exact finish state result holds turn
  | again state next turn induction =>
      rw [loop.run_of_again turn]
      exact induction (again state next holds turn)

inductive Reaches (body : State → Turn State Result) : Nat → State → State → Prop
  | refl (state : State) : Reaches body 0 state state
  | step {count : Nat} {state middle next : State} (earlier : Reaches body count state middle)
      (turn : body middle = .again next) : Reaches body (count + 1) state next

theorem Reaches.cons {body : State → Turn State Result} {count : Nat} {state middle next : State}
    (turn : body state = .again middle) (later : Reaches body count middle next) :
    Reaches body (count + 1) state next := by
  induction later with
  | refl => exact (Reaches.refl state).step turn
  | step earlier again induction => exact (induction turn).step again

end Loop

end SuBinary
