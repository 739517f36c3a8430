import Mathlib

/-! # Chains in the order of a comparison function

Entries of a chain ascend by a comparison in the style of `strcmp`. A walk for a key passes the
smaller entries and ends at the first one that is not smaller.
-/

namespace SuBinary.SortedChain

structure Orders (keycmp : Key → Key → Int) : Prop where
  same : ∀ first second, keycmp first second = 0 ↔ first = second
  opposite : ∀ first second, 0 < keycmp first second ↔ keycmp second first < 0
  transitive : ∀ first second third, 0 < keycmp first second → 0 < keycmp second third →
    0 < keycmp first third

variable {Key Datum : Type} (keycmp : Key → Key → Int)

def Ascending (chain : List (Key × Datum)) : Prop :=
  chain.Pairwise fun earlier later => 0 < keycmp later.1 earlier.1

def passed (key : Key) (chain : List (Key × Datum)) : List (Key × Datum) :=
  chain.takeWhile fun entry => 0 < keycmp key entry.1

def reached (key : Key) (chain : List (Key × Datum)) : List (Key × Datum) :=
  chain.dropWhile fun entry => 0 < keycmp key entry.1

theorem passed_append_reached (key : Key) (chain : List (Key × Datum)) :
    passed keycmp key chain ++ reached keycmp key chain = chain :=
  List.takeWhile_append_dropWhile

variable {keycmp}

theorem Orders.irreflexive (orders : Orders keycmp) (key : Key) : keycmp key key = 0 :=
  (orders.same key key).mpr rfl

theorem greater_of_mem_passed {key : Key} {chain : List (Key × Datum)} {entry : Key × Datum}
    (member : entry ∈ passed keycmp key chain) : 0 < keycmp key entry.1 := by
  simpa using List.mem_takeWhile_imp member

theorem Ascending.passed {key : Key} {chain : List (Key × Datum)}
    (ascending : Ascending keycmp chain) : Ascending keycmp (passed keycmp key chain) :=
  List.Pairwise.sublist (List.takeWhile_sublist _) ascending

theorem Ascending.reached {key : Key} {chain : List (Key × Datum)}
    (ascending : Ascending keycmp chain) : Ascending keycmp (reached keycmp key chain) :=
  List.Pairwise.sublist (List.dropWhile_sublist _) ascending

theorem head_of_reached {key : Key} {chain rest : List (Key × Datum)} {entry : Key × Datum}
    (isReached : reached keycmp key chain = entry :: rest) : ¬0 < keycmp key entry.1 := by
  have stopped := List.head?_dropWhile_not
    (fun entry : Key × Datum => decide (0 < keycmp key entry.1)) chain
  rw [reached] at isReached
  rw [isReached] at stopped
  simpa using stopped

theorem less_of_mem_rest (orders : Orders keycmp) {key : Key} {chain rest : List (Key × Datum)}
    {entry later : Key × Datum} (ascending : Ascending keycmp chain)
    (isReached : reached keycmp key chain = entry :: rest) (member : later ∈ rest) :
    0 < keycmp later.1 key := by
  have order : Ascending keycmp (entry :: rest) := isReached ▸ ascending.reached
  have after := (List.pairwise_cons.mp order).1 later member
  have notSmaller := head_of_reached isReached
  by_cases same : keycmp key entry.1 = 0
  · rwa [(orders.same key entry.1).mp same]
  · have greater : 0 < keycmp entry.1 key := (orders.opposite _ _).mpr (by omega)
    exact orders.transitive _ _ _ after greater

theorem ne_of_mem (orders : Orders keycmp) {key : Key} {chain : List (Key × Datum)}
    (ascending : Ascending keycmp chain)
    (absent : ∀ entry rest, reached keycmp key chain = entry :: rest → keycmp key entry.1 ≠ 0)
    {entry : Key × Datum} (member : entry ∈ chain) : entry.1 ≠ key := by
  intro same
  have zero : keycmp key entry.1 = 0 := (orders.same _ _).mpr same.symm
  rw [← passed_append_reached keycmp key chain, List.mem_append] at member
  rcases member with before | after
  · have greater := greater_of_mem_passed before
    omega
  · cases isReached : reached keycmp key chain with
    | nil =>
        rw [isReached] at after
        cases after
    | cons head rest =>
        rw [isReached] at after
        rcases List.mem_cons.mp after with rfl | inRest
        · exact absent entry rest isReached zero
        · have greater := less_of_mem_rest orders ascending isReached inRest
          rw [same, orders.irreflexive] at greater
          omega

theorem ne_of_mem_others (orders : Orders keycmp) {key : Key} {chain rest : List (Key × Datum)}
    {entry : Key × Datum} (ascending : Ascending keycmp chain)
    (isReached : reached keycmp key chain = entry :: rest) {other : Key × Datum}
    (member : other ∈ passed keycmp key chain ++ rest) : other.1 ≠ key := by
  intro same
  have zero : keycmp key other.1 = 0 := (orders.same _ _).mpr same.symm
  rcases List.mem_append.mp member with before | after
  · have greater := greater_of_mem_passed before
    omega
  · have greater := less_of_mem_rest orders ascending isReached after
    rw [same, orders.irreflexive] at greater
    omega

/-! ## Editing a chain -/

theorem ascending_insert (orders : Orders keycmp) {key : Key} {chain : List (Key × Datum)}
    (ascending : Ascending keycmp chain) (datum : Datum)
    (absent : ∀ entry rest, reached keycmp key chain = entry :: rest → keycmp key entry.1 ≠ 0) :
    Ascending keycmp (passed keycmp key chain ++ (key, datum) :: reached keycmp key chain) := by
  have behind : ∀ entry, entry ∈ reached keycmp key chain → 0 < keycmp entry.1 key := by
    intro entry member
    cases isReached : reached keycmp key chain with
    | nil =>
        rw [isReached] at member
        cases member
    | cons head rest =>
        rw [isReached] at member
        rcases List.mem_cons.mp member with rfl | inRest
        · have notSmaller := head_of_reached isReached
          have different := absent _ _ isReached
          exact (orders.opposite _ _).mpr (by omega)
        · exact less_of_mem_rest orders ascending isReached inRest
  apply List.pairwise_append.mpr
  refine ⟨ascending.passed, List.pairwise_cons.mpr ⟨behind, ascending.reached⟩, ?_⟩
  intro earlier before later after
  have smaller := greater_of_mem_passed before
  rcases List.mem_cons.mp after with rfl | inReached
  · exact smaller
  · exact orders.transitive _ _ _ (behind later inReached) smaller

theorem ascending_remove {key : Key} {chain rest : List (Key × Datum)} {entry : Key × Datum}
    (ascending : Ascending keycmp chain)
    (isReached : reached keycmp key chain = entry :: rest) :
    Ascending keycmp (passed keycmp key chain ++ rest) := by
  have split : Ascending keycmp (passed keycmp key chain ++ entry :: rest) := by
    rwa [← isReached, passed_append_reached]
  exact List.Pairwise.sublist ((List.sublist_cons_self entry rest).append_left _) split

theorem ascending_replace {key : Key} {chain rest : List (Key × Datum)} {old : Datum}
    (ascending : Ascending keycmp chain)
    (isReached : reached keycmp key chain = (key, old) :: rest) (new : Datum) :
    Ascending keycmp (passed keycmp key chain ++ (key, new) :: rest) := by
  have split : Ascending keycmp (passed keycmp key chain ++ (key, old) :: rest) := by
    rwa [← isReached, passed_append_reached]
  rcases List.pairwise_append.mp split with ⟨before, after, across⟩
  rcases List.pairwise_cons.mp after with ⟨behind, later⟩
  apply List.pairwise_append.mpr
  refine ⟨before, List.pairwise_cons.mpr ⟨behind, later⟩, ?_⟩
  intro earlier isEarlier other member
  rcases List.mem_cons.mp member with rfl | inRest
  · exact across earlier isEarlier (key, old) List.mem_cons_self
  · exact across earlier isEarlier other (List.mem_cons_of_mem _ inRest)

theorem Ascending.nodup (orders : Orders keycmp) {chain : List (Key × Datum)}
    (ascending : Ascending keycmp chain) : (chain.map Prod.fst).Nodup := by
  apply List.pairwise_map.mpr
  apply List.Pairwise.imp _ ascending
  intro earlier later after same
  rw [same, orders.irreflexive] at after
  omega

end SuBinary.SortedChain
