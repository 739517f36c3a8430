import Mathlib

/-! # Hash tables that keep pointers to their keys

A node keeps the pointer it was inserted with, and a walk along a chain reads the
keys behind these pointers. Once the object behind a pointer is gone, a walk that
reaches its node has no meaning.
-/

namespace SuBinary

/-- A pointer to a key, or to an object that no longer exists. -/
inductive KeyPointer (Key : Type)
  | key (value : Key)
  | dead
deriving DecidableEq

namespace PointerTable

structure Node (Key Datum : Type) where
  key : KeyPointer Key
  datum : Datum

section Chains

variable {Key Datum : Type} (keycmp : Key → Key → Int)

/-- Walk a chain past smaller keys. The outer `none` is a read through a dead
pointer. -/
def searchChain (key : Key) : List (Node Key Datum) → Option (Option Datum)
  | [] => some none
  | ⟨.dead, _⟩ :: _ => none
  | ⟨.key cur, datum⟩ :: rest =>
      if keycmp key cur > 0 then searchChain key rest
      else if keycmp key cur = 0 then some (some datum)
      else some none

/-- The same walk, with the new node at its end; the inner `none` is the refusal of
a key that is there. -/
def insertChain (key : Key) (new : Node Key Datum) :
    List (Node Key Datum) → Option (Option (List (Node Key Datum)))
  | [] => some (some [new])
  | ⟨.dead, _⟩ :: _ => none
  | ⟨.key cur, datum⟩ :: rest =>
      if keycmp key cur > 0 then
        (insertChain key new rest).map fun chain => chain.map (⟨.key cur, datum⟩ :: ·)
      else if keycmp key cur = 0 then some none
      else some (some (new :: ⟨.key cur, datum⟩ :: rest))

theorem insertChain_refused_iff (key : Key) (new : Node Key Datum)
    (chain : List (Node Key Datum)) :
    insertChain keycmp key new chain = some none ↔
      ∃ datum, searchChain keycmp key chain = some (some datum) := by
  fun_induction searchChain keycmp key chain with
  | case1 => simp [insertChain]
  | case2 => simp [insertChain]
  | case3 cur datum rest greater induction =>
      simp [insertChain, greater, ← induction]
  | case4 cur datum rest notGreater same => simp [insertChain, same]
  | case5 cur datum rest notGreater different =>
      simp [insertChain, notGreater, different]

theorem searchChain_dead (key : Key) (datum : Datum) {chain inserted : List (Node Key Datum)}
    (ran : insertChain keycmp key ⟨.dead, datum⟩ chain = some (some inserted)) :
    searchChain keycmp key inserted = none := by
  fun_induction searchChain keycmp key chain generalizing inserted with
  | case1 =>
      cases ran
      rfl
  | case2 => cases ran
  | case3 cur found rest greater induction =>
      simp only [insertChain, greater, if_true, Option.map_eq_some_iff] at ran
      rcases ran with ⟨_, insertedRest, later, rfl, rfl⟩
      rw [searchChain, if_pos greater]
      exact induction insertedRest
  | case4 cur found rest notGreater same => simp [insertChain, same] at ran
  | case5 cur found rest notGreater different =>
      simp [insertChain, notGreater, different] at ran
      rw [← ran]
      rfl

end Chains

end PointerTable

structure PointerTable (Key Datum : Type) (hashValue : Key → Nat) (keycmp : Key → Key → Int) where
  chains : Nat → List (PointerTable.Node Key Datum)

namespace PointerTable

variable {Key Datum : Type} {hashValue : Key → Nat} {keycmp : Key → Key → Int}

def empty : PointerTable Key Datum hashValue keycmp where
  chains := fun _ => []

/-- The outer `none` is a read through a dead pointer. -/
def search (h : PointerTable Key Datum hashValue keycmp) (key : Key) : Option (Option Datum) :=
  searchChain keycmp key (h.chains (hashValue key))

/-- Insert `datum` under `key`, of which the table will hold the pointer `kept`. -/
def insert (h : PointerTable Key Datum hashValue keycmp) (key : Key) (kept : KeyPointer Key)
    (datum : Datum) : Option (Option (PointerTable Key Datum hashValue keycmp)) :=
  (insertChain keycmp key ⟨kept, datum⟩ (h.chains (hashValue key))).map fun chain =>
    chain.map fun chain => { chains := Function.update h.chains (hashValue key) chain }

theorem insert_refused_iff (h : PointerTable Key Datum hashValue keycmp) (key : Key)
    (kept : KeyPointer Key) (datum : Datum) :
    h.insert key kept datum = some none ↔ ∃ found, h.search key = some (some found) := by
  rw [search, ← insertChain_refused_iff keycmp key ⟨kept, datum⟩, insert]
  simp [Option.map_eq_some_iff]

/-- The key of a node that is inserted with a dead pointer cannot be searched for. -/
theorem search_of_insert_dead {h inserted : PointerTable Key Datum hashValue keycmp} {key : Key}
    {datum : Datum} (ran : h.insert key .dead datum = some (some inserted)) :
    inserted.search key = none := by
  rw [insert, Option.map_eq_some_iff] at ran
  rcases ran with ⟨chain, insertedChain, isInserted⟩
  rcases Option.map_eq_some_iff.mp isInserted with ⟨nodes, rfl, rfl⟩
  simp only [search, Function.update_self]
  exact searchChain_dead keycmp key datum insertedChain

end PointerTable

end SuBinary
