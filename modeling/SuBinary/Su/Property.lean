import SuBinary.Foundation.Lines
import SuBinary.Foundation.Loop
import SuBinary.Foundation.Memory

/-! # Looking up a property

`get_property` of `utils.c`. It takes the lines apart in a duplicate of the text, and uses
the value after it has freed the duplicate.
-/

namespace SuBinary.Su.Property

open SuBinary

def equals : Byte := 61

def hash : Byte := 35

def propertyValueMax : Int := 92

/-! ## The duplicate -/

abbrev CellM := FaultM (List Byte)

def readByte (address : Nat) : CellM Byte := fun cells =>
  cells[address]?.map fun byte => (byte, cells)

def writeByte (address : Nat) (byte : Byte) : CellM Unit := fun cells =>
  if address < cells.length then some ((), cells.set address byte) else none

def strchr (address : Nat) (byte : Byte) : CellM (Option Nat) := fun cells =>
  match (cells.drop address).findIdx? fun other => other = byte || other = 0 with
  | none => none
  | some offset =>
      some (if cells[address + offset]? = some byte then some (address + offset) else none, cells)

/-- `strncmp(searchkey, key, strlen(searchkey)) == 0` -/
def strncmpEq (searchkey : CString) (key : Nat) : CellM Bool := fun cells =>
  let text := stringAt cells key
  if key + text.length < cells.length then some (decide (searchkey <+: text), cells) else none

/-- `while(isspace(*start)) start++;` -/
def skipSpacesLoop (cells : List Byte) : Loop Nat (Option Nat) where
  body := fun start =>
    match cells[start]? with
    | none => .finish none
    | some byte => if isSpace byte then .again (start + 1) else .finish (some start)
  rank := fun start => cells.length - start
  decreases := by
    intro start next turned
    split at turned
    · cases turned
    · rename_i byte here
      have inside := (List.getElem?_eq_some_iff.mp here).1
      split at turned
      · cases turned
        omega
      · cases turned

def skipSpaces (start : Nat) : CellM Nat := fun cells =>
  ((skipSpacesLoop cells).run start).map fun start => (start, cells)

structure Trim where
  cells : List Byte
  tmp : Nat

/-- `while((tmp > start) && isspace(*tmp)) *tmp-- = 0;` -/
def trimEndLoop (start : Nat) : Loop Trim (Option (List Byte)) where
  body := fun trim =>
    if start < trim.tmp then
      match trim.cells[trim.tmp]? with
      | none => .finish none
      | some byte =>
          if isSpace byte then .again { cells := trim.cells.set trim.tmp 0, tmp := trim.tmp - 1 }
          else .finish (some trim.cells)
    else .finish (some trim.cells)
  rank := Trim.tmp
  decreases := by
    intro trim next turned
    split at turned
    · rename_i above
      split at turned
      · cases turned
      · split at turned
        · cases turned
          dsimp only
          omega
        · cases turned
    · cases turned

def trimEnd (start tmp : Nat) : CellM Unit := fun cells =>
  ((trimEndLoop start).run { cells, tmp }).map fun cells => ((), cells)

/-! ## The function -/

inductive LineVisit
  | done
  | next (sol : Nat)
  | matched (value : Nat)

/-- The body of the loop. A `tmp` in front of the text is 0 here, which is not behind its
start either. -/
def visitLine (searchkey : CString) (sol : Nat) : CellM LineVisit := do
  match ← strchr sol newline with
  | none => return .done
  | some eol =>
      let key := sol
      writeByte eol 0
      let eol := eol + 1
      let sol := eol
      match ← strchr key equals with
      | none => return .next sol
      | some value =>
          writeByte value 0
          let value := value + 1
          let key ← skipSpaces key
          if (← readByte key) = hash then return .next sol
          else
            trimEnd key (value - 2)
            let value ← skipSpaces value
            trimEnd value (eol - 2)
            if ← strncmpEq searchkey key then return .matched value
            else return .next sol

section Progress

variable {cells after : List Byte} {address sol next : Nat}

theorem strchr_some {byte : Byte} {found : Option Nat}
    (ran : strchr address byte cells = some (found, after)) :
    after = cells ∧ ∀ position, found = some position → address ≤ position ∧
      position < cells.length := by
  rw [strchr] at ran
  split at ran
  · cases ran
  · rename_i offset isOffset
    cases ran
    refine ⟨rfl, fun position isPosition => ?_⟩
    split at isPosition
    · rename_i here
      cases isPosition
      exact ⟨Nat.le_add_right _ _, (List.getElem?_eq_some_iff.mp here).1⟩
    · cases isPosition

theorem writeByte_some {byte : Byte} {result : Unit}
    (ran : writeByte address byte cells = some (result, after)) :
    after.length = cells.length := by
  rw [writeByte] at ran
  split at ran
  · cases ran
    exact List.length_set
  · cases ran

theorem skipSpaces_some {start : Nat} (ran : skipSpaces address cells = some (start, after)) :
    after = cells := by
  rw [skipSpaces, Option.map_eq_some_iff] at ran
  rcases ran with ⟨_, -, same⟩
  cases same
  rfl

theorem trimEndLoop_length (start : Nat) (trim : Trim) :
    ∀ cells, (trimEndLoop start).run trim = some cells → cells.length = trim.cells.length := by
  induction trim using (trimEndLoop start).run_induction with
  | finish trim result turned =>
      intro cells ran
      rw [(trimEndLoop start).run_of_finish turned] at ran
      subst ran
      simp only [trimEndLoop] at turned
      split at turned
      · split at turned
        · cases turned
        · split at turned
          · cases turned
          · cases turned
            rfl
      · cases turned
        rfl
  | again trim next turned induction =>
      intro cells ran
      rw [(trimEndLoop start).run_of_again turned] at ran
      rw [induction cells ran]
      simp only [trimEndLoop] at turned
      split at turned
      · split at turned
        · cases turned
        · split at turned
          · cases turned
            exact List.length_set
          · cases turned
      · cases turned

theorem trimEnd_some {start tmp : Nat} {result : Unit}
    (ran : trimEnd start tmp cells = some (result, after)) : after.length = cells.length := by
  rw [trimEnd, Option.map_eq_some_iff] at ran
  rcases ran with ⟨trimmed, isTrimmed, same⟩
  cases same
  exact trimEndLoop_length start _ _ isTrimmed

theorem readByte_some {byte : Byte} (ran : readByte address cells = some (byte, after)) :
    after = cells := by
  rw [readByte, Option.map_eq_some_iff] at ran
  rcases ran with ⟨_, -, same⟩
  cases same
  rfl

theorem strncmpEq_some {searchkey : CString} {same : Bool}
    (ran : strncmpEq searchkey address cells = some (same, after)) : after = cells := by
  rw [strncmpEq] at ran
  split at ran
  · cases ran
    rfl
  · cases ran

theorem visitLine_next {searchkey : CString}
    (ran : visitLine searchkey sol cells = some (.next next, after)) :
    after.length = cells.length ∧ sol < next ∧ next ≤ cells.length := by
  rcases FaultM.bind_some.mp ran with ⟨eol, afterEol, foundEol, ran⟩
  rcases strchr_some foundEol with ⟨rfl, place⟩
  cases eol with
  | none => cases FaultM.pure_some.mp ran
  | some eol =>
      have inside := place eol rfl
      suffices sameLength : after.length = afterEol.length ∧ next = eol + 1 by
        exact ⟨sameLength.1, by omega, by omega⟩
      rcases FaultM.bind_some.mp ran with ⟨_, ended, write, ran⟩
      have lengthEnded := writeByte_some write
      rcases FaultM.bind_some.mp ran with ⟨value, afterValue, foundValue, ran⟩
      rcases strchr_some foundValue with ⟨rfl, -⟩
      cases value with
      | none =>
          cases FaultM.pure_some.mp ran
          exact ⟨lengthEnded, rfl⟩
      | some value =>
          rcases FaultM.bind_some.mp ran with ⟨_, split, write, ran⟩
          have lengthSplit := writeByte_some write
          rcases FaultM.bind_some.mp ran with ⟨key, _, skipped, ran⟩
          cases skipSpaces_some skipped
          rcases FaultM.bind_some.mp ran with ⟨first, _, read, ran⟩
          cases readByte_some read
          split at ran
          · cases FaultM.pure_some.mp ran
            exact ⟨lengthSplit.trans lengthEnded, rfl⟩
          · rcases FaultM.bind_some.mp ran with ⟨_, keyTrimmed, trims, ran⟩
            have lengthKey := trimEnd_some trims
            rcases FaultM.bind_some.mp ran with ⟨start, _, skipped, ran⟩
            cases skipSpaces_some skipped
            rcases FaultM.bind_some.mp ran with ⟨_, valueTrimmed, trims, ran⟩
            have lengthValue := trimEnd_some trims
            rcases FaultM.bind_some.mp ran with ⟨same, _, compared, ran⟩
            cases strncmpEq_some compared
            split at ran
            · cases FaultM.pure_some.mp ran
            · cases FaultM.pure_some.mp ran
              exact ⟨by omega, rfl⟩

end Progress

structure Lookup where
  cells : List Byte
  sol : Nat

/-- The loop over the lines; `none` is a fault, and otherwise the value is found or not. -/
def propertyLoop (searchkey : CString) : Loop Lookup (Option (Option Nat × List Byte)) where
  body := fun lookup =>
    match visitLine searchkey lookup.sol lookup.cells with
    | none => .finish none
    | some (.done, cells) => .finish (some (none, cells))
    | some (.next sol, cells) => .again { cells, sol }
    | some (.matched value, cells) => .finish (some (some value, cells))
  rank := fun lookup => lookup.cells.length - lookup.sol
  decreases := by
    intro lookup next turned
    split at turned
    · cases turned
    · cases turned
    · rename_i ran
      cases turned
      have := visitLine_next ran
      dsimp only
      omega
    · cases turned

/-- What is returned, and what has been copied to `found`. -/
structure Answer where
  ret : Int
  found : List Byte
deriving DecidableEq

def toInt (count : Nat) : Int := Int.bmod count (2 ^ 32)

/-- `memcpy(found, text, len + 1)`, whose count must not overflow and not be negative. -/
def copyText (text : CString) (len : Int) : Option Answer :=
  if 0 ≤ len + 1 ∧ len + 1 < 2 ^ 31 then
    some { ret := len, found := (text ++ [0]).take (len + 1).toNat }
  else none

def valueAnswer (value : CString) : Option Answer :=
  let len := toInt value.length
  if propertyValueMax ≤ len then some { ret := -1, found := [] } else copyText value len

def defaultAnswer (notFound : CString) : Option Answer := copyText notFound (toInt notFound.length)

/-- `freed` is what `free` makes of the bytes of the duplicate; the value is read from them. -/
def getProperty (freed : List Byte → List Byte) (data : Option CString)
    (searchkey notFound : CString) : Option Answer :=
  match data with
  | none => defaultAnswer notFound
  | some data =>
      match (propertyLoop searchkey).run { cells := data ++ [0], sol := 0 } with
      | none => none
      | some (none, _) => defaultAnswer notFound
      | some (some value, cells) =>
          let text := stringAt (freed cells) value
          if value + text.length < (freed cells).length then valueAnswer text else none

end SuBinary.Su.Property
