import SuBinary.Foundation.CString
import SuBinary.Foundation.Fault

/-! # Memory

A region of bytes, the C strings in it, and a record of the bytes that a run
has looked at or changed. An access outside the region is a fault.
-/

namespace SuBinary

/-! ## Regions and strings -/

structure Memory where
  cells : List Byte
  touched : List Nat

/-- The computations on memory; `none` is a fault. -/
abbrev MemM := FaultM Memory

def stringAt (cells : List Byte) (address : Nat) : CString :=
  (cells.drop address).takeWhile (· ≠ 0)

structure HasString (cells : List Byte) (address : Nat) (text : CString) : Prop where
  clean : 0 ∉ text
  bytes : ∀ index, index < text.length → cells[address + index]? = text[index]?
  ends : cells[address + text.length]? = some 0

namespace HasString

variable {cells : List Byte} {address : Nat} {text : CString}

theorem bound (present : HasString cells address text) :
    address + text.length < cells.length :=
  (List.getElem?_eq_some_iff.mp present.ends).1

theorem of_drop (clean : 0 ∉ text) {rest : List Byte}
    (here : cells.drop address = text ++ 0 :: rest) : HasString cells address text where
  clean := clean
  bytes := by
    intro index inside
    rw [← List.getElem?_drop, here, List.getElem?_append_left inside]
  ends := by
    rw [← List.getElem?_drop, here, List.getElem?_append_right (Nat.le_refl _)]
    simp

theorem drop_eq (present : HasString cells address text) :
    cells.drop address = text ++ 0 :: cells.drop (address + text.length + 1) := by
  apply List.ext_getElem?
  intro index
  rw [List.getElem?_drop]
  rcases Nat.lt_trichotomy index text.length with before | atEnd | after
  · rw [present.bytes index before, List.getElem?_append_left before]
  · subst atEnd
    rw [present.ends, List.getElem?_append_right (Nat.le_refl _)]
    simp
  · rw [List.getElem?_append_right after.le]
    obtain ⟨more, rfl⟩ : ∃ more, index = text.length + (more + 1) :=
      ⟨index - text.length - 1, by omega⟩
    rw [Nat.add_sub_cancel_left, List.getElem?_cons_succ, List.getElem?_drop]
    congr 1
    omega

theorem stringAt_eq (present : HasString cells address text) :
    stringAt cells address = text := by
  have plain : ∀ byte, byte ∈ text → decide (byte ≠ 0) = true := by
    intro byte member
    apply decide_eq_true
    rintro rfl
    exact present.clean member
  rw [stringAt, present.drop_eq, List.takeWhile_append_of_pos plain]
  simp

theorem suffix {front : CString} (present : HasString cells address (front ++ text)) :
    HasString cells (address + front.length) text := by
  have here : cells.drop (address + front.length) =
      text ++ 0 :: cells.drop (address + (front ++ text).length + 1) := by
    rw [← List.drop_drop, present.drop_eq, List.append_assoc, List.drop_left]
  exact of_drop (fun nul => present.clean (List.mem_append_right _ nul)) here

end HasString

/-! ## Changes -/

structure SameOutside (first last : Nat) (before after : List Byte) : Prop where
  size : after.length = before.length
  outside : ∀ index, index < first ∨ last ≤ index → after[index]? = before[index]?

namespace SameOutside

variable {first last : Nat} {before middle after : List Byte}

theorem refl (first last : Nat) (cells : List Byte) : SameOutside first last cells cells where
  size := rfl
  outside := fun _ _ => rfl

theorem trans (one : SameOutside first last before middle)
    (two : SameOutside first last middle after) : SameOutside first last before after where
  size := two.size.trans one.size
  outside := fun index apart => (two.outside index apart).trans (one.outside index apart)

theorem mono {wideFirst wideLast : Nat} (same : SameOutside first last before after)
    (left : wideFirst ≤ first) (right : last ≤ wideLast) :
    SameOutside wideFirst wideLast before after where
  size := same.size
  outside := fun index apart => same.outside index (by omega)

theorem set (cells : List Byte) (address : Nat) (byte : Byte) (left : first ≤ address)
    (right : address < last) : SameOutside first last cells (cells.set address byte) where
  size := List.length_set
  outside := fun index apart => List.getElem?_set_ne (by omega)

theorem hasString (same : SameOutside first last before after) {address : Nat}
    {text : CString} (apart : address + text.length < first ∨ last ≤ address)
    (present : HasString before address text) : HasString after address text where
  clean := present.clean
  bytes := fun index inside => by
    rw [same.outside _ (by omega)]
    exact present.bytes index inside
  ends := by
    rw [same.outside _ (by omega)]
    exact present.ends

end SameOutside

theorem stringAt_cons {cells : List Byte} {address : Nat} {byte : Byte}
    (here : cells[address]? = some byte) (someByte : byte ≠ 0) :
    stringAt cells address = byte :: stringAt cells (address + 1) := by
  rcases List.getElem?_eq_some_iff.mp here with ⟨inside, rfl⟩
  rw [stringAt, List.drop_eq_getElem_cons inside, List.takeWhile_cons]
  simp [someByte, stringAt]

theorem length_stringAt_set_le (cells : List Byte) (address count : Nat) :
    (stringAt (cells.set (address + count) 0) address).length ≤ count := by
  by_contra longer
  have early : count < (stringAt (cells.set (address + count) 0) address).length := by omega
  have isNul : (stringAt (cells.set (address + count) 0) address)[count] = 0 := by
    have whole : stringAt (cells.set (address + count) 0) address <+:
        (cells.set (address + count) 0).drop address := List.takeWhile_prefix _
    rw [whole.getElem early]
    simp
  have member := List.getElem_mem early
  have passes := List.mem_takeWhile_imp member
  rw [isNul] at passes
  cases passes

theorem HasString.cut {cells : List Byte} {address : Nat} {front back : CString} {byte : Byte}
    (present : HasString cells address (front ++ byte :: back)) :
    HasString (cells.set (address + front.length) 0) address front ∧
      HasString (cells.set (address + front.length) 0) (address + front.length + 1) back := by
  have inside : address + front.length < cells.length := by
    have := present.bound
    simp at this
    omega
  constructor
  · refine ⟨fun nul => present.clean (List.mem_append_left _ nul), fun index early => ?_, ?_⟩
    · rw [List.getElem?_set_ne (by omega), present.bytes index (by simp; omega),
        List.getElem?_append_left early]
    · simp [inside]
  · have rest : HasString cells (address + front.length + 1) back := by
      have : HasString cells (address + (front ++ [byte]).length) back :=
        HasString.suffix (by simpa using present)
      simpa [Nat.add_assoc] using this
    exact (SameOutside.set cells (address + front.length) 0 (Nat.le_refl _)
      (Nat.lt_succ_self _)).hasString (Or.inr (Nat.le_refl _)) rest

/-! ## NULs -/

def KeepsNuls (before after : List Byte) : Prop :=
  ∀ index : Nat, before[index]? = some 0 → after[index]? = some 0

theorem KeepsNuls.trans {before middle after : List Byte} (one : KeepsNuls before middle)
    (two : KeepsNuls middle after) : KeepsNuls before after :=
  fun index isNul => two index (one index isNul)

theorem keepsNuls_of_sameOutside {before after : List Byte} {address : Nat} {text : CString}
    (present : HasString before address text)
    (same : SameOutside address (address + text.length) before after) :
    KeepsNuls before after := by
  intro index isNul
  rw [same.outside]
  · exact isNul
  · by_contra inside
    obtain ⟨offset, rfl⟩ : ∃ offset, index = address + offset := ⟨index - address, by omega⟩
    have early : offset < text.length := by omega
    rw [present.bytes offset early] at isNul
    exact present.clean (List.mem_of_getElem? isNul)

theorem exists_hasString {cells : List Byte} {address stop : Nat} (before : address ≤ stop)
    (isNul : cells[stop]? = some 0) :
    ∃ text, HasString cells address text ∧ address + text.length ≤ stop := by
  obtain ⟨distance, rfl⟩ : ∃ distance, stop = address + distance := ⟨stop - address, by omega⟩
  induction distance generalizing address with
  | zero =>
      exact ⟨[], ⟨List.not_mem_nil, nofun, isNul⟩, Nat.le_refl _⟩
  | succ distance induction =>
      have inside : address < cells.length := by
        have := (List.getElem?_eq_some_iff.mp isNul).1
        omega
      by_cases isEnd : cells[address]? = some 0
      · exact ⟨[], ⟨List.not_mem_nil, nofun, isEnd⟩, Nat.le_add_right _ _⟩
      · have isNext : cells[address + 1 + distance]? = some 0 := by
          rw [← isNul]
          congr 1
          omega
        rcases induction (Nat.le_add_right (address + 1) distance) isNext with
          ⟨text, present, early⟩
        have isByte : cells[address]? = some cells[address] := List.getElem?_eq_getElem inside
        refine ⟨cells[address] :: text, ⟨?_, ?_, ?_⟩, ?_⟩
        · intro nul
          rcases List.mem_cons.mp nul with isZero | later
          · rw [isZero] at isEnd
            exact isEnd isByte
          · exact present.clean later
        · rintro (_ | index) early
          · simp [inside]
          · have := present.bytes index (by simpa using early)
            rw [List.getElem?_cons_succ, ← this]
            congr 1
            omega
        · rw [← present.ends, List.length_cons]
          congr 1
          omega
        · rw [List.length_cons]
          omega

/-! ## Accesses -/

def Memory.touch (memory : Memory) (first count : Nat) : Memory :=
  { memory with touched := List.range' first count ++ memory.touched }

@[simp] theorem Memory.touch_cells (memory : Memory) (first count : Nat) :
    (memory.touch first count).cells = memory.cells := rfl

/-- A run touched nothing but the bytes from `first` to `last`, both included,
and changed only bytes before `last`. -/
structure Confined (first last : Nat) (before after : Memory) : Prop where
  cells : SameOutside first last before.cells after.cells
  touched : ∀ address, address ∈ after.touched →
    address ∈ before.touched ∨ (first ≤ address ∧ address ≤ last)

namespace Confined

variable {first last : Nat} {before middle after : Memory}

theorem refl (first last : Nat) (memory : Memory) : Confined first last memory memory where
  cells := SameOutside.refl _ _ _
  touched := fun _ member => Or.inl member

theorem trans (one : Confined first last before middle) (two : Confined first last middle after) :
    Confined first last before after where
  cells := one.cells.trans two.cells
  touched := fun address member => by
    rcases two.touched address member with earlier | inside
    · exact one.touched address earlier
    · exact Or.inr inside

theorem mono {wideFirst wideLast : Nat} (confined : Confined first last before after)
    (left : wideFirst ≤ first) (right : last ≤ wideLast) :
    Confined wideFirst wideLast before after where
  cells := confined.cells.mono left right
  touched := fun address member =>
    (confined.touched address member).imp id fun inside => by omega

theorem touch (memory : Memory) {start count : Nat} (left : first ≤ start)
    (right : start + count ≤ last + 1) : Confined first last memory (memory.touch start count) where
  cells := SameOutside.refl _ _ _
  touched := fun address member => by
    rcases List.mem_append.mp member with new | old
    · have := List.mem_range'_1.mp new
      exact Or.inr (by omega)
    · exact Or.inl old

theorem set (memory : Memory) {address : Nat} (byte : Byte) (left : first ≤ address)
    (right : address < last) :
    Confined first last memory { memory with cells := memory.cells.set address byte } where
  cells := SameOutside.set _ _ _ left right
  touched := fun _ member => Or.inl member

theorem inside (confined : Confined first last before after) (untouched : before.touched = [])
    {address : Nat} (touched : address ∈ after.touched) : first ≤ address ∧ address ≤ last := by
  rcases confined.touched address touched with earlier | inside
  · rw [untouched] at earlier
    cases earlier
  · exact inside

end Confined

/-- A run forgets nothing that was touched and keeps the size of the region. -/
structure Extends (before after : Memory) : Prop where
  size : after.cells.length = before.cells.length
  touched : ∀ address, address ∈ before.touched → address ∈ after.touched

namespace Extends

theorem refl (memory : Memory) : Extends memory memory where
  size := rfl
  touched := fun _ => id

theorem trans {before middle after : Memory} (one : Extends before middle)
    (two : Extends middle after) : Extends before after where
  size := two.size.trans one.size
  touched := fun address member => two.touched address (one.touched address member)

theorem touch (memory : Memory) (first count : Nat) :
    Extends memory (memory.touch first count) where
  size := rfl
  touched := fun _ member => List.mem_append_right _ member

theorem set (memory : Memory) (address : Nat) (byte : Byte) :
    Extends memory { memory with cells := memory.cells.set address byte } where
  size := List.length_set
  touched := fun _ => id

end Extends

def readCell (address : Nat) : MemM Byte := fun memory =>
  match memory.cells[address]? with
  | none => none
  | some byte => some (byte, memory.touch address 1)

def writeCell (address : Nat) (byte : Byte) : MemM Unit := fun memory =>
  if address < memory.cells.length then
    let memory := memory.touch address 1
    some ((), { memory with cells := memory.cells.set address byte })
  else none

def readString (address : Nat) : MemM CString := fun memory =>
  let text := stringAt memory.cells address
  if address + text.length < memory.cells.length then
    some (text, memory.touch address (text.length + 1))
  else none

def strlen (address : Nat) : MemM Nat := do
  let text ← readString address
  return text.length

theorem readString_of_hasString {memory : Memory} {address : Nat} {text : CString}
    (present : HasString memory.cells address text) :
    readString address memory = some (text, memory.touch address (text.length + 1)) := by
  simp [readString, present.stringAt_eq, present.bound]

theorem strlen_of_hasString {memory : Memory} {address : Nat} {text : CString}
    (present : HasString memory.cells address text) :
    strlen address memory = some (text.length, memory.touch address (text.length + 1)) := by
  simp [strlen, bind, StateT.bind, readString_of_hasString present, pure, StateT.pure]

theorem readCell_of_getElem? {memory : Memory} {address : Nat} {byte : Byte}
    (here : memory.cells[address]? = some byte) :
    readCell address memory = some (byte, memory.touch address 1) := by
  simp [readCell, here]

theorem writeCell_of_lt {memory : Memory} {address : Nat} (byte : Byte)
    (inside : address < memory.cells.length) :
    writeCell address byte memory =
      some ((), { memory.touch address 1 with cells := memory.cells.set address byte }) := by
  simp [writeCell, inside]

theorem readCell_some {address : Nat} {memory after : Memory} {byte : Byte}
    (ran : readCell address memory = some (byte, after)) :
    memory.cells[address]? = some byte ∧ after = memory.touch address 1 := by
  rw [readCell] at ran
  split at ran
  · cases ran
  · rename_i here
    cases ran
    exact ⟨here, rfl⟩

theorem writeCell_some {address : Nat} {byte : Byte} {memory after : Memory} {result : Unit}
    (ran : writeCell address byte memory = some (result, after)) :
    after.cells = memory.cells.set address byte := by
  rw [writeCell] at ran
  split at ran
  · cases ran
    rfl
  · cases ran

theorem strlen_some {address length : Nat} {memory after : Memory}
    (ran : strlen address memory = some (length, after)) :
    length = (stringAt memory.cells address).length ∧
      after = memory.touch address (length + 1) := by
  rcases FaultM.bind_some.mp ran with ⟨text, middle, read, ran⟩
  cases FaultM.pure_some.mp ran
  unfold readString at read
  dsimp only at read
  split at read
  · cases read
    exact ⟨rfl, rfl⟩
  · cases read

/-- A computation that forgets nothing and keeps the size of memory. -/
def Grows (run : MemM α) : Prop :=
  ∀ {memory result after}, run memory = some (result, after) → Extends memory after

namespace Grows

theorem pure (value : α) : Grows (Pure.pure value : MemM α) := by
  intro memory result after ran
  cases FaultM.pure_some.mp ran
  exact Extends.refl _

theorem bind {first : MemM α} {next : α → MemM β} (one : Grows first)
    (two : ∀ value, Grows (next value)) : Grows (first >>= next) := by
  intro memory result after ran
  rcases FaultM.bind_some.mp ran with ⟨value, middle, step, rest⟩
  exact (one step).trans (two value rest)

theorem readCell (address : Nat) : Grows (readCell address) := by
  intro memory result after ran
  rw [SuBinary.readCell] at ran
  split at ran
  · cases ran
  · cases ran
    exact Extends.touch _ _ _

theorem writeCell (address : Nat) (byte : Byte) : Grows (writeCell address byte) := by
  intro memory result after ran
  rw [SuBinary.writeCell] at ran
  split at ran
  · cases ran
    exact (Extends.touch _ _ _).trans (Extends.set _ _ _)
  · cases ran

theorem readString (address : Nat) : Grows (readString address) := by
  intro memory result after ran
  unfold SuBinary.readString at ran
  dsimp only at ran
  split at ran
  · cases ran
    exact Extends.touch _ _ _
  · cases ran

theorem strlen (address : Nat) : Grows (strlen address) :=
  bind (readString address) fun _ => pure _

end Grows

end SuBinary
