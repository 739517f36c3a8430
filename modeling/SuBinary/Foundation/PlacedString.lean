import SuBinary.Foundation.Memory

/-! # Strings at their places

The strings of a process with the addresses where they lie, regions that consist of
such strings, and `memset`.
-/

namespace SuBinary

theorem HasString.cons {cells : List Byte} {address : Nat} {byte : Byte} {text : CString}
    (here : cells[address]? = some byte) (someByte : byte ≠ 0)
    (rest : HasString cells (address + 1) text) : HasString cells address (byte :: text) where
  clean := by
    intro nul
    rcases List.mem_cons.mp nul with isNul | later
    · exact someByte isNul.symm
    · exact rest.clean later
  bytes := by
    rintro (_ | index) inside
    · exact here
    · rw [List.getElem?_cons_succ, ← rest.bytes index (by simpa using inside)]
      congr 1
      omega
  ends := by
    rw [← rest.ends, List.length_cons]
    congr 1
    omega

/-! ## Filling memory -/

def memset (address : Nat) (byte : Byte) : Nat → MemM Unit
  | 0 => return ()
  | count + 1 => do
      writeCell address byte
      memset (address + 1) byte count

theorem memset_spec (byte : Byte) (address count : Nat) (memory : Memory)
    (inside : address + count ≤ memory.cells.length) :
    ∃ after, memset address byte count memory = some ((), after) ∧
      SameOutside address (address + count) memory.cells after.cells ∧
      ∀ index, address ≤ index → index < address + count → after.cells[index]? = some byte := by
  induction count generalizing address memory with
  | zero =>
      refine ⟨memory, rfl, SameOutside.refl _ _ _, ?_⟩
      intro index behind before
      omega
  | succ count induction =>
      have written : writeCell address byte memory =
          some ((), { memory.touch address 1 with cells := memory.cells.set address byte }) :=
        writeCell_of_lt byte (by omega)
      have first : SameOutside address (address + (count + 1)) memory.cells
          (memory.cells.set address byte) :=
        SameOutside.set _ _ _ (Nat.le_refl _) (by omega)
      rcases induction (address + 1)
        { memory.touch address 1 with cells := memory.cells.set address byte }
        (by rw [first.size]; omega) with ⟨after, ran, later, filled⟩
      refine ⟨after, ?_, first.trans (later.mono (by omega) (by omega)), ?_⟩
      · rw [memset, FaultM.run_bind written]
        exact ran
      · intro index behind before
        by_cases isFirst : index = address
        · subst isFirst
          rw [later.outside index (Or.inl (Nat.lt_succ_self _))]
          exact List.getElem?_set_self (by omega)
        · exact filled index (by omega) (by omega)

/-! ## Strings with their addresses -/

structure PlacedString where
  address : Nat
  text : CString

namespace PlacedString

def stop (string : PlacedString) : Nat := string.address + string.text.length + 1

def Apart (one two : PlacedString) : Prop := one.stop ≤ two.address ∨ two.stop ≤ one.address

instance (one two : PlacedString) : Decidable (one.Apart two) :=
  inferInstanceAs (Decidable (_ ∨ _))

theorem Apart.symm {one two : PlacedString} (apart : one.Apart two) : two.Apart one :=
  Or.symm apart

def Outside (string : PlacedString) (first last : Nat) : Prop :=
  string.stop ≤ first ∨ last ≤ string.address

instance (string : PlacedString) (first last : Nat) : Decidable (string.Outside first last) :=
  inferInstanceAs (Decidable (_ ∨ _))

theorem Outside.mono {string : PlacedString} {first last innerFirst innerLast : Nat}
    (outside : string.Outside first last) (left : first ≤ innerFirst) (right : innerLast ≤ last) :
    string.Outside innerFirst innerLast :=
  outside.imp (fun before => by omega) (fun behind => by omega)

def In (string : PlacedString) (cells : List Byte) : Prop :=
  HasString cells string.address string.text

theorem In.keep {string : PlacedString} {first last : Nat} {before after : List Byte}
    (present : string.In before) (same : SameOutside first last before after)
    (outside : string.Outside first last) : string.In after :=
  same.hasString (outside.imp Nat.lt_of_succ_le id) present

def room : List PlacedString → Nat
  | [] => 0
  | string :: rest => string.text.length + 1 + room rest

/-- From `first` to `last`, there is nothing but these strings. -/
structure Fill (strings : List PlacedString) (first last : Nat) : Prop where
  ordered : first ≤ last
  covered : ∀ index, first ≤ index → index < last →
    ∃ string, string ∈ strings ∧ string.address ≤ index ∧ index < string.stop
  ends : first < last → ∃ string, string ∈ strings ∧ last = string.stop

namespace Fill

variable {strings : List PlacedString} {first last : Nat}

theorem empty (strings : List PlacedString) (first : Nat) : Fill strings first first where
  ordered := Nat.le_refl _
  covered := fun index behind before => by omega
  ends := fun notEmpty => absurd notEmpty (Nat.lt_irrefl _)

theorem mono {more : List PlacedString} (fill : Fill strings first last)
    (still : ∀ string, string ∈ strings → string ∈ more) : Fill more first last where
  ordered := fill.ordered
  covered := fun index behind before => by
    rcases fill.covered index behind before with ⟨string, member, here⟩
    exact ⟨string, still string member, here⟩
  ends := fun notEmpty => by
    rcases fill.ends notEmpty with ⟨string, member, isLast⟩
    exact ⟨string, still string member, isLast⟩

theorem next {string : PlacedString} (fill : Fill strings first string.address)
    (member : string ∈ strings) : Fill strings first string.stop where
  ordered := fill.ordered.trans (by rw [stop]; omega)
  covered := fun index behind before => by
    by_cases early : index < string.address
    · exact fill.covered index behind early
    · exact ⟨string, member, Nat.le_of_not_lt early, before⟩
  ends := fun _ => ⟨string, member, rfl⟩

theorem nul (fill : Fill strings first last) (notEmpty : first < last) {cells : List Byte}
    (present : ∀ string, string ∈ strings → string.In cells) : cells[last - 1]? = some 0 := by
  rcases fill.ends notEmpty with ⟨string, member, rfl⟩
  exact (present string member).ends

theorem outside (fill : Fill strings first last) (notEmpty : first < last)
    {other : PlacedString}
    (apart : ∀ string, string ∈ strings → string.Apart other) : other.Outside first last := by
  by_contra meets
  simp only [Outside, not_or, Nat.not_le] at meets
  have someByte : other.address < other.stop := by rw [stop]; omega
  rcases fill.covered (max first other.address) (Nat.le_max_left _ _)
    (Nat.max_lt.mpr ⟨notEmpty, meets.2⟩) with ⟨string, member, here⟩
  rcases apart string member with before | behind
  · omega
  · omega

end Fill

end PlacedString

end SuBinary
