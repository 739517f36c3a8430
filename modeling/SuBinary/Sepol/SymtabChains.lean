import SuBinary.Sepol.FilenameTrans
import SuBinary.Sepol.HashtabChains
import SuBinary.Sepol.Symtab

/-! # Symbol tables as slots of chains

`symtab.c` of libsepol makes hash tables of symbols. Listed slot by slot, they are the tables
of symbols that the policy operations work on.
-/

namespace SuBinary.Sepol

open SuBinary SortedChain HashtabVal

def symtabFunctions : KeyFunctions CString where
  hashValue := symhash
  keycmp := strcmp

/-! ## The functions of symbol tables -/

theorem strcmp_neg_iff (first second : CString) : strcmp first second < 0 ↔ first < second := by
  rw [strcmp]
  by_cases less : first < second
  · simp [less]
  · by_cases same : first = second
    · subst same
      simp [List.lt_irrefl]
    · simp [less, same]

theorem strcmp_pos_iff (first second : CString) : 0 < strcmp first second ↔ second < first := by
  rw [strcmp]
  by_cases less : first < second
  · simp [less, List.lt_asymm less]
  · by_cases same : first = second
    · subst same
      simp [List.lt_irrefl]
    · have greater : second < first := by
        by_contra notGreater
        exact same (Std.Trichotomous.trichotomous first second less notGreater)
      simp [less, same, greater]

theorem strcmp_orders : Orders strcmp where
  same first second := by
    constructor
    · intro zero
      have notLess := (strcmp_neg_iff first second).not.mp (by omega)
      have notGreater := (strcmp_pos_iff first second).not.mp (by omega)
      exact Std.Trichotomous.trichotomous first second notLess notGreater
    · rintro rfl
      simp [strcmp]
  opposite first second := (strcmp_pos_iff first second).trans (strcmp_neg_iff second first).symm
  transitive first second third greater later := by
    rw [strcmp_pos_iff] at greater later ⊢
    exact List.lt_trans later greater

theorem symhash_lt {size : UInt32} (positive : 0 < size) (key : CString) :
    symhash size key < size := by
  have below : (symhash size key).toNat ≤ (size - 1).toNat := by
    rw [symhash, UInt32.toNat_and]
    exact Nat.and_le_right
  have one : (size - 1).toNat = size.toNat - 1 := by
    apply UInt32.toNat_sub_of_le
    rw [UInt32.le_iff_toNat_le]
    exact UInt32.lt_iff_toNat_lt.mp positive
  rw [UInt32.lt_iff_toNat_lt] at positive ⊢
  have zero : (0 : UInt32).toNat = 0 := rfl
  omega

theorem symtab_suit {size : UInt32} (positive : 0 < size) (small : size.toNat ≤ 2 ^ 31) :
    symtabFunctions.Suit size where
  orders := strcmp_orders
  inside := symhash_lt positive
  small := small

/-! ## Insertion -/

theorem insertEntry_skip {size : UInt32} {key : CString} (datum : Datum)
    {front : List (CString × Datum)} (rest : List (CString × Datum))
    (skipped : ∀ entry, entry ∈ front → symbolBefore size key entry.1 = false) :
    insertEntry size key datum (front ++ rest) = front ++ insertEntry size key datum rest := by
  induction front with
  | nil => rfl
  | cons entry front induction =>
      have first := skipped entry List.mem_cons_self
      rw [List.cons_append, insertEntry, first, if_neg Bool.false_ne_true,
        induction fun later member => skipped later (List.mem_cons_of_mem entry member)]
      rfl

theorem insertEntry_here {size : UInt32} {key : CString} (datum : Datum)
    {rest : List (CString × Datum)}
    (stops : ∀ entry, rest.head? = some entry → symbolBefore size key entry.1 = true) :
    insertEntry size key datum rest = (key, datum) :: rest := by
  cases rest with
  | nil => rfl
  | cons entry rest => rw [insertEntry, if_pos (stops entry rfl)]

theorem symbolBefore_iff (size : UInt32) (key cur : CString) :
    symbolBefore size key cur = true ↔ symhash size key < symhash size cur ∨
      (symhash size key = symhash size cur ∧ key < cur) := by
  simp [symbolBefore]

theorem HashtabVal.AtSlot.insertEntry_listing {h : HashtabVal CString Datum} {key : CString}
    {front chain back : List (CString × Datum)}
    (atSlot : AtSlot symtabFunctions h key front chain back) (datum : Datum)
    (ends : atKey symtabFunctions key (reached strcmp key chain) = none) :
    insertEntry h.size key datum h.listing =
      front ++ (passed strcmp key chain ++ (key, datum) :: reached strcmp key chain) ++ back := by
  have split : h.listing =
      (front ++ passed strcmp key chain) ++ (reached strcmp key chain ++ back) := by
    conv_lhs => rw [atSlot.listing, ← passed_append_reached strcmp key chain]
    simp only [List.append_assoc]
  have skipped : ∀ entry, entry ∈ front ++ passed strcmp key chain →
      symbolBefore h.size key entry.1 = false := by
    intro entry member
    apply Bool.eq_false_iff.mpr
    rw [Ne, symbolBefore_iff]
    rcases List.mem_append.mp member with inFront | isPassed
    · have less : symhash h.size entry.1 < symhash h.size key := atSlot.before entry inFront
      rw [UInt32.lt_iff_toNat_lt] at less ⊢
      rw [← UInt32.toNat_inj]
      omega
    · have same : symhash h.size entry.1 = symhash h.size key :=
        atSlot.placed entry ((List.takeWhile_sublist _).subset isPassed)
      have smaller := (strcmp_pos_iff key entry.1).mp (greater_of_mem_passed isPassed)
      rw [same]
      rintro (less | ⟨-, greater⟩)
      · exact UInt32.lt_irrefl _ less
      · exact List.lt_asymm smaller greater
  have stops : ∀ entry, (reached strcmp key chain ++ back).head? = some entry →
      symbolBefore h.size key entry.1 = true := by
    intro entry isHead
    rw [symbolBefore_iff]
    cases isReached : reached strcmp key chain with
    | nil =>
        rw [isReached, List.nil_append] at isHead
        exact Or.inl (atSlot.after entry (List.mem_of_head? isHead))
    | cons cur next =>
        rw [isReached, List.cons_append, List.head?_cons] at isHead
        cases isHead
        have inChain : entry ∈ chain := by
          apply (List.dropWhile_sublist _).subset
          change entry ∈ reached strcmp key chain
          rw [isReached]
          exact List.mem_cons_self
        have same : symhash h.size entry.1 = symhash h.size key := atSlot.placed entry inChain
        have notSmaller := head_of_reached isReached
        have different : strcmp key entry.1 ≠ 0 := atKey_eq_none ends isReached
        exact Or.inr ⟨same.symm, (strcmp_neg_iff key entry.1).mp (by omega)⟩
  rw [split, insertEntry_skip datum _ skipped, insertEntry_here datum stops]
  simp only [List.append_assoc, List.cons_append]

end SuBinary.Sepol
