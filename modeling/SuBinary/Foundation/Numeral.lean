import SuBinary.Foundation.CString

/-! # Numerals

The texts that `strtoul` reads to their end, and what it makes of them.
-/

namespace SuBinary

def decimalValue (digits : CString) : Nat :=
  digits.foldl (fun value digit => 10 * value + (digit.toNat - 48)) 0

structure IsNumeral (spaces sign digits : CString) : Prop where
  allSpace : ∀ byte, byte ∈ spaces → isSpace byte = true
  isSign : sign = [] ∨ sign = [45] ∨ sign = [43]
  someDigit : digits ≠ []
  allDigits : ∀ byte, byte ∈ digits → isDigit byte = true

theorem isSpace_of_isDigit {byte : Byte} (digit : isDigit byte = true) :
    isSpace byte = false ∧ byte ≠ 45 ∧ byte ≠ 43 := by
  simp only [isDigit, Bool.and_eq_true, decide_eq_true_eq, UInt8.le_iff_toNat_le] at digit
  simp only [isSpace, ne_eq, ← UInt8.toNat_inj, Bool.or_eq_false_iff, Bool.and_eq_false_iff,
    beq_eq_false_iff_ne, decide_eq_false_iff_not, UInt8.le_iff_toNat_le]
  simp only [UInt8.reduceToNat] at *
  omega

def Signed (sign unsigned : CString) : Prop :=
  sign = [45] ∨ sign = [43] ∨ sign = [] ∧ unsigned.head? ≠ some 45 ∧ unsigned.head? ≠ some 43

theorem strtoul_eq {text sign unsigned : CString}
    (dropped : text.dropWhile isSpace = sign ++ unsigned) (signed : Signed sign unsigned)
    (limit : Nat) :
    strtoul limit text =
      if unsigned.takeWhile isDigit = [] then { value := 0, endptr := text, erange := false }
      else if limit < decimalValue (unsigned.takeWhile isDigit) then
        { value := limit, endptr := unsigned.dropWhile isDigit, erange := true }
      else
        { value :=
            if sign = [45] then
              (limit + 1 - decimalValue (unsigned.takeWhile isDigit)) % (limit + 1)
            else decimalValue (unsigned.takeWhile isDigit)
          endptr := unsigned.dropWhile isDigit
          erange := false } := by
  have isDrop : unsigned.drop (unsigned.takeWhile isDigit).length = unsigned.dropWhile isDigit := by
    have left : ((unsigned.takeWhile isDigit) ++ (unsigned.dropWhile isDigit)).drop
        (unsigned.takeWhile isDigit).length = unsigned.dropWhile isDigit := List.drop_left
    rwa [List.takeWhile_append_dropWhile] at left
  simp only [strtoul, dropped]
  rcases signed with rfl | rfl | ⟨rfl, noMinus, noPlus⟩
  · simp [isDrop, decimalValue]
  · simp [isDrop, decimalValue]
  · have minus : (unsigned.head? == some 45) = false := beq_eq_false_iff_ne.mpr noMinus
    have plus : (unsigned.head? == some 43) = false := beq_eq_false_iff_ne.mpr noPlus
    simp [minus, plus, isDrop, decimalValue]

theorem strtoul_nil (limit : Nat) :
    strtoul limit [] = { value := 0, endptr := [], erange := false } := rfl

theorem IsNumeral.strtoul_eq {spaces sign digits : CString}
    (numeral : IsNumeral spaces sign digits) (limit : Nat) :
    strtoul limit (spaces ++ (sign ++ digits)) =
      if limit < decimalValue digits then { value := limit, endptr := [], erange := true }
      else
        { value :=
            if sign = [45] then (limit + 1 - decimalValue digits) % (limit + 1)
            else decimalValue digits
          endptr := []
          erange := false } := by
  rcases numeral with ⟨allSpace, isSign, someDigit, allDigits⟩
  rcases List.exists_cons_of_ne_nil someDigit with ⟨digit, more, isDigits⟩
  have first := isSpace_of_isDigit (allDigits digit (isDigits ▸ List.mem_cons_self ..))
  have signed : Signed sign digits := by
    rcases isSign with rfl | rfl | rfl
    · exact Or.inr (Or.inr (by simpa [isDigits] using first.2))
    · exact Or.inl rfl
    · exact Or.inr (Or.inl rfl)
  have dropped : (spaces ++ (sign ++ digits)).dropWhile isSpace = sign ++ digits := by
    rw [List.dropWhile_append_of_pos allSpace]
    rcases isSign with rfl | rfl | rfl
    · rw [List.nil_append, isDigits, List.dropWhile_cons_of_neg (by simp [first.1])]
    · rfl
    · rfl
  rw [SuBinary.strtoul_eq dropped signed, List.takeWhile_eq_self_iff.mpr allDigits,
    List.dropWhile_eq_nil_iff.mpr allDigits, if_neg someDigit]

theorem exists_signed (text : CString) : ∃ sign unsigned, text = sign ++ unsigned ∧
    Signed sign unsigned := by
  by_cases minus : text.head? = some 45
  · rcases List.head?_eq_some_iff.mp minus with ⟨unsigned, rfl⟩
    exact ⟨[45], unsigned, rfl, Or.inl rfl⟩
  · by_cases plus : text.head? = some 43
    · rcases List.head?_eq_some_iff.mp plus with ⟨unsigned, rfl⟩
      exact ⟨[43], unsigned, rfl, Or.inr (Or.inl rfl)⟩
    · exact ⟨[], text, rfl, Or.inr (Or.inr ⟨rfl, minus, plus⟩)⟩

theorem isNumeral_of_strtoul {limit : Nat} {text : CString}
    (ends : (strtoul limit text).endptr = []) :
    text = [] ∨ ∃ spaces sign digits, IsNumeral spaces sign digits ∧
      text = spaces ++ (sign ++ digits) := by
  rcases exists_signed (text.dropWhile isSpace) with ⟨sign, unsigned, dropped, signed⟩
  rw [SuBinary.strtoul_eq dropped signed] at ends
  by_cases noDigit : unsigned.takeWhile isDigit = []
  · rw [if_pos noDigit] at ends
    exact Or.inl ends
  · have atEnd : unsigned.dropWhile isDigit = [] := by
      rw [if_neg noDigit] at ends
      split at ends
      · exact ends
      · exact ends
    refine Or.inr ⟨text.takeWhile isSpace, sign, unsigned, ⟨?_, ?_, ?_, ?_⟩, ?_⟩
    · exact fun byte member => List.mem_takeWhile_imp member
    · rcases signed with isSign | isSign | ⟨isSign, -, -⟩
      · exact Or.inr (Or.inl isSign)
      · exact Or.inr (Or.inr isSign)
      · exact Or.inl isSign
    · rintro rfl
      exact noDigit rfl
    · exact List.dropWhile_eq_nil_iff.mp atEnd
    · rw [← dropped, List.takeWhile_append_dropWhile]

end SuBinary
