import SuBinary.Magiskpolicy.OperationEffect

/-! # The range of an extended-permission rule

The word is scanned into two variables that are set nowhere else, and the result
of the scan is not looked at.
-/

namespace SuBinary.Magiskpolicy

open SuBinary Sepol

/-! ## Well-formed ranges -/

def hexValue (digits : CString) : Nat :=
  digits.foldl (fun value digit => 16 * value + (hexDigit digit).getD 0) 0

/-- The text is a hexadecimal number of at most 16 bits, with or without `0x`. -/
def IsHexNumber (text : CString) (value : UInt16) : Prop :=
  ∃ mark digits, text = mark ++ digits ∧ mark ∈ [[], ascii "0x", ascii "0X"] ∧ digits ≠ [] ∧
    (∀ digit, digit ∈ digits → (hexDigit digit).isSome = true) ∧ hexValue digits = value.toNat

/-- The text is one number, or two that are in order with `-` between them. -/
def IsRange (text : CString) (low high : UInt16) : Prop :=
  (IsHexNumber text low ∧ high = low) ∨
    ∃ first second, text = first ++ 45 :: second ∧ IsHexNumber first low ∧
      IsHexNumber second high ∧ low ≤ high

/-- The rule is applied to the range that the word gives, whatever `low` and `high`
hold before the scan; another word is an error. -/
structure RangeHandled (db : Policydb) (s t c : Option CString) (symbols : XpermSymbols)
    (range : CString) (effect : AvtabSpecified) (not : Bool) : Prop where
  applied : ∀ low high, IsRange range low high → ∀ stale,
    addXpermRule stale s t c (some range) effect not db =
      addXpermRuleAuto symbols.src symbols.tgt symbols.cls low high effect not db
  rejected : (∀ low high, ¬IsRange range low high) → ∀ stale,
    (addXpermRule stale s t c (some range) effect not db).2 ≠ 0 ∧
      (addXpermRule stale s t c (some range) effect not db).1.teAvtab = db.teAvtab
  sameRange : ∀ stale other, addXpermRule stale s t c (some range) effect not db =
    addXpermRule other s t c (some range) effect not db

/-! ## Scanning -/

theorem starts_of_isSome {byte : Byte} (isDigit : (hexDigit byte).isSome = true) :
    isSpace byte = false ∧ byte ≠ 45 ∧ byte ≠ 43 ∧ byte ≠ 120 ∧ byte ≠ 88 := by
  have large : 48 ≤ byte := by
    by_contra small
    simp only [hexDigit, SuBinary.isDigit, UInt8.not_le] at isDigit small
    grind
  refine ⟨?_, ?_, ?_, ?_, ?_⟩
  · simp only [isSpace]
    grind
  · rintro rfl
    exact absurd isDigit (by decide)
  · rintro rfl
    exact absurd isDigit (by decide)
  · rintro rfl
    exact absurd isDigit (by decide)
  · rintro rfl
    exact absurd isDigit (by decide)

theorem IsHexNumber.starts {text : CString} {value : UInt16} (number : IsHexNumber text value) :
    ∃ first others, text = first :: others ∧ (hexDigit first).isSome = true := by
  rcases number with ⟨mark, digits, rfl, isMark, nonempty, allDigits, -⟩
  simp only [List.mem_cons, List.not_mem_nil, or_false] at isMark
  rcases isMark with rfl | rfl | rfl
  · cases digits with
    | nil => exact absurd rfl nonempty
    | cons first others => exact ⟨first, others, rfl, allDigits first List.mem_cons_self⟩
  · exact ⟨48, 120 :: digits, rfl, rfl⟩
  · exact ⟨48, 88 :: digits, rfl, rfl⟩

theorem IsHexNumber.no_dash {text : CString} {value : UInt16} (number : IsHexNumber text value) :
    45 ∉ text := by
  rcases number with ⟨mark, digits, rfl, isMark, nonempty, allDigits, -⟩
  intro member
  rcases List.mem_append.mp member with inMark | inDigits
  · simp only [List.mem_cons, List.not_mem_nil, or_false] at isMark
    rcases isMark with rfl | rfl | rfl
    · cases inMark
    · revert inMark
      decide
    · revert inMark
      decide
  · exact absurd (allDigits 45 inDigits) (by decide)

theorem scanHx_number {text : CString} {value : UInt16} (number : IsHexNumber text value)
    (rest : CString) (ends : ∀ byte, byte ∈ rest.head? → byte = 45) :
    scanHx (text ++ rest) = some (value, rest) := by
  rcases number.starts with ⟨first, others, isText, isDigit⟩
  rcases starts_of_isSome isDigit with ⟨notSpace, notMinus, notPlus, -, -⟩
  have noSpace : (text ++ rest).dropWhile isSpace = text ++ rest := by
    rw [isText, List.cons_append, List.dropWhile_cons_of_neg (by simp [notSpace])]
  have noMinus : ((text ++ rest).head? == some 45) = false := by simp [isText, notMinus]
  have noPlus : ((text ++ rest).head? == some 43) = false := by simp [isText, notPlus]
  rcases number with ⟨mark, digits, isNumber, isMark, nonempty, allDigits, isValue⟩
  have taken : (digits ++ rest).takeWhile (fun byte => (hexDigit byte).isSome) = digits := by
    rw [List.takeWhile_append_of_pos allDigits]
    cases rest with
    | nil => simp
    | cons byte more =>
        cases ends byte rfl
        simp [show hexDigit 45 = none from rfl]
  have body : (if (text ++ rest).take 2 = ascii "0x" ∨ (text ++ rest).take 2 = ascii "0X" then
      (text ++ rest).drop 2 else text ++ rest) = digits ++ rest := by
    simp only [List.mem_cons, List.not_mem_nil, or_false] at isMark
    rcases isMark with rfl | rfl | rfl
    · have second : ∀ byte, (text ++ rest)[1]? = some byte → byte ≠ 120 ∧ byte ≠ 88 := by
        intro byte isSecond
        rw [isNumber, List.nil_append] at isSecond
        rcases digits with - | ⟨digit, - | ⟨next, later⟩⟩
        · exact absurd rfl nonempty
        · cases ends byte (by rw [List.head?_eq_getElem?]; exact isSecond)
          decide
        · have isNext : next = byte := Option.some.inj isSecond
          have nextDigit := allDigits next (List.mem_cons_of_mem digit List.mem_cons_self)
          rw [← isNext]
          exact (starts_of_isSome nextDigit).2.2.2
      have noMark : ∀ byte, (text ++ rest).take 2 = [48, byte] →
          byte = 120 ∨ byte = 88 → False := by
        intro byte isMark isX
        have isSecond : (text ++ rest)[1]? = some byte := by
          rw [← List.getElem?_take_of_lt Nat.one_lt_two, isMark]
          rfl
        rcases second byte isSecond with ⟨notLower, notUpper⟩
        exact isX.elim notLower notUpper
      rw [if_neg, isNumber, List.nil_append]
      rintro (lower | upper)
      · exact noMark 120 lower (Or.inl rfl)
      · exact noMark 88 upper (Or.inr rfl)
    · rw [isNumber]
      exact if_pos (Or.inl rfl)
    · rw [isNumber]
      exact if_pos (Or.inr rfl)
  have converted : UInt16.ofNat (hexValue digits) = value := by
    rw [isValue, UInt16.ofNat_toNat]
  rw [hexValue] at converted
  simp only [scanHx, noSpace, noMinus, noPlus, Bool.or_self, Bool.false_eq_true, if_false, body,
    taken, nonempty, converted, List.drop_left]

theorem scanRange_of_isRange {text : CString} {low high : UInt16} (range : IsRange text low high)
    (stale : UInt16 × UInt16) : scanRange stale (some text) = (low, high) := by
  rcases range with ⟨number, rfl⟩ | ⟨first, second, rfl, firstNumber, secondNumber, -⟩
  · have scanned := scanHx_number number [] fun byte isHead => nomatch isHead
    rw [List.append_nil] at scanned
    simp only [scanRange, number.no_dash, if_false, scanned, Option.map_some, Option.getD_some]
  · have scanned := scanHx_number firstNumber (45 :: second) fun byte isHead =>
      (Option.some.inj isHead).symm
    have scannedSecond := scanHx_number secondNumber [] fun byte isHead => nomatch isHead
    rw [List.append_nil] at scannedSecond
    have dash : 45 ∈ first ++ 45 :: second := by simp
    simp only [scanRange, dash, if_true, scanned, scannedSecond, Option.map_some,
      Option.getD_some]

/-- The word is handled if it is well-formed: there is no other outcome than
success. -/
theorem range_handled_iff {db : Policydb} {s t c : Option CString} {symbols : XpermSymbols}
    (found : xpermSymbols db s t c = .ok symbols) (range : CString) (effect : AvtabSpecified)
    (not : Bool) :
    RangeHandled db s t c symbols range effect not ↔ ∃ low high, IsRange range low high := by
  constructor
  · intro handled
    by_contra malformed
    simp only [not_exists] at malformed
    have failed := (handled.rejected malformed (0, 0)).1
    rw [addXpermRule_eq_editKeys found] at failed
    exact failed rfl
  · rintro ⟨low, high, isRange⟩
    have applies : ∀ low high, IsRange range low high → ∀ stale,
        addXpermRule stale s t c (some range) effect not db =
          addXpermRuleAuto symbols.src symbols.tgt symbols.cls low high effect not db := by
      intro low high isRange stale
      simp only [addXpermRule, found, scanRange_of_isRange isRange]
    refine ⟨applies, fun malformed => absurd isRange (malformed low high), fun stale other => ?_⟩
    rw [applies low high isRange, applies low high isRange]

def shellXpermSymbols : XpermSymbols where
  src := some { value := 1 }
  tgt := some { value := 2 }
  cls := some
    { value := 1
      permissions := Hashtab.single (ascii "read") { value := 1 }
      comdatum := none }

def permsAfterZz (stale : UInt16 × UInt16) : List (BitVec 256) :=
  let added := addXpermRule stale (some (ascii "shell")) (some (ascii "domain"))
    (some (ascii "file")) (some (ascii "zz")) .xpermsAllowed false
    (shellPolicydb auditedTable).toPolicydb
  (added.1.teAvtab.data (ruleKey 1 2 1 .xpermsAllowed)).map fun av => av.xperms.perms

/-- The word `zz` leaves the variables as they were, and the rule is applied to that. -/
theorem range_zz : ¬RangeHandled (shellPolicydb auditedTable).toPolicydb (some (ascii "shell"))
    (some (ascii "domain")) (some (ascii "file")) shellXpermSymbols (ascii "zz") .xpermsAllowed
    false := by
  intro handled
  have same : permsAfterZz (0, 0) = permsAfterZz (1, 1) := by
    rw [permsAfterZz, handled.sameRange (0, 0) (1, 1)]
    rfl
  have differ : permsAfterZz (0, 0) ≠ permsAfterZz (1, 1) := by decide +kernel
  exact differ same

/-- `0x8910-0x8926` as the range of a rule of `shell`. -/
theorem range_handled_shell : RangeHandled (shellPolicydb auditedTable).toPolicydb
    (some (ascii "shell")) (some (ascii "domain")) (some (ascii "file")) shellXpermSymbols
    (ascii "0x8910-0x8926") .xpermsAllowed false := by
  refine (range_handled_iff rfl _ _ _).mpr ⟨0x8910, 0x8926, Or.inr ?_⟩
  refine ⟨ascii "0x8910", ascii "0x8926", by decide, ?_, ?_, by decide⟩
  · exact ⟨ascii "0x", ascii "8910", rfl, by decide, by decide, by decide +kernel,
      by decide +kernel⟩
  · exact ⟨ascii "0x", ascii "8926", rfl, by decide, by decide, by decide +kernel,
      by decide +kernel⟩

end SuBinary.Magiskpolicy
