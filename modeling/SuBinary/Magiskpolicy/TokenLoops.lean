import SuBinary.Magiskpolicy.ParserWords

/-! # The token loops

The loops of `parse_pattern_1`, `parse_pattern_2` and `parse_pattern_5` on any
statement: they end, and they index a token only where it has a byte.
-/

namespace SuBinary.Magiskpolicy

open SuBinary

/-! ## The body with checks -/

def SomeToken (cells : List Byte) (tok : Nat) : Prop := 0 ∈ cells.drop tok ∧ stringAt cells tok ≠ []

instance (cells : List Byte) (tok : Nat) : Decidable (SomeToken cells tok) :=
  inferInstanceAs (Decidable (_ ∧ _))

def checkToken (tok : Nat) : MemM Unit := fun memory =>
  if SomeToken memory.cells tok then some ((), memory) else none

/-- The body of the loop with a check in front of each `tok[1]` and each
`tok[strlen(tok) - 1]`. -/
def visitChecked (pattern : Pattern) (tok : Nat) (scan : Scan Nat) :
    MemM (Visit Nat (Scan Nat)) := do
  if (← readCell tok) = openByte then
    match pattern.openBrace scan with
    | none => return .reject
    | some scan =>
        checkToken tok
        if (← readCell (tok + 1)) ≠ 0 then
          return .again (tok + 1) scan
        else
          return .next scan.advance
  else
    let length ← strlen tok
    checkToken tok
    if (← readCell (tok + length - 1)) = closeByte then
      match pattern.closeBrace scan with
      | none => return .reject
      | some scan =>
          if length - 1 ≠ 0 then
            checkToken tok
            writeCell (tok + length - 1) 0
            return .again tok scan
          else
            return .next scan.advance
    else
      let first ← readCell tok
      match pattern.addName (if first = star then none else some tok) scan with
      | none => return .reject
      | some scan => return .next scan.advance

section Checks

variable {cells : List Byte} {memory after : Memory} {tok : Nat} {word : CString}

theorem someToken_of_hasString (present : HasString cells tok word) (someWord : word ≠ []) :
    SomeToken cells tok := by
  refine ⟨?_, present.stringAt_eq ▸ someWord⟩
  rw [List.mem_iff_getElem?]
  exact ⟨word.length, by rw [List.getElem?_drop]; exact present.ends⟩

theorem checkToken_bind (someToken : SomeToken cells tok) (sameCells : memory.cells = cells)
    (next : MemM α) : (checkToken tok >>= fun _ => next) memory = next memory := by
  have passes : SomeToken memory.cells tok := sameCells ▸ someToken
  exact FaultM.run_bind (if_pos passes)

theorem visitChecked_eq (pattern : Pattern) (scan : Scan Nat)
    (someToken : SomeToken memory.cells tok) :
    visitChecked pattern tok scan memory = visitToken pattern tok scan memory := by
  refine FaultM.bind_congr fun first memoryFirst readFirst => ?_
  have sameFirst : memoryFirst.cells = memory.cells := by
    rw [(readCell_some readFirst).2]
    rfl
  split
  · cases pattern.openBrace scan with
    | none => rfl
    | some opened => exact checkToken_bind someToken sameFirst _
  · refine FaultM.bind_congr fun length memoryLength measured => ?_
    have sameLength : memoryLength.cells = memory.cells := by
      rw [(strlen_some measured).2]
      exact sameFirst
    rw [checkToken_bind someToken sameLength]
    refine FaultM.bind_congr fun last memoryLast readLast => ?_
    have sameLast : memoryLast.cells = memory.cells := by
      rw [(readCell_some readLast).2]
      exact sameLength
    split
    · cases pattern.closeBrace scan with
      | none => rfl
      | some closed =>
          dsimp only
          split
          · exact checkToken_bind someToken sameLast _
          · rfl
    · rfl

end Checks

/-! ## The loops -/

/-- The loop of a pattern on the statement in `memory`: where it is entered, where it goes,
and how it ends. -/
structure LoopSafe (pattern : Pattern) (memory : Memory) (statement bound : Nat) : Prop where
  /-- The loop ends after at most `bound` passes and without a fault. -/
  ends : ∃ first count last result,
    (bracketVisitor pattern).enter statement Scan.start memory = some first ∧ count ≤ bound ∧
      Loop.Reaches (bracketVisitor pattern).turn count first last ∧
      (bracketVisitor pattern).turn last = .finish (some result)
  /-- In no pass a check fails. -/
  checked : ∀ first count state tok,
    (bracketVisitor pattern).enter statement Scan.start memory = some first →
      Loop.Reaches (bracketVisitor pattern).turn count first state → state.tok = some tok →
      SomeToken state.memory.cells tok ∧
        visitChecked pattern tok state.held state.memory ≠ none ∧
        visitChecked pattern tok state.held state.memory =
          visitToken pattern tok state.held state.memory

theorem visitToken_some {pattern : Pattern} {memory : Memory} {tok : Nat} {word : CString}
    {scan : Scan Nat} (present : HasString memory.cells tok word) (someWord : word ≠ [])
    (settled : scanHolder.Settled memory.cells tok scan) :
    visitToken pattern tok scan memory ≠ none := by
  rcases bracketVisitor_follows pattern memory tok word scan present someWord settled with
    ⟨after, -, matched⟩
  have isVisit : (bracketVisitor pattern).visit tok scan memory =
      visitToken pattern tok scan memory := rfl
  rw [← isVisit]
  intro faults
  rw [faults] at matched
  cases decides : visitWord pattern word (scanHolder.deref memory.cells scan) with
  | reject =>
      rw [decides] at matched
      cases matched
  | again shorter held =>
      rw [decides] at matched
      rcases matched with ⟨_, _, ran, -⟩
      cases ran
  | next held =>
      rw [decides] at matched
      rcases matched with ⟨_, ran, -⟩
      cases ran

theorem loopSafe (pattern : Pattern) {memory : Memory} {statement : Nat} {text : CString}
    (present : HasString memory.cells statement text) :
    LoopSafe pattern memory statement text.length := by
  have follows := bracketVisitor_follows pattern
  have noNul : (bracketVisitor pattern).delimiter 0 = false := rfl
  have fresh : scanHolder.pointers Scan.start = [] := rfl
  rcases enter_stands noNul present fresh with ⟨first, entered, -, stands⟩
  constructor
  · rcases stands.ends follows noNul with ⟨count, last, result, few, reaches, finishes⟩
    exact ⟨first, count, last, result, entered,
      few.trans (totalLength_tokens_le _ text), reaches, finishes⟩
  · intro other count state tok enteredToo reaches isTok
    rw [entered, Option.some.injEq] at enteredToo
    subst enteredToo
    rcases stands.reaches follows noNul reaches with ⟨words, held, standsState⟩
    have settled := (standsState.settled tok isTok).2
    cases words with
    | nil =>
        rcases state with ⟨memory, _, saveptr, held⟩
        cases standsState.atTokens
        cases isTok
    | cons word words =>
        rcases standsState.atTokens.token with ⟨found, isFound, presentWord, someWord, -⟩
        rw [isTok, Option.some.injEq] at isFound
        subst isFound
        have someToken := someToken_of_hasString presentWord someWord
        have same := visitChecked_eq pattern state.held someToken
        refine ⟨someToken, ?_, same⟩
        rw [same]
        exact visitToken_some presentWord someWord settled

/-- On any statement, the three loops end and index no token that has no byte. -/
theorem token_loops_safe (memory : Memory) (statement : Nat) (text : CString)
    (present : HasString memory.cells statement text) :
    LoopSafe pattern1 memory statement text.length ∧
      LoopSafe pattern2 memory statement text.length ∧
      LoopSafe pattern5 memory statement text.length :=
  ⟨loopSafe pattern1 present, loopSafe pattern2 present, loopSafe pattern5 present⟩

def braces : CString := ascii "\x7b\x7ba\x7d * \x7b \x7d \x7bb\x7d\x7d"

theorem braces_safe :
    let memory : Memory := { cells := braces ++ [0], touched := [] }
    LoopSafe pattern1 memory 0 15 ∧ LoopSafe pattern2 memory 0 15 ∧ LoopSafe pattern5 memory 0 15 :=
  token_loops_safe { cells := braces ++ [0], touched := [] } 0 braces
    (HasString.of_drop (by decide) (show _ = braces ++ 0 :: [] from rfl))

end SuBinary.Magiskpolicy
