import SuBinary.Magiskpolicy.Parser

/-! # The parsers on words

What the loops of the parsers do to the words of a statement, and that they do
it in memory: the parsers touch nothing outside the statement, and their result
depends on its words only.
-/

namespace SuBinary.Magiskpolicy

open SuBinary

/-! ## One word -/

/-- The name that is passed on for a word; `ALL` is `none`. -/
def operand (word : CString) : Option CString :=
  if word.head? = some star then none else some word

theorem operand_of_hasString {cells : List Byte} {tok : Nat} {word : CString} {byte : Byte}
    (present : HasString cells tok word) (someWord : word ≠ []) (isByte : cells[tok]? = some byte) :
    operand word = (if byte = star then none else some tok).map (stringAt cells) := by
  rcases List.exists_cons_of_ne_nil someWord with ⟨head, rest, rfl⟩
  have isHead := present.bytes 0 (by simp)
  simp only [Nat.add_zero, isByte, List.getElem?_cons_zero, Option.some.injEq] at isHead
  subst isHead
  by_cases isStar : byte = star
  · simp [operand, isStar]
  · simp [operand, isStar, present.stringAt_eq]

def visitWord (pattern : Pattern) (word : CString) (scan : Scan CString) :
    Visit CString (Scan CString) :=
  if word.head? = some openByte then
    match pattern.openBrace scan with
    | none => .reject
    | some scan => if word.tail ≠ [] then .again word.tail scan else .next scan.advance
  else if word.getLast? = some closeByte then
    match pattern.closeBrace scan with
    | none => .reject
    | some scan => if word.dropLast ≠ [] then .again word.dropLast scan else .next scan.advance
  else
    match pattern.addName (operand word) scan with
    | none => .reject
    | some scan => .next scan.advance

section Map

variable (pattern : Pattern) (change : Name → Other) (scan : Scan Name)

theorem openBrace_map :
    pattern.openBrace (scan.map change) = (pattern.openBrace scan).map (Scan.map change) := by
  unfold Pattern.openBrace
  split
  · simp_all [Scan.map]
  · simp_all [Scan.map]

theorem closeBrace_map :
    pattern.closeBrace (scan.map change) = (pattern.closeBrace scan).map (Scan.map change) := by
  unfold Pattern.closeBrace
  split
  · simp_all [Scan.map]
  · simp_all [Scan.map]

theorem advance_map : (scan.map change).advance = scan.advance.map change := by
  unfold Scan.advance
  split
  · simp_all [Scan.map]
  · simp_all [Scan.map]

theorem addName_map (name : Option Name) :
    pattern.addName (name.map change) (scan.map change) =
      (pattern.addName name scan).map (Scan.map change) := by
  have sameState : (scan.map change).state = scan.state := rfl
  unfold Pattern.addName
  rw [sameState]
  cases pattern.slot scan.state with
  | none => rfl
  | some slot => cases slot <;> simp [Scan.map]

end Map

def Scan.pointers (scan : Scan Nat) : List Nat :=
  (scan.first ++ scan.second ++ scan.third).reduceOption ++ scan.single.toList

theorem map_option_congr {left right : Nat → CString} {names : List (Option Nat)}
    (same : ∀ pointer, pointer ∈ names.reduceOption → left pointer = right pointer) :
    names.map (Option.map left) = names.map (Option.map right) := by
  apply List.map_congr_left
  intro name member
  cases name with
  | none => rfl
  | some pointer => simp [same pointer (List.reduceOption_mem_iff.mpr member)]

def scanHolder : Holder Scan where
  map := Scan.map
  pointers := Scan.pointers
  congr := by
    intro left right scan same
    simp only [Scan.pointers, List.reduceOption_append, List.mem_append] at same
    have first := map_option_congr fun pointer member =>
      same pointer (Or.inl (Or.inl (Or.inl member)))
    have second := map_option_congr fun pointer member =>
      same pointer (Or.inl (Or.inl (Or.inr member)))
    have third := map_option_congr fun pointer member =>
      same pointer (Or.inl (Or.inr member))
    have single : scan.single.map left = scan.single.map right :=
      Option.map_congr fun pointer member => same pointer (Or.inr (by simpa using member))
    simp only [Scan.map, first, second, third, single]

theorem pointers_openBrace {pattern : Pattern} {scan opened : Scan Nat}
    (opens : pattern.openBrace scan = some opened) : opened.pointers = scan.pointers := by
  rw [Pattern.openBrace] at opens
  split at opens
  · cases opens
  · cases opens
    rfl

theorem pointers_closeBrace {pattern : Pattern} {scan closed : Scan Nat}
    (closes : pattern.closeBrace scan = some closed) : closed.pointers = scan.pointers := by
  rw [Pattern.closeBrace] at closes
  split at closes
  · cases closes
  · cases closes
    rfl

theorem pointers_advance (scan : Scan Nat) : scan.advance.pointers = scan.pointers := by
  rw [Scan.advance]
  split
  · rfl
  · rfl

theorem pointers_addName {pattern : Pattern} {name : Option Nat} {scan added : Scan Nat}
    (adds : pattern.addName name scan = some added) :
    ∀ pointer, pointer ∈ added.pointers → pointer ∈ scan.pointers ∨ name = some pointer := by
  intro pointer member
  rw [Pattern.addName] at adds
  split at adds
  · cases adds
  all_goals
    cases adds
    simp only [Scan.pointers, List.reduceOption_append, List.mem_append,
      List.reduceOption_mem_iff, List.mem_singleton, Option.mem_toList] at member ⊢
    grind

section Follows

variable {pattern : Pattern} {memory : Memory} {tok : Nat} {scan : Scan Nat}

theorem settled_of_pointers {cells : List Byte} {bound : Nat} {scan other : Scan Nat}
    (settled : scanHolder.Settled cells bound scan) (same : other.pointers = scan.pointers) :
    scanHolder.Settled cells bound other := by
  intro pointer member
  have held : pointer ∈ other.pointers := member
  rw [same] at held
  exact settled pointer held

theorem visitToken_open {rest : CString}
    (present : HasString memory.cells tok (openByte :: rest))
    (settled : scanHolder.Settled memory.cells tok scan) :
    ∃ after, Confined tok (tok + (openByte :: rest).length) memory after ∧
      VisitMatches scanHolder memory tok (openByte :: rest)
        (visitToken pattern tok scan memory) after
        (visitWord pattern (openByte :: rest) (scanHolder.deref memory.cells scan)) := by
  have first : memory.cells[tok]? = some openByte := by
    simpa using present.bytes 0 (by simp)
  have opensMap := openBrace_map pattern (stringAt memory.cells) scan
  have firstConfined : Confined tok (tok + (openByte :: rest).length) memory
      (memory.touch tok 1) := Confined.touch _ (by omega) (by simp)
  have bothConfined : Confined tok (tok + (openByte :: rest).length) memory
      ((memory.touch tok 1).touch (tok + 1) 1) :=
    firstConfined.trans (Confined.touch _ (by omega) (by simp))
  rw [visitWord, if_pos List.head?_cons, List.tail_cons, visitToken,
    FaultM.run_bind (readCell_of_getElem? first), if_pos rfl]
  simp only [Holder.deref, scanHolder, opensMap]
  cases opened : pattern.openBrace scan with
  | none => exact ⟨_, firstConfined, rfl⟩
  | some scanOpen =>
      have samePointers := pointers_openBrace opened
      have tail : HasString memory.cells (tok + [openByte].length) rest :=
        HasString.suffix present
      simp only [Option.map_some]
      cases rest with
      | nil =>
          have second : (memory.touch tok 1).cells[tok + 1]? = some 0 := by
            simpa using present.ends
          rw [FaultM.run_bind (readCell_of_getElem? second)]
          refine ⟨_, bothConfined, scanOpen.advance, rfl, rfl, (advance_map _ _).symm, ?_⟩
          refine Holder.Settled.mono (settled_of_pointers settled ?_) (by omega)
          rw [pointers_advance, samePointers]
      | cons byte rest =>
          have second : (memory.touch tok 1).cells[tok + 1]? = some byte := by
            simpa using present.bytes 1 (by simp)
          have someByte : byte ≠ 0 := fun isNul => tail.clean (isNul ▸ List.mem_cons_self ..)
          rw [FaultM.run_bind (readCell_of_getElem? second), if_pos someByte,
            if_pos (List.cons_ne_nil _ _)]
          refine ⟨_, bothConfined, tok + 1, scanOpen, rfl, tail, List.cons_ne_nil _ _, by omega,
            by simp; omega, rfl, ?_⟩
          exact Holder.Settled.mono (settled_of_pointers settled samePointers) (by omega)

theorem first_other {word : CString} (present : HasString memory.cells tok word)
    (someWord : word ≠ []) (noOpen : word.head? ≠ some openByte) :
    ∃ byte, memory.cells[tok]? = some byte ∧ byte ≠ openByte := by
  rcases List.exists_cons_of_ne_nil someWord with ⟨byte, rest, rfl⟩
  refine ⟨byte, by simpa using present.bytes 0 (by simp), ?_⟩
  rintro rfl
  exact noOpen rfl

theorem look_last {front : CString} {byte : Byte}
    (present : HasString memory.cells tok (front ++ [byte])) :
    ∃ looked, looked.cells = memory.cells ∧
      Confined tok (tok + (front ++ [byte]).length) memory looked ∧
      strlen tok memory = some (front.length + 1, looked) ∧
      looked.cells[tok + (front.length + 1) - 1]? = some byte := by
  have measured := strlen_of_hasString present
  have isLast : memory.cells[tok + front.length]? = some byte := by
    simpa using present.bytes front.length (by simp)
  rw [List.length_append, List.length_singleton] at measured
  exact ⟨memory.touch tok (front.length + 1 + 1), rfl,
    Confined.touch _ (by omega) (by simp; omega), measured, isLast⟩

theorem visitToken_close {front : CString} (noOpen : (front ++ [closeByte]).head? ≠ some openByte)
    (present : HasString memory.cells tok (front ++ [closeByte]))
    (settled : scanHolder.Settled memory.cells tok scan) :
    ∃ after, Confined tok (tok + (front ++ [closeByte]).length) memory after ∧
      VisitMatches scanHolder memory tok (front ++ [closeByte])
        (visitToken pattern tok scan memory) after
        (visitWord pattern (front ++ [closeByte]) (scanHolder.deref memory.cells scan)) := by
  rcases first_other present (by simp) noOpen with ⟨byte, first, byteOther⟩
  have inside := present.bound
  rw [List.length_append, List.length_singleton] at inside
  have presentRead : HasString (memory.touch tok 1).cells tok (front ++ [closeByte]) := present
  rcases look_last presentRead with ⟨looked, lookedCells, lookedConfined, length, last⟩
  have confined : Confined tok (tok + (front ++ [closeByte]).length) memory
      (looked.touch (tok + (front.length + 1) - 1) 1) :=
    ((Confined.touch _ (by omega) (by simp)).trans lookedConfined).trans
      (Confined.touch _ (by omega) (by simp))
  have isClose : (front ++ [closeByte]).getLast? = some closeByte := by simp
  have closesMap := closeBrace_map pattern (stringAt memory.cells) scan
  rw [visitWord, if_neg noOpen, if_pos isClose, List.dropLast_concat, visitToken,
    FaultM.run_bind (readCell_of_getElem? first), if_neg byteOther, FaultM.run_bind length,
    FaultM.run_bind (readCell_of_getElem? last), if_pos rfl]
  simp only [Holder.deref, scanHolder, closesMap]
  cases closed : pattern.closeBrace scan with
  | none => exact ⟨_, confined, rfl⟩
  | some scanClosed =>
      have samePointers := pointers_closeBrace closed
      simp only [Option.map_some, Nat.add_sub_cancel]
      by_cases someFront : front = []
      · subst someFront
        refine ⟨_, confined, scanClosed.advance, rfl, lookedCells, (advance_map _ _).symm, ?_⟩
        refine Holder.Settled.mono (settled_of_pointers settled ?_) (by omega)
        rw [pointers_advance, samePointers]
      · have someLength : front.length ≠ 0 := by simpa using someFront
        have insideLooked : tok + (front.length + 1) - 1 <
            (looked.touch (tok + (front.length + 1) - 1) 1).cells.length := by
          rw [Memory.touch_cells, lookedCells, Memory.touch_cells]
          omega
        rcases HasString.cut present with ⟨shorter, -⟩
        rcases (settled_of_pointers settled samePointers).frame
            (SameOutside.set memory.cells (tok + front.length) 0 (Nat.le_add_right tok _)
            (Nat.lt_succ_self _)) (Nat.le_refl _) with
          ⟨settledAfter, sameHeld⟩
        have cellsAfter : ((looked.touch (tok + (front.length + 1) - 1) 1).touch
            (tok + (front.length + 1) - 1) 1).cells = memory.cells := lookedCells
        rw [if_pos someFront, if_pos someLength, FaultM.run_bind (writeCell_of_lt 0 insideLooked)]
        refine ⟨_, (confined.trans (Confined.touch _ (by omega) (by simp))).trans
          (Confined.set _ 0 (by omega) (by simp)), tok, scanClosed, rfl, ?_⟩
        rw [cellsAfter]
        exact ⟨shorter, someFront, Nat.le_refl _, by simp, sameHeld, settledAfter⟩

theorem visitToken_name {front : CString} {last : Byte}
    (noOpen : (front ++ [last]).head? ≠ some openByte) (noClose : last ≠ closeByte)
    (present : HasString memory.cells tok (front ++ [last]))
    (settled : scanHolder.Settled memory.cells tok scan) :
    ∃ after, Confined tok (tok + (front ++ [last]).length) memory after ∧
      VisitMatches scanHolder memory tok (front ++ [last])
        (visitToken pattern tok scan memory) after
        (visitWord pattern (front ++ [last]) (scanHolder.deref memory.cells scan)) := by
  rcases first_other present (by simp) noOpen with ⟨byte, isByte, byteOther⟩
  have presentRead : HasString (memory.touch tok 1).cells tok (front ++ [last]) := present
  rcases look_last presentRead with ⟨looked, lookedCells, lookedConfined, length, isLast⟩
  have confined : Confined tok (tok + (front ++ [last]).length) memory
      ((looked.touch (tok + (front.length + 1) - 1) 1).touch tok 1) :=
    (((Confined.touch _ (by omega) (by simp)).trans lookedConfined).trans
      (Confined.touch _ (by omega) (by simp))).trans (Confined.touch _ (by omega) (by simp))
  have notClose : (front ++ [last]).getLast? ≠ some closeByte := by simpa using noClose
  have again : (looked.touch (tok + (front.length + 1) - 1) 1).cells[tok]? = some byte := by
    rw [Memory.touch_cells, lookedCells]
    exact isByte
  have sameName := operand_of_hasString present (by simp) isByte
  rw [visitWord, if_neg noOpen, if_neg notClose, sameName, visitToken,
    FaultM.run_bind (readCell_of_getElem? isByte), if_neg byteOther, FaultM.run_bind length,
    FaultM.run_bind (readCell_of_getElem? isLast), if_neg noClose,
    FaultM.run_bind (readCell_of_getElem? again)]
  simp only [Holder.deref, scanHolder, addName_map]
  cases added : pattern.addName (if byte = star then none else some tok) scan with
  | none => exact ⟨_, confined, rfl⟩
  | some scanAdded =>
      refine ⟨_, confined, scanAdded.advance, rfl, lookedCells, (advance_map _ _).symm, ?_⟩
      refine settled.add present fun pointer member => ?_
      have held : pointer ∈ scanAdded.pointers := by
        rw [← pointers_advance]
        exact member
      refine (pointers_addName added pointer held).imp_right fun new => ?_
      split at new
      · cases new
      · exact (Option.some.inj new).symm

end Follows

theorem bracketVisitor_follows (pattern : Pattern) :
    (bracketVisitor pattern).Follows scanHolder (visitWord pattern) := by
  intro memory tok word scan present someWord settled
  by_cases opens : word.head? = some openByte
  · rcases List.head?_eq_some_iff.mp opens with ⟨rest, rfl⟩
    exact visitToken_open present settled
  · rcases List.eq_nil_or_concat' word |>.resolve_left someWord with ⟨front, last, rfl⟩
    by_cases closes : last = closeByte
    · subst closes
      exact visitToken_close opens present settled
    · exact visitToken_name opens closes present settled

/-! ## The loops without brackets -/

def nameListHolder : Holder NameList where
  map := fun change names => names.map (Option.map change)
  pointers := List.reduceOption
  congr := map_option_congr

def visitType (word : CString) (classes : NameList CString) :
    Visit CString (NameList CString) :=
  .next (classes ++ [operand word])

theorem typesVisitor_follows : typesVisitor.Follows nameListHolder visitType := by
  intro memory tok word classes present someWord settled
  rcases List.exists_cons_of_ne_nil someWord with ⟨byte, rest, rfl⟩
  have isByte : memory.cells[tok]? = some byte := by
    simpa using present.bytes 0 (by simp)
  have visited : typesVisitor.visit tok classes memory =
      some (.next (classes ++ [if byte = star then none else some tok]), memory.touch tok 1) :=
    FaultM.run_bind (readCell_of_getElem? isByte)
  refine ⟨_, Confined.touch _ (by omega) (by simp), _, visited, rfl, ?_, ?_⟩
  · simp [Holder.deref, nameListHolder, operand_of_hasString present someWord isByte]
  · refine settled.add present fun pointer member => ?_
    simp only [nameListHolder, List.reduceOption_append, List.mem_append,
      List.reduceOption_mem_iff, List.mem_singleton] at member ⊢
    grind

def wordListHolder : Holder WordList where
  map := fun change words => words.map change
  pointers := id
  congr := fun same => List.map_congr_left same

def visitTransition (word : CString) (words : WordList CString) :
    Visit CString (WordList CString) :=
  if words.length ≤ 4 then .next (words ++ [word]) else .reject

theorem transitionVisitor_follows :
    transitionVisitor.Follows wordListHolder visitTransition := by
  intro memory tok word words present someWord settled
  refine ⟨memory, Confined.refl _ _ _, ?_⟩
  simp only [visitTransition, Holder.deref, wordListHolder, List.length_map, transitionVisitor]
  by_cases room : words.length ≤ 4
  · rw [if_pos room, if_pos room]
    refine ⟨_, rfl, rfl, by simp [Holder.deref, present.stringAt_eq], ?_⟩
    exact settled.add present fun pointer member => by
      simpa [wordListHolder] using member
  · rw [if_neg room, if_neg room]
    rfl

theorem reads_types (words : List CString) : ∀ classes : NameList CString,
    Reads visitType words classes (some (classes ++ words.map operand)) := by
  induction words with
  | nil =>
      intro classes
      rw [List.map_nil, List.append_nil]
      exact Reads.done classes
  | cons word words induction =>
      intro classes
      have rest := induction (classes ++ [operand word])
      rw [List.append_assoc] at rest
      exact Reads.next rfl rest

theorem reads_transition (words : List CString) : ∀ earlier : WordList CString,
    earlier.length ≤ 5 → Reads visitTransition words earlier
      (if earlier.length + words.length ≤ 5 then some (earlier ++ words) else none) := by
  induction words with
  | nil =>
      intro earlier fits
      rw [List.length_nil, Nat.add_zero, if_pos fits, List.append_nil]
      exact Reads.done earlier
  | cons word words induction =>
      intro earlier fits
      by_cases room : earlier.length ≤ 4
      · have visited : visitTransition word earlier = .next (earlier ++ [word]) := if_pos room
        have rest := induction (earlier ++ [word]) (by simp; omega)
        simp only [List.length_append, List.length_singleton, List.append_assoc,
          List.singleton_append] at rest
        rw [List.length_cons, show earlier.length + (words.length + 1) =
          earlier.length + 1 + words.length by omega]
        exact Reads.next visited rest
      · have visited : visitTransition word earlier = .reject := if_neg room
        rw [List.length_cons, if_neg (by omega)]
        exact Reads.reject visited

/-! ## The parsers -/

/-- On the statement `text`, wherever it lies, the parser returns `parsed` and
stays inside the statement. -/
def Parses (parse : Nat → MemM Parsed) (text : CString) (parsed : Parsed) : Prop :=
  ∀ (memory : Memory) (statement : Nat), HasString memory.cells statement text →
    ∃ after, parse statement memory = some (parsed, after) ∧
      Confined statement (statement + text.length) memory after

def words (text : CString) : List CString := tokens (· = space) text

def typeWords (text : CString) : List CString := tokens typesVisitor.delimiter text

def finishBracketed (pattern : Pattern) (perform : Scan CString → Parsed) :
    Option (Scan CString) → Parsed
  | none => (1, [])
  | some scan => if scan.state ≠ pattern.final then (1, []) else perform scan

theorem parseBracketed_parses {pattern : Pattern} (perform : Scan CString → Parsed)
    {text : CString} {outcome : Option (Scan CString)}
    (reads : Reads (visitWord pattern) (words text) Scan.start outcome) :
    Parses (parseBracketed pattern perform) text (finishBracketed pattern perform outcome) := by
  intro memory statement present
  have startReads : Reads (visitWord pattern) (tokens (bracketVisitor pattern).delimiter text)
      (scanHolder.deref memory.cells Scan.start) outcome := reads
  rcases scan_follows (bracketVisitor_follows pattern) rfl present rfl startReads with
    ⟨result, after, scanned, confined, rfl⟩
  refine ⟨after, ?_, confined⟩
  rw [parseBracketed, FaultM.run_bind scanned]
  cases result with
  | none => rfl
  | some scan =>
      have sameState : (scanHolder.deref after.cells scan).state = scan.state := rfl
      simp only [Option.map_some, finishBracketed, sameState]
      by_cases isFinal : scan.state = pattern.final
      · rw [if_neg (not_not.mpr isFinal), if_neg (not_not.mpr isFinal)]
        rfl
      · rw [if_pos isFinal, if_pos isFinal]
        rfl

theorem parsePattern3_parses {action : Nat} {kind : TypeAction}
    (isKind : typeAction action = some kind) (text : CString) :
    Parses (parsePattern3 action) text
      (0, (typeWords text).map fun word => .typeState kind (operand word)) := by
  intro memory statement present
  have reads : Reads visitType (tokens typesVisitor.delimiter text)
      (nameListHolder.deref memory.cells []) (some ((typeWords text).map operand)) :=
    reads_types (typeWords text) []
  rcases scan_follows typesVisitor_follows (by decide) present rfl reads with
    ⟨result, after, scanned, confined, isResult⟩
  rcases Option.map_eq_some_iff.mp isResult with ⟨pointers, rfl, isNames⟩
  have names : pointers.map (Option.map (stringAt after.cells)) =
      (typeWords text).map operand := isNames
  refine ⟨after, ?_, confined⟩
  rw [parsePattern3, FaultM.run_bind scanned, isKind]
  change some ((0, (pointers.map (Option.map (stringAt after.cells))).map _), after) = _
  rw [names, List.map_map]
  rfl

theorem performTypetrans_of_long {names : List CString} (long : 5 < names.length) :
    performTypetrans names = (1, []) := by
  unfold performTypetrans
  split
  · simp at long
  · simp at long
  · rfl

theorem parsePattern4_parses (action : Nat) (text : CString) :
    Parses (parsePattern4 action) text (performTypetrans (words text)) := by
  intro memory statement present
  rcases scan_follows transitionVisitor_follows (by decide) present rfl
      (reads_transition (words text) [] (by simp)) with
    ⟨result, after, scanned, confined, isResult⟩
  refine ⟨after, ?_, confined⟩
  rw [parsePattern4, FaultM.run_bind scanned]
  rw [List.length_nil, Nat.zero_add, List.nil_append] at isResult
  by_cases fits : (words text).length ≤ 5
  · rw [if_pos fits] at isResult
    rcases Option.map_eq_some_iff.mp isResult with ⟨pointers, rfl, isWords⟩
    rw [← isWords]
    rfl
  · rw [if_neg fits] at isResult
    rcases Option.map_eq_none_iff.mp isResult with rfl
    rw [performTypetrans_of_long (by omega)]
    rfl

end SuBinary.Magiskpolicy
